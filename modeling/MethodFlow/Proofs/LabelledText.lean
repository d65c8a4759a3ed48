import MethodFlow.Proofs.AtomText

/-!
Statements as a program writes them: the text of a statement with labels in place of its targets.
-/

namespace MethodFlow

/-- The label of the statement at an index. -/
def labelName (k : Nat) : String :=
  "L" ++ toString k

/-- A target as a program names it. -/
def Target.labelled : Target → String
  | stmt k => labelName k
  | t => t.render

namespace Instr

variable (target : Target → String)

section Blanks

variable {r : List Char}

theorem halveBlanks_cons {c : Char} (h : ¬ (c = ' ' ∧ r.head? = some ' ')) :
    halveBlanks (c :: r) = c :: halveBlanks r := by
  cases r with
  | nil => simp [halveBlanks]
  | cons d r =>
    rw [halveBlanks]
    rintro z rfl hz
    cases hz
    exact h ⟨rfl, rfl⟩

theorem halveBlanks_append {w : List Char} (hw : ' ' ∉ w) :
    halveBlanks (w ++ r) = w ++ halveBlanks r := by
  induction w with
  | nil => rfl
  | cons c w ih =>
    have hc : c ≠ ' ' := fun h => hw (h ▸ List.mem_cons_self)
    rw [List.cons_append, halveBlanks_cons (fun h => hc h.1),
      ih fun h => hw (List.mem_cons_of_mem c h), List.cons_append]

/-- Words with a blank behind each of them. -/
def spacedText (ws : List (List Char)) : List Char :=
  ws.flatMap fun w => w ++ [' ']

theorem spacedText_cons (w : List Char) (ws : List (List Char)) :
    spacedText (w :: ws) = w ++ ' ' :: spacedText ws := by
  simp [spacedText]

theorem spacedText_append (ws ws' : List (List Char)) :
    spacedText (ws ++ ws') = spacedText ws ++ spacedText ws' :=
  List.flatMap_append

/-- Where single blanks stand between words, nothing is replaced. -/
theorem halveBlanks_spacedText {ws : List (List Char)} (h : ∀ w ∈ ws, w ≠ [] ∧ ' ' ∉ w)
    (hr : r.head? ≠ some ' ') :
    halveBlanks (spacedText ws ++ r) = spacedText ws ++ halveBlanks r := by
  induction ws with
  | nil => rfl
  | cons w ws ih =>
    have hnext : (spacedText ws ++ r).head? ≠ some ' ' := by
      cases ws with
      | nil => exact hr
      | cons x ws =>
        obtain ⟨hne, hx⟩ := h x (by simp)
        obtain ⟨c, x, rfl⟩ := List.exists_cons_of_ne_nil hne
        rw [spacedText_cons]
        rintro ⟨⟩
        exact hx List.mem_cons_self
    rw [spacedText_cons, List.append_assoc, List.cons_append, halveBlanks_append
      (h w List.mem_cons_self).2, halveBlanks_cons (fun hc => hnext hc.2),
      ih fun x hx => h x (List.mem_cons_of_mem w hx), List.append_assoc, List.cons_append]

end Blanks

section Switches

variable (v : Var) (cases : List (Int × Target)) (d : Target)

/-- The words in front of the cases of a switch. -/
def headWords : List (List Char) :=
  ["switch".toList, '(' :: v.name.toList ++ [')'], ['\x7b']]

/-- The words of a case. -/
def caseWords (c : Int × Target) : List (List Char) :=
  ["case".toList, (toString c.1).toList ++ [':'], "goto".toList, (target c.2).toList ++ [';']]

/-- The words of the default of a switch. -/
def defaultWords : List (List Char) :=
  ["default:".toList, "goto".toList, (target d).toList ++ [';']]

/-- The words of a switch, but for its closing brace. -/
def switchWords : List (List Char) :=
  headWords v ++ cases.flatMap (caseWords target) ++ defaultWords target d

theorem caseText_toList (c : Int × Target) :
    (caseText target c).toList ++ [' '] = spacedText (caseWords target c) := by
  simp [caseText, caseWords, spacedText]

theorem intercalate_cases (c : Int × Target) (cs : List (Int × Target)) :
    (" ".intercalate ((c :: cs).map (caseText target))).toList ++ [' '] =
      spacedText ((c :: cs).flatMap (caseWords target)) := by
  rw [String.toList_intercalate]
  induction cs generalizing c with
  | nil => simp [← caseText_toList]
  | cons c' cs ih =>
    have hhead := caseText_toList target c
    have htail := ih c'
    rw [List.flatMap_cons, spacedText_append, ← hhead, ← htail]
    simp [List.intercalate_cons_cons]

theorem blank_notMem_toString (n : Int) : ' ' ∉ (toString n).toList := by
  intro h
  rcases Source.mem_toString h with h | h <;> cases h

theorem blank_notMem_labelled (t : Target) : ' ' ∉ t.labelled.toList := by
  cases t with
  | unresolved => decide
  | stmt k =>
    rw [Target.labelled, labelName, String.toList_append, List.mem_append, not_or]
    exact ⟨by decide, blank_notMem_toString k⟩
  | foreign k => exact show ' ' ∉ "@-1".toList by decide

theorem headWords_spec {v : Var} (hv : ' ' ∉ v.name.toList) {w : List Char}
    (hw : w ∈ headWords v) : w ≠ [] ∧ ' ' ∉ w := by
  simp only [headWords, List.mem_cons, List.not_mem_nil, or_false] at hw
  rcases hw with rfl | rfl | rfl
  · decide
  · exact ⟨by simp, by simpa using hv⟩
  · decide

theorem caseWords_spec {c : Int × Target} {w : List Char}
    (hw : w ∈ caseWords Target.labelled c) : w ≠ [] ∧ ' ' ∉ w := by
  simp only [caseWords, List.mem_cons, List.not_mem_nil, or_false] at hw
  rcases hw with rfl | rfl | rfl | rfl
  · decide
  · exact ⟨by simp, by simpa using blank_notMem_toString c.1⟩
  · decide
  · exact ⟨by simp, by simpa using blank_notMem_labelled c.2⟩

theorem defaultWords_spec {w : List Char} (hw : w ∈ defaultWords Target.labelled d) :
    w ≠ [] ∧ ' ' ∉ w := by
  simp only [defaultWords, List.mem_cons, List.not_mem_nil, or_false] at hw
  rcases hw with rfl | rfl | rfl
  · decide
  · decide
  · exact ⟨by simp, by simpa using blank_notMem_labelled d⟩

theorem switchWords_spec (hv : ' ' ∉ v.name.toList) {w : List Char}
    (hw : w ∈ switchWords Target.labelled v cases d) : w ≠ [] ∧ ' ' ∉ w := by
  rcases List.mem_append.mp hw with hw | hw
  · rcases List.mem_append.mp hw with hw | hw
    · exact headWords_spec hv hw
    · obtain ⟨c, _, hw⟩ := List.mem_flatMap.mp hw
      exact caseWords_spec hw
  · exact defaultWords_spec d hw

theorem defaultText_toList : (" default: goto " ++ target d ++ "; \x7d").toList =
    ' ' :: (spacedText (defaultWords target d) ++ ['\x7d']) := by
  simp [defaultWords, spacedText]

/-- A switch that has cases is written with single blanks already. -/
theorem switchText_cons (c : Int × Target) (cs : List (Int × Target)) :
    (switchText target v (c :: cs) d).toList =
      spacedText (switchWords target v (c :: cs) d) ++ ['\x7d'] := by
  have hparts : (switchText target v (c :: cs) d).toList = spacedText (headWords v) ++
      ((" ".intercalate ((c :: cs).map (caseText target))).toList ++
        (" default: goto " ++ target d ++ "; \x7d").toList) := by
    simp [switchText, headWords, spacedText]
  rw [hparts, defaultText_toList, switchWords, spacedText_append, spacedText_append,
    ← intercalate_cases]
  simp only [List.append_assoc, List.cons_append, List.nil_append]

/-- Without cases there are two blanks in front of the default. -/
theorem switchText_nil : (switchText target v [] d).toList =
    spacedText ["switch".toList, '(' :: v.name.toList ++ [')']] ++
      '\x7b' :: ' ' :: ' ' :: (spacedText (defaultWords target d) ++ ['\x7d']) := by
  rw [← defaultText_toList]
  simp [switchText, spacedText]

/-- The text of a switch is its words with single blanks between them. -/
theorem halveBlanks_switchText (hv : ' ' ∉ v.name.toList) :
    halveBlanks (switchText Target.labelled v cases d).toList =
      spacedText (switchWords Target.labelled v cases d) ++ ['\x7d'] := by
  have hlast : halveBlanks ['\x7d'] = ['\x7d'] := rfl
  cases cases with
  | nil =>
    have hhead : ∀ w ∈ ["switch".toList, '(' :: v.name.toList ++ [')']], w ≠ [] ∧ ' ' ∉ w :=
      fun w hw => headWords_spec hv (List.mem_append_left [['\x7b']] hw)
    have hdouble : ∀ r, halveBlanks ('\x7b' :: ' ' :: ' ' :: r) = '\x7b' :: ' ' :: halveBlanks r :=
      fun r => rfl
    rw [switchText_nil, halveBlanks_spacedText hhead (by simp), hdouble,
      halveBlanks_spacedText (fun w => defaultWords_spec d) (by simp), hlast]
    simp [switchWords, headWords, spacedText]
  | cons c cs =>
    rw [switchText_cons, halveBlanks_spacedText (fun w => switchWords_spec v _ d hv) (by simp),
      hlast]

end Switches

end Instr

end MethodFlow
