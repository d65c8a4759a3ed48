import MethodFlow.Proofs.AtomText

/-!
Lexemes: blanks and comments, string literals, and single characters. Programs are read in whole
lexemes, and where a lexeme ends hangs on nothing but the character behind it.
-/

namespace MethodFlow.Source

inductive Lexeme
  | blank (b : Blank)
  | string (pieces : List Piece)
  | char (c : Char)

def Lexeme.text : Lexeme → List Char
  | blank b => b.text
  | string ps => '"' :: ps.flatMap Piece.text ++ ['"']
  | char c => [c]

theorem Lexeme.text_ne_nil (l : Lexeme) : l.text ≠ [] := by
  cases l with
  | blank b => cases b <;> exact List.cons_ne_nil _ _
  | string ps => exact List.cons_ne_nil _ _
  | char c => exact List.cons_ne_nil _ _

def textOf (ls : List Lexeme) : List Char :=
  ls.flatMap Lexeme.text

/-- The characters that a lexeme can have behind it: a comment ends with its line, and a slash
begins no comment. -/
def Lexeme.Admits (next : Option Char) : Lexeme → Prop
  | blank (.line _) => ∀ c ∈ next, c = '\n'
  | char c => c = '/' → next ≠ some '/' ∧ next ≠ some '*'
  | _ => True

namespace Reader

/-- Comments and string literals that are not closed are no lexemes. -/
def lexeme : Reader Lexeme :=
  (.blank <$> blank) <|> (.string <$> stringLiteral) <|> do
    ahead fun cs => (exactly "/*" cs).isNone
    return .char (← satisfying (· ≠ '"'))

def lexemes : Reader (List Lexeme) :=
  many lexeme

section Blanks

variable {cs r : List Char}

theorem cutClose_eq_some {x : List Char} (h : cutClose cs = some (x, r)) :
    cs = x ++ '*' :: '/' :: r ∧ ∀ r', cutClose (x ++ '*' :: '/' :: r') = some (x, r') := by
  fun_induction cutClose cs generalizing x with
  | case1 => cases h
  | case2 z =>
    cases h
    exact ⟨rfl, fun r' => rfl⟩
  | case3 c z hc ih =>
    obtain ⟨y, hy, hx⟩ := Option.map_eq_some_iff.mp h
    cases hx
    obtain ⟨rfl, hread⟩ := ih hy
    refine ⟨rfl, fun r' => ?_⟩
    have hopen : ∀ w, c = '*' → y.1 ++ '*' :: '/' :: r' = '/' :: w → False := by
      intro w hstar hw
      cases hy' : y.1 with
      | nil =>
        rw [hy'] at hw
        cases hw
      | cons d y' =>
        rw [hy', List.cons_append] at hw
        cases hw
        exact hc _ hstar (by rw [hy', List.cons_append])
    rw [List.cons_append, cutClose, hread r']
    · rfl
    · exact hopen

/-- A line comment is all of its line, and is read off any text in which its line ends with it. -/
theorem lineComment_eq_some {b : Blank} (h : lineComment cs = some (b, r)) :
    ∃ x, b = .line x ∧ cs = b.text ++ r ∧ (Lexeme.blank b).Admits r.head? ∧
      ∀ r', (Lexeme.blank b).Admits r'.head? → lineComment (b.text ++ r') = some (b, r') := by
  obtain ⟨_, z, hz, h⟩ := bind_eq_some.mp h
  obtain ⟨x, w, hx, h⟩ := bind_eq_some.mp h
  cases h
  cases exactly_eq_some.mp hz
  obtain ⟨rfl, hall, hstop⟩ := span_eq_some hx
  refine ⟨x, rfl, rfl, fun c hc => ?_, fun r' hr' => ?_⟩
  · cases r with
    | nil => cases hc
    | cons d r =>
      cases hc
      simpa [stops] using hstop
  · have hstop' : stops (fun c => decide (c ≠ '\n')) r' = true := by
      cases r' with
      | nil => rfl
      | cons d r' => simpa [stops] using hr' d rfl
    exact bind_of (exactly_append "//" _) (bind_of (span_append hall hstop') rfl)

theorem blockComment_eq_some {b : Blank} (h : blockComment cs = some (b, r)) :
    ∃ x, b = .block x ∧ cs = b.text ++ r ∧ ∀ r', blockComment (b.text ++ r') = some (b, r') := by
  obtain ⟨_, z, hz, h⟩ := bind_eq_some.mp h
  obtain ⟨x, w, hx, h⟩ := bind_eq_some.mp h
  cases h
  cases exactly_eq_some.mp hz
  obtain ⟨rfl, hread⟩ := cutClose_eq_some hx
  have htext : ∀ r', (Blank.block x).text ++ r' = "/*".toList ++ (x ++ '*' :: '/' :: r') := by
    simp [Blank.text]
  refine ⟨x, rfl, (htext r).symm, fun r' => ?_⟩
  rw [htext]
  exact bind_of (exactly_append "/*" _) (bind_of (hread r') rfl)

/-- A blank is read off any text that begins with it and goes on as it can. -/
theorem blank_eq_some {b : Blank} (h : blank cs = some (b, r)) :
    cs = b.text ++ r ∧ (Lexeme.blank b).Admits r.head? ∧
      ∀ r', (Lexeme.blank b).Admits r'.head? → blank (b.text ++ r') = some (b, r') := by
  have hslash : ∀ w, (Blank.space <$> satisfying Text.isBlank : Reader Blank) ('/' :: w) = none :=
    fun w => map_none (satisfying_none rfl)
  rcases orElse_eq_some.mp h with h | ⟨_, h⟩
  · obtain ⟨c, hc, rfl⟩ := map_eq_some.mp h
    obtain ⟨rfl, hblank⟩ := satisfying_eq_some.mp hc
    exact ⟨rfl, trivial, fun r' _ => orElse_some (map_some (satisfying_some hblank))⟩
  · rcases orElse_eq_some.mp h with h | ⟨_, h⟩
    · obtain ⟨x, rfl, htext, hadmits, hread⟩ := lineComment_eq_some h
      refine ⟨htext, hadmits, fun r' hr' => ?_⟩
      exact (orElse_none (hslash _)).trans (orElse_some (hread r' hr'))
    · obtain ⟨x, rfl, htext, hread⟩ := blockComment_eq_some h
      refine ⟨htext, trivial, fun r' _ => ?_⟩
      exact (orElse_none (hslash _)).trans ((orElse_none (bind_none rfl)).trans (hread r'))

end Blanks

section Strings

variable {cs r : List Char}

/-- A piece of a string literal is read off any text that begins with it. -/
theorem piece_eq_some {x : Piece} (h : piece cs = some (x, r)) :
    cs = x.text ++ r ∧ ∀ r', piece (x.text ++ r') = some (x, r') := by
  rcases orElse_eq_some.mp h with h | ⟨_, h⟩
  · obtain ⟨c, hc, rfl⟩ := map_eq_some.mp h
    obtain ⟨rfl, hplain⟩ := satisfying_eq_some.mp hc
    exact ⟨rfl, fun r' => orElse_some (map_some (satisfying_some hplain))⟩
  · obtain ⟨_, z, hz, h⟩ := bind_eq_some.mp h
    obtain ⟨c, w, hc, h⟩ := bind_eq_some.mp h
    cases h
    cases exactly_eq_some.mp hz
    obtain ⟨rfl, hline⟩ := satisfying_eq_some.mp hc
    refine ⟨rfl, fun r' => (orElse_none (map_none (satisfying_none rfl))).trans ?_⟩
    exact bind_of (exactly_append "\\" _) (bind_of (satisfying_some hline) rfl)

theorem consumes_piece : Consumes piece := by
  intro cs x r h
  rw [(piece_eq_some h).1]
  cases x <;> simp [Piece.text]

theorem run_piece {ps : List Piece} (h : Run piece cs ps ('"' :: r)) :
    cs = ps.flatMap Piece.text ++ '"' :: r ∧
      ∀ r', Run piece (ps.flatMap Piece.text ++ '"' :: r') ps ('"' :: r') := by
  generalize hrest : '"' :: r = rest at h
  induction h with
  | stop h =>
    subst hrest
    exact ⟨rfl, fun r' => .stop rfl⟩
  | step h _ _ ih =>
    obtain ⟨rfl, hread⟩ := piece_eq_some h
    obtain ⟨rfl, hrun⟩ := ih hrest
    refine ⟨by rw [List.flatMap_cons, List.append_assoc], fun r' => ?_⟩
    rw [List.flatMap_cons, List.append_assoc]
    exact .step (hread _) (consumes_piece _ _ _ (hread _)) (hrun r')

/-- A string literal is read off any text that begins with it. -/
theorem stringLiteral_eq_some {ps : List Piece} (h : stringLiteral cs = some (ps, r)) :
    cs = (Lexeme.string ps).text ++ r ∧
      ∀ r', stringLiteral ((Lexeme.string ps).text ++ r') = some (ps, r') := by
  obtain ⟨_, z, hz, h⟩ := bind_eq_some.mp h
  obtain ⟨qs, w, hqs, h⟩ := bind_eq_some.mp h
  obtain ⟨_, v, hv, h⟩ := bind_eq_some.mp h
  cases h
  cases exactly_eq_some.mp hz
  cases exactly_eq_some.mp hv
  obtain ⟨rfl, hrun⟩ := run_piece ((many_eq_some consumes_piece).mp hqs)
  have htext : ∀ r', (Lexeme.string ps).text ++ r' =
      "\"".toList ++ (ps.flatMap Piece.text ++ '"' :: r') := by simp [Lexeme.text]
  refine ⟨(htext r).symm, fun r' => ?_⟩
  rw [htext]
  refine bind_of (exactly_append "\"" _) (bind_of (hrun r').many ?_)
  exact bind_of (exactly_append "\"" r') rfl

end Strings

section Kinds

variable {cs r : List Char} {c : Char} {l : Lexeme}

/-- Whether a character is a lexeme wherever a lexeme begins with it. -/
def isLone (c : Char) : Bool :=
  isSolid c && c != '"'

theorem lexeme_of_blank {b : Blank} (h : blank cs = some (b, r)) :
    lexeme cs = some (.blank b, r) :=
  orElse_some (map_some h)

theorem lexeme_of_string {ps : List Piece} (h : stringLiteral cs = some (ps, r)) :
    lexeme cs = some (.string ps, r) := by
  have hblank : blank cs = none := by
    rw [(stringLiteral_eq_some h).1]
    exact blank_none rfl
  exact (orElse_none (map_none hblank)).trans (orElse_some (map_some h))

theorem lexeme_of_quiet (hblank : blank (c :: r) = none) (hquote : c ≠ '"')
    (hopen : exactly "/*" (c :: r) = none) : lexeme (c :: r) = some (.char c, r) := by
  refine (orElse_none (map_none hblank)).trans ?_
  refine (orElse_none (map_none (stringLiteral_none hquote))).trans ?_
  have hahead : ahead (fun cs => (exactly "/*" cs).isNone) (c :: r) = some ((), c :: r) := by
    rw [ahead, hopen]
    rfl
  exact bind_of hahead (bind_of (satisfying_some (decide_eq_true hquote)) rfl)

theorem lexeme_of_isLone (h : isLone c = true) : lexeme (c :: r) = some (.char c, r) := by
  rw [isLone, Bool.and_eq_true, bne_iff_ne] at h
  refine lexeme_of_quiet (blank_none h.1) h.2 (exactly_none rfl ?_)
  rintro rfl
  cases h.1

theorem exactly_slash_none {d : Char} (h : r.head? ≠ some d) {s : String}
    (hs : s.toList = ['/', d]) : exactly s ('/' :: r) = none := by
  rw [Option.eq_none_iff_forall_ne_some]
  intro x hx
  have heq := exactly_eq_some.mp hx
  rw [hs, List.cons_append, List.cons_append] at heq
  cases heq
  exact h rfl

theorem blank_slash (h : r.head? ≠ some '/' ∧ r.head? ≠ some '*') : blank ('/' :: r) = none :=
  (orElse_none (map_none (satisfying_none rfl))).trans <|
    (orElse_none (bind_none (exactly_slash_none h.1 rfl))).trans
      (bind_none (exactly_slash_none h.2 rfl))

theorem lexeme_of_slash (h : r.head? ≠ some '/' ∧ r.head? ≠ some '*') :
    lexeme ('/' :: r) = some (.char '/', r) :=
  lexeme_of_quiet (blank_slash h) (by decide) (exactly_slash_none h.2 rfl)

/-- No comment begins with a slash that stands in front of nothing blank. -/
theorem head_of_blank_slash (h : blank ('/' :: r) = none) : r.head? ≠ some '/' := by
  intro hr
  obtain ⟨z, rfl⟩ : ∃ z, r = '/' :: z := by
    cases r with
    | nil => cases hr
    | cons d z =>
      cases hr
      exact ⟨z, rfl⟩
  have hline : lineComment ('/' :: '/' :: z) = some (.line (z.takeWhile (· ≠ '\n')),
      z.dropWhile (· ≠ '\n')) := bind_of (exactly_append "//" z) rfl
  have hcomment : blank ('/' :: '/' :: z) = _ :=
    (orElse_none (map_none (satisfying_none rfl))).trans (orElse_some hline)
  cases h.symm.trans hcomment

/-- A lexeme is read off any text that begins with it and goes on as it can. -/
theorem lexeme_eq_some (h : lexeme cs = some (l, r)) :
    cs = l.text ++ r ∧ l.Admits r.head? ∧
      ∀ r', l.Admits r'.head? → lexeme (l.text ++ r') = some (l, r') := by
  rcases orElse_eq_some.mp h with h | ⟨hblank, h⟩
  · obtain ⟨b, hb, rfl⟩ := map_eq_some.mp h
    obtain ⟨htext, hadmits, hread⟩ := blank_eq_some hb
    exact ⟨htext, hadmits, fun r' hr' => lexeme_of_blank (hread r' hr')⟩
  rcases orElse_eq_some.mp h with h | ⟨-, h⟩
  · obtain ⟨ps, hps, rfl⟩ := map_eq_some.mp h
    obtain ⟨htext, hread⟩ := stringLiteral_eq_some hps
    exact ⟨htext, trivial, fun r' _ => lexeme_of_string (hread r')⟩
  obtain ⟨_, z, hz, h⟩ := bind_eq_some.mp h
  obtain ⟨c, w, hc, h⟩ := bind_eq_some.mp h
  cases h
  rw [ahead, Option.ite_none_right_eq_some] at hz
  obtain ⟨hopen, hz⟩ := hz
  cases hz
  obtain ⟨rfl, hquote⟩ := satisfying_eq_some.mp hc
  rw [map_eq_none] at hblank
  rw [Option.isNone_iff_eq_none] at hopen
  have hquote : c ≠ '"' := of_decide_eq_true hquote
  have hadmits : c = '/' → r.head? ≠ some '/' ∧ r.head? ≠ some '*' := by
    rintro rfl
    refine ⟨head_of_blank_slash hblank, fun hr => ?_⟩
    cases r with
    | nil => cases hr
    | cons d r =>
      cases hr
      cases hopen
  refine ⟨rfl, hadmits, fun r' hr' => ?_⟩
  by_cases hslash : c = '/'
  · subst hslash
    exact lexeme_of_slash (hr' rfl)
  · refine lexeme_of_isLone ?_
    have hspace : Text.isBlank c = false := by
      rw [← Bool.not_eq_true]
      intro hc
      cases hblank.symm.trans (orElse_some (map_some (satisfying_some hc)))
    simp [isLone, isSolid, hspace, hslash, hquote]

theorem consumes_lexeme : Consumes lexeme := by
  intro cs l r h
  rw [(lexeme_eq_some h).1, List.length_append]
  have hpos := List.length_pos_iff.mpr l.text_ne_nil
  omega

theorem blank_of_lexeme {b : Blank} (h : lexeme cs = some (.blank b, r)) :
    blank cs = some (b, r) := by
  rcases orElse_eq_some.mp h with h | ⟨-, h⟩
  · obtain ⟨_, hb, heq⟩ := map_eq_some.mp h
    cases heq
    exact hb
  · rcases orElse_eq_some.mp h with h | ⟨-, h⟩
    · obtain ⟨_, _, heq⟩ := map_eq_some.mp h
      cases heq
    · obtain ⟨_, _, _, h⟩ := bind_eq_some.mp h
      obtain ⟨_, _, _, h⟩ := bind_eq_some.mp h
      cases h

theorem string_of_lexeme {ps : List Piece} (h : lexeme cs = some (.string ps, r)) :
    stringLiteral cs = some (ps, r) := by
  rcases orElse_eq_some.mp h with h | ⟨-, h⟩
  · obtain ⟨_, _, heq⟩ := map_eq_some.mp h
    cases heq
  · rcases orElse_eq_some.mp h with h | ⟨-, h⟩
    · obtain ⟨_, hps, heq⟩ := map_eq_some.mp h
      cases heq
      exact hps
    · obtain ⟨_, _, _, h⟩ := bind_eq_some.mp h
      obtain ⟨_, _, _, h⟩ := bind_eq_some.mp h
      cases h

end Kinds

section Scanning

variable {cs r rest : List Char} {l : Lexeme} {ls ls' : List Lexeme}

/-- A text begins with lexemes, and goes on with the rest. -/
inductive Scans : List Char → List Lexeme → List Char → Prop
  | nil (cs : List Char) : Scans cs [] cs
  | cons {cs r rest : List Char} {l : Lexeme} {ls : List Lexeme} (h : lexeme cs = some (l, r))
      (hr : Scans r ls rest) : Scans cs (l :: ls) rest

theorem Scans.append (h : Scans cs ls r) (h' : Scans r ls' rest) : Scans cs (ls ++ ls') rest := by
  induction h with
  | nil => exact h'
  | cons hl _ ih => exact .cons hl (ih h')

theorem Scans.split (h : Scans cs (ls ++ ls') rest) : ∃ r, Scans cs ls r ∧ Scans r ls' rest := by
  induction ls generalizing cs with
  | nil => exact ⟨cs, .nil cs, h⟩
  | cons l ls ih =>
    cases h with
    | cons hl h =>
      obtain ⟨r, hls, hls'⟩ := ih h
      exact ⟨r, .cons hl hls, hls'⟩

theorem Scans.text (h : Scans cs ls rest) : cs = textOf ls ++ rest := by
  induction h with
  | nil => rfl
  | cons hl _ ih =>
    rw [textOf, List.flatMap_cons, List.append_assoc, ← textOf, ← ih]
    exact (lexeme_eq_some hl).1

theorem head?_append_of_ne_nil {x y z : List Char} (h : x ≠ []) :
    (x ++ y).head? = (x ++ z).head? := by
  cases x with
  | nil => exact absurd rfl h
  | cons c x => rfl

/-- Lexemes are scanned in front of any text that they admit. -/
theorem Scans.retarget {rest' : List Char} (h : Scans cs ls rest)
    (hrest : ∀ l : Lexeme, l.Admits rest.head? → l.Admits rest'.head?) :
    Scans (textOf ls ++ rest') ls rest' := by
  induction h with
  | nil => exact .nil rest'
  | @cons cs r rest l ls hl hr ih =>
    obtain ⟨-, hadmits, hread⟩ := lexeme_eq_some hl
    have htext : textOf (l :: ls) ++ rest' = l.text ++ (textOf ls ++ rest') := by
      rw [textOf, List.flatMap_cons, List.append_assoc, textOf]
    rw [htext]
    refine .cons (hread _ ?_) (ih hrest)
    rw [hr.text] at hadmits
    cases ls with
    | nil => exact hrest l hadmits
    | cons k ks =>
      have hne : textOf (k :: ks) ≠ [] := fun h => k.text_ne_nil (List.append_eq_nil_iff.mp h).1
      rwa [head?_append_of_ne_nil hne]

theorem scans_chars {x : List Char} (h : ∀ c ∈ x, isLone c = true) (r : List Char) :
    Scans (x ++ r) (x.map .char) r := by
  induction x with
  | nil => exact .nil r
  | cons c x ih =>
    obtain ⟨hc, hx⟩ := List.forall_mem_cons.mp h
    exact .cons (lexeme_of_isLone hc) (ih hx)

theorem scans_gap {g : Gap} (h : Run blank cs g r) : Scans cs (g.map .blank) r := by
  induction h with
  | stop => exact .nil _
  | step h _ _ ih => exact .cons (lexeme_of_blank h) ih

theorem scans_of_run (h : Run lexeme cs ls rest) : Scans cs ls rest := by
  induction h with
  | stop => exact .nil _
  | step h _ _ ih => exact .cons h ih

theorem Scans.run (h : Scans cs ls []) : Run lexeme cs ls [] := by
  generalize hrest : [] = rest at h
  induction h with
  | nil cs =>
    subst hrest
    exact .stop rfl
  | cons hl _ ih => exact .step hl (consumes_lexeme _ _ _ hl) (ih hrest)

/-- A text is the text of lexemes when it is scanned to its end. -/
theorem lexemes_eq_some : lexemes cs = some (ls, []) ↔ Scans cs ls [] :=
  (many_eq_some consumes_lexeme).trans ⟨scans_of_run, Scans.run⟩

end Scanning

end Reader

end MethodFlow.Source
