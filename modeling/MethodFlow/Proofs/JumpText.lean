import MethodFlow.Proofs.LabelledText
import MethodFlow.Proofs.RightSideText
import MethodFlow.Proofs.Meanings

/-!
The text of labels and jumps, and how a statement begins: a text that begins with no keyword is an
assignment, and neither of the two is a label.
-/

namespace MethodFlow

open Source Reader

section Labels

variable {l : Layout LabelRef} {t : Target} {n : Nat} {rest : List Char}

theorem labelName_toList (k : Nat) : (labelName k).toList = 'L' :: Nat.toDigits 10 k := by
  rw [labelName, String.toList_append, show toString k = k.repr from rfl, Nat.toList_repr]
  rfl

theorem isName_labelName (k : Nat) : IsName (labelName k).toList := by
  rw [labelName_toList]
  refine ⟨rfl, fun d hd => isNameChar_of_isDigit (isDigit_of_mem hd), ?_⟩
  rw [afterKeyword?_eq_none]
  intro k hk r h
  have hall : ∀ k ∈ keywords, k.toList.head?.any (· ≠ 'L') = true := by decide
  obtain ⟨d, hd, hne⟩ := (Option.any_eq_true _ _).mp (hall k hk)
  have hhead := congrArg List.head? h
  rw [List.head?_append, hd] at hhead
  cases hhead
  cases hne

/-- A layout in which the labels of `n` statements lead to them. -/
def Source.Layout.Resolves (l : Layout LabelRef) (n : Nat) : Prop :=
  ∀ k < n, ∀ p, l.resolve ⟨labelName k, p⟩ = .ok (.stmt k)

theorem Target.IsWithin.resolve (h : t.IsWithin n) (hl : l.Resolves n) {x : LabelRef}
    (hx : x.name = t.labelled) : l.resolve x = .ok t := by
  obtain ⟨k, hk, rfl⟩ := h
  obtain ⟨name, p⟩ := x
  cases hx
  exact hl k hk p

/-- The text of a jump, after what leads to it. -/
def Target.jumpText (t : Target) : List Char :=
  "goto".toList ++ ' ' :: (t.labelled.toList ++ [';'])

theorem Target.IsWithin.reads (h : t.IsWithin n) :
    ∃ j : JumpTo, String.ofList j.label = t.labelled ∧
      ∀ rest, jumpTo (t.jumpText ++ rest) = some (j, rest) := by
  obtain ⟨k, _, rfl⟩ := h
  refine ⟨⟨[.space ' '], (labelName k).toList, []⟩, String.ofList_toList, fun rest => ?_⟩
  have htext : Target.jumpText (.stmt k) ++ rest =
      "goto".toList ++ ' ' :: ((labelName k).toList ++ ';' :: rest) := by
    simp [Target.jumpText, Target.labelled]
  rw [htext]
  refine bind_of (exactly_append "goto" _) ?_
  refine bind_of (gap1_space (isName_labelName k).blank_append) ?_
  refine bind_of (name_append (isName_labelName k) rfl) ?_
  refine bind_of (gap_nil (blank_none rfl)) ?_
  exact bind_of (exactly_append ";" rest) rfl

theorem blank_jumpText : blank (t.jumpText ++ rest) = none := by
  simp only [Target.jumpText, List.append_assoc]
  exact blank_none rfl

end Labels

section Order

variable {cs : List Char}

theorem returnCommand_none (h : OpensFreely cs) : returnCommand cs = none := by
  refine h.keyword_none (by decide) (by decide) fun c z hc => ?_
  have hsolid : blank (c :: z) = none := blank_none (isSolid_of_isNameChar hc)
  have hsemi : c ≠ ';' := by
    rintro rfl
    cases hc
  refine (bind_of (optional_none (bind_none (gap1_none hsolid))) rfl).trans ?_
  exact (bind_of (gap_nil hsolid) rfl).trans (bind_none (exactly_none rfl hsemi))

theorem jumpTo_none (h : OpensFreely cs) : jumpTo cs = none :=
  h.keyword_none (by decide) (by decide) fun _ _ hc =>
    bind_none (gap1_none (blank_none (isSolid_of_isNameChar hc)))

/-- Behind a keyword, a mark is not read off what goes on with a name. -/
theorem gap_mark_none {α : Type} {f : Gap → Unit → Reader α} {m : String} {d c : Char}
    {z : List Char} (hm : m.toList.head? = some d) (hd : isNameChar d = false)
    (hc : isNameChar c = true) : (do let g ← gap; let u ← exactly m; f g u : Reader α) (c :: z) =
      none := by
  have hne : c ≠ d := by
    rintro rfl
    cases hc.symm.trans hd
  exact (bind_of (gap_nil (blank_none (isSolid_of_isNameChar hc))) rfl).trans
    (bind_none (exactly_none hm hne))

theorem branch_none (h : OpensFreely cs) : branch cs = none :=
  h.keyword_none (by decide) (by decide) fun _ _ hc => gap_mark_none rfl rfl hc

theorem switch_none (h : OpensFreely cs) : Reader.switch cs = none :=
  h.keyword_none (by decide) (by decide) fun _ _ hc => gap_mark_none rfl rfl hc

theorem nopCommand_none (h : OpensFreely cs) : nopCommand cs = none :=
  h.keyword_none (by decide) (by decide) fun _ _ hc => gap_mark_none rfl rfl hc

/-- A command that begins with no keyword is an assignment. -/
theorem command_apply (h : OpensFreely cs) : command cs = (Command.assign <$> assignment) cs :=
  (orElse_none (returnCommand_none h)).trans <|
    (orElse_none (map_none (jumpTo_none h))).trans <|
      (orElse_none (map_none (branch_none h))).trans <|
        (orElse_none (map_none (switch_none h))).trans <|
          (orElse_none (nopCommand_none h)).trans (orElse_none (bind_none (invocation_none h)))

end Order

section Starts

variable {s : Scope} {cs r rest : List Char} {x : List Char}

/-- The beginning of a statement is no blank and no label. -/
structure BeginsStatement (cs : List Char) : Prop where
  solid : blank cs = none
  unlabelled : Reader.label cs = none

theorem beginsStatement_keyword {k : String} (hk : k ∈ keywords) (hr : endsWord r = true) :
    BeginsStatement (k.toList ++ r) := by
  refine ⟨?_, bind_none (wordOf_keyword hk hr)⟩
  have hall : ∀ k ∈ keywords, k.toList.head?.any isSolid = true := by decide
  obtain ⟨d, hd, hsolid⟩ := (Option.any_eq_true _ _).mp (hall k hk)
  cases hz : k.toList with
  | nil => simp [hz] at hd
  | cons c z =>
    rw [hz] at hd
    cases hd
    exact blank_none hsolid

theorem beginsStatement_name {g : Gap} (hx : IsName x) (hrest : stops isNameChar rest = true)
    (hgap : gap rest = some (g, r)) (hr : exactly ":" r = none) : BeginsStatement (x ++ rest) :=
  ⟨hx.blank_append, (bind_of (name_append hx hrest) rfl).trans
    ((bind_of hgap rfl).trans (bind_none hr))⟩

/-- The text of a place in front of an assignment begins no other statement. -/
theorem Place.IsLegible.begins {q : Place} (h : q.IsLegible s) (rest : List Char) :
    OpensFreely (q.toExpr.text.toList ++ ' ' :: '=' :: rest) ∧
      BeginsStatement (q.toExpr.text.toList ++ ' ' :: '=' :: rest) := by
  have hgap : gap (' ' :: '=' :: rest) = some ([.space ' '], '=' :: rest) :=
    gap_space (blank_none rfl)
  cases q with
  | var v => exact ⟨h.isName.opensFreely rfl, beginsStatement_name h.isName rfl hgap rfl⟩
  | field b f =>
    obtain ⟨⟨v, rfl, hv⟩, hf⟩ := h
    rw [Place.toExpr, Expr.field_append]
    exact ⟨hv.isName.opensFreely rfl,
      beginsStatement_name hv.isName rfl (gap_nil (blank_none rfl)) rfl⟩
  | static c f =>
    obtain ⟨hc, hname, hf⟩ := h
    rw [Place.toExpr, Expr.static_append]
    exact ⟨hname.opensFreely rfl, beginsStatement_name hname rfl (gap_nil (blank_none rfl)) rfl⟩
  | element b i =>
    obtain ⟨⟨v, rfl, hv⟩, hi⟩ := h
    rw [Place.toExpr, Expr.element_append]
    exact ⟨hv.isName.opensFreely rfl,
      beginsStatement_name hv.isName rfl (gap_nil (blank_none rfl)) rfl⟩

end Starts

end MethodFlow
