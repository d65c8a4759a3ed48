import MethodFlow.Proofs.PhraseText
import MethodFlow.Proofs.Tokens

/-!
What a reader takes off the front of a text are the lexemes of the value that it reads.
-/

namespace MethodFlow.Source.Reader

variable {α β : Type} {p q : Reader α} {f : α → Reader β} {g : α → β} {before : List Lexeme}
  {t : α → List Token} {u : β → List Token} {s : String}

/-- What a reader takes off completes the lexemes of its value, some of which stand before it. -/
def Spells (before : List Lexeme) (p : Reader α) (t : α → List Token) : Prop :=
  ∀ cs a r, p cs = some (a, r) → ∃ ls, lexemesOf (t a) = before ++ ls ∧ Scans cs ls r

section Laws

theorem Spells.scans (h : Spells [] p t) {cs r : List Char} {a : α} (ha : p cs = some (a, r)) :
    Scans cs (lexemesOf (t a)) r := by
  obtain ⟨ls, hls, hscans⟩ := h cs a r ha
  rwa [hls]

/-- In particular it is the text of the value. -/
theorem Spells.text (h : Spells [] p t) {cs r : List Char} {a : α} (ha : p cs = some (a, r)) :
    cs = spelling (t a) ++ r :=
  (h.scans ha).text

theorem spells_pure {b : β} (h : lexemesOf (u b) = before) : Spells before (pure b) u := by
  intro cs b' r hb
  cases hb
  exact ⟨[], by rw [h, List.append_nil], .nil cs⟩

theorem Spells.bind (hp : Spells [] p t) (hf : ∀ a, Spells (before ++ lexemesOf (t a)) (f a) u) :
    Spells before (p >>= f) u := by
  intro cs b r h
  obtain ⟨a, z, ha, hb⟩ := bind_eq_some.mp h
  obtain ⟨ls, hls, hscans⟩ := hf a z b r hb
  exact ⟨lexemesOf (t a) ++ ls, by rw [hls, List.append_assoc], (hp.scans ha).append hscans⟩

theorem Spells.map (h : Spells before p fun a => u (g a)) : Spells before (g <$> p) u := by
  intro cs b r hb
  obtain ⟨a, ha, rfl⟩ := map_eq_some.mp hb
  exact h cs a r ha

theorem Spells.orElse (hp : Spells before p t) (hq : Spells before q t) :
    Spells before (p <|> q) t := by
  intro cs a r h
  rcases orElse_eq_some.mp h with h | ⟨-, h⟩
  · exact hp cs a r h
  · exact hq cs a r h

theorem Spells.optional (h : Spells [] p t) : Spells [] (optional p) fun o => o.elim [] t :=
  .orElse (.map h) (spells_pure rfl)

theorem Spells.atMost (h : Spells [] p t) (n : Nat) :
    Spells [] (atMost p n) fun as => as.flatMap t := by
  induction n with
  | zero => exact spells_pure rfl
  | succ n ih =>
    refine .orElse (h.bind fun a => ih.bind fun as => spells_pure ?_) (spells_pure rfl)
    exact lexemesOf_append (t a) (as.flatMap t)

theorem Spells.many (h : Spells [] p t) : Spells [] (many p) fun as => as.flatMap t :=
  fun cs => h.atMost cs.length cs

theorem Spells.consumes (h : Spells [] p t) (hne : ∀ a, spelling (t a) ≠ []) : Consumes p := by
  intro cs a r ha
  have hpos := List.length_pos_iff.mpr (hne a)
  rw [h.text ha, List.length_append]
  omega

end Laws

section Words

variable {isChar : Char → Bool}

theorem spells_satisfying (hs : ∀ c, isChar c = true → isLone c = true) :
    Spells [] (satisfying isChar) fun c => [.word [c]] := by
  intro cs c r h
  obtain ⟨rfl, hc⟩ := satisfying_eq_some.mp h
  exact ⟨[.char c], rfl, .cons (lexeme_of_isLone (hs c hc)) (.nil r)⟩

theorem spells_span (hs : ∀ c, isChar c = true → isLone c = true) :
    Spells [] (span isChar) fun x => [.word x] := by
  intro cs x r h
  obtain ⟨rfl, hx, -⟩ := span_eq_some h
  exact ⟨x.map .char, List.append_nil _, scans_chars (fun c hc => hs c (hx c hc)) r⟩

theorem spells_span1 (hs : ∀ c, isChar c = true → isLone c = true) :
    Spells [] (span1 isChar) fun x => [.word x] :=
  (spells_satisfying hs).bind fun _ => (spells_span hs).bind fun _ => spells_pure rfl

theorem spells_exactly (hs : s.toList.all isLone = true) :
    Spells [] (exactly s) fun _ => [.mark s] := by
  intro cs u r h
  rw [exactly_eq_some.mp h]
  exact ⟨s.toList.map .char, List.append_nil _, scans_chars (List.all_eq_true.mp hs) r⟩

theorem spells_ahead {test : List Char → Bool} : Spells [] (ahead test) fun _ => [] := by
  intro cs u r h
  rw [ahead, Option.ite_none_right_eq_some] at h
  cases h.2
  exact ⟨[], rfl, .nil cs⟩

theorem isLone_of_isTypeChar {c : Char} (h : isTypeChar c = true) : isLone c = true := by
  obtain ⟨hlo, hhi⟩ := isTypeChar_range h
  have hslash : c ≠ '/' := by
    rintro rfl
    cases h
  have hquote : c ≠ '"' := by
    rintro rfl
    cases h
  simp [isLone, isSolid, isBlank_eq_false ⟨hlo, hhi⟩, hslash, hquote]

theorem isLone_of_isNameChar {c : Char} (h : isNameChar c = true) : isLone c = true :=
  isLone_of_isTypeChar (isTypeChar_of_isNameChar h)

theorem spells_wordOf (hs : ∀ c, isChar c = true → isLone c = true) :
    Spells [] (wordOf isChar) fun x => [.word x] := by
  refine spells_ahead.bind fun _ => (spells_satisfying fun c hc => ?_).bind fun c => ?_
  · exact isLone_of_isNameChar (isNameChar_of_isNameStart hc)
  · exact (spells_span hs).bind fun x => spells_pure rfl

theorem spells_name : Spells [] name fun x => [.word x] :=
  spells_wordOf fun _ => isLone_of_isNameChar

end Words

section Gaps

theorem consumes_blank : Consumes blank := by
  intro cs b r h
  have hpos := List.length_pos_iff.mpr (Lexeme.blank b).text_ne_nil
  rw [(blank_eq_some h).1, List.length_append]
  exact Nat.lt_add_of_pos_left hpos

/-- The blanks and comments of a gap are lexemes. -/
theorem spells_gap : Spells [] gap fun g => [.gap g] := by
  intro cs g r h
  exact ⟨g.map .blank, List.append_nil _, scans_gap ((many_eq_some consumes_blank).mp h)⟩

theorem spells_gap1 : Spells [] gap1 fun g => [.gap g] := by
  have hblank : Spells [] blank fun b => [.gap [b]] := by
    intro cs b r h
    exact ⟨[.blank b], rfl, .cons (lexeme_of_blank h) (.nil r)⟩
  exact hblank.bind fun _ => spells_gap.bind fun _ => spells_pure rfl

/-- A mark between other things. -/
theorem spells_mark {f : Unit → Reader β} (hs : s.toList.all isLone = true)
    (hf : Spells (before ++ lexemesOf [.mark s]) (f ()) u) : Spells before (exactly s >>= f) u :=
  (spells_exactly hs).bind fun _ => hf

/-- A gap between other things. -/
theorem spells_past_gap {f : Gap → Reader β}
    (hf : ∀ g : Gap, Spells (before ++ lexemesOf [.gap g]) (f g) u) :
    Spells before (gap >>= f) u :=
  spells_gap.bind hf

theorem spells_past_gap1 {f : Gap → Reader β}
    (hf : ∀ g : Gap, Spells (before ++ lexemesOf [.gap g]) (f g) u) :
    Spells before (gap1 >>= f) u :=
  spells_gap1.bind hf

end Gaps

section Atoms

theorem spells_brackets : Spells [] brackets Brackets.tokens := by
  refine spells_past_gap fun _ => spells_mark rfl (spells_past_gap fun _ => spells_mark rfl ?_)
  exact spells_pure (by simp [Brackets.tokens])

theorem spells_typeName : Spells [] typeName TypeName.tokens :=
  (spells_wordOf fun _ => isLone_of_isTypeChar).bind fun _ =>
    spells_brackets.many.bind fun _ => spells_pure (by simp [TypeName.tokens])

theorem isLone_of_isHexDigit {c : Char} (h : isHexDigit c = true) : isLone c = true := by
  refine isLone_of_isNameChar ?_
  simp only [isHexDigit, isNameChar, Char.isAlphanum, Char.isAlpha, Char.isUpper, Char.isLower,
    Bool.or_eq_true, Bool.and_eq_true, decide_eq_true_eq, ge_iff_le] at h ⊢
  rcases h with (h | ⟨hlo, hhi⟩) | ⟨hlo, hhi⟩
  · exact .inl (.inl (.inr h))
  · exact .inl (.inl (.inl (.inr ⟨hlo, hhi.trans (by decide)⟩)))
  · exact .inl (.inl (.inl (.inl ⟨hlo, hhi.trans (by decide)⟩)))

theorem spells_number : Spells [] number fun n => [.word n.text] := by
  have hhex : Spells [] hexDigits fun d => [.word d.text] := by
    refine spells_mark rfl ((spells_satisfying fun c hc => ?_).bind fun _ =>
      (spells_span1 fun _ => isLone_of_isHexDigit).bind fun _ => spells_pure rfl)
    rw [Bool.or_eq_true, beq_iff_eq, beq_iff_eq] at hc
    rcases hc with rfl | rfl <;> rfl
  have hdecimal : Spells [] decimalDigits fun d => [.word d.text] := by
    refine (spells_span1 fun c hc => ?_).bind fun _ => spells_pure rfl
    exact isLone_of_isNameChar (isNameChar_of_isDigit hc)
  refine (spells_exactly rfl).optional.bind fun sign => (hhex.orElse hdecimal).bind fun _ => ?_
  refine spells_pure ?_
  cases sign <;> rfl

theorem spells_stringLiteral : Spells [] stringLiteral fun ps => [.string ps] := by
  intro cs ps r h
  exact ⟨[.string ps], rfl, .cons (lexeme_of_string h) (.nil r)⟩

theorem spells_atom : Spells [] atom Atom.tokens := by
  refine .orElse (.orElse (.map spells_number) (.orElse (.map spells_stringLiteral) ?_))
    (.map spells_name)
  exact spells_mark rfl (spells_pure rfl)

end Atoms

section Places

theorem spells_member : Spells [] member Member.tokens := by
  refine spells_name.bind fun _ => spells_past_gap fun _ => spells_mark rfl ?_
  refine spells_past_gap fun _ => spells_name.bind fun _ => spells_pure ?_
  simp [Member.tokens]

theorem spells_element : Spells [] element Element.tokens := by
  refine spells_name.bind fun _ => spells_past_gap fun _ => spells_mark rfl ?_
  refine spells_past_gap fun _ => spells_atom.bind fun _ => spells_past_gap fun _ => ?_
  exact spells_mark rfl (spells_pure (by simp [Element.tokens]))

theorem spells_leftSide : Spells [] leftSide LeftSide.tokens :=
  .orElse (.map spells_element) (.orElse (.map spells_member) (.map spells_name))

end Places

section Calls

theorem spells_later {item : Reader α} (h : Spells [] item t) :
    Spells [] (later item) (Later.tokens t) := by
  refine spells_past_gap fun _ => spells_mark rfl (spells_past_gap fun _ => ?_)
  exact h.bind fun _ => spells_pure (by simp [Later.tokens])

theorem spells_listed {item : Reader α} (h : Spells [] item t) :
    Spells [] (listed item) (Listed.tokens t) :=
  h.bind fun _ => (spells_later h).many.bind fun _ => spells_pure (by simp [Listed.tokens])

theorem spells_arguments : Spells [] arguments Arguments.tokens := by
  refine (spells_listed spells_atom).bind fun _ => spells_past_gap fun _ => spells_pure ?_
  simp [Arguments.tokens]

theorem spells_invocation : Spells [] invocation Invocation.tokens := by
  have hcallee : Spells [] callee Callee.tokens := .orElse (.map spells_member) (.map spells_name)
  refine spells_mark rfl (spells_past_gap1 fun _ => hcallee.bind fun _ => ?_)
  refine spells_past_gap fun _ => spells_mark rfl (spells_past_gap fun _ => ?_)
  refine spells_arguments.optional.bind fun _ => spells_mark rfl (spells_pure ?_)
  simp [Invocation.tokens]

end Calls

section Operations

theorem operator_eq_some {cs r : List Char} {op : BinOp} (h : operator cs = some (op, r)) :
    cs = op.symbol.toList ++ r := by
  rcases orElse_eq_some.mp h with h | ⟨-, h⟩
  · exact (operatorOf_eq_some h).2
  · obtain ⟨_, _, hop, h⟩ := bind_eq_some.mp h
    obtain ⟨_, _, hahead, h⟩ := bind_eq_some.mp h
    cases h
    rw [ahead, Option.ite_none_right_eq_some] at hahead
    cases hahead.2
    exact (operatorOf_eq_some hop).2

theorem isLone_symbol {op : BinOp} (h : op ≠ .div) : op.symbol.toList.all isLone = true := by
  cases op <;> first | rfl | exact absurd rfl h

/-- The slash of a division begins no comment: the gap in front of it would have taken one that is
closed, and no operand begins with an asterisk. -/
theorem scans_symbol {op : BinOp} {z r : List Char} {g : Gap} {a : Atom}
    (hblank : blank (op.symbol.toList ++ z) = none) (hz : gap z = some (g, r))
    (ha : ∃ w, atom r = some (a, w)) :
    Scans (op.symbol.toList ++ z) (lexemesOf [.mark op.symbol]) z := by
  by_cases hop : op = .div
  · subst hop
    refine .cons (lexeme_of_slash ⟨head_of_blank_slash hblank, fun hstar => ?_⟩) (.nil z)
    obtain ⟨w, ha⟩ := ha
    cases z with
    | nil => cases hstar
    | cons c z =>
      cases hstar
      cases hz.symm.trans (gap_nil (blank_none rfl))
      cases ha.symm.trans (atom_none rfl)
  · rw [lexemesOf_cons, lexemesOf_nil, List.append_nil]
    exact scans_chars (List.all_eq_true.mp (isLone_symbol hop)) z

theorem spells_operation {op : Reader BinOp}
    (hop : ∀ cs o r, op cs = some (o, r) → cs = o.symbol.toList ++ r) :
    Spells [] (operation op) Operation.tokens := by
  intro cs o rest h
  obtain ⟨left, r₁, hleft, h⟩ := bind_eq_some.mp h
  obtain ⟨before, r₂, hbefore, h⟩ := bind_eq_some.mp h
  obtain ⟨sign, r₃, hsign, h⟩ := bind_eq_some.mp h
  obtain ⟨after, r₄, hafter, h⟩ := bind_eq_some.mp h
  obtain ⟨right, r₅, hright, h⟩ := bind_eq_some.mp h
  cases h
  have hstop := ((many_eq_some consumes_blank).mp hbefore).stops
  cases hop _ _ _ hsign
  have hscans := (spells_atom.scans hleft).append ((spells_gap.scans hbefore).append
    ((scans_symbol hstop hafter ⟨_, hright⟩).append
      ((spells_gap.scans hafter).append (spells_atom.scans hright))))
  exact ⟨_, by simp [Operation.tokens], hscans⟩

theorem spells_condition : Spells [] condition Operation.tokens :=
  spells_operation fun _ _ _ h => (operatorOf_eq_some h).2

theorem spells_binary : Spells [] binary Operation.tokens :=
  spells_operation fun _ _ _ h => operator_eq_some h

end Operations

section RightSides

theorem spells_newArray : Spells [] newArray NewArray.tokens := by
  refine spells_mark rfl (spells_past_gap1 fun _ => spells_typeName.bind fun _ => ?_)
  refine spells_past_gap fun _ => spells_mark rfl (spells_past_gap fun _ => ?_)
  refine spells_atom.bind fun _ => spells_past_gap fun _ => spells_mark rfl (spells_pure ?_)
  simp [NewArray.tokens]

theorem spells_newObject : Spells [] newObject NewObject.tokens := by
  refine spells_mark rfl (spells_past_gap1 fun _ => spells_typeName.bind fun _ => spells_pure ?_)
  simp [NewObject.tokens]

theorem spells_cast : Spells [] cast Cast.tokens := by
  refine spells_mark rfl (spells_past_gap fun _ => spells_typeName.bind fun _ => ?_)
  refine spells_past_gap fun _ => spells_mark rfl (spells_past_gap fun _ => ?_)
  exact spells_atom.bind fun _ => spells_pure (by simp [Cast.tokens])

theorem spells_negation : Spells [] negation Negation.tokens := by
  refine spells_mark rfl (spells_past_gap fun _ => spells_name.bind fun _ => spells_pure ?_)
  simp [Negation.tokens]

theorem spells_rightSide : Spells [] rightSide RightSide.tokens :=
  .orElse (.map spells_newArray) <| .orElse (.map spells_newObject) <|
    .orElse (.map spells_invocation) <| .orElse (.map spells_cast) <|
      .orElse (.map spells_binary) <| .orElse (.map spells_negation) <|
        .orElse (.map spells_element) <| .orElse (.map spells_member) (.map spells_atom)

end RightSides

end MethodFlow.Source.Reader
