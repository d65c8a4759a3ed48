import MethodFlow.Proofs.PhraseText

/-!
The text of what an assignment writes. The phrases that are tried before the right one do not
match: they begin with a keyword or a mark, or they are operations.
-/

namespace MethodFlow

namespace Source

open Reader

variable {x y rest r w cs : List Char} {c d : Char}

section Operators

/-- Of the characters of names only the dollar sign ends a word. -/
theorem eq_dollar (hc : isNameChar c = true) (hw : Text.isWordChar c = false) : c = '$' := by
  have hall : ∀ n < 123, isNameChar (Char.ofNat n) = true →
      Text.isWordChar (Char.ofNat n) = false → n = 36 := by
    decide +kernel
  have hrange := (isTypeChar_range (isTypeChar_of_isNameChar hc)).2
  rw [← Char.ofNat_toNat c] at hc hw
  have hn := hall c.toNat (by omega) hc hw
  rw [← Char.ofNat_toNat c, hn]

theorem mark_head {op : BinOp} (h : op ∈ [BinOp.ushr, .shr, .shl, .ge, .le, .eq, .ne, .gt, .lt,
    .add, .sub, .mul, .div, .rem, .and, .or, .xor]) :
    ∃ c, op.symbol.toList.head? = some c ∧ isNameChar c = false := by
  have hall : op.symbol.toList.head?.all isNameChar = false := by
    revert op
    decide
  cases hc : op.symbol.toList.head? with
  | none => simp [hc] at hall
  | some c => exact ⟨c, rfl, by simpa [hc] using hall⟩

/-- Behind a character of a name, only an operator that is a word can stand. -/
theorem operator_in_name {op : BinOp} (hd : isNameChar d = true)
    (h : operator (d :: w) = some (op, r)) :
    op ∈ wordOperators ∧ d :: w = op.symbol.toList ++ r ∧ endsWord r = true := by
  rcases orElse_eq_some.mp h with h | ⟨_, h⟩
  · obtain ⟨hop, hcs⟩ := operatorOf_eq_some h
    obtain ⟨c, hc, hmark⟩ := mark_head hop
    have hhead := congrArg List.head? hcs
    rw [List.head?_append, hc] at hhead
    cases hhead
    cases hd.symm.trans hmark
  · obtain ⟨o, cs, ho, h⟩ := bind_eq_some.mp h
    obtain ⟨_, cs', hend, h⟩ := bind_eq_some.mp h
    cases h
    rw [ahead, Option.ite_none_right_eq_some] at hend
    obtain ⟨hend, heq⟩ := hend
    cases heq
    obtain ⟨hop, hcs⟩ := operatorOf_eq_some ho
    exact ⟨hop, hcs, hend⟩

theorem operation_none {reader : Reader BinOp} {a : Atom} {g : Gap} (ha : atom cs = some (a, w))
    (hgap : gap w = some (g, r)) (h : reader r = none) : operation reader cs = none :=
  (bind_of ha rfl).trans ((bind_of hgap rfl).trans (bind_none h))

/-- No operation is read off a name that goes on with neither an operator nor an atom, unless the
name hides one. -/
theorem binary_none (hx : IsName x) (hhide : ¬ HidesOperation x) (hsolid : isSolid c = true)
    (hatom : isAtomStart c = false) (hword : isNameChar c = false)
    (hop : operator (c :: r) = none) : binary (x ++ c :: r) = none := by
  have hstop : stops isNameChar (c :: r) = true := by simp [stops, hword]
  by_cases hnull : "null".toList <+: x
  · obtain ⟨y, rfl⟩ := hnull
    have hy : y ≠ [] := by
      rintro rfl
      have hfree := afterKeyword?_eq_none.mp hx.free "null" (by decide) [] rfl
      cases hfree
    obtain ⟨d, y, rfl⟩ := List.exists_cons_of_ne_nil hy
    have hd : isNameChar d = true := hx.all_isNameChar d (by simp)
    rw [List.append_assoc]
    refine (bind_of atom_null rfl).trans ?_
    refine (bind_of (gap_nil (blank_none (isSolid_of_isNameChar hd))) rfl).trans ?_
    -- what follows `null` is a comparison, and the name ends with it or hides what it compares
    apply bind_none_of
    intro op w h
    obtain ⟨hop, hcs, hend⟩ := operator_in_name hd h
    have hall : wordOperators.all (fun op => op.symbol.toList.all isNameChar) = true := rfl
    have hk := List.all_eq_true.mp hall op hop
    change d :: y ++ c :: r = op.symbol.toList ++ w at hcs
    obtain ⟨z, hz, rfl⟩ := literal_in_word hk hstop hcs
    cases z with
    | nil =>
      refine (bind_of (gap_nil (blank_none hsolid)) rfl).trans ?_
      exact bind_none (atom_none hatom)
    | cons e z =>
      have he : isNameChar e = true := hx.all_isNameChar e (by simp [hz])
      have hdollar := eq_dollar he (by simpa [endsWord] using hend)
      refine absurd ⟨op, hop, z, ?_⟩ hhide
      rw [hz, hdollar, List.append_assoc]
  · have hread : atom (x ++ c :: r) = some (.name x, c :: r) :=
      (orElse_none (literal_none hx hnull hstop)).trans (map_some (name_append hx hstop))
    exact operation_none hread (gap_nil (blank_none hsolid)) hop

end Operators

section Order

theorem newArray_none (h : OpensFreely cs) : newArray cs = none :=
  h.keyword_none (by decide) (by decide) fun _ _ hc =>
    bind_none (gap1_none (blank_none (isSolid_of_isNameChar hc)))

theorem newObject_none (h : OpensFreely cs) : newObject cs = none :=
  h.keyword_none (by decide) (by decide) fun _ _ hc =>
    bind_none (gap1_none (blank_none (isSolid_of_isNameChar hc)))

theorem invocation_none (h : OpensFreely cs) : invocation cs = none :=
  h.keyword_none (by decide) (by decide) fun _ _ hc =>
    bind_none (gap1_none (blank_none (isSolid_of_isNameChar hc)))

/-- A right side that begins neither with a keyword nor with a bracket is no allocation, call or
cast. -/
theorem rightSide_apply (h : OpensFreely cs) (hcast : cast cs = none) :
    rightSide cs = ((RightSide.operation <$> binary) <|> (RightSide.negation <$> negation) <|>
      (RightSide.element <$> element) <|> (RightSide.member <$> member) <|>
      (RightSide.atom <$> atom)) cs :=
  (orElse_none (map_none (newArray_none h))).trans <|
    (orElse_none (map_none (newObject_none h))).trans <|
      (orElse_none (map_none (invocation_none h))).trans (orElse_none (map_none hcast))

theorem cast_none (h : c ≠ '(') : cast (c :: r) = none :=
  bind_none (exactly_none rfl h)

theorem negation_none (h : c ≠ '-') : negation (c :: r) = none :=
  bind_none (exactly_none rfl h)

theorem IsWordOf.cast_none (hx : IsName x) : cast (x ++ r) = none := by
  obtain ⟨d, z, rfl⟩ := List.exists_cons_of_ne_nil hx.ne_nil
  have hd : isNameChar d = true := hx.all_isNameChar d List.mem_cons_self
  refine Source.cast_none ?_
  rintro rfl
  cases hd

theorem IsWordOf.negation_none (hx : IsName x) : negation (x ++ r) = none := by
  obtain ⟨d, z, rfl⟩ := List.exists_cons_of_ne_nil hx.ne_nil
  have hd : isNameChar d = true := hx.all_isNameChar d List.mem_cons_self
  refine Source.negation_none ?_
  rintro rfl
  cases hd

end Order

end Source

open Source Reader

variable {s : Scope} {e : Expr}

/-- A name that goes on with a mark is neither of the phrases that are tried before members and
elements. -/
theorem rightSide_name {x r : List Char} {c : Char} (hx : IsName x) (hhide : ¬ HidesOperation x)
    (hc : c = '.' ∨ c = '[') :
    rightSide (x ++ c :: r) = ((RightSide.element <$> element) <|> (RightSide.member <$> member) <|>
      (RightSide.atom <$> atom)) (x ++ c :: r) := by
  have hstop : stops isNameChar (c :: r) = true := by rcases hc with rfl | rfl <;> rfl
  have hbinary : binary (x ++ c :: r) = none := by
    rcases hc with rfl | rfl <;> exact binary_none hx hhide rfl rfl rfl rfl
  refine (rightSide_apply (hx.opensFreely hstop) hx.cast_none).trans ?_
  exact (orElse_none (map_none hbinary)).trans (orElse_none (map_none hx.negation_none))

theorem rightSide_member {x y rest : List Char} (hx : IsName x) (hy : IsName y)
    (hhide : ¬ HidesOperation x) :
    rightSide (x ++ '.' :: (y ++ ';' :: rest)) =
      some (.member ⟨x, [], [], y⟩, ';' :: rest) := by
  have helement : element (x ++ '.' :: (y ++ ';' :: rest)) = none :=
    element_none hx rfl (gap_nil (blank_none rfl)) rfl
  refine (rightSide_name hx hhide (.inl rfl)).trans ?_
  refine (orElse_none (map_none helement)).trans (orElse_some ?_)
  exact map_some (member_append hx hy rfl)

/-- No atom begins with a minus sign in front of a name. -/
theorem atom_minus {x r : List Char} (hx : IsName x) : atom ('-' :: (x ++ r)) = none := by
  obtain ⟨d, z, rfl⟩ := List.exists_cons_of_ne_nil hx.ne_nil
  have hdigit := isDigit_of_isNameStart hx.1
  have hzero : d ≠ '0' := by
    rintro rfl
    cases hdigit
  have hdigits : (hexDigits <|> decimalDigits) (d :: (z ++ r)) = none :=
    (orElse_none (bind_none (exactly_none rfl hzero))).trans
      (bind_none (bind_none (satisfying_none hdigit)))
  have hnumber : number ('-' :: d :: (z ++ r)) = none :=
    (bind_of (optional_some (exactly_append "-" _)) rfl).trans (bind_none hdigits)
  have hliteral : literal ('-' :: d :: (z ++ r)) = none :=
    (orElse_none (map_none hnumber)).trans <|
      (orElse_none (map_none (stringLiteral_none (by decide)))).trans
        (bind_none (exactly_none rfl (by decide)))
  exact (orElse_none hliteral).trans (map_none (wordOf_none rfl))

theorem Expr.IsLegibleAtom.isCall (h : e.IsLegibleAtom s) : e.isCall = false := by
  cases e <;> first | rfl | exact h.elim

/-- In front of an atom, an opening bracket begins no empty pair. -/
theorem brackets_atom {r : List Char} (h : e.IsLegibleAtom s) :
    brackets ('[' :: (e.text.toList ++ r)) = none := by
  refine (bind_of (gap_nil (blank_none rfl)) rfl).trans ?_
  refine (bind_of (exactly_append "[" _) rfl).trans ?_
  refine (bind_of (gap_nil h.blank_append) rfl).trans ?_
  obtain ⟨c, z, hz, hc⟩ := h.head
  rw [hz]
  refine bind_none (exactly_none rfl ?_)
  rintro rfl
  cases hc

/-- A negative number is no negation, which is of a name. -/
theorem negation_int (n : Int) (rest : List Char) :
    negation ((toString n).toList ++ rest) = none := by
  rcases Int.lt_or_le n 0 with hn | hn
  · obtain ⟨d, ds, hds, hd⟩ := toDigits_head (-n).toNat
    have hsolid := isSolid_of_isNameChar (isNameChar_of_isDigit hd)
    rw [toList_toString_neg hn, hds]
    refine (bind_of (exactly_append "-" _) rfl).trans ?_
    exact (bind_of (gap_nil (blank_none hsolid)) rfl).trans
      (bind_none (wordOf_none (isNameStart_of_isDigit hd)))
  · obtain ⟨k, rfl⟩ := Int.eq_ofNat_of_zero_le hn
    obtain ⟨d, ds, hds, hd⟩ := toDigits_head k
    rw [toList_toString_ofNat, hds]
    refine negation_none ?_
    rintro rfl
    cases hd

/-- An atom at the end of an assignment is no negation, element or member. -/
theorem Expr.IsLegibleAtom.alone (h : e.IsLegibleAtom s) (rest : List Char) :
    negation (e.text.toList ++ ';' :: rest) = none ∧
      Reader.element (e.text.toList ++ ';' :: rest) = none ∧
      member (e.text.toList ++ ';' :: rest) = none := by
  have hstart : ∀ (c : Char) (r : List Char), isNameStart c = false →
      Reader.element (c :: r) = none ∧ member (c :: r) = none :=
    fun c r hc => ⟨bind_none (wordOf_none hc), bind_none (wordOf_none hc)⟩
  cases e with
  | var v =>
    have hgap : gap (';' :: rest) = some ([], ';' :: rest) := gap_nil (blank_none rfl)
    exact ⟨h.1.isName.negation_none, element_none h.1.isName rfl hgap rfl,
      member_none h.1.isName rfl hgap rfl⟩
  | int n =>
    refine ⟨negation_int n _, ?_⟩
    obtain ⟨c, r, hr, hc⟩ := toString_head n
    rw [text_int, hr]
    apply hstart
    rcases hc with rfl | hc
    · rfl
    · exact isNameStart_of_isDigit hc
  | str x =>
    rw [text_str]
    exact ⟨negation_none (by decide), hstart _ _ rfl⟩
  | null =>
    have hname : name ("null".toList ++ ';' :: rest) = none := wordOf_keyword (by decide) rfl
    exact ⟨negation_none (by decide), bind_none hname, bind_none hname⟩
  | _ => exact h.elim

theorem Expr.IsLegibleAtom.cast_none {r : List Char} (h : e.IsLegibleAtom s) :
    Reader.cast (e.text.toList ++ r) = none := by
  obtain ⟨c, z, hz, hc⟩ := h.head
  rw [hz]
  refine Source.cast_none ?_
  rintro rfl
  cases hc

/-- The text of an expression at the end of an assignment is read as a right side that means the
expression. -/
def Expr.IsReadBack (s : Scope) (e : Expr) : Prop :=
  ∃ a : RightSide, a.isCall = e.isCall ∧ (∀ p, a.meaning s p = .ok e) ∧
    ∀ rest, rightSide (e.text.toList ++ ';' :: rest) = some (a, ';' :: rest)

theorem Expr.IsLegibleAtom.isReadBack (h : e.IsLegibleAtom s) (hw : e.IsWritable) :
    e.IsReadBack s := by
  obtain ⟨a, ha, hread⟩ := h.reads hw
  refine ⟨.atom a, h.isCall.symm, ha, fun rest => ?_⟩
  have hatom := hread (';' :: rest) rfl
  have hbinary : binary (e.text.toList ++ ';' :: rest) = none :=
    operation_none hatom (gap_nil (blank_none rfl)) rfl
  obtain ⟨hnegation, helement, hmember⟩ := h.alone rest
  refine (rightSide_apply (h.opensFreely rfl) h.cast_none).trans ?_
  refine (orElse_none (map_none hbinary)).trans ?_
  refine (orElse_none (map_none hnegation)).trans ?_
  refine (orElse_none (map_none helement)).trans ?_
  exact (orElse_none (map_none hmember)).trans (map_some hatom)

theorem Expr.isReadBack_bin {op : BinOp} {a b : Expr} (ha : a.IsLegibleAtom s)
    (hb : b.IsLegibleAtom s) (hw : (Expr.bin op a b).IsWritable) :
    (Expr.bin op a b).IsReadBack s := by
  obtain ⟨o, ho, hread⟩ := operation_reads ha hb hw fun r => operator_append op
  refine ⟨.operation o, rfl, ho, fun rest => ?_⟩
  have hbinary : binary ((Expr.bin op a b).text.toList ++ ';' :: rest) = some (o, ';' :: rest) :=
    hread _ rfl
  rw [Expr.bin_append] at hbinary ⊢
  exact (rightSide_apply (ha.opensFreely rfl) ha.cast_none).trans
    (orElse_some (map_some hbinary))

theorem Expr.isReadBack_neg {v : Var} (hv : s.Knows v) : (Expr.neg (.var v)).IsReadBack s := by
  refine ⟨.negation ⟨[], v.name.toList⟩, rfl, fun p => ?_, fun rest => ?_⟩
  · rw [RightSide.meaning, hv.lookup]
    rfl
  · have htext : (Expr.neg (.var v)).text.toList ++ ';' :: rest =
        '-' :: (v.name.toList ++ ';' :: rest) := by
      simp [Expr.text]
    have hnegation : negation ('-' :: (v.name.toList ++ ';' :: rest)) =
        some (⟨[], v.name.toList⟩, ';' :: rest) :=
      bind_of (exactly_append "-" _) (bind_of (gap_nil hv.isName.blank_append)
        (bind_of (name_append hv.isName rfl) rfl))
    rw [htext]
    refine (rightSide_apply (opensFreely_cons rfl) (cast_none (by decide))).trans ?_
    refine (orElse_none (map_none (bind_none (atom_minus hv.isName)))).trans ?_
    exact orElse_some (map_some hnegation)

theorem Expr.isReadBack_new {c : String} (ht : (Ty.object c).IsLegible) :
    (Expr.new (.object c)).IsReadBack s := by
  obtain ⟨x, hx, hread⟩ := typeName_of_isLegible ht
  refine ⟨.newObject ⟨[.space ' '], x⟩, rfl, fun p => ?_, fun rest => ?_⟩
  · simp only [RightSide.meaning, NewObject.meaning, hx, Attempt.ok_bind, Attempt.pure_eq_ok]
  · have htext : (Expr.new (.object c)).text.toList ++ ';' :: rest =
        "new".toList ++ ' ' :: ((Ty.object c).render.toList ++ ';' :: rest) := by
      simp [Expr.text]
    have hend : brackets (';' :: rest) = none := brackets_none (gap_nil (blank_none rfl)) rfl
    rw [htext]
    refine (orElse_none (map_none (bind_none rfl))).trans (orElse_some (map_some ?_))
    refine bind_of (exactly_append "new" _) ?_
    refine bind_of (gap1_space (blank_of_isLegible ht)) ?_
    exact bind_of (hread _ rfl hend) rfl

theorem Expr.isReadBack_newArray {t : Ty} {n : Expr} (ht : t.IsLegible) (hn : n.IsLegibleAtom s)
    (hw : n.IsWritable) : (Expr.newArray t n).IsReadBack s := by
  obtain ⟨x, hx, hread⟩ := typeName_of_isLegible ht
  obtain ⟨y, hy, hyread⟩ := hn.reads hw
  refine ⟨.newArray ⟨[.space ' '], x, [], [], y, []⟩, rfl, fun p => ?_, fun rest => ?_⟩
  · simp only [RightSide.meaning, hx, hy, Attempt.ok_bind, Attempt.pure_eq_ok]
  · have htext : (Expr.newArray t n).text.toList ++ ';' :: rest =
        "newarray".toList ++ ' ' :: (t.render.toList ++ '[' :: (n.text.toList ++
          ']' :: ';' :: rest)) := by
      simp [Expr.text]
    rw [htext]
    refine orElse_some (map_some ?_)
    refine bind_of (exactly_append "newarray" _) ?_
    refine bind_of (gap1_space (blank_of_isLegible ht)) ?_
    refine bind_of (hread _ rfl (brackets_atom hn)) ?_
    refine bind_of (gap_nil (blank_none rfl)) ?_
    refine bind_of (exactly_append "[" _) ?_
    refine bind_of (gap_nil hn.blank_append) ?_
    refine bind_of (hyread _ rfl) ?_
    refine bind_of (gap_nil (blank_none rfl)) ?_
    exact bind_of (exactly_append "]" _) rfl

theorem Expr.isReadBack_cast {t : Ty} {a : Expr} (ht : t.IsLegible) (ha : a.IsLegibleAtom s)
    (hw : a.IsWritable) : (Expr.cast t a).IsReadBack s := by
  obtain ⟨x, hx, hread⟩ := typeName_of_isLegible ht
  obtain ⟨y, hy, hyread⟩ := ha.reads hw
  refine ⟨.cast ⟨[], x, [], [.space ' '], y⟩, rfl, fun p => ?_, fun rest => ?_⟩
  · simp only [RightSide.meaning, hx, hy, Attempt.ok_bind, Attempt.pure_eq_ok]
  · have htext : (Expr.cast t a).text.toList ++ ';' :: rest =
        '(' :: (t.render.toList ++ ')' :: ' ' :: (a.text.toList ++ ';' :: rest)) := by
      simp [Expr.text]
    have hfree : ∀ r, OpensFreely ('(' :: r) := fun r => opensFreely_cons rfl
    rw [htext]
    refine (orElse_none (map_none (newArray_none (hfree _)))).trans ?_
    refine (orElse_none (map_none (newObject_none (hfree _)))).trans ?_
    refine (orElse_none (map_none (invocation_none (hfree _)))).trans ?_
    refine orElse_some (map_some ?_)
    refine bind_of (exactly_append "(" _) ?_
    refine bind_of (gap_nil (blank_of_isLegible ht)) ?_
    refine bind_of (hread _ rfl (brackets_none (gap_nil (blank_none rfl)) rfl)) ?_
    refine bind_of (gap_nil (blank_none rfl)) ?_
    refine bind_of (exactly_append ")" _) ?_
    refine bind_of (gap_space ha.blank_append) ?_
    exact bind_of (hyread _ rfl) rfl

theorem Expr.isReadBack_field {v : Var} {f : String} (hv : s.Knows v) (hf : IsName f.toList)
    (hhide : ¬ HidesOperation v.name.toList) : (Expr.field (.var v) f).IsReadBack s := by
  refine ⟨.member ⟨v.name.toList, [], [], f.toList⟩, rfl, fun p => ?_, fun rest => ?_⟩
  · rw [RightSide.meaning, hv.place_member _ rfl, String.ofList_toList]
    rfl
  · rw [Expr.field_append]
    exact rightSide_member hv.isName hf hhide

theorem Expr.isReadBack_static {c f : String} (hc : s.named? c = none) (hname : IsName c.toList)
    (hf : IsName f.toList) (hhide : ¬ HidesOperation c.toList) :
    (Expr.static c f).IsReadBack s := by
  refine ⟨.member ⟨c.toList, [], [], f.toList⟩, rfl, fun p => ?_, fun rest => ?_⟩
  · rw [RightSide.meaning, place_static hc _ rfl, String.ofList_toList]
    rfl
  · rw [Expr.static_append]
    exact rightSide_member hname hf hhide

theorem Expr.isReadBack_element {v : Var} {i : Expr} (hv : s.Knows v) (hi : i.IsLegibleAtom s)
    (hhide : ¬ HidesOperation v.name.toList) (hw : i.IsWritable) :
    (Expr.element (.var v) i).IsReadBack s := by
  obtain ⟨l, hl, hindex, hread⟩ := element_reads hv.isName hi hw
  refine ⟨.element l, rfl, fun p => ?_, fun rest => ?_⟩
  · rw [RightSide.meaning, hv.place_element hl hindex]
    rfl
  · rw [Expr.element_append]
    exact (rightSide_name hv.isName hhide (.inr rfl)).trans (orElse_some (map_some (hread _)))

theorem Expr.isReadBack_call {q : Receiver} {m : String} {args : List Expr}
    (h : (Expr.call q m args).IsLegible s) (hw : (Expr.call q m args).IsWritable) :
    (Expr.call q m args).IsReadBack s := by
  obtain ⟨i, hi, hread⟩ := call_reads h hw
  refine ⟨.call i, rfl, hi, fun rest => ?_⟩
  have hcall := hread (';' :: rest)
  rw [Expr.call_append] at hcall ⊢
  refine (orElse_none (map_none (bind_none rfl))).trans ?_
  exact (orElse_none (map_none (bind_none rfl))).trans (orElse_some (map_some hcall))

/-- Every legible expression whose integers can be written is read back. -/
theorem Expr.IsLegible.isReadBack (h : e.IsLegible s) (hw : e.IsWritable) : e.IsReadBack s := by
  cases e with
  | var v => exact IsLegibleAtom.isReadBack h hw
  | int n => exact IsLegibleAtom.isReadBack (e := .int n) h hw
  | str x => exact IsLegibleAtom.isReadBack (e := .str x) h hw
  | null => exact IsLegibleAtom.isReadBack (e := .null) h hw
  | bin op a b => exact isReadBack_bin h.1 h.2 hw
  | neg a =>
    obtain ⟨v, rfl, hv⟩ := h
    exact isReadBack_neg hv
  | new t =>
    obtain ⟨ht, c, rfl⟩ := h
    exact isReadBack_new ht
  | newArray t n => exact isReadBack_newArray h.1 h.2 hw
  | cast t a => exact isReadBack_cast h.1 h.2 hw
  | field b f =>
    obtain ⟨⟨⟨v, rfl, hv⟩, hf⟩, hhide⟩ := h
    exact isReadBack_field hv hf hhide
  | static c f =>
    obtain ⟨⟨hc, hname, hf⟩, hhide⟩ := h
    exact isReadBack_static hc hname hf hhide
  | element b i =>
    obtain ⟨⟨⟨v, rfl, hv⟩, hi⟩, hhide⟩ := h
    exact isReadBack_element hv hi hhide (isWritable_element.mp hw).2
  | call q m args => exact isReadBack_call h hw

end MethodFlow
