import MethodFlow.Proofs.ReaderTells
import MethodFlow.Proofs.RightSideText

/-!
Phrases as they are read mean legible expressions only.
-/

namespace MethodFlow.Source

open Reader

section Scopes

variable {s : Scope} {p : Pos} {x : List Char} {v : Var}

theorem knows_of_named? (hx : IsName x) (h : s.named? (String.ofList x) = some v) :
    s.Knows v ∧ v.name.toList = x := by
  have hname : v.name = String.ofList x := by
    have hfind := List.find?_some (l := s) h
    exact of_decide_eq_true hfind
  have htext : v.name.toList = x := by rw [hname, String.toList_ofList]
  exact ⟨⟨hname ▸ h, htext ▸ hx⟩, htext⟩

theorem knows_of_lookup (hx : IsName x) (h : s.lookup p x = .ok v) :
    s.Knows v ∧ v.name.toList = x := by
  unfold Scope.lookup at h
  split at h
  · rename_i w hw
    cases h
    exact knows_of_named? hx hw
  · cases h

end Scopes

section Atoms

/-- An atom that means legible atoms only. -/
def Atom.MeansLegible (a : Atom) : Prop :=
  ∀ s p e, a.meaning s p = .ok e → e.IsLegibleAtom s

theorem tells_number : Tells number fun _ => True := by
  have hdecimal : Tells decimalDigits fun _ => True := by
    intro cs ds rest h _
    obtain ⟨_, _, h, _⟩ := bind_eq_some.mp h
    obtain ⟨c, r, hc, _⟩ := bind_eq_some.mp h
    obtain ⟨rfl, hdigit⟩ := satisfying_eq_some.mp hc
    exact ⟨trivial, native_cons (isForeign_of_isNameChar (isNameChar_of_isDigit hdigit))⟩
  have hhex : Tells hexDigits fun _ => True := tells_opening rfl fun _ _ _ _ => trivial
  have hsign : Tells (exactly "-") fun _ => True :=
    fun _ _ _ h _ => ⟨trivial, native_of_exactly h rfl⟩
  refine hsign.optional.bind fun _ => (hhex.orElse hdecimal).bind fun _ => tells_pure ?_
  intro _ _
  trivial

theorem tells_literal : Tells literal Atom.MeansLegible := by
  refine .orElse (.map (tells_number.mono ?_)) (.orElse (.map ?_) ?_)
  · intro n _ s p e he
    obtain ⟨k, _, he⟩ := Attempt.bind_eq_ok.mp he
    cases he
    trivial
  · refine tells_opening rfl ?_
    intro cs ps rest _ s p e he
    cases he
    trivial
  · refine tells_mark rfl (tells_pure ?_)
    intro s p e he
    cases he
    trivial

/-- A name is tried where no literal is read, so it does not begin with `null`. -/
theorem tells_atom : Tells atom Atom.MeansLegible := by
  intro cs a rest h hrest
  rcases orElse_eq_some.mp h with h | ⟨hliteral, h⟩
  · exact tells_literal cs a rest h hrest
  · obtain ⟨x, hx, rfl⟩ := map_eq_some.mp h
    obtain ⟨hname, hcs⟩ := tells_name cs x rest hx hrest
    refine ⟨?_, hcs⟩
    intro s p e he
    obtain ⟨v, hv, he⟩ := Attempt.bind_eq_ok.mp he
    cases he
    obtain ⟨hknows, htext⟩ := knows_of_lookup hname hv
    refine ⟨hknows, ?_⟩
    intro hnull
    obtain ⟨z, hz⟩ := hnull
    rw [(wordOf_eq_some hx).1, ← htext, ← hz, List.append_assoc, literal_null] at hliteral
    cases hliteral

end Atoms

section Places

variable {s : Scope} {p : Pos} {q : Place}

theorem tells_member : Tells member fun m => IsName m.owner ∧ IsName m.name := by
  refine tells_name.bind fun owner => tells_past_gap fun _ => tells_mark rfl ?_
  refine tells_past_gap fun _ => tells_name.bind fun x => tells_pure ?_
  intro hname howner
  exact ⟨howner, hname⟩

theorem Member.isLegible_place {m : Member} (h : IsName m.owner ∧ IsName m.name) (s : Scope) :
    (m.place s).IsLegible s := by
  unfold Member.place
  split
  · rename_i v hv
    refine ⟨⟨v, rfl, (knows_of_named? h.1 hv).1⟩, ?_⟩
    rw [String.toList_ofList]
    exact h.2
  · rename_i hnone
    refine ⟨hnone, ?_⟩
    rw [String.toList_ofList, String.toList_ofList]
    exact h

/-- What is read of a member that hides no operation is legible. -/
theorem Member.isLegible_toExpr {m : Member} (h : IsName m.owner ∧ IsName m.name)
    (hhide : ¬ HidesOperation m.owner) (s : Scope) : (m.place s).toExpr.IsLegible s := by
  have hplace := m.isLegible_place h s
  unfold Member.place at hplace ⊢
  split at hplace
  · rename_i v hv
    refine ⟨hplace, ?_⟩
    rwa [Expr.text, (knows_of_named? h.1 hv).2]
  · refine ⟨hplace, ?_⟩
    rwa [String.toList_ofList]

theorem tells_element : Tells element fun x => ∀ s p q, x.place s p = .ok q →
    ∃ v i, q = .element (.var v) i ∧ s.Knows v ∧ v.name.toList = x.base ∧ i.IsLegibleAtom s := by
  refine tells_name.bind fun base => tells_past_gap fun _ => tells_mark rfl ?_
  refine tells_past_gap fun _ => tells_atom.bind fun index => ?_
  refine tells_past_gap fun _ => tells_mark rfl (tells_pure ?_)
  intro hindex hbase s p q hq
  obtain ⟨i, hi, hq⟩ := Attempt.bind_eq_ok.mp hq
  obtain ⟨v, hv, hq⟩ := Attempt.bind_eq_ok.mp hq
  cases hq
  obtain ⟨hknows, htext⟩ := knows_of_lookup hbase hv
  exact ⟨v, i, rfl, hknows, htext, hindex s _ i hi⟩

/-- What is written to is legible. -/
theorem tells_leftSide :
    Tells leftSide fun l => ∀ s p q, l.meaning s p = .ok q → q.IsLegible s := by
  refine .orElse (.map (tells_element.mono ?_)) (.orElse (.map (tells_member.mono ?_))
    (.map (tells_name.mono ?_)))
  · intro x hx s p q hq
    obtain ⟨v, i, rfl, hknows, -, hi⟩ := hx s p q hq
    exact ⟨⟨v, rfl, hknows⟩, hi⟩
  · intro m hm s p q hq
    cases hq
    exact m.isLegible_place hm s
  · intro x hx s p q hq
    obtain ⟨v, hv, hq⟩ := Attempt.bind_eq_ok.mp hq
    cases hq
    exact (knows_of_lookup hx hv).1

end Places

section Calls

/-- What is told of an item is told of all items of a list. -/
theorem tells_listed {α : Type} {item : Reader α} {P : α → Prop} (h : Tells item P) :
    Tells (listed item) fun l => ∀ a ∈ l.first :: l.rest.map Later.item, P a := by
  have hlater : Tells (later item) fun x => P x.item := by
    refine tells_past_gap fun _ => tells_mark rfl ?_
    exact tells_past_gap fun _ => h.bind fun _ => tells_pure id
  refine h.bind fun a => hlater.many.bind fun ls => tells_pure ?_
  intro hls ha
  refine List.forall_mem_cons.mpr ⟨ha, fun b hb => ?_⟩
  obtain ⟨x, hx, rfl⟩ := List.mem_map.mp hb
  exact hls x hx

/-- What is known of the items of a list is known of them where they stand. -/
theorem forall_placed {α : Type} {print : α → List Char} {l : Listed α} {P : α → Prop}
    (h : ∀ a ∈ l.first :: l.rest.map Later.item, P a) (p : Pos) :
    ∀ x ∈ l.placed p print, P x.2 := by
  intro x hx
  refine h x.2 ?_
  rw [← placed_items print p]
  exact List.mem_map_of_mem hx

theorem tells_arguments : Tells arguments fun a =>
    ∀ s p es, a.meaning s p = .ok es → ∀ e ∈ es, e.IsLegibleAtom s := by
  refine (tells_listed tells_atom).bind fun l => tells_past_gap fun _ => tells_pure ?_
  intro hl s p es hes e he
  obtain ⟨x, hx, hmeaning⟩ := Attempt.mem_of_mapM hes he
  exact forall_placed hl p x hx s x.1 e hmeaning

theorem tells_callee : Tells callee fun c =>
    ∀ s, (c.meaning s).1.IsLegible s ∧ IsName (c.meaning s).2.toList := by
  refine .orElse (.map (tells_member.mono ?_)) (.map (tells_name.mono ?_))
  · intro m hm s
    refine ⟨?_, ?_⟩
    · rw [Callee.meaning]
      dsimp only
      split
      · rename_i v hv
        exact (knows_of_named? hm.1 hv).1
      · rename_i hnone
        refine ⟨hnone, ?_⟩
        rw [String.toList_ofList]
        exact hm.1
    · rw [Callee.meaning, String.toList_ofList]
      exact hm.2
  · intro x hx s
    refine ⟨trivial, ?_⟩
    rw [Callee.meaning, String.toList_ofList]
    exact hx

theorem tells_invocation : Tells invocation fun i =>
    ∀ s p e, i.meaning s p = .ok e → e.IsLegible s ∧ e.isCall = true := by
  refine tells_mark rfl (tells_past_gap1 fun _ => tells_callee.bind fun c => ?_)
  refine tells_past_gap fun _ => tells_mark rfl (tells_past_gap fun _ => ?_)
  refine tells_arguments.optional.bind fun args => tells_mark rfl (tells_pure ?_)
  intro hargs hc s p e he
  obtain ⟨es, hes, he⟩ := Attempt.bind_eq_ok.mp he
  cases he
  refine ⟨⟨(hc s).1, (hc s).2, ?_⟩, rfl⟩
  cases args with
  | none =>
    cases hes
    exact List.forall_mem_nil _
  | some x => exact hargs x rfl s _ es hes

end Calls

section RightSides

/-- The type names in what an assignment writes. -/
def RightSide.types : RightSide → List TypeName
  | newArray a => [a.elem]
  | newObject n => [n.type]
  | cast c => [c.type]
  | _ => []

/-- A right side that means legible expressions only, if there are no comments in its type names. -/
def RightSide.MeansLegible (r : RightSide) : Prop :=
  (∀ t ∈ r.types, t.isBare = true) → ∀ s p e, r.meaning s p = .ok e → e.IsLegible s

variable {s : Scope} {p : Pos} {e : Expr}

theorem tells_newArray : Tells newArray fun a => (RightSide.newArray a).MeansLegible := by
  refine tells_mark rfl (tells_past_gap1 fun _ => tells_typeName.bind fun elem => ?_)
  refine tells_past_gap fun _ => tells_mark rfl (tells_past_gap fun _ => ?_)
  refine tells_atom.bind fun length => tells_past_gap fun _ => tells_mark rfl (tells_pure ?_)
  intro hlength helem hbare s p e he
  obtain ⟨t, ht, he⟩ := Attempt.bind_eq_ok.mp he
  obtain ⟨n, hn, he⟩ := Attempt.bind_eq_ok.mp he
  cases he
  exact ⟨helem (hbare _ List.mem_cons_self) _ t ht, hlength s _ n hn⟩

theorem tells_newObject : Tells newObject fun n => (RightSide.newObject n).MeansLegible := by
  refine tells_mark rfl (tells_past_gap1 fun _ => tells_typeName.bind fun x => tells_pure ?_)
  intro hx hbare s p e he
  obtain ⟨t, ht, he⟩ := Attempt.bind_eq_ok.mp he
  split at he
  · rename_i c
    cases he
    exact ⟨hx (hbare _ List.mem_cons_self) _ _ ht, c, rfl⟩
  · cases he

theorem tells_cast : Tells cast fun c => (RightSide.cast c).MeansLegible := by
  refine tells_mark rfl (tells_past_gap fun _ => tells_typeName.bind fun x => ?_)
  refine tells_past_gap fun _ => tells_mark rfl (tells_past_gap fun _ => ?_)
  refine tells_atom.bind fun operand => tells_pure ?_
  intro hoperand hx hbare s p e he
  obtain ⟨t, ht, he⟩ := Attempt.bind_eq_ok.mp he
  obtain ⟨a, ha, he⟩ := Attempt.bind_eq_ok.mp he
  cases he
  exact ⟨hx (hbare _ List.mem_cons_self) _ t ht, hoperand s _ a ha⟩

theorem tells_operatorOf (ops : List BinOp) : Tells (operatorOf ops) fun op => op ∈ ops := by
  intro cs op rest hop _
  obtain ⟨hmem, hcs⟩ := operatorOf_eq_some hop
  have hread : exactly op.symbol cs = some ((), rest) := exactly_eq_some.mpr hcs
  refine ⟨hmem, native_of_exactly hread ?_⟩
  cases op <;> rfl

theorem tells_relation : Tells relation fun op => op.isCondition = true :=
  (tells_operatorOf _).mono (by decide)

theorem tells_operator : Tells operator fun _ => True := by
  refine .orElse ((tells_operatorOf _).mono fun _ _ => trivial) ?_
  refine (tells_operatorOf _).bind fun op => tells_ahead.bind fun _ => tells_pure ?_
  intro _ _
  trivial

/-- What is told of an operator is told of an operation, next to its operands. -/
theorem tells_operation {reader : Reader BinOp} {P : BinOp → Prop} (h : Tells reader P) :
    Tells (operation reader) fun o => ∀ s p e, o.meaning s p = .ok e →
      ∃ a b, e = .bin o.op a b ∧ P o.op ∧ a.IsLegibleAtom s ∧ b.IsLegibleAtom s := by
  refine tells_atom.bind fun left => tells_past_gap fun _ => h.bind fun op => ?_
  refine tells_past_gap fun _ => tells_atom.bind fun right => tells_pure ?_
  intro hright hop hleft s p e he
  obtain ⟨a, ha, he⟩ := Attempt.bind_eq_ok.mp he
  obtain ⟨b, hb, he⟩ := Attempt.bind_eq_ok.mp he
  cases he
  exact ⟨a, b, rfl, hop, hleft s _ a ha, hright s _ b hb⟩

theorem tells_negation : Tells negation fun n => (RightSide.negation n).MeansLegible := by
  refine tells_mark rfl (tells_past_gap fun _ => tells_name.bind fun x => tells_pure ?_)
  intro hx _ s p e he
  obtain ⟨v, hv, he⟩ := Attempt.bind_eq_ok.mp he
  cases he
  exact ⟨v, rfl, (knows_of_lookup hx hv).1⟩

/-- An operator that is a word ends in front of a dollar sign. -/
theorem operator_dollar {op : BinOp} (hop : op ∈ wordOperators) (w : List Char) :
    blank (op.symbol.toList ++ '$' :: w) = none ∧
      operator (op.symbol.toList ++ '$' :: w) = some (op, '$' :: w) := by
  simp only [wordOperators, List.mem_cons, List.not_mem_nil, or_false] at hop
  rcases hop with rfl | rfl | rfl
  · exact ⟨rfl, rfl⟩
  · exact ⟨rfl, rfl⟩
  · exact ⟨rfl, rfl⟩

theorem atom_dollar (w : List Char) : ∃ y, atom ('$' :: w) = some y := by
  have hliteral : literal ('$' :: w) = none :=
    (literal_apply (by decide) rfl (by decide)).trans (bind_none (exactly_none rfl (by decide)))
  have hname : name ('$' :: w) = some ('$' :: w.takeWhile isNameChar, w.dropWhile isNameChar) :=
    bind_of (if_pos rfl) (bind_of (satisfying_some rfl) rfl)
  exact ⟨_, (orElse_none hliteral).trans (map_some hname)⟩

/-- An operation is read off a name that hides one. -/
theorem binary_of_hidesOperation {x : List Char} (h : HidesOperation x) (r : List Char) :
    ∃ y, binary (x ++ r) = some y := by
  obtain ⟨op, hop, z, rfl⟩ := h
  obtain ⟨hblank, hread⟩ := operator_dollar hop (z ++ r)
  obtain ⟨⟨a, w⟩, ha⟩ := atom_dollar (z ++ r)
  refine ⟨(⟨.null, [], op, [], a⟩, w), ?_⟩
  rw [List.append_assoc, List.append_assoc, List.cons_append]
  refine bind_of atom_null ?_
  refine bind_of (gap_nil hblank) ?_
  refine bind_of hread ?_
  refine bind_of (gap_nil (blank_none rfl)) ?_
  exact bind_of ha rfl

theorem name_of_element {cs rest : List Char} {x : Element} (h : element cs = some (x, rest)) :
    ∃ r, name cs = some (x.base, r) := by
  obtain ⟨base, r, hbase, h⟩ := bind_eq_some.mp h
  obtain ⟨_, _, _, h⟩ := bind_eq_some.mp h
  obtain ⟨_, _, _, h⟩ := bind_eq_some.mp h
  obtain ⟨_, _, _, h⟩ := bind_eq_some.mp h
  obtain ⟨_, _, _, h⟩ := bind_eq_some.mp h
  obtain ⟨_, _, _, h⟩ := bind_eq_some.mp h
  obtain ⟨_, _, _, h⟩ := bind_eq_some.mp h
  cases h
  exact ⟨r, hbase⟩

theorem name_of_member {cs rest : List Char} {m : Member} (h : member cs = some (m, rest)) :
    ∃ r, name cs = some (m.owner, r) := by
  obtain ⟨owner, r, howner, h⟩ := bind_eq_some.mp h
  obtain ⟨_, _, _, h⟩ := bind_eq_some.mp h
  obtain ⟨_, _, _, h⟩ := bind_eq_some.mp h
  obtain ⟨_, _, _, h⟩ := bind_eq_some.mp h
  obtain ⟨_, _, _, h⟩ := bind_eq_some.mp h
  cases h
  exact ⟨r, howner⟩

/-- Elements and members are tried where no operation is read, so what they are of hides none. -/
theorem not_hidesOperation {cs x r : List Char} (h : binary cs = none)
    (hx : name cs = some (x, r)) : ¬ HidesOperation x := by
  intro hhide
  obtain ⟨y, hy⟩ := binary_of_hidesOperation hhide r
  rw [← (wordOf_eq_some hx).1, h] at hy
  cases hy

theorem tells_rightSide : Tells rightSide RightSide.MeansLegible := by
  refine .orElse (.map tells_newArray) (.orElse (.map tells_newObject) (.orElse (.map ?_)
    (.orElse (.map tells_cast) ?_)))
  · exact tells_invocation.mono fun i hi _ s p e he => (hi s p e he).1
  intro cs a rest h hrest
  rcases orElse_eq_some.mp h with h | ⟨hnone, h⟩
  · refine Tells.map ?_ cs a rest h hrest
    refine (tells_operation tells_operator).mono ?_
    intro o ho _ s p e he
    obtain ⟨a, b, rfl, -, ha, hb⟩ := ho s p e he
    exact ⟨ha, hb⟩
  have hbinary : binary cs = none := map_eq_none.mp hnone
  rcases orElse_eq_some.mp h with h | ⟨_, h⟩
  · exact Tells.map tells_negation cs a rest h hrest
  rcases orElse_eq_some.mp h with h | ⟨_, h⟩
  · obtain ⟨x, hx, rfl⟩ := map_eq_some.mp h
    obtain ⟨hplace, hcs⟩ := tells_element cs x rest hx hrest
    refine ⟨?_, hcs⟩
    intro _ s p e he
    obtain ⟨q, hq, he⟩ := Attempt.bind_eq_ok.mp he
    cases he
    obtain ⟨v, i, rfl, hknows, htext, hi⟩ := hplace s p q hq
    obtain ⟨r, hbase⟩ := name_of_element hx
    refine ⟨⟨⟨v, rfl, hknows⟩, hi⟩, ?_⟩
    rw [Expr.text, htext]
    exact not_hidesOperation hbinary hbase
  rcases orElse_eq_some.mp h with h | ⟨_, h⟩
  · obtain ⟨m, hm, rfl⟩ := map_eq_some.mp h
    obtain ⟨hnames, hcs⟩ := tells_member cs m rest hm hrest
    obtain ⟨r, howner⟩ := name_of_member hm
    refine ⟨?_, hcs⟩
    intro _ s p e he
    cases he
    exact m.isLegible_toExpr hnames (not_hidesOperation hbinary howner) s
  · refine Tells.map ?_ cs a rest h hrest
    refine tells_atom.mono ?_
    intro a ha _ s p e he
    exact (ha s p e he).isLegible

end RightSides

end MethodFlow.Source
