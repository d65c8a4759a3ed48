import MethodFlow.Proofs.AtomText
import MethodFlow.Proofs.Attempt

/-!
The text of a phrase: what stands on either side of an assignment, conditions and calls are read as
phrases that mean the same.
-/

namespace MethodFlow

namespace Source

open Reader

variable {x y rest r : List Char}

section Members

theorem IsWordOf.blank_append (hx : IsName x) : blank (x ++ r) = none := by
  obtain ⟨c, z, rfl⟩ := List.exists_cons_of_ne_nil hx.ne_nil
  exact blank_none (isSolid_of_isNameChar (hx.all_isNameChar c List.mem_cons_self))

theorem member_append (hx : IsName x) (hy : IsName y) (hrest : stops isNameChar rest = true) :
    member (x ++ '.' :: (y ++ rest)) = some (⟨x, [], [], y⟩, rest) := by
  refine bind_of (name_append hx rfl) ?_
  refine bind_of (gap_nil (blank_none rfl)) ?_
  refine bind_of (exactly_append "." _) ?_
  refine bind_of (gap_nil hy.blank_append) ?_
  exact bind_of (name_append hy hrest) rfl

/-- Neither a member nor an element is read off a name that goes on with neither mark. -/
theorem member_none {g : Gap} (hx : IsName x) (hrest : stops isNameChar rest = true)
    (hgap : gap rest = some (g, r)) (hr : exactly "." r = none) : member (x ++ rest) = none := by
  refine (bind_of (name_append hx hrest) rfl).trans ?_
  exact (bind_of hgap rfl).trans (bind_none hr)

theorem element_none {g : Gap} (hx : IsName x) (hrest : stops isNameChar rest = true)
    (hgap : gap rest = some (g, r)) (hr : exactly "[" r = none) : element (x ++ rest) = none := by
  refine (bind_of (name_append hx hrest) rfl).trans ?_
  exact (bind_of hgap rfl).trans (bind_none hr)

theorem leftSide_member (hx : IsName x) (hy : IsName y) (hrest : stops isNameChar rest = true) :
    leftSide (x ++ '.' :: (y ++ rest)) = some (.member ⟨x, [], [], y⟩, rest) := by
  have helement : element (x ++ '.' :: (y ++ rest)) = none :=
    element_none hx rfl (gap_nil (blank_none rfl)) rfl
  refine (orElse_none (map_none helement)).trans (orElse_some ?_)
  exact map_some (member_append hx hy hrest)

end Members

section Lists

theorem placed_items {α : Type} (print : α → List Char) (p : Pos) (l : Listed α) :
    (l.placed p print).map Prod.snd = l.first :: l.rest.map Later.item := by
  have hgo : ∀ (ls : List (Later α)) (p : Pos),
      (Listed.placed.go print p ls).map Prod.snd = ls.map Later.item := by
    intro ls
    induction ls with
    | nil => intro p; rfl
    | cons x ls ih => intro p; rw [Listed.placed.go, List.map_cons, List.map_cons, ih]
  rw [Listed.placed, List.map_cons, hgo]

/-- Later items, each behind a comma and a blank. -/
def laterText (ts : List (List Char)) : List Char :=
  ts.flatMap fun t => ',' :: ' ' :: t

theorem toList_intercalate_comma (t : String) (ts : List String) :
    (", ".intercalate (t :: ts)).toList = t.toList ++ laterText (ts.map String.toList) := by
  rw [String.toList_intercalate]
  induction ts generalizing t with
  | nil => simp [laterText]
  | cons u ts ih =>
    rw [List.map_cons, List.map_cons, List.intercalate_cons_cons, ← List.map_cons, ih]
    simp [laterText]

variable {α γ : Type} (item : Reader α) (text : γ → List Char) (R : γ → α → Prop)

/-- Where the text of each thing is read as an item for it, up to a comma or an end of the list,
the text of a list of things is read as a list of items for them. -/
theorem listed_reads {g : γ} {gs : List γ} (h : ∀ x ∈ g :: gs, ∃ a, R x a ∧
      ∀ rest, stops isNameChar rest = true → item (text x ++ rest) = some (a, rest))
    (hsolid : ∀ x ∈ gs, ∀ rest, blank (text x ++ rest) = none) :
    ∃ l : Listed α, List.Forall₂ R (g :: gs) (l.first :: l.rest.map Later.item) ∧
      ∀ rest, stops isNameChar rest = true → later item rest = none →
        listed item (text g ++ (laterText (gs.map text) ++ rest)) = some (l, rest) := by
  have hrun : ∃ ls : List (Later α), List.Forall₂ R gs (ls.map Later.item) ∧
      ∀ rest, stops isNameChar rest = true → later item rest = none →
        Run (later item) (laterText (gs.map text) ++ rest) ls rest ∧
          stops isNameChar (laterText (gs.map text) ++ rest) = true := by
    have htail := fun x hx => h x (List.mem_cons_of_mem g hx)
    clear h
    induction gs with
    | nil => exact ⟨[], .nil, fun rest hrest hend => ⟨.stop hend, hrest⟩⟩
    | cons x gs ih =>
      obtain ⟨a, ha, hread⟩ := htail x List.mem_cons_self
      obtain ⟨ls, hls, hrun⟩ := ih (fun y hy => hsolid y (List.mem_cons_of_mem x hy))
        fun y hy => htail y (List.mem_cons_of_mem x hy)
      refine ⟨⟨[], [.space ' '], a⟩ :: ls, .cons ha hls, fun rest hrest hend => ?_⟩
      obtain ⟨hmore, hstop⟩ := hrun rest hrest hend
      have htext : laterText ((x :: gs).map text) ++ rest =
          ',' :: ' ' :: (text x ++ (laterText (gs.map text) ++ rest)) := by
        simp [laterText]
      rw [htext]
      refine ⟨.step ?_ ?_ hmore, rfl⟩
      · refine bind_of (gap_nil (blank_none rfl)) ?_
        refine bind_of (exactly_append "," _) ?_
        refine bind_of (gap_space (hsolid x List.mem_cons_self _)) ?_
        exact bind_of (hread _ hstop) rfl
      · simp only [List.length_cons, List.length_append]
        omega
  obtain ⟨a, ha, hread⟩ := h g List.mem_cons_self
  obtain ⟨ls, hls, hrun⟩ := hrun
  refine ⟨⟨a, ls⟩, .cons ha hls, fun rest hrest hend => ?_⟩
  obtain ⟨hmore, hstop⟩ := hrun rest hrest hend
  exact bind_of (hread _ hstop) (bind_of hmore.many rfl)

end Lists

section Operators

theorem blank_symbol (op : BinOp) : blank (op.symbol.toList ++ ' ' :: r) = none := by
  cases op <;> rfl

theorem operator_append (op : BinOp) :
    operator (op.symbol.toList ++ ' ' :: r) = some (op, ' ' :: r) := by
  cases op <;> rfl

theorem relation_append {op : BinOp} (h : op.isCondition = true) :
    relation (op.symbol.toList ++ ' ' :: r) = some (op, ' ' :: r) := by
  cases op <;> first | rfl | cases h

theorem operatorOf_eq_some {ops : List BinOp} {op : BinOp} {cs : List Char}
    (h : operatorOf ops cs = some (op, r)) : op ∈ ops ∧ cs = op.symbol.toList ++ r := by
  induction ops with
  | nil => cases h
  | cons o ops ih =>
    rcases orElse_eq_some.mp h with h | ⟨_, h⟩
    · obtain ⟨_, _, h, hop⟩ := bind_eq_some.mp h
      cases hop
      exact ⟨List.mem_cons_self, exactly_eq_some.mp h⟩
    · obtain ⟨hmem, hcs⟩ := ih h
      exact ⟨List.mem_cons_of_mem o hmem, hcs⟩

end Operators

end Source

open Source Reader

variable {s : Scope} {e a b i : Expr} {c : Char} {r rest : List Char}

section Texts

namespace Expr

theorem bin_append (op : BinOp) (a b : Expr) (r : List Char) : (bin op a b).text.toList ++ r =
    a.text.toList ++ ' ' :: (op.symbol.toList ++ ' ' :: (b.text.toList ++ r)) := by
  simp [text]

theorem field_append (v : Var) (f : String) (r : List Char) :
    (field (.var v) f).text.toList ++ r = v.name.toList ++ '.' :: (f.toList ++ r) := by
  simp [text]

theorem static_append (c f : String) (r : List Char) :
    (static c f).text.toList ++ r = c.toList ++ '.' :: (f.toList ++ r) := by
  simp [text]

theorem element_append (v : Var) (i : Expr) (r : List Char) :
    (element (.var v) i).text.toList ++ r =
      v.name.toList ++ '[' :: (i.text.toList ++ ']' :: r) := by
  simp [text]

theorem call_append (q : Receiver) (m : String) (args : List Expr) (r : List Char) :
    (call q m args).text.toList ++ r =
      "invoke".toList ++ ' ' :: ((q.render ++ m).toList ++ '(' ::
        ((", ".intercalate (textAll args)).toList ++ ')' :: r)) := by
  simp [text]

end Expr

end Texts

theorem Expr.IsLegibleAtom.blank_append (h : e.IsLegibleAtom s) :
    blank (e.text.toList ++ r) = none := by
  obtain ⟨c, z, hz, hc⟩ := h.head
  rw [hz]
  exact blank_none (isSolid_of_isAtomStart hc)

/-- Two atoms with an operator between them are read as an operation. -/
theorem operation_reads {op : BinOp} {reader : Reader BinOp} (ha : a.IsLegibleAtom s)
    (hb : b.IsLegibleAtom s) (hw : (Expr.bin op a b).IsWritable)
    (hop : ∀ r, reader (op.symbol.toList ++ ' ' :: r) = some (op, ' ' :: r)) :
    ∃ o : Operation, (∀ p, o.meaning s p = .ok (.bin op a b)) ∧
      ∀ rest, stops isNameChar rest = true →
        operation reader ((Expr.bin op a b).text.toList ++ rest) = some (o, rest) := by
  obtain ⟨hwa, hwb⟩ := Expr.isWritable_bin.mp hw
  obtain ⟨x, hx, hxread⟩ := ha.reads hwa
  obtain ⟨y, hy, hyread⟩ := hb.reads hwb
  refine ⟨⟨x, [.space ' '], op, [.space ' '], y⟩, fun p => ?_, fun rest hrest => ?_⟩
  · simp only [Operation.meaning, hx, hy, Attempt.ok_bind, Attempt.pure_eq_ok]
  · rw [Expr.bin_append]
    refine bind_of (hxread _ rfl) ?_
    refine bind_of (gap_space (blank_symbol op)) ?_
    refine bind_of (hop _) ?_
    refine bind_of (gap_space hb.blank_append) ?_
    exact bind_of (hyread rest hrest) rfl

theorem element_reads {x : List Char} (hx : IsName x) (hi : i.IsLegibleAtom s)
    (hw : i.IsWritable) :
    ∃ l : Element, l.base = x ∧ (∀ p, l.index.meaning s p = .ok i) ∧
      ∀ rest, element (x ++ '[' :: (i.text.toList ++ ']' :: rest)) = some (l, rest) := by
  obtain ⟨y, hy, hread⟩ := hi.reads hw
  refine ⟨⟨x, [], [], y, []⟩, rfl, hy, fun rest => ?_⟩
  refine bind_of (name_append hx rfl) ?_
  refine bind_of (gap_nil (blank_none rfl)) ?_
  refine bind_of (exactly_append "[" _) ?_
  refine bind_of (gap_nil hi.blank_append) ?_
  refine bind_of (hread _ rfl) ?_
  refine bind_of (gap_nil (blank_none rfl)) ?_
  exact bind_of (exactly_append "]" rest) rfl

theorem Source.Scope.Knows.place_member {v : Var} (h : s.Knows v) (m : Member)
    (hm : m.owner = v.name.toList) : m.place s = .field (.var v) (String.ofList m.name) := by
  rw [Member.place, hm, String.ofList_toList, h.named]

theorem Source.place_static {x : String} (h : s.named? x = none) (m : Member)
    (hm : m.owner = x.toList) : m.place s = .static x (String.ofList m.name) := by
  rw [Member.place, hm, String.ofList_toList, h]

theorem Source.Scope.Knows.place_element {v : Var} (h : s.Knows v) {l : Element}
    (hl : l.base = v.name.toList) (hi : ∀ p, l.index.meaning s p = .ok i) (p : Pos) :
    l.place s p = .ok (.element (.var v) i) := by
  rw [Element.place, hi, Attempt.ok_bind, hl, h.lookup]
  rfl

/-- The text of a place is read as the left side of an assignment to it. -/
theorem Place.IsLegible.reads {q : Place} (h : q.IsLegible s) (hw : q.toExpr.IsWritable) :
    ∃ l : LeftSide, (∀ p, l.meaning s p = .ok q) ∧
      ∀ rest, leftSide (q.toExpr.text.toList ++ ' ' :: '=' :: rest) =
        some (l, ' ' :: '=' :: rest) := by
  cases q with
  | var v =>
    refine ⟨.name v.name.toList, fun p => ?_, fun rest => ?_⟩
    · rw [LeftSide.meaning, h.lookup]
      rfl
    · have hgap : gap (' ' :: '=' :: rest) = some ([.space ' '], '=' :: rest) :=
        gap_space (blank_none rfl)
      have helement := element_none h.isName rfl hgap rfl
      have hmember := member_none h.isName rfl hgap rfl
      refine (orElse_none (map_none helement)).trans ?_
      refine (orElse_none (map_none hmember)).trans ?_
      exact map_some (name_append h.isName rfl)
  | field x f =>
    obtain ⟨⟨v, rfl, hv⟩, hf⟩ := h
    refine ⟨.member ⟨v.name.toList, [], [], f.toList⟩, fun p => ?_, fun rest => ?_⟩
    · rw [LeftSide.meaning, hv.place_member _ rfl, String.ofList_toList]
    · rw [Place.toExpr, Expr.field_append]
      exact leftSide_member hv.isName hf rfl
  | static x f =>
    obtain ⟨hx, hname, hf⟩ := h
    refine ⟨.member ⟨x.toList, [], [], f.toList⟩, fun p => ?_, fun rest => ?_⟩
    · rw [LeftSide.meaning, place_static hx _ rfl, String.ofList_toList]
    · rw [Place.toExpr, Expr.static_append]
      exact leftSide_member hname hf rfl
  | element x i =>
    obtain ⟨⟨v, rfl, hv⟩, hi⟩ := h
    obtain ⟨l, hl, hindex, hread⟩ := element_reads hv.isName hi (Expr.isWritable_element.mp hw).2
    refine ⟨.element l, fun p => hv.place_element hl hindex p, fun rest => ?_⟩
    rw [Place.toExpr, Expr.element_append]
    exact orElse_some (map_some (hread _))

section Calls

theorem Receiver.IsLegible.reads {q : Receiver} {m : String} (h : q.IsLegible s)
    (hm : IsName m.toList) : ∃ k : Callee, k.meaning s = (q, m) ∧
      ∀ rest, callee ((q.render ++ m).toList ++ '(' :: rest) = some (k, '(' :: rest) := by
  cases q with
  | none =>
    refine ⟨.plain m.toList, ?_, fun rest => ?_⟩
    · rw [Callee.meaning, String.ofList_toList]
    · have htext : (Receiver.none.render ++ m).toList = m.toList := by simp [Receiver.render]
      rw [htext]
      have hmember : member (m.toList ++ '(' :: rest) = Option.none :=
        member_none hm rfl (gap_nil (blank_none rfl)) rfl
      exact (orElse_none (map_none hmember)).trans (map_some (name_append hm rfl))
  | object c =>
    refine ⟨.member ⟨c.toList, [], [], m.toList⟩, ?_, fun rest => ?_⟩
    · simp only [Callee.meaning, String.ofList_toList, h.1]
    · have htext : ((Receiver.object c).render ++ m).toList ++ '(' :: rest =
          c.toList ++ '.' :: (m.toList ++ '(' :: rest) := by
        simp [Receiver.render]
      rw [htext]
      exact orElse_some (map_some (member_append h.2 hm rfl))
  | var v =>
    refine ⟨.member ⟨v.name.toList, [], [], m.toList⟩, ?_, fun rest => ?_⟩
    · simp only [Callee.meaning, String.ofList_toList, h.named]
    · have htext : ((Receiver.var v).render ++ m).toList ++ '(' :: rest =
          v.name.toList ++ '.' :: (m.toList ++ '(' :: rest) := by
        simp [Receiver.render]
      rw [htext]
      exact orElse_some (map_some (member_append h.isName hm rfl))

/-- Where each atom means an expression at any place, a list of them means the list. -/
theorem Source.Arguments.meaning_of {x : Arguments} {args : List Expr}
    (h : List.Forall₂ (fun e (a : Atom) => ∀ p, a.meaning s p = .ok e) args
      (x.atoms.first :: x.atoms.rest.map Later.item)) (p : Pos) : x.meaning s p = .ok args := by
  rw [← placed_items Atom.text p, List.forall₂_map_right_iff] at h
  rw [Arguments.meaning, Attempt.mapM_eq_ok]
  exact (h.imp fun e y hy => hy y.1).flip

/-- The arguments of a call, in their brackets, are read as an optional list of atoms. -/
theorem arguments_reads {args : List Expr} (h : ∀ a ∈ args, a.IsLegibleAtom s)
    (hw : ∀ a ∈ args, a.IsWritable) :
    ∃ x : Option Arguments, (∀ p, x.elim (.ok []) (fun a => a.meaning s p) = .ok args) ∧
      ∀ rest, Reader.optional arguments
        ((", ".intercalate (Expr.textAll args)).toList ++ ')' :: rest) =
          some (x, ')' :: rest) := by
  cases args with
  | nil =>
    exact ⟨none, fun p => rfl, fun rest => optional_none (bind_none (bind_none (atom_none rfl)))⟩
  | cons a args =>
    obtain ⟨l, hl, hread⟩ := listed_reads atom (fun e : Expr => e.text.toList)
      (fun e (a : Atom) => ∀ p, a.meaning s p = .ok e) (fun x hx => (h x hx).reads (hw x hx))
      (fun x hx rest => (h x (List.mem_cons_of_mem a hx)).blank_append)
    refine ⟨some ⟨l, []⟩, fun p => Arguments.meaning_of hl p, fun rest => optional_some ?_⟩
    have hend : later atom (')' :: rest) = none :=
      bind_of (gap_nil (blank_none rfl)) (bind_none rfl)
    have htext : (", ".intercalate (Expr.textAll (a :: args))).toList ++ ')' :: rest =
        a.text.toList ++ (laterText (args.map fun e => e.text.toList) ++ ')' :: rest) := by
      rw [Expr.textAll_eq_map, List.map_cons, toList_intercalate_comma, List.map_map,
        List.append_assoc]
      rfl
    rw [htext]
    exact bind_of (hread _ rfl hend) (bind_of (gap_nil (blank_none rfl)) rfl)

/-- The text of a call is read as a call. -/
theorem call_reads {q : Receiver} {m : String} {args : List Expr}
    (h : (Expr.call q m args).IsLegible s) (hw : (Expr.call q m args).IsWritable) :
    ∃ i : Invocation, (∀ p, i.meaning s p = .ok (.call q m args)) ∧
      ∀ rest, invocation ((Expr.call q m args).text.toList ++ rest) = some (i, rest) := by
  obtain ⟨hq, hm, hargs⟩ := h
  obtain ⟨k, hk, hkread⟩ := hq.reads hm
  obtain ⟨x, hx, hxread⟩ := arguments_reads hargs (Expr.isWritable_call.mp hw)
  refine ⟨⟨[.space ' '], k, [], [], x⟩, fun p => ?_, fun rest => ?_⟩
  · simp only [Invocation.meaning, hk, hx, Attempt.ok_bind, Attempt.pure_eq_ok]
  · have hsolid : ∀ r, blank ((q.render ++ m).toList ++ r) = none := by
      intro r
      rw [String.toList_append, List.append_assoc]
      cases q with
      | none => exact hm.blank_append
      | object c =>
        rw [Receiver.render, String.toList_append, List.append_assoc]
        exact hq.2.blank_append
      | var v =>
        rw [Receiver.render, String.toList_append, List.append_assoc]
        exact hq.isName.blank_append
    have hinside : ∀ r, blank ((", ".intercalate (Expr.textAll args)).toList ++ ')' :: r) =
        none := by
      intro r
      cases args with
      | nil => exact blank_none rfl
      | cons a args =>
        rw [Expr.textAll, toList_intercalate_comma, List.append_assoc]
        exact (hargs a List.mem_cons_self).blank_append
    rw [Expr.call_append]
    refine bind_of (exactly_append "invoke" _) ?_
    refine bind_of (gap1_space (hsolid _)) ?_
    refine bind_of (hkread _) ?_
    refine bind_of (gap_nil (blank_none rfl)) ?_
    refine bind_of (exactly_append "(" _) ?_
    refine bind_of (gap_nil (hinside _)) ?_
    refine bind_of (hxread _) ?_
    exact bind_of (exactly_append ")" rest) rfl

end Calls

end MethodFlow
