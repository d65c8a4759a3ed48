import MethodFlow.Proofs.ParsedCode
import MethodFlow.Proofs.ParsedPhrases
import MethodFlow.Proofs.Repeats

/-!
Statements as they are read mean legible statements only, and a body of them has jumps to its own
statements only.
-/

namespace MethodFlow

/-- Other jumps leave a statement legible. -/
theorem Instr.Rel.isLegible {τ σ : Type} {R : τ → σ → Prop} {i : Instr τ} {i' : Instr σ}
    {s : Source.Scope} {jump : σ → Prop} (h : Instr.Rel R i i') (hjump : ∀ x t, R x t → jump t)
    (hi : i.IsLegible s fun _ => True) : i'.IsLegible s jump := by
  cases h with
  | assign _ _ | call _ _ | ret _ | nop => exact hi
  | branch _ ht => exact ⟨hi.1, hjump _ _ ht⟩
  | goto ht => exact hjump _ _ ht
  | switch _ _ hts hd =>
    obtain ⟨hv, hks, hlength, -, -⟩ := hi
    exact ⟨hv, hks, hlength.trans hts.length_eq, Attempt.forall_mem_of_forall₂ hts hjump,
      hjump _ _ hd⟩

namespace Source

open Reader

section Commands

variable {s : Scope} {p : Pos}

def Command.types : Command → List TypeName
  | assign a => a.right.types
  | _ => []

/-- A command that means legible statements only, if there are no comments in its type names. The
labels that a statement names are of no account. -/
def Command.MeansLegible (c : Command) : Prop :=
  (∀ t ∈ c.types, t.isBare = true) → ∀ s p i, c.meaning s p = .ok i → i.IsLegible s fun _ => True

theorem tells_jumpTo : Tells jumpTo fun _ => True := by
  refine tells_mark rfl (tells_past_gap1 fun _ => tells_name.bind fun x => ?_)
  refine tells_past_gap fun _ => tells_mark rfl (tells_pure ?_)
  intro _
  trivial

theorem tells_branch : Tells branch fun b => (Command.branch b).MeansLegible := by
  refine tells_mark rfl (tells_past_gap fun _ => tells_mark rfl (tells_past_gap fun _ => ?_))
  refine (tells_operation tells_relation).bind fun o => ?_
  refine tells_past_gap fun _ => tells_mark rfl (tells_past_gap fun _ => ?_)
  refine tells_jumpTo.bind fun j => tells_pure ?_
  intro _ ho _ s p i hi
  obtain ⟨e, he, hi⟩ := Attempt.bind_eq_ok.mp hi
  cases hi
  obtain ⟨a, b, rfl, hop, ha, hb⟩ := ho s _ e he
  exact ⟨⟨hop, ha, hb⟩, trivial⟩

theorem tells_case : Tells case fun _ => True := by
  refine tells_mark rfl (tells_past_gap1 fun _ => tells_number.bind fun k => ?_)
  refine tells_past_gap fun _ => tells_mark rfl (tells_past_gap fun _ => ?_)
  refine tells_jumpTo.bind fun j => tells_past_gap fun _ => tells_pure ?_
  intro _ _
  trivial

theorem tells_default : Tells default fun _ => True := by
  refine tells_mark rfl (tells_past_gap fun _ => tells_mark rfl (tells_past_gap fun _ => ?_))
  refine tells_jumpTo.bind fun j => tells_past_gap fun _ => tells_pure ?_
  intro _
  trivial

theorem tells_switch : Tells switch fun w => (Command.switch w).MeansLegible := by
  refine tells_mark rfl (tells_past_gap fun _ => tells_mark rfl (tells_past_gap fun _ => ?_))
  refine tells_name.bind fun x => tells_past_gap fun _ => tells_mark rfl ?_
  refine tells_past_gap fun _ => tells_mark rfl (tells_past_gap fun _ => ?_)
  refine tells_case.many.bind fun cs => tells_default.bind fun d => tells_mark rfl (tells_pure ?_)
  intro _ _ hx _ s p i hi
  obtain ⟨_, v, _, _, hv, hrepeated, rfl⟩ := Switch.parts_of_meaning hi
  refine ⟨(knows_of_lookup hx hv).1, repeated?_eq_none.mp hrepeated, ?_, fun _ _ => trivial,
    trivial⟩
  rw [List.length_map, List.length_map]

theorem tells_assignment : Tells assignment fun a => (Command.assign a).MeansLegible := by
  refine tells_leftSide.bind fun l => tells_past_gap fun _ => tells_mark rfl ?_
  refine tells_past_gap fun _ => tells_rightSide.bind fun r => ?_
  refine tells_past_gap fun _ => tells_mark rfl (tells_pure ?_)
  intro hr hl hbare s p i hi
  obtain ⟨q, e, hq, he, hi⟩ := Assignment.parts_of_meaning hi
  have hplace := hl s p q hq
  have hvalue := hr hbare s _ e he
  have hcall := (RightSide.isFlat_of_meaning he).2
  rcases hi with ⟨hno, rfl⟩ | ⟨hyes, ⟨v, rfl⟩, rfl⟩
  · exact ⟨hplace, hvalue, hcall.trans hno⟩
  · refine ⟨?_, hvalue, hcall.trans hyes⟩
    intro w hw
    cases hw
    exact ⟨v, rfl, hplace⟩

theorem tells_returnCommand : Tells returnCommand Command.MeansLegible := by
  have hreturned : Tells returned fun r => r.value.MeansLegible :=
    tells_past_gap1 fun _ => tells_atom.bind fun _ => tells_pure id
  refine tells_mark rfl (hreturned.optional.bind fun r => ?_)
  refine tells_past_gap fun _ => tells_mark rfl (tells_pure ?_)
  intro hr _ s p i hi
  cases r with
  | none =>
    cases hi
    intro x hx
    cases hx
  | some r =>
    obtain ⟨e, he, hi⟩ := Attempt.bind_eq_ok.mp hi
    cases hi
    intro x hx
    cases hx
    exact hr r rfl s _ e he

/-- Commands mean legible statements. -/
theorem tells_command : Tells command Command.MeansLegible := by
  refine .orElse tells_returnCommand (.orElse (.map (tells_jumpTo.mono ?_))
    (.orElse (.map tells_branch) (.orElse (.map tells_switch) (.orElse ?_ (.orElse ?_
      (.map tells_assignment))))))
  · intro j _ _ s p i hi
    cases hi
    trivial
  · refine tells_mark rfl (tells_past_gap fun _ => tells_mark rfl (tells_pure ?_))
    intro _ s p i hi
    cases hi
    trivial
  · refine tells_invocation.bind fun x => tells_past_gap fun _ => tells_mark rfl (tells_pure ?_)
    intro hx _ s p i hi
    obtain ⟨e, he, hi⟩ := Attempt.bind_eq_ok.mp hi
    cases hi
    refine ⟨?_, hx s p e he⟩
    intro q hq
    cases hq

end Commands

section Layouts

variable {s : Scope} {p : Pos} {l l' : Layout LabelRef}

def Item.types : Item → List TypeName
  | label _ => []
  | statement x => x.command.types

/-- A layout of legible statements, with no label behind the place where the next one goes. -/
structure Layout.IsLegible (s : Scope) (l : Layout LabelRef) : Prop where
  stmts : ∀ x ∈ l.stmts, x.instr.IsLegible s fun _ => True
  marks : ∀ m ∈ l.marks, m.index ≤ l.stmts.length

/-- An item that keeps layouts legible, if there are no comments in its type names. -/
def Item.KeepsLegible (x : Item) : Prop :=
  (∀ t ∈ x.types, t.isBare = true) →
    ∀ s p (l l' : Layout LabelRef), l.IsLegible s → l.add s p x = .ok l' → l'.IsLegible s

theorem tells_item : Tells item Item.KeepsLegible := by
  refine .orElse (.map ?_) (.map ?_)
  · refine tells_name.bind fun x => tells_past_gap fun _ => tells_mark rfl ?_
    refine tells_past_gap fun _ => tells_pure ?_
    intro _ _ s p l l' hl h
    cases h
    refine ⟨hl.stmts, ?_⟩
    intro m hm
    rcases List.mem_append.mp hm with hm | hm
    · exact hl.marks m hm
    · rw [List.mem_singleton.mp hm]
  · refine tells_command.bind fun c => tells_past_gap fun _ => tells_pure ?_
    intro hc hbare s p l l' hl h
    obtain ⟨i, hi, h⟩ := Attempt.bind_eq_ok.mp h
    cases h
    refine ⟨?_, ?_⟩
    · intro x hx
      rcases List.mem_append.mp hx with hx | hx
      · exact hl.stmts x hx
      · rw [List.mem_singleton.mp hx]
        exact hc hbare s p i hi
    · intro m hm
      rw [List.length_append]
      exact Nat.le_add_right_of_le (hl.marks m hm)

theorem Layout.IsLegible.ofItems {xs : List Item} (hxs : ∀ x ∈ xs, x.KeepsLegible)
    (hbare : ∀ t ∈ xs.flatMap Item.types, t.isBare = true) (hl : l.IsLegible s)
    (h : Layout.ofItems s p l xs = .ok l') : l'.IsLegible s := by
  induction xs generalizing p l with
  | nil =>
    cases h
    exact hl
  | cons x xs ih =>
    rw [List.flatMap_cons, List.forall_mem_append] at hbare
    obtain ⟨hx, hxs⟩ := List.forall_mem_cons.mp hxs
    obtain ⟨l₁, h₁, h⟩ := Attempt.bind_eq_ok.mp h
    exact ih hxs hbare.2 (hx hbare.1 s p l l₁ hl h₁) h

/-- Behind the check of its labels, a layout leads to its own statements only. -/
theorem Layout.isWithin_of_resolve (hl : l.IsLegible s) (hcheck : l.check = .ok ()) {x : LabelRef}
    {t : Target} (h : l.resolve x = .ok t) : t.IsWithin l.stmts.length := by
  unfold Layout.resolve at h
  split at h
  · rename_i m hm
    cases h
    have hmem := List.mem_of_find?_eq_some hm
    refine ⟨m.index, Nat.lt_of_le_of_ne (hl.marks m hmem) ?_, rfl⟩
    unfold Layout.check at hcheck
    split at hcheck
    · cases hcheck
    · split at hcheck
      · cases hcheck
      · rename_i hdangling
        have hfind := Option.map_eq_none_iff.mp hdangling
        simpa using List.find?_eq_none.mp hfind m hmem
  · cases h

theorem Layout.IsLegible.body {xs : List Stmt} (hl : l.IsLegible s) (h : l.body = .ok xs) :
    ∀ x ∈ xs, x.instr.IsLegible s (Target.IsWithin xs.length) := by
  obtain ⟨hcheck, hrel⟩ := rel_of_body h
  refine forall_body h hl.stmts fun i i' hi hlegible => hi.isLegible (fun x t ht => ?_) hlegible
  exact hrel.length_eq ▸ isWithin_of_resolve hl hcheck ht

end Layouts

end Source

end MethodFlow
