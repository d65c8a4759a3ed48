import MethodFlow.Expr
import MethodFlow.Fact.Basic

/-!
Facts of liveness: sets of variables, listed in the order in which they came in. The view of a set
is membership.
-/

namespace MethodFlow

structure VarSet where
  elems : List Var
  nodup : elems.Nodup

namespace VarSet

def empty : VarSet := ⟨[], List.nodup_nil⟩

instance : EmptyCollection VarSet := ⟨empty⟩

instance : Membership Var VarSet := ⟨fun s v => v ∈ s.elems⟩

instance (v : Var) (s : VarSet) : Decidable (v ∈ s) :=
  inferInstanceAs (Decidable (v ∈ s.elems))

theorem nodup_concat {v : Var} {vs : List Var} (hn : vs.Nodup) (hv : v ∉ vs) :
    (vs ++ [v]).Nodup := by
  rw [List.nodup_append]
  refine ⟨hn, by simp, ?_⟩
  intro a ha b hb hab
  rw [List.mem_singleton] at hb
  exact hv (hb ▸ hab ▸ ha)

def add (s : VarSet) (v : Var) : VarSet :=
  if h : v ∈ s.elems then s else ⟨s.elems ++ [v], nodup_concat s.nodup h⟩

def remove (s : VarSet) (v : Var) : VarSet :=
  ⟨s.elems.filter fun w => w ≠ v, s.nodup.sublist List.filter_sublist⟩

/-- Adds the variables of `t` to `s` in their order. -/
def union (s t : VarSet) : VarSet :=
  t.elems.foldl add s

/-- `add`, and whether it changed the set. -/
def insert (s : VarSet) (v : Var) : VarSet × Bool :=
  (s.add v, decide (v ∉ s))

/-- `remove`, and whether it changed the set. -/
def erase (s : VarSet) (v : Var) : VarSet × Bool :=
  (s.remove v, decide (v ∈ s))

/-- `union`, and whether it changed the set. -/
def absorb (s t : VarSet) : VarSet × Bool :=
  (s.union t, t.elems.any fun v => decide (v ∉ s))

def ofList (vs : List Var) : VarSet :=
  vs.foldl add ∅

def size (s : VarSet) : Nat :=
  s.elems.length

def same (s t : VarSet) : Bool :=
  s.size == t.size && s.elems.all fun v => decide (v ∈ t)

def render (s : VarSet) : String :=
  "[" ++ ", ".intercalate (s.elems.map Var.name) ++ "]"

instance : Fact VarSet := ⟨same, fun s => .ok s.render⟩

theorem mem_def {v : Var} {s : VarSet} : v ∈ s ↔ v ∈ s.elems := Iff.rfl

@[simp] theorem not_mem_empty (v : Var) : v ∉ (∅ : VarSet) := List.not_mem_nil

@[simp] theorem mem_add {v w : Var} {s : VarSet} : v ∈ s.add w ↔ v = w ∨ v ∈ s := by
  unfold add
  split
  · rename_i h
    constructor
    · exact Or.inr
    · rintro (rfl | hv)
      · exact h
      · exact hv
  · simp [mem_def, or_comm]

@[simp] theorem mem_remove {v w : Var} {s : VarSet} : v ∈ s.remove w ↔ v ∈ s ∧ v ≠ w := by
  simp [remove, mem_def]

@[simp] theorem mem_union {v : Var} {s t : VarSet} : v ∈ s.union t ↔ v ∈ s ∨ v ∈ t := by
  suffices h : ∀ (vs : List Var) (s : VarSet), v ∈ vs.foldl add s ↔ v ∈ s ∨ v ∈ vs from
    h t.elems s
  intro vs
  induction vs with
  | nil => simp
  | cons w ws ih =>
    intro s
    rw [List.foldl_cons, ih, mem_add, List.mem_cons]
    constructor
    · rintro ((h | h) | h) <;> simp [h]
    · rintro (h | h | h) <;> simp [h]

/-- Two sets are the same exactly when they have the same members. -/
theorem same_iff {s t : VarSet} : s.same t = true ↔ ∀ v, v ∈ s ↔ v ∈ t := by
  simp only [same, size, Bool.and_eq_true, beq_iff_eq, List.all_eq_true, decide_eq_true_eq]
  constructor
  · rintro ⟨hl, hs⟩ v
    refine ⟨hs v, fun hv => ?_⟩
    by_cases h : v ∈ s.elems
    · exact h
    · exfalso
      have := List.Nodup.length_le_of_subset (List.nodup_cons.mpr ⟨h, s.nodup⟩)
        (fun w hw => (List.mem_cons.mp hw).elim (fun he => he ▸ hv) (hs w))
      simp at this
      omega
  · intro h
    refine ⟨Nat.le_antisymm ?_ ?_, fun v hv => (h v).mp hv⟩
    · exact List.Nodup.length_le_of_subset s.nodup fun v hv => (h v).mp hv
    · exact List.Nodup.length_le_of_subset t.nodup fun v hv => (h v).mpr hv

end VarSet

end MethodFlow
