import Mathlib
import MethodFlow.ConstProp
import MethodFlow.Liveness
import MethodFlow.Proofs.ValueOrder

/-!
Dataflow problems whose facts are compared through a view into a join semilattice, where merging is
the join. Constant propagation and liveness are such problems.
-/

namespace MethodFlow

/-- Facts say the same exactly when their views are equal, and merging joins the views. -/
structure Problem.Joining {F α : Type} [Fact F] [SemilatticeSup α] [OrderBot α]
    (p : Problem F) (view : F → α) : Prop where
  same_iff : ∀ {a b : F}, Fact.same a b = true ↔ view a = view b
  initial : view p.initial = ⊥
  merge : ∀ a b : F, view (p.merge a b) = view a ⊔ view b

/-- Merging facts one after the other joins all their views. -/
theorem foldl_merge_le_iff {F α : Type} [SemilatticeSup α] {merge : F → F → F} {view : F → α}
    (h : ∀ a b, view (merge a b) = view a ⊔ view b) (fs : List F) (acc : F) (x : α) :
    view (fs.foldl (fun acc f => merge f acc) acc) ≤ x ↔ view acc ≤ x ∧ ∀ f ∈ fs, view f ≤ x := by
  induction fs generalizing acc with
  | nil => simp
  | cons f fs ih =>
    rw [List.foldl_cons, ih, h, sup_le_iff, List.forall_mem_cons]
    constructor
    · rintro ⟨⟨hf, hacc⟩, hfs⟩
      exact ⟨hacc, hf, hfs⟩
    · rintro ⟨hacc, hf, hfs⟩
      exact ⟨⟨hf, hacc⟩, hfs⟩

namespace ConstMap

theorem get_eq_lookup (f : ConstMap) (v : Var) :
    f.get v = (OrderedMap.lookup v f.map.entries).getD .undef := rfl

/-- Recording pairs with different variables one after the other meets each variable once. -/
theorem get_foldl_meet {es : List (Var × Value)} (h : (es.map Prod.fst).Nodup) (t : ConstMap)
    (v : Var) :
    (es.foldl (fun f e => f.set e.1 (e.2.meet (f.get e.1))) t).get v =
      ((OrderedMap.lookup v es).getD .undef).meet (t.get v) := by
  induction es generalizing t with
  | nil => rfl
  | cons e es ih =>
    obtain ⟨w, x⟩ := e
    obtain ⟨hw, hes⟩ := List.nodup_cons.mp h
    rw [List.foldl_cons, ih hes, get_set]
    by_cases hv : w = v
    · subst hv
      have hn : OrderedMap.lookup w es = none := OrderedMap.lookup_eq_none_iff.mpr hw
      simp only [OrderedMap.lookup, hn, if_true, Option.getD_none, Option.getD_some]
      rfl
    · simp only [OrderedMap.lookup, hv, if_false]

theorem get_merge (a t : ConstMap) (v : Var) : (a.merge t).get v = (a.get v).meet (t.get v) := by
  rw [merge, get_foldl_meet a.map.nodup_keys, get_eq_lookup a]

end ConstMap

theorem ConstMap.same_iff_get {a b : ConstMap} : a.same b = true ↔ a.get = b.get :=
  same_iff.trans funext_iff.symm

theorem ConstProp.joining (m : Method) : (ConstProp.problem m).Joining ConstMap.get where
  same_iff := ConstMap.same_iff_get
  initial := rfl
  merge a b := funext fun v => ConstMap.get_merge a b v

def VarSet.members (s : VarSet) : Set Var :=
  {v | v ∈ s}

@[simp] theorem VarSet.mem_members {s : VarSet} {v : Var} : v ∈ s.members ↔ v ∈ s := Iff.rfl

theorem VarSet.same_iff_members {s t : VarSet} : s.same t = true ↔ s.members = t.members :=
  same_iff.trans Set.ext_iff.symm

theorem Liveness.joining (m : Method) : (Liveness.problem m).Joining VarSet.members where
  same_iff := VarSet.same_iff_members
  initial := by
    ext v
    simp only [VarSet.mem_members, Set.bot_eq_empty, Set.mem_empty_iff_false, iff_false]
    exact VarSet.not_mem_empty v
  merge a b := by
    ext v
    exact VarSet.mem_union.trans or_comm

namespace Fact

variable {F α : Type} [Fact F] {view : F → α}

theorem view_overwrite (h : ∀ {a b : F}, same a b = true ↔ view a = view b) (old new : F) :
    view (overwrite old new).1 = view new := by
  unfold overwrite
  split
  · rename_i hs
    exact h.mp hs
  · rfl

theorem overwrite_changed (h : ∀ {a b : F}, same a b = true ↔ view a = view b) (old new : F) :
    (overwrite old new).2 = true ↔ view old ≠ view new := by
  rw [ne_eq, ← h (a := old)]
  unfold overwrite
  split
  · rename_i hs
    simp [hs]
  · rename_i hs
    simp [hs]

/-- A fact that is written over one that it differs from stands; otherwise the old one stays. -/
theorem overwrite_unchanged {old new : F} (h : (overwrite old new).2 = false) :
    (overwrite old new).1 = old := by
  unfold overwrite at h ⊢
  split
  · rfl
  · rename_i hs
    simp [hs] at h

end Fact

namespace Problem.Joining

variable {F α : Type} [Fact F] [SemilatticeSup α] [OrderBot α] {p : Problem F} {view : F → α}

theorem view_overwrite (h : p.Joining view) (old new : F) :
    view (Fact.overwrite old new).1 = view new :=
  Fact.view_overwrite h.same_iff old new

theorem overwrite_changed (h : p.Joining view) (old new : F) :
    (Fact.overwrite old new).2 = true ↔ view old ≠ view new :=
  Fact.overwrite_changed h.same_iff old new

end Problem.Joining

end MethodFlow
