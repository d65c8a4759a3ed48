import Mathlib.Order.Bounds.Basic
import MethodFlow.Proofs.FactLooks

/-!
Merging of facts. What constant propagation knows on several paths is merged into the least fact
above all of them, so neither the order of the paths nor how often one of them comes counts.
-/

namespace MethodFlow

namespace ConstMap

/-- One fact is below another when it says no more about any variable. -/
instance : Preorder ConstMap := Preorder.lift get

theorem le_def {a b : ConstMap} : a ≤ b ↔ ∀ v, a.get v ≤ b.get v := Iff.rfl

theorem same_iff_le {a b : ConstMap} : a.same b = true ↔ a ≤ b ∧ b ≤ a := by
  rw [same_iff, le_def, le_def, ← forall_and]
  exact forall_congr' fun v => le_antisymm_iff

/-- All facts of a list, merged one after the other into the fact that knows nothing. -/
def mergeAll (fs : List ConstMap) : ConstMap :=
  fs.foldl (fun acc f => f.merge acc) ∅

theorem mergeAll_le_iff {fs : List ConstMap} {b : ConstMap} :
    mergeAll fs ≤ b ↔ ∀ f ∈ fs, f ≤ b := by
  have hmerge : ∀ a b : ConstMap, (a.merge b).get = a.get ⊔ b.get := fun a b =>
    funext (get_merge a b)
  have h := foldl_merge_le_iff hmerge fs ∅ b.get
  have hempty : (∅ : ConstMap).get ≤ b.get := fun v => bot_le
  exact h.trans (and_iff_right hempty)

theorem mergeAll_isLUB (fs : List ConstMap) : IsLUB {f | f ∈ fs} (mergeAll fs) :=
  ⟨fun _ hf => mergeAll_le_iff.mp le_rfl _ hf, fun _ hb => mergeAll_le_iff.mpr fun _ hf => hb hf⟩

theorem mergeAll_same {fs gs : List ConstMap} (h : ∀ f, f ∈ gs ↔ f ∈ fs) :
    (mergeAll gs).same (mergeAll fs) = true := by
  rw [same_iff_le, mergeAll_le_iff, mergeAll_le_iff]
  constructor
  · intro f hf
    exact (mergeAll_isLUB fs).1 ((h f).mp hf)
  · intro f hf
    exact (mergeAll_isLUB gs).1 ((h f).mpr hf)

/-- Merging one fact into another meets what the two say about each variable. Merging the facts of a
list into the empty one gives the least fact above all of them; facts that come in another order, or
several times, give the same. -/
theorem merge_joins :
    (∀ (a t : ConstMap) (v : Var), (a.merge t).get v = (a.get v).meet (t.get v)) ∧
      ∀ fs gs : List ConstMap, (∀ f, f ∈ gs ↔ f ∈ fs) →
        (mergeAll gs).same (mergeAll fs) = true ∧ IsLUB {f | f ∈ fs} (mergeAll gs) := by
  refine ⟨get_merge, fun fs gs h => ⟨mergeAll_same h, ?_⟩⟩
  have hset : {f | f ∈ fs} = {f | f ∈ gs} := Set.ext fun f => (h f).symm
  rw [hset]
  exact mergeAll_isLUB gs

/-- Three paths on which one variable has different constants and another is known on one only. -/
theorem merge_joins_differing :
    let x : Var := ⟨"x", .prim .int⟩
    let y : Var := ⟨"y", .prim .int⟩
    let one := ofList [(x, .const 1)]
    let two := ofList [(y, .const 2), (x, .const 1)]
    let three := ofList [(x, .const 3)]
    let merged := mergeAll [three, two, one, three]
    merged.same (mergeAll [one, two, three]) = true ∧
      IsLUB {f | f ∈ [one, two, three]} merged ∧
      merged.get x = .nac ∧ merged.get y = .const 2 := by
  intro x y one two three merged
  have hmem : ∀ f, f ∈ [three, two, one, three] ↔ f ∈ [one, two, three] := by
    intro f
    simp only [List.mem_cons, List.not_mem_nil, or_false]
    tauto
  obtain ⟨hsame, hlub⟩ := merge_joins.2 [one, two, three] [three, two, one, three] hmem
  exact ⟨hsame, hlub, by decide, by decide⟩

end ConstMap

end MethodFlow
