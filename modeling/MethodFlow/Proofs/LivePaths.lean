import Mathlib
import MethodFlow.Proofs.BackwardLeast
import MethodFlow.Proofs.LiveRun

/-!
Liveness is exact: the backward solver comes to an end, and a variable is live in front of a node
exactly when a path leads from the node to one that reads the variable, and no node before that one
sets it.
-/

namespace MethodFlow

/-- The variables that the statements of a method read. -/
def Method.readVars (m : Method) : List Var :=
  m.body.flatMap fun s => s.instr.usedVars

namespace Liveness

open Problem

/-- Control passes on from `a` to `b`, and `a` does not set `v`. -/
def PassesOn (m : Method) (g : Cfg) (v : Var) (a b : Node) : Prop :=
  b ∈ g.succs a ∧ (a.instr m).def? ≠ some v

/-- A path leads from a node to one that reads `v`, and no node before that one sets `v`. -/
def ReadAhead (m : Method) (g : Cfg) (v : Var) (n : Node) : Prop :=
  ∃ k, Relation.ReflTransGen (PassesOn m g v) n k ∧ v ∈ (k.instr m).usedVars

variable {m : Method} {g : Cfg} {t : FactTable VarSet} {n : Node} {v : Var}

theorem usedVars_subset (m : Method) (n : Node) (h : v ∈ (n.instr m).usedVars) :
    v ∈ m.readVars := by
  rcases n.instr_cases m with hn | ⟨s, hs, hn⟩
  · rw [hn] at h
    cases h
  · rw [hn] at h
    exact List.mem_flatMap.mpr ⟨s, hs, h⟩

theorem isMonotone (m : Method) :
    (problem m).IsMonotone VarSet.members (Set.Iic {v | v ∈ m.readVars}) where
  toJoining := joining m
  mono n a b h := by
    intro v hv
    rcases mem_transfer.mp hv with hu | ⟨ha, hd⟩
    · exact mem_transfer.mpr (Or.inl hu)
    · exact mem_transfer.mpr (Or.inr ⟨h ha, hd⟩)
  bot_mem := Set.mem_Iic.mpr bot_le
  sup_mem hx hy := Set.mem_Iic.mpr (sup_le hx hy)
  boundary_mem := by
    intro v hv
    exact absurd hv (VarSet.not_mem_empty v)
  transfer_mem n a h := by
    intro v hv
    rcases mem_transfer.mp hv with hu | ⟨ha, _⟩
    · exact usedVars_subset m n hu
    · exact h ha
  ascent := by
    have hfinite : (Set.Iic {v | v ∈ m.readVars}).Finite := m.readVars.finite_toSet.finite_subsets
    have := hfinite.to_subtype
    exact Finite.to_wellFoundedGT

/-- The paths that end in a reading node bound what is live. -/
theorem bounds_readAhead (m : Method) (g : Cfg) : Bounds (problem m) g VarSet.members
    (fun
      | .input, n => {v | ReadAhead m g v n}
      | .output, n => {v | ∃ k ∈ g.succs n, ReadAhead m g v k}) where
  boundary side v hv := absurd hv (VarSet.not_mem_empty v)
  output n k hk v hv := ⟨k, hk, hv⟩
  input n a ha v hv := by
    rcases mem_transfer.mp hv with hu | ⟨hmem, hd⟩
    · exact ⟨n, .refl, hu⟩
    · obtain ⟨k, hk, q, hq, hu⟩ := ha hmem
      exact ⟨q, hq.head ⟨hk, hd⟩, hu⟩

/-- What is read at the end of a path is live all along it. -/
theorem Solved.input_of_readAhead (h : Solved m g t) (hg : g.Closed)
    (hexit : ∀ k, k ∉ g.succs .exit) (hn : g.has n = true) (hr : ReadAhead m g v n) :
    v ∈ t.look ∅ .input n := by
  obtain ⟨k, hpath, hu⟩ := hr
  induction hpath using Relation.ReflTransGen.head_induction_on with
  | refl =>
    have hk : k ≠ .exit := by
      rintro rfl
      simp [Node.instr, Instr.usedVars, Instr.uses] at hu
    exact (h.input hn hk).mpr (Or.inl hu)
  | @head a b hab _ ih =>
    obtain ⟨hb, hd⟩ := hab
    have ha : a ≠ .exit := by
      rintro rfl
      exact hexit b hb
    have hlive := h.output hn ha hb (ih (hg.target hb))
    exact (h.input hn ha).mpr (Or.inr ⟨hlive, hd⟩)

/-- Liveness is always found, and what is found is live in front of a node exactly when it is read
ahead of the node, and behind it exactly when it is live in front of one of its successors. -/
theorem live_iff_readAhead {m : Method} (hm : m.Resolved) : ∃ g, Cfg.build m = .ok g ∧
    (∃ fuel sol, (problem m).solveBackward g fuel = .ok sol) ∧
    ∀ {fuel : Nat} {sol : Solution VarSet}, (problem m).solveBackward g fuel = .ok sol →
      ∀ n ∈ g.nodes, ∃ before after, sol.table.fact .input n = .ok before ∧
        sol.table.fact .output n = .ok after ∧ ∀ v,
          (v ∈ before ↔ ReadAhead m g v n) ∧
          (v ∈ after ↔ ∃ k ∈ g.succs n, ∃ f, sol.table.fact .input k = .ok f ∧ v ∈ f) := by
  have hg := Cfg.graphOf_closed hm
  refine ⟨Cfg.graphOf m, Cfg.build_eq_ok.mpr ⟨hm, rfl⟩, (isMonotone m).exists_solveBackward hg, ?_⟩
  intro fuel sol hsol n hn
  have hs := solved_of_solveBackward hg hsol
  have hhas := Cfg.mem_nodes.mp hn
  have hbound := (bounds_readAhead m (Cfg.graphOf m)).solveBackward (joining m) hg hsol
  have hexit := Cfg.succs_exit m
  refine ⟨_, _, hs.covers.fact hhas ∅ .input, hs.covers.fact hhas ∅ .output, fun v => ⟨?_, ?_⟩⟩
  · exact ⟨fun hv => hbound .input n hv, hs.input_of_readAhead hg hexit hhas⟩
  · constructor
    · intro hv
      obtain ⟨k, hk, hr⟩ := hbound .output n hv
      have hkhas := hg.target hk
      exact ⟨k, hk, _, hs.covers.fact hkhas ∅ .input,
        hs.input_of_readAhead hg hexit hkhas hr⟩
    · rintro ⟨k, hk, f, hf, hv⟩
      have hne : n ≠ .exit := by
        rintro rfl
        exact hexit k hk
      apply hs.output hhas hne hk
      rwa [FactTable.look_of_fact hf]

/-- A loop that reads `a` before it sets it, and a statement that jumps to itself. -/
def looping : Method :=
  let a : Var := ⟨"a", .prim .int⟩
  let b : Var := ⟨"b", .prim .int⟩
  .make "looping" [a] .void [b]
    [⟨.branch (.bin .lt (.var a) (.int 9)) (.stmt 3), 1⟩, ⟨.assign (.var b) (.var a), 2⟩,
      ⟨.goto (.stmt 2), 3⟩, ⟨.assign (.var a) (.bin .add (.var a) (.var b)), 4⟩,
      ⟨.goto (.stmt 0), 5⟩]

/-- In the loop, what is live behind the last statement is what is live in front of the first. -/
theorem live_iff_readAhead_looping : ∃ g sol, Cfg.build looping = .ok g ∧
    (∃ fuel, (problem looping).solveBackward g fuel = .ok sol) ∧
    ∃ before after, sol.table.fact .input (.stmt 4) = .ok before ∧
      sol.table.fact .output (.stmt 4) = .ok after ∧ ∀ v,
        (v ∈ before ↔ ReadAhead looping g v (.stmt 4)) ∧
        (v ∈ after ↔ ∃ k ∈ g.succs (.stmt 4), ∃ f, sol.table.fact .input k = .ok f ∧ v ∈ f) := by
  have hm : looping.Resolved := by decide
  obtain ⟨g, hg, ⟨fuel, sol, hsol⟩, h⟩ := live_iff_readAhead hm
  obtain ⟨_, rfl⟩ := Cfg.build_eq_ok.mp hg
  exact ⟨_, sol, hg, ⟨fuel, hsol⟩, h hsol (.stmt 4) (by decide)⟩

end Liveness

end MethodFlow
