import MethodFlow.Proofs.ConstantRun

/-!
Constant propagation under the two orders of visits. Finished runs never name different constants,
and one never knows nothing where the other names a constant. They can still differ: a node that is
visited before what it reads is known passes on values that may vary, and around a loop such values
stay. So the results are the same exactly when the same variables may vary in both.
-/

namespace MethodFlow.ConstProp

open Problem

/-- Two tables hold the same facts on both sides of every node. -/
def Agree (g : Cfg) (t t' : FactTable ConstMap) : Prop :=
  ∀ n ∈ g.nodes, ∀ side, ∃ a b, t.fact side n = .ok a ∧ t'.fact side n = .ok b ∧ a.same b = true

/-- In two tables the same variables may vary on both sides of every node. -/
def VaryAlike (g : Cfg) (t t' : FactTable ConstMap) : Prop :=
  ∀ n ∈ g.nodes, ∀ side, ∃ a b, t.fact side n = .ok a ∧ t'.fact side n = .ok b ∧
    ∀ v, a.get v = .nac ↔ b.get v = .nac

/-- Two facts whose constants are below each other, and that have the same varying variables, say
the same. -/
theorem same_of_keeps {a b : ConstMap} (hab : Keeps a b) (hba : Keeps b a)
    (h : ∀ v, a.get v = .nac ↔ b.get v = .nac) : a.same b = true := by
  refine ConstMap.same_iff.mpr fun v => ?_
  cases ha : a.get v with
  | nac => exact ((h v).mp ha).symm
  | const c =>
    rcases Value.const_le_iff.mp (hab v c ha) with hb | hb
    · exact hb.symm
    · exact absurd ((h v).mpr hb) (by simp [ha])
  | undef =>
    cases hb : b.get v with
    | undef => rfl
    | nac => exact absurd ((h v).mpr hb) (by simp [ha])
    | const c =>
      rcases Value.const_le_iff.mp (hba v c hb) with h' | h'
      · exact absurd h' (by simp [ha])
      · exact absurd h' (by simp [ha])

/-- What a finished run names a constant, no other finished run contradicts. -/
theorem finished_keeps {m : Method} {g : Cfg} (hg : g.Closed) {order order' : Order}
    {fuel fuel' : Nat} {sol sol' : Solution ConstMap}
    (h : (problem m).solveForward g order fuel = .ok sol)
    (h' : (problem m).solveForward g order' fuel' = .ok sol') :
    TableKeeps sol.table sol'.table := by
  have hs := solves_of_solveForward (joining m) hg h'
  obtain ⟨_, rfl⟩ := ((problem m).solveForward_eq_ok hg).mp h
  exact stateAt_keeps hg hs order fuel

theorem agree_iff_varyAlike {g : Cfg} {t t' : FactTable ConstMap} (h : TableKeeps t t')
    (h' : TableKeeps t' t) : Agree g t t' ↔ VaryAlike g t t' := by
  constructor
  · intro ha n hn side
    obtain ⟨a, b, hfa, hfb, hs⟩ := ha n hn side
    exact ⟨a, b, hfa, hfb, fun v => by rw [ConstMap.same_iff.mp hs v]⟩
  · intro hv n hn side
    obtain ⟨a, b, hfa, hfb, hab⟩ := hv n hn side
    refine ⟨a, b, hfa, hfb, same_of_keeps ?_ ?_ hab⟩
    · simpa [FactTable.look_of_fact hfa, FactTable.look_of_fact hfb] using h side n
    · simpa [FactTable.look_of_fact hfa, FactTable.look_of_fact hfb] using h' side n

/-- Two finished runs have the same result exactly when the same variables may vary in both. -/
theorem results_agree_iff {m : Method} (hm : m.Resolved) : ∃ g, Cfg.build m = .ok g ∧
    ∀ {order order' : Order} {fuel fuel' : Nat} {sol sol' : Solution ConstMap},
      (problem m).solveForward g order fuel = .ok sol →
      (problem m).solveForward g order' fuel' = .ok sol' →
      (Agree g sol.table sol'.table ↔ VaryAlike g sol.table sol'.table) := by
  refine ⟨Cfg.graphOf m, Cfg.build_eq_ok.mpr ⟨hm, rfl⟩, fun h h' => ?_⟩
  have hg := Cfg.graphOf_closed hm
  exact agree_iff_varyAlike (finished_keeps hg h h') (finished_keeps hg h' h)

/-- `a = 1; b = a + 1;` and a statement that jumps to itself. When the jump comes up before `a` is
known, it is passed that `b` may vary, and it goes on passing that to itself. -/
def stale : Method :=
  let a : Var := ⟨"a", .prim .int⟩
  let b : Var := ⟨"b", .prim .int⟩
  .make "stale" [] .void [a, b]
    [⟨.assign (.var a) (.int 1), 1⟩, ⟨.assign (.var b) (.bin .add (.var a) (.int 1)), 2⟩,
      ⟨.goto (.stmt 2), 3⟩]

theorem stale_finishes (order : Order) : ∃ sol,
    (problem stale).solveForward (Cfg.graphOf stale) order 10 = .ok sol ∧
      sol.table = ((problem stale).stateAt (Cfg.graphOf stale) order 10).table := by
  have hg := Cfg.graphOf_closed (m := stale) (by decide)
  refine ⟨_, ((problem stale).solveForward_eq_ok hg).mpr ⟨?_, rfl⟩, rfl⟩
  cases order <;> decide

theorem results_agree_iff_stale : ∃ g sol sol', Cfg.build stale = .ok g ∧
    (problem stale).solveForward g .fifo 10 = .ok sol ∧
    (problem stale).solveForward g .lifo 10 = .ok sol' ∧
    (Agree g sol.table sol'.table ↔ VaryAlike g sol.table sol'.table) := by
  obtain ⟨g, hg, h⟩ := results_agree_iff (m := stale) (by decide)
  obtain ⟨_, rfl⟩ := Cfg.build_eq_ok.mp hg
  obtain ⟨sol, hs, _⟩ := stale_finishes .fifo
  obtain ⟨sol', hs', _⟩ := stale_finishes .lifo
  exact ⟨_, sol, sol', hg, hs, hs', h hs hs'⟩

/-- The order of visits affects the result. -/
theorem stale_results_differ : ∃ g sol sol', Cfg.build stale = .ok g ∧
    (problem stale).solveForward g .fifo 10 = .ok sol ∧
    (problem stale).solveForward g .lifo 10 = .ok sol' ∧ ¬ Agree g sol.table sol'.table := by
  obtain ⟨sol, hs, ht⟩ := stale_finishes .fifo
  obtain ⟨sol', hs', ht'⟩ := stale_finishes .lifo
  refine ⟨_, sol, sol', Cfg.build_eq_ok.mpr ⟨by decide, rfl⟩, hs, hs', fun h => ?_⟩
  obtain ⟨a, b, ha, hb, hsame⟩ := h (.stmt 2) (by decide) .input
  have hv := ConstMap.same_iff.mp hsame ⟨"b", .prim .int⟩
  rw [← FactTable.look_of_fact (d := ∅) ha, ← FactTable.look_of_fact (d := ∅) hb, ht, ht'] at hv
  revert hv
  decide

end MethodFlow.ConstProp
