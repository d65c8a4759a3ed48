import Mathlib.Logic.Function.Iterate
import MethodFlow.Proofs.BackwardRun
import MethodFlow.Proofs.MonotoneProblem

/-!
The backward solver on monotone problems: the facts rise from sweep to sweep until a sweep changes
nothing, and they stay below every bound that the equations respect.
-/

namespace MethodFlow.Problem

variable {F : Type} [Fact F] (p : Problem F) (g : Cfg)

/-- The state after one more sweep. -/
def swept (s : Backward F) : Backward F :=
  (g.nodes.reverse.filter (· ≠ .exit)).foldl (p.visitedBack g) ⟨s.table, s.trail, false⟩

/-- The state of a run after `k` sweeps. -/
def sweptAt (k : Nat) : Backward F :=
  (p.swept g)^[k] ⟨p.startBackward g, [], false⟩

variable {g}

theorem sweep_eq (hg : g.Closed) {s : Backward F} (hs : s.table.Covers g) :
    p.sweep g s.table s.trail = .ok (p.swept g s) ∧ (p.swept g s).table.Covers g :=
  p.foldlM_stepBackward hg (fun _ hn => (mem_sweep.mp hn).1) (s := ⟨s.table, s.trail, false⟩) hs

theorem sweptAt_succ (k : Nat) : p.sweptAt g (k + 1) = p.swept g (p.sweptAt g k) :=
  Function.iterate_succ_apply' _ _ _

/-- A run comes to a result once a sweep changes nothing. -/
theorem exists_runBackward (hg : g.Closed) {k : Nat} {s : Backward F} (hs : s.table.Covers g)
    (h : ((p.swept g)^[k + 1] s).changed = false) :
    ∃ fuel, ∀ done, ∃ sol, p.runBackward g done fuel s.table s.trail = .ok sol := by
  induction k generalizing s with
  | zero =>
    obtain ⟨hsweep, _⟩ := p.sweep_eq hg hs
    have hc : (p.swept g s).changed = false := h
    refine ⟨1, fun done => ⟨⟨(p.swept g s).table, (p.swept g s).trail.reverse, done + 1⟩, ?_⟩⟩
    unfold runBackward
    rw [hsweep, Attempt.ok_bind, hc]
    rfl
  | succ k ih =>
    obtain ⟨hsweep, hcov⟩ := p.sweep_eq hg hs
    obtain ⟨fuel, hfuel⟩ := ih hcov h
    refine ⟨fuel + 1, fun done => ?_⟩
    unfold runBackward
    rw [hsweep, Attempt.ok_bind]
    split
    · exact hfuel (done + 1)
    · exact ⟨_, rfl⟩

section Order

variable {p} {α : Type} [SemilatticeSup α] [OrderBot α] {view : F → α} {facts : Set α}
  {t : FactTable F} {s : Backward F} {n : Node}

/-- What stands around a node is no more than the node would make of what its successors need. -/
structure RisesAt (p : Problem F) (g : Cfg) (view : F → α) (t : FactTable F) (n : Node) :
    Prop where
  output : view (t.look p.initial .output n) ≤ view (p.merged t .input (g.succs n))
  input : view (t.look p.initial .input n) ≤ view (p.transfer n (p.merged t .input (g.succs n)))

namespace IsMonotone

theorem view_output_visitedBack (h : p.IsMonotone view facts) :
    view ((p.visitedBack g s n).table.look p.initial .output n) =
      view (p.merged s.table .input (g.succs n)) := by
  have hlook : (p.visitedBack g s n).table.look p.initial .output n =
      (p.outputBefore g s.table n).1 := FactTable.look_record_output
  rw [hlook]
  exact h.view_overwrite _ _

theorem view_input_visitedBack (h : p.IsMonotone view facts) :
    view ((p.visitedBack g s n).table.look p.initial .input n) =
      view (p.transfer n (p.merged s.table .input (g.succs n))) := by
  have hlook : (p.visitedBack g s n).table.look p.initial .input n =
      (p.inputBefore g s.table n).1 := FactTable.look_record_input
  have hout : view (p.outputBefore g s.table n).1 = view (p.merged s.table .input (g.succs n)) :=
    h.view_overwrite _ _
  rw [hlook]
  exact (h.view_overwrite _ _).trans (h.transfer_congr n hout)

omit [SemilatticeSup α] [OrderBot α] in
theorem look_visitedBack_of_ne {k : Node} (hk : k ≠ n) (side : Side) :
    (p.visitedBack g s n).table.look p.initial side k = s.table.look p.initial side k :=
  FactTable.look_record_of_ne hk

theorem below_visitedBack (h : p.IsMonotone view facts) (hr : RisesAt p g view s.table n) :
    Below p view s.table (p.visitedBack g s n).table := by
  intro side k
  by_cases hk : k = n
  · subst hk
    cases side with
    | input => exact hr.input.trans h.view_input_visitedBack.ge
    | output => exact hr.output.trans h.view_output_visitedBack.ge
  · rw [look_visitedBack_of_ne hk]

/-- Visits keep a table rising at all nodes. -/
theorem risesAt_visitedBack (h : p.IsMonotone view facts) (hn : RisesAt p g view s.table n)
    {k : Node} (hk : RisesAt p g view s.table k) :
    RisesAt p g view (p.visitedBack g s n).table k := by
  have hup : view (p.merged s.table .input (g.succs k)) ≤
      view (p.merged (p.visitedBack g s n).table .input (g.succs k)) :=
    h.merged_mono fun q _ => h.below_visitedBack hn .input q
  have htransfer := h.mono k hup
  by_cases hkn : k = n
  · subst hkn
    exact ⟨h.view_output_visitedBack.trans_le hup, h.view_input_visitedBack.trans_le htransfer⟩
  · constructor
    · rw [look_visitedBack_of_ne hkn]
      exact hk.output.trans hup
    · rw [look_visitedBack_of_ne hkn]
      exact hk.input.trans htransfer

theorem within_visitedBack (h : p.IsMonotone view facts) (hw : Within p view facts s.table) :
    Within p view facts (p.visitedBack g s n).table := by
  have hmerged := h.confines.merged_mem hw .input (g.succs n)
  intro side k
  by_cases hk : k = n
  · subst hk
    cases side with
    | input =>
      rw [h.view_input_visitedBack]
      exact h.transfer_mem k hmerged
    | output =>
      rw [h.view_output_visitedBack]
      exact hmerged
  · rw [look_visitedBack_of_ne hk]
    exact hw side k

/-- A visit that changes something raises a fact of its node. -/
theorem exists_of_changed (h : p.IsMonotone view facts)
    (hc : (p.visitedBack g s n).changed = true) : s.changed = true ∨
      ∃ side, view (s.table.look p.initial side n) ≠
        view ((p.visitedBack g s n).table.look p.initial side n) := by
  simp only [visitedBack, Bool.or_eq_true] at hc
  rcases hc with hc | hc | hc
  · exact Or.inl hc
  · refine Or.inr ⟨.output, ?_⟩
    rw [h.view_output_visitedBack]
    exact (h.overwrite_changed _ _).mp hc
  · refine Or.inr ⟨.input, ?_⟩
    have hout : view (p.outputBefore g s.table n).1 = view (p.merged s.table .input (g.succs n)) :=
      h.view_overwrite _ _
    rw [h.view_input_visitedBack, ← h.transfer_congr n hout]
    exact (h.overwrite_changed _ _).mp hc

/-- What a series of visits keeps, and that it raises a fact if it changes anything. -/
structure Climbs (p : Problem F) (g : Cfg) (view : F → α) (facts : Set α) (ns : List Node)
    (s s' : Backward F) : Prop where
  within : Within p view facts s'.table
  rises : ∀ n, RisesAt p g view s.table n → RisesAt p g view s'.table n
  below : Below p view s.table s'.table
  changed : s'.changed = true → s.changed = true ∨ ∃ n ∈ ns, ∃ side,
    view (s.table.look p.initial side n) ≠ view (s'.table.look p.initial side n)

theorem climbs_foldl (h : p.IsMonotone view facts) {ns : List Node}
    (hw : Within p view facts s.table) (hr : ∀ n ∈ ns, RisesAt p g view s.table n) :
    Climbs p g view facts ns s (ns.foldl (p.visitedBack g) s) := by
  induction ns generalizing s with
  | nil => exact ⟨hw, fun _ h => h, Below.refl _, Or.inl⟩
  | cons n ns ih =>
    have hn := hr n List.mem_cons_self
    have hfirst := h.below_visitedBack hn
    obtain ⟨hwithin, hrises, hbelow, hchanged⟩ := ih (h.within_visitedBack hw)
      (fun k hk => h.risesAt_visitedBack hn (hr k (List.mem_cons_of_mem n hk)))
    refine ⟨hwithin, fun k hk => hrises k (h.risesAt_visitedBack hn hk), hfirst.trans hbelow, ?_⟩
    intro hc
    rcases hchanged hc with hc | ⟨k, hk, side, hne⟩
    · rcases h.exists_of_changed hc with hc | ⟨side, hne⟩
      · exact Or.inl hc
      · refine Or.inr ⟨n, List.mem_cons_self, side, fun he => hne ?_⟩
        exact le_antisymm (hfirst side n) (he ▸ hbelow side n)
    · refine Or.inr ⟨k, List.mem_cons_of_mem n hk, side, fun he => hne ?_⟩
      exact le_antisymm (hbelow side k) (he ▸ hfirst side k)

theorem climbs_swept (h : p.IsMonotone view facts) (hw : Within p view facts s.table)
    (hr : ∀ n, n ≠ .exit → RisesAt p g view s.table n) :
    Climbs p g view facts (g.nodes.reverse.filter (· ≠ .exit)) ⟨s.table, s.trail, false⟩
      (p.swept g s) :=
  h.climbs_foldl hw fun n hn => hr n (mem_sweep.mp hn).2

theorem risesAt_start (h : p.IsMonotone view facts) (hn : n ≠ .exit) :
    RisesAt p g view (p.startBackward g) n := by
  have hlook : ∀ side, view ((p.startBackward g).look p.initial side n) = ⊥ := by
    intro side
    rw [look_startBackward, if_neg hn, h.initial]
  constructor
  · rw [hlook]
    exact bot_le
  · rw [hlook]
    exact bot_le

theorem sweptAt_rises (h : p.IsMonotone view facts) (g : Cfg) (k : Nat) :
    Within p view facts (p.sweptAt g k).table ∧
      ∀ n, n ≠ .exit → RisesAt p g view (p.sweptAt g k).table n := by
  induction k with
  | zero => exact ⟨h.confines.within_init g.nodes .exit, fun n hn => h.risesAt_start hn⟩
  | succ k ih =>
    obtain ⟨hw, hr⟩ := ih
    have hclimb := h.climbs_swept hw hr
    rw [sweptAt_succ]
    exact ⟨hclimb.within, fun n hn => hclimb.rises n (hr n hn)⟩

theorem climbs_sweptAt (h : p.IsMonotone view facts) (g : Cfg) (k : Nat) :
    Climbs p g view facts (g.nodes.reverse.filter (· ≠ .exit))
      ⟨(p.sweptAt g k).table, (p.sweptAt g k).trail, false⟩ (p.sweptAt g (k + 1)) := by
  obtain ⟨hw, hr⟩ := h.sweptAt_rises g k
  rw [sweptAt_succ]
  exact h.climbs_swept hw hr

/-- Some sweep over a monotone problem changes nothing. -/
theorem exists_unchanged (h : p.IsMonotone view facts) (g : Cfg) :
    ∃ k, (p.sweptAt g (k + 1)).changed = false := by
  have hrest : ∀ side, ∃ start, ∀ k ≥ start, ∀ n ∈ g.nodes,
      view ((p.sweptAt g k).table.look p.initial side n) =
        view ((p.sweptAt g start).table.look p.initial side n) := fun side =>
    h.exists_rest (fun k n => view ((p.sweptAt g k).table.look p.initial side n))
      (fun k => (h.sweptAt_rises g k).1 side) (fun k => (h.climbs_sweptAt g k).below side) g.nodes
  obtain ⟨i, hi⟩ := hrest .input
  obtain ⟨o, ho⟩ := hrest .output
  refine ⟨max i o, Bool.eq_false_iff.mpr fun hc => ?_⟩
  rcases (h.climbs_sweptAt g (max i o)).changed hc with hc | ⟨n, hn, side, hne⟩
  · cases hc
  apply hne
  have hmem := Cfg.mem_nodes.mpr (mem_sweep.mp hn).1
  cases side with
  | input => exact (hi _ (by omega) n hmem).trans (hi _ (by omega) n hmem).symm
  | output => exact (ho _ (by omega) n hmem).trans (ho _ (by omega) n hmem).symm

/-- A backward solver comes to a result on every monotone problem. -/
theorem exists_solveBackward (h : p.IsMonotone view facts) (hg : g.Closed) :
    ∃ fuel sol, p.solveBackward g fuel = .ok sol := by
  obtain ⟨k, hk⟩ := h.exists_unchanged g
  obtain ⟨fuel, hrun⟩ := p.exists_runBackward hg (FactTable.init_covers g _) hk
  exact ⟨fuel, hrun 0⟩

end IsMonotone

/-- A bound on what stands around nodes that the equations respect. -/
structure Bounds (p : Problem F) (g : Cfg) (view : F → α) (x : Side → Node → α) : Prop where
  boundary : ∀ side, view p.boundary ≤ x side .exit
  output : ∀ n, ∀ k ∈ g.succs n, x .input k ≤ x .output n
  input : ∀ n a, view a ≤ x .output n → view (p.transfer n a) ≤ x .input n

variable {x : Side → Node → α}

theorem Bounds.visitedBack (hx : Bounds p g view x) (h : p.Joining view)
    (hs : ∀ side k, view (s.table.look p.initial side k) ≤ x side k) (n : Node) (side : Side)
    (k : Node) : view ((p.visitedBack g s n).table.look p.initial side k) ≤ x side k := by
  by_cases hk : k = n
  · subst hk
    have hout : view (p.outputBefore g s.table k).1 ≤ x .output k := by
      have hview : view (p.outputBefore g s.table k).1 = _ := h.view_overwrite _ _
      rw [hview]
      exact h.merged_le_iff.mpr fun q hq => (hs .input q).trans (hx.output k q hq)
    cases side with
    | input =>
      have hlook : (p.visitedBack g s k).table.look p.initial .input k =
          (p.inputBefore g s.table k).1 := FactTable.look_record_input
      have hview : view (p.inputBefore g s.table k).1 = _ := h.view_overwrite _ _
      rw [hlook, hview]
      exact hx.input k _ hout
    | output =>
      have hlook : (p.visitedBack g s k).table.look p.initial .output k =
          (p.outputBefore g s.table k).1 := FactTable.look_record_output
      rwa [hlook]
  · rw [IsMonotone.look_visitedBack_of_ne hk]
    exact hs side k

theorem Bounds.foldl (hx : Bounds p g view x) (h : p.Joining view) {ns : List Node}
    (hs : ∀ side k, view (s.table.look p.initial side k) ≤ x side k) (side : Side) (k : Node) :
    view ((ns.foldl (p.visitedBack g) s).table.look p.initial side k) ≤ x side k := by
  induction ns generalizing s with
  | nil => exact hs side k
  | cons n ns ih => exact ih (hx.visitedBack h hs n)

/-- What a backward solver returns stays below every bound that the equations respect. -/
theorem Bounds.solveBackward (hx : Bounds p g view x) (h : p.Joining view) (hg : g.Closed)
    {fuel : Nat} {sol : Solution F} (hsol : p.solveBackward g fuel = .ok sol) (side : Side)
    (n : Node) : view (sol.table.look p.initial side n) ≤ x side n := by
  have hstart : ∀ side k, view ((p.startBackward g).look p.initial side k) ≤ x side k := by
    intro side k
    rw [look_startBackward]
    split
    · rename_i he
      rw [he]
      exact hx.boundary side
    · rw [h.initial]
      exact bot_le
  -- the bound holds of the table between any two sweeps
  suffices hrun : ∀ (fuel done : Nat) (s : Backward F), s.table.Covers g →
      (∀ side k, view (s.table.look p.initial side k) ≤ x side k) →
      p.runBackward g done fuel s.table s.trail = .ok sol →
      ∀ side n, view (sol.table.look p.initial side n) ≤ x side n from
    hrun fuel 0 ⟨p.startBackward g, [], false⟩ (FactTable.init_covers g _) hstart hsol side n
  intro fuel
  induction fuel with
  | zero =>
    intro done s _ _ hr
    cases hr
  | succ fuel ih =>
    intro done s hcov hs hr
    obtain ⟨hsweep, hcov'⟩ := p.sweep_eq hg hcov
    have hs' : ∀ side k, view ((p.swept g s).table.look p.initial side k) ≤ x side k :=
      hx.foldl h (s := ⟨s.table, s.trail, false⟩) hs
    unfold runBackward at hr
    rw [hsweep, Attempt.ok_bind] at hr
    split at hr
    · exact ih (done + 1) (p.swept g s) hcov' hs' hr
    · cases hr
      exact hs'

end Order

end MethodFlow.Problem
