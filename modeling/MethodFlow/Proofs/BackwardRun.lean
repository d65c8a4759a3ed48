import MethodFlow.Proofs.FactLooks

/-!
Runs of the backward solver. The last sweep of a finished run changed nothing, so what it left are
facts that solve the equations of the problem.
-/

namespace MethodFlow.Problem

variable {F : Type} [Fact F] (p : Problem F) (g : Cfg)

/-- The fact that a backward visit leaves behind a node, and whether it is a new one. -/
def outputBefore (t : FactTable F) (n : Node) : F × Bool :=
  Fact.overwrite (t.look p.initial .output n) (p.merged t .input (g.succs n))

/-- The fact that a backward visit leaves in front of a node, and whether it is a new one. -/
def inputBefore (t : FactTable F) (n : Node) : F × Bool :=
  Fact.overwrite (t.look p.initial .input n) (p.transfer n (p.outputBefore g t n).1)

/-- The state after a backward visit. -/
def visitedBack (s : Backward F) (n : Node) : Backward F :=
  let output := p.outputBefore g s.table n
  let input := p.inputBefore g s.table n
  { table := s.table.record n input.1 output.1
    trail := ⟨n, input.2, input.1, output.1⟩ :: s.trail
    changed := s.changed || (output.2 || input.2) }

variable {g}

omit [Fact F] in
theorem look_startBackward (g : Cfg) (side : Side) (n : Node) :
    (p.startBackward g).look p.initial side n = if n = .exit then p.boundary else p.initial :=
  FactTable.look_init_at (Cfg.mem_nodes.mpr rfl) p.boundary side n

theorem stepBackward_eq (hg : g.Closed) {s : Backward F} (hs : s.table.Covers g) {n : Node}
    (hn : g.has n = true) : p.stepBackward g s n = .ok (p.visitedBack g s n) := by
  unfold stepBackward visitBackward
  rw [p.gather_eq hs .input fun _ hk => hg.target hk, hs.fact hn p.initial .input,
    hs.fact hn p.initial .output]
  rfl

/-- A sweep over nodes of the graph comes to an end, with a fact on both sides of every node. -/
theorem foldlM_stepBackward (hg : g.Closed) {ns : List Node} (hns : ∀ n ∈ ns, g.has n = true)
    {s : Backward F} (hs : s.table.Covers g) :
    ns.foldlM (p.stepBackward g) s = .ok (ns.foldl (p.visitedBack g) s) ∧
      (ns.foldl (p.visitedBack g) s).table.Covers g := by
  induction ns generalizing s with
  | nil => exact ⟨rfl, hs⟩
  | cons n ns ih =>
    rw [List.foldlM_cons, p.stepBackward_eq hg hs (hns n List.mem_cons_self), Attempt.ok_bind,
      List.foldl_cons]
    exact ih (fun k hk => hns k (List.mem_cons_of_mem n hk)) hs.record

section Equations

variable {α : Type} {view : F → α} {p}

/-- The equations of a node: what stands behind it is what its successors need, and what stands in
front of it is what it makes of that. -/
structure Balanced (p : Problem F) (g : Cfg) (view : F → α) (t : FactTable F) (n : Node) :
    Prop where
  output : view (t.look p.initial .output n) = view (p.merged t .input (g.succs n))
  input : view (t.look p.initial .input n) = view (p.transfer n (t.look p.initial .output n))

omit [Fact F] in
theorem Balanced.congr {t t' : FactTable F} {n : Node} (h : Balanced p g view t n)
    (ht : ∀ side k, t'.look p.initial side k = t.look p.initial side k) :
    Balanced p g view t' n where
  output := by rw [ht, h.output, p.merged_congr fun k _ => ht .input k]
  input := by rw [ht, ht, h.input]

variable [SemilatticeSup α] [OrderBot α]

/-- A visit that changes nothing found its node balanced, and leaves every fact as it is. -/
theorem Joining.balanced_of_unchanged (h : p.Joining view) {s : Backward F} {n : Node}
    (hc : (p.visitedBack g s n).changed = false) :
    s.changed = false ∧ Balanced p g view s.table n ∧
      ∀ side k, (p.visitedBack g s n).table.look p.initial side k =
        s.table.look p.initial side k := by
  obtain ⟨hs, ho, hi⟩ : s.changed = false ∧ (p.outputBefore g s.table n).2 = false ∧
      (p.inputBefore g s.table n).2 = false := by
    simpa [visitedBack, Bool.or_eq_false_iff] using hc
  have hout : (p.outputBefore g s.table n).1 = s.table.look p.initial .output n :=
    Fact.overwrite_unchanged ho
  have hin : (p.inputBefore g s.table n).1 = s.table.look p.initial .input n :=
    Fact.overwrite_unchanged hi
  refine ⟨hs, ⟨?_, ?_⟩, fun side k => ?_⟩
  · exact hout ▸ h.view_overwrite _ _
  · have hv : view (p.inputBefore g s.table n).1 =
        view (p.transfer n (p.outputBefore g s.table n).1) := h.view_overwrite _ _
    rwa [hin, hout] at hv
  · by_cases hk : k = n
    · subst hk
      cases side with
      | input => exact FactTable.look_record_input.trans hin
      | output => exact FactTable.look_record_output.trans hout
    · exact FactTable.look_record_of_ne hk

/-- A sweep that changes nothing found all its nodes balanced, and leaves every fact as it is. -/
theorem Joining.balanced_of_sweep (h : p.Joining view) {ns : List Node} {s : Backward F}
    (hc : (ns.foldl (p.visitedBack g) s).changed = false) :
    s.changed = false ∧ (∀ n ∈ ns, Balanced p g view s.table n) ∧
      ∀ side k, (ns.foldl (p.visitedBack g) s).table.look p.initial side k =
        s.table.look p.initial side k := by
  induction ns generalizing s with
  | nil => exact ⟨hc, by simp, fun _ _ => rfl⟩
  | cons n ns ih =>
    obtain ⟨hc', hns, hlook⟩ := ih hc
    obtain ⟨hs, hn, hstep⟩ := h.balanced_of_unchanged hc'
    refine ⟨hs, fun k hk => ?_, fun side k => (hlook side k).trans (hstep side k)⟩
    rcases List.mem_cons.mp hk with rfl | hk
    · exact hn
    · exact (hns k hk).congr fun side q => (hstep side q).symm

omit [Fact F] in
theorem mem_sweep {n : Node} :
    n ∈ g.nodes.reverse.filter (· ≠ .exit) ↔ g.has n = true ∧ n ≠ .exit := by
  simp [List.mem_filter, Cfg.mem_nodes]

/-- Whatever the backward solver returns solves the equations of every node but the exit. -/
theorem balanced_of_solveBackward (h : p.Joining view) (hg : g.Closed) {fuel : Nat}
    {sol : Solution F} (hsol : p.solveBackward g fuel = .ok sol) :
    sol.table.Covers g ∧ ∀ n, g.has n = true → n ≠ .exit → Balanced p g view sol.table n := by
  suffices hrun : ∀ (fuel done : Nat) (t : FactTable F) (trail : List (Visit F)), t.Covers g →
      p.runBackward g done fuel t trail = .ok sol → sol.table.Covers g ∧
        ∀ n, g.has n = true → n ≠ .exit → Balanced p g view sol.table n from
    hrun fuel 0 _ [] (FactTable.init_covers g _) hsol
  intro fuel
  induction fuel with
  | zero =>
    intro done t trail _ hr
    cases hr
  | succ fuel ih =>
    intro done t trail ht hr
    obtain ⟨s, hs, hr⟩ := Attempt.bind_eq_ok.mp hr
    obtain ⟨hfold, hcov⟩ := p.foldlM_stepBackward hg (fun n hn => (mem_sweep.mp hn).1)
      (s := ⟨t, trail, false⟩) ht
    cases (hfold.symm.trans hs)
    split at hr
    · exact ih _ _ _ hcov hr
    · rename_i hc
      cases hr
      obtain ⟨_, hbal, hlook⟩ := h.balanced_of_sweep (Bool.eq_false_iff.mpr hc)
      refine ⟨hcov, fun n hn he => ?_⟩
      exact (hbal n (mem_sweep.mpr ⟨hn, he⟩)).congr hlook

end Equations

end MethodFlow.Problem
