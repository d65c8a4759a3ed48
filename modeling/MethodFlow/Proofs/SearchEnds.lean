import MethodFlow.Proofs.FeasibleRun

/-!
The detection of dead code comes to a result wherever all that it looks up is there, as on every
analysed method: its search has fuel for every edge of the graph.
-/

namespace MethodFlow

theorem length_eraseDups_le {α : Type} [BEq α] (xs : List α) :
    xs.eraseDups.length ≤ xs.length := by
  match xs with
  | [] => exact Nat.le_refl 0
  | x :: xs =>
    have hfilter := List.length_filter_le (fun y => !y == x) xs
    have htail := length_eraseDups_le (xs.filter fun y => !y == x)
    rw [List.eraseDups_cons, List.length_cons, List.length_cons]
    omega
termination_by xs.length

namespace DeadCode

/-- What is said of a method with resolved jumps and its graph, about every node of the graph. -/
structure Evidence.IsComplete (w : Evidence) : Prop where
  resolved : w.method.Resolved
  graph_eq : w.graph = Cfg.graphOf w.method
  known : ∀ n, w.graph.has n = true → ∃ f, w.known n = .ok f
  live : ∀ n, w.graph.has n = true → ∃ f, w.live n = .ok f

variable {m : Method} {w : Evidence} {n : Node}

theorem Analysed.isComplete (x : Analysed m) : x.evidence.IsComplete where
  resolved := x.resolved
  graph_eq := rfl
  known := x.constants_solve.covers .input
  live := x.live_solved.covers .output

theorem exists_isUseless (hw : w.IsComplete) (hn : w.graph.has n = true) :
    ∃ b, isUseless w n = .ok b := by
  obtain ⟨live, hlive⟩ := hw.live n hn
  unfold isUseless
  split
  · rw [hlive]
    exact ⟨_, rfl⟩
  · exact ⟨false, rfl⟩

theorem instr?_of_switch {v : Var} {ks : List Int} {ts : List Target} {d : Target}
    (h : n.instr m = .switch v ks ts d) :
    ∃ i, n = .stmt i ∧ m.instr? i = some (.switch v ks ts d) := by
  cases n with
  | stmt i =>
    refine ⟨i, rfl, ?_⟩
    rw [Node.instr] at h
    cases hi : m.instr? i with
    | none =>
      rw [hi] at h
      cases h
    | some s =>
      rw [hi] at h
      exact congrArg some h
  | _ => cases h

/-- Places to go on to, no more of them than there are edges from a node. -/
def AreGoals (g : Cfg) (n : Node) (ns : List Node) : Prop :=
  ns.length ≤ (g.outEdges n).length ∧ ∀ k ∈ ns, ∃ e ∈ g.outEdges n, e.target = k

theorem areGoals_succs (g : Cfg) (n : Node) : AreGoals g n (g.succs n) := by
  refine ⟨?_, fun k hk => ?_⟩
  · rw [← List.length_map Edge.target]
    exact length_eraseDups_le _
  · exact List.mem_map.mp (List.mem_eraseDups.mp hk)

theorem areGoals_targets (w : Evidence) (p : Edge → Bool) (n : Node) :
    AreGoals w.graph n (targets w p n) := by
  refine ⟨?_, fun k hk => ?_⟩
  · rw [targets, List.length_map]
    exact List.length_filter_le p _
  · obtain ⟨e, he, _, hk⟩ := mem_targets.mp hk
    exact ⟨e, he, hk⟩

/-- A switch goes along an edge also where no case has its value: along that of its default. -/
theorem exists_switchTargets (hw : w.IsComplete) {v : Var} {ks : List Int} {ts : List Target}
    {d : Target} (h : n.instr w.method = .switch v ks ts d) (k : Int) :
    ∃ ns, switchTargets w k d n = .ok ns ∧ AreGoals w.graph n ns := by
  obtain ⟨i, rfl, hi⟩ := instr?_of_switch h
  unfold switchTargets
  split
  · have hd : d.Inside w.method.size :=
      hw.resolved i _ hi d (List.mem_append_right _ List.mem_cons_self)
    have hedge : ⟨.switchDefault, .stmt i, d.goal, none⟩ ∈ w.graph.outEdges (.stmt i) := by
      rw [hw.graph_eq]
      exact (Cfg.mem_outEdges_stmt hi).mpr (List.mem_append_right _ List.mem_cons_self)
    refine ⟨[d.goal], ?_, List.length_pos_of_mem hedge, fun k hk => ⟨_, hedge, ?_⟩⟩
    · rw [Cfg.resolve_eq_ok.mpr ⟨(Target.inside_iff.mp hd).1, rfl⟩]
      rfl
    · exact (List.mem_singleton.mp hk).symm
  · exact ⟨_, rfl, areGoals_targets w _ _⟩

/-- From every node of the graph the search goes on along edges of the graph. -/
theorem exists_feasible (hw : w.IsComplete) (hn : w.graph.has n = true) :
    ∃ ns, feasible w n = .ok ns ∧ AreGoals w.graph n ns := by
  obtain ⟨f, hknown⟩ := hw.known n hn
  have hcheck : Problem.checkNode w.graph n = .ok () := if_pos hn
  unfold feasible
  rw [hcheck, Attempt.ok_bind]
  split
  · rw [hknown, Attempt.ok_bind]
    split
    · exact ⟨_, rfl, areGoals_targets w _ _⟩
    · exact ⟨_, rfl, areGoals_succs _ n⟩
  · rename_i hi
    rw [hknown, Attempt.ok_bind]
    split
    · exact exists_switchTargets hw hi _
    · exact ⟨_, rfl, areGoals_succs _ n⟩
  · exact ⟨_, rfl, areGoals_succs _ n⟩

/-- The edges from nodes that were not visited. -/
def unseenEdges (g : Cfg) (seen : List Node) : List Edge :=
  g.edges.filter fun e => e.source ∉ seen

/-- Visiting a node uses up the edges from it. -/
theorem length_unseenEdges_cons {g : Cfg} {seen : List Node} (hn : n ∉ seen)
    (hhas : g.has n = true) :
    (unseenEdges g (n :: seen)).length + (g.outEdges n).length =
      (unseenEdges g seen).length := by
  rw [Cfg.outEdges_eq hhas, unseenEdges, unseenEdges]
  induction g.edges with
  | nil => rfl
  | cons e es ih =>
    by_cases he : e.source = n
    · have hseen : e.source ∉ seen := he ▸ hn
      simp [he, hn] at ih ⊢
      omega
    · by_cases hseen : e.source ∈ seen
      · simp [he, hseen] at ih ⊢
        omega
      · simp [he, hseen] at ih ⊢
        omega

/-- The search ends when it has fuel for the nodes that are pending and for each edge from a node
that was not visited. -/
theorem exists_explore (hw : w.IsComplete) {fuel : Nat} {pending : List Node} {s : Search}
    (hpending : ∀ k ∈ pending, w.graph.has k = true)
    (hfuel : pending.length + (unseenEdges w.graph s.visited).length ≤ fuel) :
    ∃ r, explore w fuel pending s = .ok r := by
  induction fuel, pending, s using explore.induct with
  | case1 fuel s =>
    rw [explore]
    exact ⟨s, rfl⟩
  | case2 n pending s =>
    rw [List.length_cons] at hfuel
    omega
  | case3 fuel n pending s hn ih =>
    rw [explore, if_pos hn]
    rw [List.length_cons] at hfuel
    exact ih (fun k hk => hpending k (List.mem_cons_of_mem n hk)) (by omega)
  | case4 fuel n pending s hn ih =>
    have hhas := hpending n List.mem_cons_self
    obtain ⟨b, hb⟩ := exists_isUseless hw hhas
    obtain ⟨ns, hns, hlength, hgoals⟩ := exists_feasible hw hhas
    rw [explore, if_neg hn, hb, Attempt.ok_bind, hns, Attempt.ok_bind]
    refine ih b ns (fun k hk => ?_) ?_
    · rcases List.mem_append.mp hk with hk | hk
      · exact hpending k (List.mem_cons_of_mem n hk)
      · obtain ⟨e, he, rfl⟩ := hgoals k (List.mem_filter.mp hk).1
        have hsucc : e.target ∈ w.graph.succs n :=
          List.mem_eraseDups.mpr (List.mem_map_of_mem he)
        rw [hw.graph_eq] at hsucc ⊢
        exact (Cfg.graphOf_closed hw.resolved).target hsucc
    · -- a visit makes no more nodes pending than it takes edges off those that are unseen
      have hedges : (unseenEdges w.graph (s.visit n b).visited).length +
          (w.graph.outEdges n).length = (unseenEdges w.graph s.visited).length :=
        length_unseenEdges_cons hn hhas
      have hfilter := List.length_filter_le (fun k => decide (k ∉ (s.visit n b).visited)) ns
      rw [List.length_cons] at hfuel
      rw [List.length_append]
      omega

theorem exists_search (hw : w.IsComplete) : ∃ r, search w = .ok r := by
  refine exists_explore hw (List.forall_mem_singleton.mpr rfl) ?_
  have hle := List.length_filter_le (fun e => decide (e.source ∉ ([] : List Node))) w.graph.edges
  exact Nat.le_add_right_of_le (Nat.add_le_add_left hle 1)

theorem Evidence.IsComplete.exists_detect (hw : w.IsComplete) : ∃ dead, detect w = .ok dead := by
  obtain ⟨r, hr⟩ := exists_search hw
  rw [detect, hr]
  exact ⟨_, rfl⟩

/-- The dead statements of an analysed method are found. -/
theorem exists_detect (x : Analysed m) : ∃ dead, detect x.evidence = .ok dead :=
  x.isComplete.exists_detect

end DeadCode

end MethodFlow
