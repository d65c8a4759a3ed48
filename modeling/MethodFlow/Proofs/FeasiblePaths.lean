import MethodFlow.Plan.Run
import MethodFlow.Proofs.SearchEnds

/-!
Dead statements in terms of paths. Known constants close edges of the graph: a statement is dead
when no path of open edges leads to it from the entry, or when it is an assignment that nobody
misses.
-/

namespace MethodFlow

/-- What a statement looks at to decide where to go. -/
def Instr.decider? {τ : Type} : Instr τ → Option Expr
  | .branch c _ => some c
  | .switch v _ _ _ => some (.var v)
  | .assign _ _ | .call _ _ | .goto _ | .ret _ | .nop => none

/-- The edge of a case with a value. -/
def Edge.IsCase (k : Int) (e : Edge) : Prop :=
  e.kind = .switchCase ∧ e.case? = some k

namespace DeadCode

/-- The edges along which control leaves a statement that looks at the value `k`. -/
def Evidence.Keeps (w : Evidence) (k : Int) (e : Edge) : Prop :=
  match e.source.instr w.method with
  | .branch _ _ => e.kind = if k = 1 then .ifTrue else .ifFalse
  | .switch _ _ _ _ =>
    e.IsCase k ∨ e.kind = .switchDefault ∧ ∀ d ∈ w.graph.outEdges e.source, ¬ d.IsCase k
  | .assign _ _ | .call _ _ | .goto _ | .ret _ | .nop => True

/-- The edges of the graph, without those that a constant known in front of their source closes. -/
structure Evidence.IsOpen (w : Evidence) (e : Edge) : Prop where
  edge : e ∈ w.graph.edges
  kept : ∀ c f k, (e.source.instr w.method).decider? = some c → w.known e.source = .ok f →
    ConstProp.evaluate f c = .const k → w.Keeps k e

def Evidence.Leads (w : Evidence) (a b : Node) : Prop :=
  ∃ e, w.IsOpen e ∧ e.source = a ∧ e.target = b

/-- A path of open edges leads to the node from the entry. -/
def Evidence.IsReached (w : Evidence) (n : Node) : Prop :=
  Relation.ReflTransGen w.Leads .entry n

/-- The statement gives a variable that is dead behind it a value that can be left out. -/
def Evidence.IsUnmissed (w : Evidence) (n : Node) : Prop :=
  ∃ v e live, n.instr w.method = .assign (.var v) e ∧ w.live n = .ok live ∧ v ∉ live ∧
    e.isPure = true

variable {w : Evidence} {n a b : Node} {ns pending : List Node} {s r : Search} {fuel : Nat}

theorem isUseless_iff : isUseless w n = .ok true ↔ w.IsUnmissed n := by
  refine ⟨isUseless_eq_true, ?_⟩
  rintro ⟨v, e, live, hi, hl, hv, he⟩
  rw [isUseless, hi]
  simp [hl, hv, he]

theorem leads_iff_of_const {c : Expr} {f : ConstMap} {k : Int} (ha : w.graph.has a = true)
    (hc : (a.instr w.method).decider? = some c) (hf : w.known a = .ok f)
    (hk : ConstProp.evaluate f c = .const k) :
    w.Leads a b ↔ ∃ e ∈ w.graph.outEdges a, w.Keeps k e ∧ e.target = b := by
  constructor
  · rintro ⟨e, he, rfl, ht⟩
    exact ⟨e, Cfg.mem_outEdges.mpr ⟨ha, he.edge, rfl⟩, he.kept c f k hc hf hk, ht⟩
  · rintro ⟨e, he, hkeeps, ht⟩
    obtain ⟨-, hedge, rfl⟩ := Cfg.mem_outEdges.mp he
    refine ⟨e, ⟨hedge, fun c' f' k' hc' hf' hk' => ?_⟩, rfl, ht⟩
    cases hc.symm.trans hc'
    cases hf.symm.trans hf'
    cases hk.symm.trans hk'
    exact hkeeps

theorem leads_iff_of_free (ha : w.graph.has a = true) (h : ∀ c f k,
    (a.instr w.method).decider? = some c → w.known a = .ok f → ConstProp.evaluate f c ≠ .const k) :
    w.Leads a b ↔ b ∈ w.graph.succs a := by
  rw [Cfg.mem_succs, and_iff_right ha]
  constructor
  · rintro ⟨e, he, hs, ht⟩
    exact ⟨e, he.edge, hs, ht⟩
  · rintro ⟨e, he, rfl, ht⟩
    exact ⟨e, ⟨he, fun c f k hc hf hk => absurd hk (h c f k hc hf)⟩, rfl, ht⟩

theorem leads_iff_of_unknown {c : Expr} {f : ConstMap} (ha : w.graph.has a = true)
    (hc : (a.instr w.method).decider? = some c) (hf : w.known a = .ok f)
    (hk : ∀ k, ConstProp.evaluate f c ≠ .const k) : w.Leads a b ↔ b ∈ w.graph.succs a := by
  refine leads_iff_of_free ha fun c' f' k hc' hf' => ?_
  cases hc.symm.trans hc'
  cases hf.symm.trans hf'
  exact hk k

/-- A branch on a constant goes on where open edges lead. -/
theorem mem_branchTargets {c : Expr} {t : Target} {k : Int}
    (hi : a.instr w.method = .branch c t) :
    b ∈ branchTargets w k a ↔ ∃ e ∈ w.graph.outEdges a, w.Keeps k e ∧ e.target = b := by
  rw [branchTargets, mem_targets]
  refine exists_congr fun e => and_congr_right fun he => and_congr_left fun _ => ?_
  obtain ⟨-, -, rfl⟩ := Cfg.mem_outEdges.mp he
  rw [decide_eq_true_eq, Evidence.Keeps, hi]

section Switch

variable {v : Var} {ks : List Int} {ts : List Target} {d : Target} {k : Int} {e : Edge}

theorem keeps_switch (hi : a.instr w.method = .switch v ks ts d) (he : e ∈ w.graph.outEdges a) :
    w.Keeps k e ↔ e.IsCase k ∨
      e.kind = .switchDefault ∧ ∀ c ∈ w.graph.outEdges a, ¬ c.IsCase k := by
  obtain ⟨-, -, rfl⟩ := Cfg.mem_outEdges.mp he
  rw [Evidence.Keeps, hi]

theorem mem_caseTargets : b ∈ targets w (fun e => e.kind = .switchCase ∧ e.case? = some k) a ↔
    ∃ e ∈ w.graph.outEdges a, e.IsCase k ∧ e.target = b := by
  simp only [mem_targets, decide_eq_true_eq, Edge.IsCase]

/-- The default edges of a switch all lead to where its default does. -/
theorem default_iff (hw : w.IsComplete) (hi : a.instr w.method = .switch v ks ts d) :
    (∃ e ∈ w.graph.outEdges a, e.kind = .switchDefault ∧ e.target = b) ↔ b = d.goal := by
  obtain ⟨i, rfl, hswitch⟩ := instr?_of_switch hi
  simp only [hw.graph_eq, Cfg.mem_outEdges_stmt hswitch, Cfg.exits]
  constructor
  · rintro ⟨e, he, hkind, rfl⟩
    rcases List.mem_append.mp he with he | he
    · obtain ⟨c, _, rfl⟩ := List.mem_map.mp he
      cases hkind
    · rw [List.mem_singleton.mp he]
  · rintro rfl
    exact ⟨_, List.mem_append_right _ List.mem_cons_self, rfl, rfl⟩

/-- A switch on a constant goes on where open edges lead. -/
theorem mem_switchTargets (hw : w.IsComplete) (hi : a.instr w.method = .switch v ks ts d)
    (hns : switchTargets w k d a = .ok ns) :
    b ∈ ns ↔ ∃ e ∈ w.graph.outEdges a, w.Keeps k e ∧ e.target = b := by
  unfold switchTargets at hns
  split at hns
  · rename_i hnil
    have hnone : ∀ e ∈ w.graph.outEdges a, ¬ e.IsCase k := by
      intro e he hcase
      have hm := mem_caseTargets.mpr ⟨e, he, hcase, rfl⟩
      rw [hnil] at hm
      cases hm
    obtain ⟨g, hg, hns⟩ := Attempt.bind_eq_ok.mp hns
    cases hns
    obtain ⟨_, rfl⟩ := Cfg.resolve_eq_ok.mp hg
    rw [List.mem_singleton, ← default_iff hw hi]
    apply exists_congr
    intro e
    apply and_congr_right
    intro he
    rw [keeps_switch hi he, or_iff_right (hnone e he), and_iff_left hnone]
  · rename_i hne
    cases hns
    obtain ⟨t, ht⟩ := List.exists_mem_of_ne_nil _ hne
    obtain ⟨c, hc, hcase, _⟩ := mem_caseTargets.mp ht
    rw [mem_caseTargets]
    apply exists_congr
    intro e
    apply and_congr_right
    intro he
    rw [keeps_switch hi he, or_iff_left fun h => h.2 c hc hcase]

end Switch

theorem has_of_checkNode {g : Cfg} {u : Unit} (h : Problem.checkNode g n = .ok u) :
    g.has n = true := by
  by_contra hn
  cases (if_neg hn).symm.trans h

/-- Where the search goes on is where open edges lead. -/
theorem mem_feasible (hw : w.IsComplete) (h : feasible w a = .ok ns) :
    b ∈ ns ↔ w.Leads a b := by
  obtain ⟨_, hcheck, h⟩ := Attempt.bind_eq_ok.mp h
  have ha := has_of_checkNode hcheck
  split at h
  · rename_i c t hi
    obtain ⟨f, hf, h⟩ := Attempt.bind_eq_ok.mp h
    have hc : (a.instr w.method).decider? = some c := by rw [hi, Instr.decider?]
    split at h
    · rename_i k hk
      cases h
      rw [leads_iff_of_const ha hc hf hk, mem_branchTargets hi]
    · rename_i hne
      cases h
      exact (leads_iff_of_unknown ha hc hf hne).symm
  · rename_i v ks ts d hi
    obtain ⟨f, hf, h⟩ := Attempt.bind_eq_ok.mp h
    have hc : (a.instr w.method).decider? = some (.var v) := by rw [hi, Instr.decider?]
    split at h
    · rename_i k hk
      rw [leads_iff_of_const ha hc hf hk, mem_switchTargets hw hi h]
    · rename_i hne
      cases h
      exact (leads_iff_of_unknown ha hc hf hne).symm
  · rename_i hbranch hswitch
    cases h
    refine (leads_iff_of_free ha fun c f k hc _ _ => ?_).symm
    cases hi : a.instr w.method with
    | branch c t => exact hbranch c t hi
    | switch v ks ts d => exact hswitch v ks ts d hi
    | _ =>
      rw [hi] at hc
      cases hc

/-- The search comes to nothing but what paths from the entry reach. -/
theorem isReached_of_explore (hw : w.IsComplete) (h : explore w fuel pending s = .ok r)
    (hpending : ∀ n ∈ pending, w.IsReached n) (hseen : ∀ n ∈ s.visited, w.IsReached n) :
    ∀ n ∈ r.visited, w.IsReached n := by
  induction fuel, pending, s using explore.induct with
  | case1 fuel s =>
    rw [explore] at h
    cases h
    exact hseen
  | case2 n pending s =>
    rw [explore] at h
    cases h
  | case3 fuel n pending s hn ih =>
    rw [explore, if_pos hn] at h
    exact ih h (List.forall_mem_cons.mp hpending).2 hseen
  | case4 fuel n pending s hn ih =>
    rw [explore, if_neg hn] at h
    obtain ⟨b, _, h⟩ := Attempt.bind_eq_ok.mp h
    obtain ⟨ns, hns, h⟩ := Attempt.bind_eq_ok.mp h
    obtain ⟨hreached, hpending⟩ := List.forall_mem_cons.mp hpending
    refine ih b ns h (fun k hk => ?_) (List.forall_mem_cons.mpr ⟨hreached, hseen⟩)
    rcases List.mem_append.mp hk with hk | hk
    · exact hpending k hk
    · exact hreached.tail ((mem_feasible hw hns).mp (List.mem_filter.mp hk).1)

/-- The search comes to exactly what paths from the entry reach. -/
theorem mem_visited (hw : w.IsComplete) (h : search w = .ok r) :
    n ∈ r.visited ↔ w.IsReached n := by
  obtain ⟨hentry, hclosed⟩ := search_closed h
  constructor
  · refine isReached_of_explore hw h ?_ (List.forall_mem_nil _) n
    exact List.forall_mem_singleton.mpr .refl
  · intro hn
    induction hn with
    | refl => exact hentry
    | tail _ hleads ih =>
      obtain ⟨ns, hns, hr⟩ := hclosed _ ih
      exact hr _ ((mem_feasible hw hns).mpr hleads)

/-- What the search finds reachable are the ends of the graph, and what paths from the entry reach
without the assignments that nobody misses. -/
theorem mem_reachable (hw : w.IsComplete) (h : search w = .ok r) :
    n ∈ r.reachable ↔ n = .entry ∨ n = .exit ∨ w.IsReached n ∧ ¬ w.IsUnmissed n := by
  have hkeeps := explore_keeps (Search.keeps_start w) h
  rw [hkeeps.reachable, ← mem_visited hw h, ← isUseless_iff]
  refine or_congr_right (or_congr_right (and_congr_right fun hn => ?_))
  obtain ⟨b, hb⟩ := hkeeps.judged n hn
  rw [hb]
  cases b <;> simp

/-- The dead statements are found, in ascending order. -/
theorem exists_detect_iff (hw : w.IsComplete) : ∃ dead, detect w = .ok dead ∧
    dead.Pairwise (· < ·) ∧ ∀ i, i ∈ dead ↔
      i < w.method.size ∧ (¬ w.IsReached (.stmt i) ∨ w.IsUnmissed (.stmt i)) := by
  obtain ⟨dead, hdead⟩ := hw.exists_detect
  obtain ⟨r, hr, h⟩ := Attempt.bind_eq_ok.mp hdead
  cases h
  refine ⟨_, hdead, List.pairwise_lt_range.sublist List.filter_sublist, fun i => ?_⟩
  rw [List.mem_filter, List.mem_range, decide_eq_true_eq, mem_reachable hw hr]
  simp [imp_iff_not_or]

end DeadCode

namespace Job

variable {α : Type} {m : Method} {s : Store α} {g : Cfg} {constants : FactTable ConstMap}
  {live : FactTable VarSet}

theorem evidence_eq (hg : s.find? "cfg" = some (.graph g))
    (hc : s.find? "constprop" = some (.constants constants))
    (hl : s.find? "livevar" = some (.liveness live)) :
    evidence m s = .ok ⟨m, g, constants.fact .input, live.fact .output⟩ := by
  have hcfg : s.result "cfg" = .ok (.graph g) := by rw [Store.result, hg]
  have hconstprop : s.result "constprop" = .ok (.constants constants) := by rw [Store.result, hc]
  have hlivevar : s.result "livevar" = .ok (.liveness live) := by rw [Store.result, hl]
  have hgraph : s.graph = .ok g := by
    rw [Store.graph, hcfg]
    rfl
  have hconstants : s.constants = .ok constants := by
    rw [Store.constants, hconstprop]
    rfl
  have hliveness : s.liveness = .ok live := by
    rw [Store.liveness, hlivevar]
    rfl
  rw [evidence, hgraph, hconstants, hliveness]
  simp only [List.forM_eq_forM, List.forM_cons, List.forM_nil, hcfg, hconstprop, hlivevar]
  rfl

/-- Over the graph of a method whose jumps are resolved, with facts for every node, the detection
of dead code finds in ascending order exactly the statements that no path of open edges reaches and
the assignments that nobody misses. -/
theorem deadcode_exact (hm : m.Resolved) : ∃ g, Cfg.build m = .ok g ∧
    ∀ {α : Type} (s : Store α) constants live, s.find? "cfg" = some (.graph g) →
      s.find? "constprop" = some (.constants constants) →
      s.find? "livevar" = some (.liveness live) → constants.Covers g → live.Covers g →
      ∀ fuel, ∃ o dead, Job.deadcode.run fuel m s = .ok o ∧ o.result = .dead dead ∧
        dead.Pairwise (· < ·) ∧ ∀ i, i ∈ dead ↔ i < m.size ∧
          let w : DeadCode.Evidence := ⟨m, g, constants.fact .input, live.fact .output⟩
          (¬ w.IsReached (.stmt i) ∨ w.IsUnmissed (.stmt i)) := by
  refine ⟨Cfg.graphOf m, Cfg.build_eq_ok.mpr ⟨hm, rfl⟩, ?_⟩
  intro α s constants live hg hc hl hconstants hlive fuel
  let w : DeadCode.Evidence := ⟨m, Cfg.graphOf m, constants.fact .input, live.fact .output⟩
  have hw : w.IsComplete := ⟨hm, rfl, hconstants .input, hlive .output⟩
  obtain ⟨dead, hdead, hsorted, hmem⟩ := DeadCode.exists_detect_iff hw
  have hrun : ∃ o, Job.deadcode.run fuel m s = .ok o ∧ o.result = .dead dead := by
    rw [run, runDeadCode, evidence_eq hg hc hl, Attempt.ok_bind, hdead]
    exact ⟨_, rfl, rfl⟩
  obtain ⟨o, ho, hresult⟩ := hrun
  exact ⟨o, dead, ho, hresult, hsorted, hmem⟩

/-- A method with a statement that a branch on a constant skips, and one of no use. -/
def skipping : Method :=
  let x : Var := ⟨"x", .prim .int⟩
  let y : Var := ⟨"y", .prim .int⟩
  ⟨"f", [], .prim .int, [x, y],
    [⟨.assign (.var x) (.int 1), 1⟩, ⟨.branch (.bin .eq (.var x) (.int 1)) (.stmt 3), 2⟩,
      ⟨.assign (.var x) (.int 2), 3⟩, ⟨.assign (.var y) (.var x), 4⟩, ⟨.ret (some (.var x)), 5⟩]⟩

/-- At every node `x` is known to be 1 and live. -/
def skippingStore : Store Unit :=
  let x : Var := ⟨"x", .prim .int⟩
  let g := Cfg.graphOf skipping
  .ofList [("cfg", .graph g),
    ("constprop", .constants (.init g.nodes fun _ => ConstMap.set ∅ x (.const 1))),
    ("livevar", .liveness (.init g.nodes fun _ => VarSet.add ∅ x))]

set_option maxRecDepth 4000 in
theorem deadcode_exact_skipping : skipping.Resolved ∧
    ∃ w o, evidence skipping skippingStore = .ok w ∧
      Job.deadcode.run 0 skipping skippingStore = .ok o ∧ o.result = .dead [2, 3] ∧
      ∀ i, i ∈ [2, 3] ↔ i < 5 ∧ (¬ w.IsReached (.stmt i) ∨ w.IsUnmissed (.stmt i)) := by
  have hm : skipping.Resolved := by decide
  obtain ⟨g, hg, hexact⟩ := deadcode_exact hm
  obtain ⟨-, rfl⟩ := Cfg.build_eq_ok.mp hg
  obtain ⟨o, dead, ho, hresult, -, hmem⟩ := hexact skippingStore _ _ rfl rfl rfl
    (FactTable.init_covers _ _) (FactTable.init_covers _ _) 0
  obtain ⟨log, hlog⟩ : ∃ log,
      Job.deadcode.run 0 skipping skippingStore = .ok ⟨.dead [2, 3], log⟩ := ⟨_, rfl⟩
  cases ho.symm.trans hlog
  cases hresult
  exact ⟨hm, _, _, evidence_eq rfl rfl rfl, ho, rfl, hmem⟩

end Job

end MethodFlow
