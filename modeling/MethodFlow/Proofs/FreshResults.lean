import MethodFlow.Proofs.FeasiblePaths
import MethodFlow.Proofs.PlanOrder
import MethodFlow.Proofs.StoredResults

/-!
A plan of built-in analyses reads nothing of what was stored before it runs: whatever one of its
analyses looks up, the plan has made itself. So plans with the same configurations store the same
results, in whatever order they were asked for and whatever was stored before.
-/

namespace MethodFlow

namespace Problem

variable {F : Type} [Fact F] {p : Problem F} {g : Cfg}

/-- Whatever fuel a forward solver comes to an end with, it comes to the same. -/
theorem solveForward_unique (hg : g.Closed) {order : Order} {fuel fuel' : Nat}
    {sol sol' : Solution F} (h : p.solveForward g order fuel = .ok sol)
    (h' : p.solveForward g order fuel' = .ok sol') : sol = sol' := by
  obtain ⟨hd, rfl⟩ := (p.solveForward_eq_ok hg).mp h
  obtain ⟨hd', rfl⟩ := (p.solveForward_eq_ok hg).mp h'
  have hstate : p.stateAt g order fuel = p.stateAt g order fuel' := by
    rcases Nat.le_total fuel fuel' with hle | hle
    · exact (p.stateAt_of_done hd hle).symm
    · exact p.stateAt_of_done hd' hle
  rw [hstate]

theorem runBackward_unique {done fuel fuel' : Nat} {t : FactTable F} {trail : List (Visit F)}
    {sol sol' : Solution F} (h : p.runBackward g done fuel t trail = .ok sol)
    (h' : p.runBackward g done fuel' t trail = .ok sol') : sol = sol' := by
  induction fuel generalizing fuel' done t trail with
  | zero => cases h
  | succ fuel ih =>
    cases fuel' with
    | zero => cases h'
    | succ fuel' =>
      obtain ⟨s, hs, h⟩ := Attempt.bind_eq_ok.mp h
      obtain ⟨s', hs', h'⟩ := Attempt.bind_eq_ok.mp h'
      cases hs.symm.trans hs'
      split at h
      · rename_i hc
        rw [if_pos hc] at h'
        exact ih h h'
      · rename_i hc
        rw [if_neg hc] at h'
        cases h
        cases h'
        rfl

end Problem

/-- What a built-in task makes of a method when constants are solved for in an order. -/
inductive Task.Makes {α : Type} (m : Method) (order : Order) : Task α → Result α → Prop
  | cfg {g : Cfg} (hg : Cfg.build m = .ok g) : Makes m order .cfg (.graph g)
  | constprop {g : Cfg} {fuel : Nat} {sol : Solution ConstMap} (hg : Cfg.build m = .ok g)
    (h : (ConstProp.problem m).solveForward g order fuel = .ok sol) :
    Makes m order .constprop (.constants sol.table)
  | livevar {g : Cfg} {fuel : Nat} {sol : Solution VarSet} (hg : Cfg.build m = .ok g)
    (h : (Liveness.problem m).solveBackward g fuel = .ok sol) :
    Makes m order .livevar (.liveness sol.table)
  | deadcode {g : Cfg} {constants : FactTable ConstMap} {live : FactTable VarSet}
    {dead : List Nat} (hg : Cfg.build m = .ok g)
    (hc : Makes m order .constprop (.constants constants : Result α))
    (hl : Makes m order .livevar (.liveness live : Result α))
    (h : DeadCode.detect ⟨m, g, constants.fact .input, live.fact .output⟩ = .ok dead) :
    Makes m order .deadcode (.dead dead)

variable {α : Type} {m : Method} {order : Order} {s : Store α} {fuel : Nat} {id : String}

theorem Task.Makes.unique {t : Task α} {r r' : Result α} (h : t.Makes m order r)
    (h' : t.Makes m order r') : r = r' := by
  induction h generalizing r' with
  | cfg hg =>
    cases h' with
    | cfg hg' =>
      cases hg.symm.trans hg'
      rfl
  | constprop hg h =>
    cases h' with
    | constprop hg' h' =>
      cases hg.symm.trans hg'
      have hclosed := Cfg.graphOf_closed (Cfg.build_eq_ok.mp hg).1
      rw [← (Cfg.build_eq_ok.mp hg).2] at hclosed
      rw [Problem.solveForward_unique hclosed h h']
  | livevar hg h =>
    cases h' with
    | livevar hg' h' =>
      cases hg.symm.trans hg'
      rw [Problem.runBackward_unique h h']
  | deadcode hg _ _ h ihc ihl =>
    cases h' with
    | deadcode hg' hc' hl' h' =>
      cases hg.symm.trans hg'
      cases ihc hc'
      cases ihl hl'
      cases h.symm.trans h'
      rfl

/-- Under an id there is what the built-in analysis of that id makes of the method. -/
def Store.Holds (m : Method) (order : Order) (s : Store α) (id : String) : Prop :=
  ∃ a r, (Registry.builtin : Registry α).find? id = some a ∧ s.find? id = some r ∧
    a.task.Makes m order r

theorem Store.Holds.insert {r : Result α} {a : Analysis α} {key : String}
    (ha : (Registry.builtin : Registry α).find? key = some a) (hr : a.task.Makes m order r)
    (h : id = key ∨ s.Holds m order id) : Store.Holds m order (s.insert key r) id := by
  by_cases hid : key = id
  · subst hid
    exact ⟨a, r, ha, by simp, hr⟩
  · obtain ⟨b, q, hb, hq, hm⟩ := h.resolve_left fun he => hid he.symm
    exact ⟨b, q, hb, by simp [hid, hq], hm⟩

theorem Store.Holds.cfg (h : s.Holds m order "cfg") :
    ∃ g, Cfg.build m = .ok g ∧ s.find? "cfg" = some (.graph g) := by
  obtain ⟨a, r, ha, hr, hm⟩ := h
  obtain rfl : ⟨[], .cfg⟩ = a := Option.some.inj ha
  cases hm with
  | cfg hg => exact ⟨_, hg, hr⟩

theorem Store.Holds.constprop (h : s.Holds m order "constprop") : ∃ t,
    (Task.constprop : Task α).Makes m order (.constants t) ∧
      s.find? "constprop" = some (.constants t) := by
  obtain ⟨a, r, ha, hr, hm⟩ := h
  obtain rfl : ⟨["cfg"], .constprop⟩ = a := Option.some.inj ha
  cases hm with
  | constprop hg h => exact ⟨_, .constprop hg h, hr⟩

theorem Store.Holds.livevar (h : s.Holds m order "livevar") : ∃ t,
    (Task.livevar : Task α).Makes m order (.liveness t) ∧
      s.find? "livevar" = some (.liveness t) := by
  obtain ⟨a, r, ha, hr, hm⟩ := h
  obtain rfl : ⟨["cfg"], .livevar⟩ = a := Option.some.inj ha
  cases hm with
  | livevar hg h => exact ⟨_, .livevar hg h, hr⟩

theorem Store.Holds.graph (h : s.Holds m order "cfg") {g : Cfg} (hg : s.graph = .ok g) :
    Cfg.build m = .ok g := by
  obtain ⟨g', hbuild, hfind⟩ := h.cfg
  rw [Store.graph, Store.result, hfind] at hg
  cases hg
  exact hbuild

theorem Job.IsBuiltin.id_of_cfg (h : (Job.cfg : Job α).IsBuiltin id) : id = "cfg" := by
  cases h
  rfl

theorem Job.IsBuiltin.id_of_constprop {o : Order}
    (h : (Job.constprop o : Job α).IsBuiltin id) : id = "constprop" := by
  cases h
  rfl

/-- A built-in analysis makes what it should when the store holds all that it requires. -/
theorem Job.makes_of_run {j : Job α} (hj : j.IsBuiltin id)
    (horder : ∀ o, j = .constprop o → o = order)
    (hs : ∀ d ∈ (Registry.builtin : Registry α).requires id, s.Holds m order d) {o : Outcome α}
    (ho : j.run fuel m s = .ok o) : ∃ a, (Registry.builtin : Registry α).find? id = some a ∧
      a.task.Makes m order o.result := by
  cases hj with
  | cfg =>
    obtain ⟨g, hg, ho⟩ := Attempt.bind_eq_ok.mp ho
    cases ho
    exact ⟨⟨[], .cfg⟩, rfl, .cfg hg⟩
  | constprop o =>
    obtain rfl := horder o rfl
    obtain ⟨g, hg, ho⟩ := Attempt.bind_eq_ok.mp ho
    obtain ⟨sol, hsol, ho⟩ := Attempt.bind_eq_ok.mp ho
    cases ho
    have hbuild := (hs "cfg" List.mem_cons_self).graph hg
    exact ⟨⟨["cfg"], .constprop⟩, rfl, .constprop hbuild hsol⟩
  | livevar =>
    obtain ⟨g, hg, ho⟩ := Attempt.bind_eq_ok.mp ho
    obtain ⟨sol, hsol, ho⟩ := Attempt.bind_eq_ok.mp ho
    cases ho
    have hbuild := (hs "cfg" List.mem_cons_self).graph hg
    exact ⟨⟨["cfg"], .livevar⟩, rfl, .livevar hbuild hsol⟩
  | deadcode =>
    have hrequires : (Registry.builtin : Registry α).requires "deadcode" =
        ["cfg", "constprop", "livevar"] := rfl
    rw [hrequires] at hs
    obtain ⟨g, hg, hgraph⟩ := (hs "cfg" (by simp)).cfg
    obtain ⟨constants, hc, hconstants⟩ := (hs "constprop" (by simp)).constprop
    obtain ⟨live, hl, hliveness⟩ := (hs "livevar" (by simp)).livevar
    obtain ⟨w, hw, ho⟩ := Attempt.bind_eq_ok.mp ho
    cases hw.symm.trans (evidence_eq hgraph hconstants hliveness)
    obtain ⟨dead, hdead, ho⟩ := Attempt.bind_eq_ok.mp ho
    cases ho
    exact ⟨⟨["cfg", "constprop", "livevar"], .deadcode⟩, rfl, .deadcode hg hc hl hdead⟩

namespace Plan

variable {steps : List (Step α)}

/-- A run leaves alone what is stored under other ids than those of its steps. -/
theorem find?_runSteps (hid : id ∉ steps.map fun x => x.config.id) :
    (runSteps fuel m s steps).store.find? id = s.find? id := by
  induction steps generalizing s with
  | nil => rfl
  | cons x steps ih =>
    rw [List.map_cons, List.mem_cons, not_or] at hid
    have hne : ¬ x.config.id = id := fun he => hid.1 he.symm
    unfold runSteps
    split
    · rename_i o _
      exact (ih hid.2).trans (by simp [hne])
    · rfl

/-- Steps of built-in analyses that can be run when some are `made`: each comes after all that it
requires, and none comes twice. -/
structure IsReady (made : List String) (steps : List (Step α)) : Prop where
  builtin : ∀ x ∈ steps, x.job.IsBuiltin x.config.id
  nodup : (made ++ steps.map fun x => x.config.id).Nodup
  after : ∀ x ∈ steps, ∀ d ∈ (Registry.builtin : Registry α).requires x.config.id,
    [d, x.config.id].Sublist (made ++ steps.map fun x => x.config.id)

variable {made : List String} {x : Step α}

theorem IsReady.mem_made (h : IsReady made (x :: steps)) {d : String}
    (hd : d ∈ (Registry.builtin : Registry α).requires x.config.id) : d ∈ made := by
  have hn := h.nodup
  rw [List.map_cons, List.nodup_append] at hn
  exact mem_of_sublist_pair (List.nodup_cons.mp hn.2.1).1 (h.after x List.mem_cons_self d hd)

theorem IsReady.tail (h : IsReady made (x :: steps)) :
    IsReady (made ++ [x.config.id]) steps where
  builtin y hy := h.builtin y (List.mem_cons_of_mem x hy)
  nodup := by simpa using h.nodup
  after y hy := by simpa using h.after y (List.mem_cons_of_mem x hy)

/-- A finished run leaves under each id of its steps what the analysis makes: what a step looks up
was made before. -/
theorem holds_runSteps (h : IsReady made steps)
    (horder : ∀ x ∈ steps, ∀ o, x.job = .constprop o → o = order)
    (hmade : ∀ id ∈ made, s.Holds m order id)
    (hfault : (runSteps fuel m s steps).fault? = none) :
    ∀ id ∈ made ++ steps.map fun x => x.config.id,
      (runSteps fuel m s steps).store.Holds m order id := by
  induction steps generalizing s made with
  | nil =>
    rw [List.map_nil, List.append_nil]
    exact hmade
  | cons x steps ih =>
    unfold runSteps at hfault ⊢
    split
    · rename_i o ho
      simp only [ho] at hfault
      obtain ⟨a, ha, hm⟩ := Job.makes_of_run (h.builtin x List.mem_cons_self)
        (horder x List.mem_cons_self) (fun d hd => hmade d (h.mem_made hd)) ho
      rw [List.map_cons, List.append_cons]
      apply ih h.tail (fun y hy => horder y (List.mem_cons_of_mem x hy)) _ hfault
      intro id hid
      apply Store.Holds.insert ha hm
      rcases List.mem_append.mp hid with hid | hid
      · exact .inr (hmade id hid)
      · exact .inl (List.mem_singleton.mp hid)
    · rename_i e he
      simp only [he] at hfault
      cases hfault

section Build

variable {r : Registry α} {c : Config} {configs configs' : List Config} {p p' : Plan α}

theorem config_of_prepareId (h : prepareId r c = .ok x) : x.config = c := by
  unfold prepareId at h
  split at h
  · rename_i a _
    cases ht : a.task with
    | cfg | deadcode | custom f =>
      rw [ht] at h
      cases h
      rfl
    | constprop | livevar =>
      rw [ht] at h
      obtain ⟨_, _, h⟩ := Attempt.bind_eq_ok.mp h
      cases h
      rfl
  · cases h

theorem map_config_eq {plan : List Config} {steps : List (Step α)}
    (h : List.Forall₂ (fun c x => prepareId r c = .ok x) plan steps) :
    steps.map Step.config = plan := by
  induction h with
  | nil => rfl
  | cons hx _ ih => rw [List.map_cons, config_of_prepareId hx, ih]

/-- The steps of a plan are those that its configurations decide. -/
theorem arrange_of_build (h : build r configs = .ok p) : arrange r configs = .ok p.configs ∧
    ∀ x ∈ p.steps, prepareId r x.config = .ok x := by
  obtain ⟨planned, hplanned, h⟩ := Attempt.bind_eq_ok.mp h
  obtain ⟨steps, hsteps, h⟩ := Attempt.bind_eq_ok.mp h
  cases h
  have hpairs := Attempt.mapM_eq_ok.mp hsteps
  refine ⟨hplanned.trans (congrArg Except.ok (map_config_eq hpairs).symm), ?_⟩
  refine Attempt.forall_mem_of_forall₂ hpairs fun c x hx => ?_
  rw [config_of_prepareId hx]
  exact hx

theorem isPlanFor_of_build (h : build r configs = .ok p) : r.IsPlanFor configs p.configs :=
  (isPlanFor_of_arrange (arrange_of_build h).1).1

theorem ids_eq (p : Plan α) : (p.steps.map fun x => x.config.id) = p.configs.map Config.id := by
  rw [configs, List.map_map]
  rfl

theorem isReady_of_build (hp : build .builtin configs = .ok p) : IsReady [] p.steps := by
  have hplan := isPlanFor_of_build hp
  refine ⟨build_builtin hp, ?_, ?_⟩
  · rw [List.nil_append, ids_eq]
    exact hplan.nodup
  · intro x hx d hd
    have hmem : x.config.id ∈ p.configs.map Config.id :=
      List.mem_map_of_mem (List.mem_map_of_mem hx)
    rw [List.nil_append, ids_eq]
    exact hplan.after _ hmem d (.single hd)

/-- A finished run of a plan leaves under each of its ids what the analysis makes. -/
theorem holds_run (hp : build .builtin configs = .ok p)
    (horder : ∀ x ∈ p.steps, ∀ o, x.job = .constprop o → o = order)
    (hfault : (p.run fuel m s).fault? = none) :
    ∀ id ∈ p.configs.map Config.id, (p.run fuel m s).store.Holds m order id := by
  have hholds := holds_runSteps (isReady_of_build hp) horder (List.forall_mem_nil _) hfault
  rw [List.nil_append, ids_eq] at hholds
  exact hholds

/-- Where equal ids go with equal configurations, constants are solved for in one order. -/
theorem exists_order {steps : List (Step α)}
    (hsteps : ∀ x ∈ steps, prepareId .builtin x.config = .ok x)
    (hsame : ∀ x ∈ steps, ∀ y ∈ steps, x.config.id = y.config.id → x.config = y.config) :
    ∃ order, ∀ x ∈ steps, ∀ o, x.job = .constprop o → o = order := by
  have hid : ∀ x ∈ steps, ∀ o, x.job = .constprop o → x.config.id = "constprop" := by
    intro x hx o hjob
    have hb := prepareId_builtin (hsteps x hx)
    rw [hjob] at hb
    exact hb.id_of_constprop
  by_cases h : ∃ x ∈ steps, ∃ o, x.job = .constprop o
  · obtain ⟨x, hx, order, hjob⟩ := h
    refine ⟨order, fun y hy o hy' => ?_⟩
    have hconfig := hsame x hx y hy ((hid x hx order hjob).trans (hid y hy o hy').symm)
    have hstep := hsteps x hx
    rw [hconfig, hsteps y hy] at hstep
    cases hstep
    cases hjob.symm.trans hy'
    rfl
  · exact ⟨.fifo, fun x hx o hjob => absurd ⟨x, hx, o, hjob⟩ h⟩

/-- Two plans that give the ids of both the same configurations do so with all their ids. -/
theorem config_eq_of_id (hp : build r configs = .ok p) (hp' : build r configs' = .ok p')
    (hsame : ∀ c ∈ p.configs, ∀ d ∈ p'.configs, c.id = d.id → c = d) :
    ∀ c ∈ p.configs ++ p'.configs, ∀ d ∈ p.configs ++ p'.configs, c.id = d.id → c = d := by
  intro c hc d hd hid
  rcases List.mem_append.mp hc with hc | hc
  · rcases List.mem_append.mp hd with hd | hd
    · exact List.inj_on_of_nodup_map (isPlanFor_of_build hp).nodup hc hd hid
    · exact hsame c hc d hd hid
  · rcases List.mem_append.mp hd with hd | hd
    · exact (hsame d hd c hc hid.symm).symm
    · exact List.inj_on_of_nodup_map (isPlanFor_of_build hp').nodup hc hd hid

/-- Two plans of built-in analyses that give the ids of both the same configurations: their
finished runs store the same results under these ids, whatever was stored before, and keep what was
stored under all ids that are not theirs. -/
theorem run_independent (hp : build .builtin configs = .ok p)
    (hp' : build .builtin configs' = .ok p')
    (hsame : ∀ c ∈ p.configs, ∀ d ∈ p'.configs, c.id = d.id → c = d)
    {s s' : Store α} {fuel fuel' : Nat} (hrun : (p.run fuel m s).fault? = none)
    (hrun' : (p'.run fuel' m s').fault? = none) :
    (∀ id ∈ p.configs.map Config.id, id ∈ p'.configs.map Config.id →
      ∃ r, (p.run fuel m s).store.find? id = some r ∧
        (p'.run fuel' m s').store.find? id = some r) ∧
      (∀ id ∉ p.configs.map Config.id, (p.run fuel m s).store.find? id = s.find? id) ∧
      ∀ id ∉ p'.configs.map Config.id, (p'.run fuel' m s').store.find? id = s'.find? id := by
  have hconfigs := config_eq_of_id hp hp' hsame
  rw [Plan.configs, Plan.configs, ← List.map_append] at hconfigs
  obtain ⟨order, horder⟩ : ∃ order, ∀ x ∈ p.steps ++ p'.steps, ∀ o, x.job = .constprop o →
      o = order := by
    refine exists_order (fun x hx => ?_) fun x hx y hy => ?_
    · exact (List.mem_append.mp hx).elim ((arrange_of_build hp).2 x) ((arrange_of_build hp').2 x)
    · exact hconfigs _ (List.mem_map_of_mem hx) _ (List.mem_map_of_mem hy)
  refine ⟨fun id hid hid' => ?_, fun id hid => ?_, fun id hid => ?_⟩
  · obtain ⟨a, r, ha, hr, hm⟩ :=
      holds_run hp (fun x hx => horder x (List.mem_append_left _ hx)) hrun id hid
    obtain ⟨a', r', ha', hr', hm'⟩ :=
      holds_run hp' (fun x hx => horder x (List.mem_append_right _ hx)) hrun' id hid'
    cases ha.symm.trans ha'
    cases hm.unique hm'
    exact ⟨r, hr, hr'⟩
  · rw [← ids_eq] at hid
    exact find?_runSteps hid
  · rw [← ids_eq] at hid
    exact find?_runSteps hid

end Build

/-- All analyses, in the order in which dead code needs them. -/
def deadcodePlan : Plan Unit where
  requested := ["deadcode"]
  steps := [⟨.plain "cfg", .cfg⟩, ⟨.plain "constprop", .constprop .fifo⟩,
    ⟨.plain "livevar", .livevar⟩, ⟨.plain "deadcode", .deadcode⟩]

/-- Both dataflow analyses, the live variables first. -/
def dataflowPlan : Plan Unit where
  requested := ["livevar", "constprop"]
  steps := [⟨.plain "cfg", .cfg⟩, ⟨.plain "livevar", .livevar⟩,
    ⟨.plain "constprop", .constprop .fifo⟩]

set_option maxRecDepth 20000 in
theorem run_independent_skipping :
    build .builtin [.plain "deadcode"] = .ok deadcodePlan ∧
      build .builtin [.plain "livevar", .plain "constprop"] = .ok dataflowPlan ∧
      (∃ r, (deadcodePlan.run 20 Job.skipping Job.skippingStore).store.find? "constprop" = some r ∧
        (dataflowPlan.run 30 Job.skipping ∅).store.find? "constprop" = some r) ∧
      (dataflowPlan.run 30 Job.skipping ∅).store.find? "deadcode" = none := by
  have hp : build .builtin [.plain "deadcode"] = .ok deadcodePlan := by cbv
  have hp' : build .builtin [.plain "livevar", .plain "constprop"] = .ok dataflowPlan := by cbv
  have hplain : ∀ c ∈ deadcodePlan.configs, c = .plain c.id := by
    simp [configs, deadcodePlan, Config.plain]
  have hplain' : ∀ d ∈ dataflowPlan.configs, d = .plain d.id := by
    simp [configs, dataflowPlan, Config.plain]
  have hsame : ∀ c ∈ deadcodePlan.configs, ∀ d ∈ dataflowPlan.configs, c.id = d.id → c = d := by
    intro c hc d hd hid
    rw [hplain c hc, hplain' d hd, hid]
  have hrun : (deadcodePlan.run 20 Job.skipping Job.skippingStore).fault? = none := rfl
  have hrun' : (dataflowPlan.run 30 Job.skipping ∅).fault? = none := rfl
  obtain ⟨hboth, -, hother⟩ := run_independent hp hp' hsame hrun hrun'
  exact ⟨hp, hp', hboth "constprop" (by decide) (by decide), hother "deadcode" (by decide)⟩

end Plan

end MethodFlow
