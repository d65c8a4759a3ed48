import MethodFlow.Plan.Run
import MethodFlow.Proofs.FeasibleRun

/-!
What the plans for the built-in analyses store: under each id there is what the analysis of that id
makes of the method, in whatever order the analyses were asked for.
-/

namespace MethodFlow

/-- The jobs that the built-in analyses do. -/
inductive Job.IsBuiltin {α : Type} : String → Job α → Prop
  | cfg : IsBuiltin "cfg" .cfg
  | constprop (order : Order) : IsBuiltin "constprop" (.constprop order)
  | livevar : IsBuiltin "livevar" .livevar
  | deadcode : IsBuiltin "deadcode" .deadcode

/-- What may be stored for a method under the id of an analysis. -/
inductive Result.IsOf {α : Type} (m : Method) (id : String) : Result α → Prop
  | graph {g : Cfg} (h : Cfg.build m = .ok g) (hid : id = "cfg") : IsOf m id (.graph g)
  | constants {t : FactTable ConstMap}
    (h : (ConstProp.problem m).Solves (Cfg.graphOf m) ConstMap.get t) (hid : id = "constprop") :
    IsOf m id (.constants t)
  | liveness {t : FactTable VarSet} (h : Liveness.Solved m (Cfg.graphOf m) t)
    (hid : id = "livevar") : IsOf m id (.liveness t)
  | dead {x : DeadCode.Analysed m} {dead : List Nat} (h : DeadCode.detect x.evidence = .ok dead)
    (hid : id = "deadcode") : IsOf m id (.dead dead)

variable {α : Type} {m : Method} {s : Store α} {fuel : Nat} {id : String}

/-- Every stored result is what the analysis of its id makes of the method. -/
def Store.IsOf (m : Method) (s : Store α) : Prop :=
  ∀ id r, s.find? id = some r → r.IsOf m id

namespace Store

theorem isOf_empty (m : Method) : IsOf m (∅ : Store α) := by
  intro id r h
  rw [OrderedMap.find?_empty] at h
  cases h

theorem IsOf.insert (h : IsOf m s) {r : Result α} (hr : r.IsOf m id) : IsOf m (s.insert id r) := by
  intro key r' hkey
  rw [OrderedMap.find?_insert] at hkey
  split at hkey
  · rename_i hid
    cases hkey
    exact hid ▸ hr
  · exact h key r' hkey

theorem result_eq_ok {r : Result α} : s.result id = .ok r ↔ s.find? id = some r := by
  unfold result
  cases s.find? id <;> simp

theorem IsOf.graph (h : IsOf m s) {g : Cfg} (hg : s.graph = .ok g) : Cfg.build m = .ok g := by
  obtain ⟨r, hr, hg⟩ := Attempt.bind_eq_ok.mp hg
  cases h _ _ (result_eq_ok.mp hr) with
  | graph hb _ =>
    cases hg
    exact hb
  | _ => cases hg

theorem IsOf.constants (h : IsOf m s) {r : Result α} (hr : s.result "constprop" = .ok r) :
    ∃ t, s.constants = .ok t ∧ (ConstProp.problem m).Solves (Cfg.graphOf m) ConstMap.get t := by
  unfold Store.constants
  rw [hr]
  cases h _ _ (result_eq_ok.mp hr) with
  | constants ht _ => exact ⟨_, rfl, ht⟩
  | graph _ hid => exact absurd hid (by decide)
  | liveness _ hid => exact absurd hid (by decide)
  | dead _ hid => exact absurd hid (by decide)

theorem IsOf.liveness (h : IsOf m s) {r : Result α} (hr : s.result "livevar" = .ok r) :
    ∃ t, s.liveness = .ok t ∧ Liveness.Solved m (Cfg.graphOf m) t := by
  unfold Store.liveness
  rw [hr]
  cases h _ _ (result_eq_ok.mp hr) with
  | liveness ht _ => exact ⟨_, rfl, ht⟩
  | graph _ hid => exact absurd hid (by decide)
  | constants _ hid => exact absurd hid (by decide)
  | dead _ hid => exact absurd hid (by decide)

end Store

namespace Job

/-- What the detection of dead code reads from the store is what an analysed method says. -/
theorem evidence_analysed (h : s.IsOf m) {e : DeadCode.Evidence} (he : evidence m s = .ok e) :
    ∃ x : DeadCode.Analysed m, e = x.evidence := by
  obtain ⟨_, hids, he⟩ := Attempt.bind_eq_ok.mp he
  obtain ⟨_, _, hids⟩ := Attempt.bind_eq_ok.mp hids
  obtain ⟨_, hc, hids⟩ := Attempt.bind_eq_ok.mp hids
  obtain ⟨_, hl, _⟩ := Attempt.bind_eq_ok.mp hids
  obtain ⟨g, hg, he⟩ := Attempt.bind_eq_ok.mp he
  obtain ⟨hm, rfl⟩ := Cfg.build_eq_ok.mp (h.graph hg)
  have hasResult : ∀ key u, discard (s.result key) = .ok u → ∃ r, s.result key = .ok r := by
    intro key u hu
    cases hr : s.result key with
    | error _ =>
      rw [hr] at hu
      cases hu
    | ok r => exact ⟨r, rfl⟩
  obtain ⟨_, hc⟩ := hasResult _ _ hc
  obtain ⟨_, hl⟩ := hasResult _ _ hl
  obtain ⟨known, hknown, hsolves⟩ := h.constants hc
  obtain ⟨live, hlive, hsolved⟩ := h.liveness hl
  cases he
  refine ⟨⟨hm, known, live, hsolves, hsolved⟩, ?_⟩
  rw [hknown, hlive]
  rfl

/-- A built-in analysis adds what belongs under its id. -/
theorem run_isOf {j : Job α} (hj : j.IsBuiltin id) (h : s.IsOf m) {o : Outcome α}
    (ho : j.run fuel m s = .ok o) : o.result.IsOf m id := by
  cases hj with
  | cfg =>
    obtain ⟨g, hg, ho⟩ := Attempt.bind_eq_ok.mp ho
    cases ho
    exact .graph hg rfl
  | constprop order =>
    obtain ⟨g, hg, ho⟩ := Attempt.bind_eq_ok.mp ho
    obtain ⟨sol, hsol, ho⟩ := Attempt.bind_eq_ok.mp ho
    cases ho
    obtain ⟨hm, rfl⟩ := Cfg.build_eq_ok.mp (h.graph hg)
    exact .constants
      (Problem.solves_of_solveForward (ConstProp.joining m) (Cfg.graphOf_closed hm) hsol) rfl
  | livevar =>
    obtain ⟨g, hg, ho⟩ := Attempt.bind_eq_ok.mp ho
    obtain ⟨sol, hsol, ho⟩ := Attempt.bind_eq_ok.mp ho
    cases ho
    obtain ⟨hm, rfl⟩ := Cfg.build_eq_ok.mp (h.graph hg)
    exact .liveness (Liveness.solved_of_solveBackward (Cfg.graphOf_closed hm) hsol) rfl
  | deadcode =>
    obtain ⟨e, he, ho⟩ := Attempt.bind_eq_ok.mp ho
    obtain ⟨dead, hdead, ho⟩ := Attempt.bind_eq_ok.mp ho
    cases ho
    obtain ⟨x, rfl⟩ := evidence_analysed h he
    exact .dead hdead rfl

end Job

namespace Plan

/-- Steps of built-in analyses keep a store in which every result belongs under its id. -/
theorem runSteps_isOf {steps : List (Step α)} (hb : ∀ x ∈ steps, x.job.IsBuiltin x.config.id)
    (h : s.IsOf m) : (runSteps fuel m s steps).store.IsOf m := by
  induction steps generalizing s with
  | nil => exact h
  | cons x steps ih =>
    unfold runSteps
    split
    · rename_i o ho
      refine ih (fun y hy => hb y (List.mem_cons_of_mem x hy)) (h.insert ?_)
      exact Job.run_isOf (hb x List.mem_cons_self) h ho
    · exact h

theorem prepareId_builtin {c : Config} {x : Step α} (h : prepareId .builtin c = .ok x) :
    x.job.IsBuiltin x.config.id := by
  obtain ⟨id, options, description⟩ := c
  unfold prepareId at h
  split at h
  · rename_i a ha
    have hmem : (id, a) ∈ (Registry.builtin : Registry α).entries :=
      OrderedMap.find?_eq_some_iff.mp ha
    have hentries : (Registry.builtin : Registry α).entries = [
        ("cfg", ⟨[], .cfg⟩),
        ("constprop", ⟨["cfg"], .constprop⟩),
        ("livevar", ⟨["cfg"], .livevar⟩),
        ("deadcode", ⟨["cfg", "constprop", "livevar"], .deadcode⟩)] := rfl
    simp only [hentries, List.mem_cons, List.not_mem_nil, or_false, Prod.mk.injEq] at hmem
    rcases hmem with ⟨rfl, rfl⟩ | ⟨rfl, rfl⟩ | ⟨rfl, rfl⟩ | ⟨rfl, rfl⟩
    · cases h
      exact .cfg
    · obtain ⟨order, _, h⟩ := Attempt.bind_eq_ok.mp h
      cases h
      exact .constprop order
    · obtain ⟨_, _, h⟩ := Attempt.bind_eq_ok.mp h
      cases h
      exact .livevar
    · cases h
      exact .deadcode
  · cases h

/-- The plans for built-in analyses consist of their jobs, under their ids. -/
theorem build_builtin {configs : List Config} {p : Plan α} (h : build .builtin configs = .ok p) :
    ∀ x ∈ p.steps, x.job.IsBuiltin x.config.id := by
  intro x hx
  obtain ⟨planned, _, h⟩ := Attempt.bind_eq_ok.mp h
  obtain ⟨steps, hsteps, h⟩ := Attempt.bind_eq_ok.mp h
  cases h
  obtain ⟨c, _, hc⟩ := Attempt.mem_of_mapM hsteps hx
  exact prepareId_builtin hc

/-- A plan for built-in analyses that finds dead statements finds those of an analysed method. -/
theorem dead_of_run {configs : List Config} {p : Plan α} (hp : build .builtin configs = .ok p)
    {dead : List Nat} (h : (p.run fuel m ∅).store.find? id = some (.dead dead)) :
    ∃ x : DeadCode.Analysed m, DeadCode.detect x.evidence = .ok dead := by
  cases runSteps_isOf (build_builtin hp) (Store.isOf_empty m) _ _ h with
  | dead hdead _ => exact ⟨_, hdead⟩

end Plan

end MethodFlow
