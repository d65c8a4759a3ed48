import MethodFlow.Proofs.FreshResults
import MethodFlow.Session

/-!
Running a plan in a session is running it on the stored results, once these have lost hold of the
graph before: every plan makes the graph first, and only once.
-/

namespace MethodFlow

variable {α : Type}

namespace Plan

variable {configs : List Config} {p : Plan α}

/-- A plan for some requests begins with the graph, and makes it only once. -/
theorem steps_of_build (hp : build .builtin configs = .ok p) (hne : configs ≠ []) :
    ∃ x rest, p.steps = x :: rest ∧ x.config.id = "cfg" ∧ x.job = .cfg ∧
      ∀ y ∈ rest, y.job ≠ .cfg := by
  have hready := isReady_of_build hp
  obtain ⟨c, hc⟩ := List.exists_mem_of_ne_nil _ hne
  obtain ⟨z, hz, _⟩ := List.mem_map.mp ((isPlanFor_of_build hp).requested c hc)
  obtain ⟨x, rest, hsteps⟩ := List.exists_cons_of_ne_nil (List.ne_nil_of_mem hz)
  rw [hsteps] at hready
  have hx : x.config.id = "cfg" ∧ x.job = .cfg := by
    have hb := hready.builtin x List.mem_cons_self
    have hnone : ∀ d, d ∉ (Registry.builtin : Registry α).requires x.config.id :=
      fun d hd => List.not_mem_nil (hready.mem_made hd)
    generalize x.config.id = id at hb hnone ⊢
    generalize x.job = j at hb ⊢
    cases hb with
    | cfg => exact ⟨rfl, rfl⟩
    | constprop order => exact absurd List.mem_cons_self (hnone "cfg")
    | livevar => exact absurd List.mem_cons_self (hnone "cfg")
    | deadcode => exact absurd List.mem_cons_self (hnone "cfg")
  refine ⟨x, rest, hsteps, hx.1, hx.2, fun y hy hjob => ?_⟩
  have hb := hready.builtin y (List.mem_cons_of_mem x hy)
  rw [hjob] at hb
  have hn := hready.nodup
  rw [List.nil_append, List.map_cons, hx.1, ← hb.id_of_cfg] at hn
  exact (List.nodup_cons.mp hn).1 (List.mem_map_of_mem hy)

end Plan

namespace Session

variable {β γ : Type}

theorem run_bind (x : SessionStep α β) (f : β → SessionStep α γ) (s : Session α) :
    (x >>= f).run.run s = match x.run.run s with
      | (.ok b, t) => (f b).run.run t
      | (.error e, t) => (.error e, t) := by
  rw [ExceptT.run_bind, StateT.run_bind]
  rcases x.run.run s with ⟨_ | b, t⟩ <;> rfl

theorem run_liftM (x : Except Fault β) (s : Session α) :
    (liftM x : SessionStep α β).run.run s = (x, s) := by
  cases x <;> rfl

theorem run_perform (fuel : Nat) (x : Step α) (s : Session α) :
    (perform fuel x).run.run s = match x.job.run fuel s.method s.store with
      | .ok o => (.ok (), s.keep x.config.id o.result)
      | .error e => (.error e, s) := by
  have hget : (get : SessionStep α (Session α)).run.run s = (.ok s, s) := rfl
  rw [perform, run_bind, hget]
  change ((liftM (x.job.run fuel s.method s.store) : SessionStep α (Outcome α)) >>=
    fun o => set (s.keep x.config.id o.result)).run.run s = _
  rw [run_bind, run_liftM]
  cases x.job.run fuel s.method s.store <;> rfl

/-- What a run of a plan comes to, as a session has it. -/
def after (s : Session α) (p : Progress α) : Except Fault Unit × Session α :=
  (p.fault?.elim (.ok ()) .error, { s with store := p.store })

theorem keep_of_run {j : Job α} {fuel : Nat} {s : Session α} {o : Outcome α} (hj : j ≠ .cfg)
    (h : j.run fuel s.method s.store = .ok o) (key : String) :
    s.keep key o.result = { s with store := s.store.insert key o.result } := by
  cases j with
  | cfg => exact absurd rfl hj
  | constprop order =>
    obtain ⟨g, _, h⟩ := Attempt.bind_eq_ok.mp h
    obtain ⟨sol, _, h⟩ := Attempt.bind_eq_ok.mp h
    cases h
    rfl
  | livevar =>
    obtain ⟨g, _, h⟩ := Attempt.bind_eq_ok.mp h
    obtain ⟨sol, _, h⟩ := Attempt.bind_eq_ok.mp h
    cases h
    rfl
  | deadcode =>
    obtain ⟨w, _, h⟩ := Attempt.bind_eq_ok.mp h
    obtain ⟨dead, _, h⟩ := Attempt.bind_eq_ok.mp h
    cases h
    rfl
  | custom f =>
    cases h
    rfl

theorem run_forM {steps : List (Step α)} (h : ∀ x ∈ steps, x.job ≠ .cfg) (fuel : Nat)
    (s : Session α) : (steps.forM (perform fuel)).run.run s =
      s.after (Plan.runSteps fuel s.method s.store steps) := by
  induction steps generalizing s with
  | nil => rfl
  | cons x steps ih =>
    obtain ⟨hx, hsteps⟩ := List.forall_mem_cons.mp h
    change (perform fuel x >>= fun _ => steps.forM (perform fuel)).run.run s = _
    rw [run_bind, run_perform, Plan.runSteps]
    cases hrun : x.job.run fuel s.method s.store with
    | error e => rfl
    | ok o =>
      dsimp only
      rw [keep_of_run hx hrun, ih hsteps]
      rfl

/-- The session when a new graph takes the place of the one that its tables were made on. -/
def withGraph (s : Session α) : Session α :=
  { s with store := s.store.mapValues (Result.detach s.foreign), foreign := s.foreign + 2 }

/-- Running a plan in a session stores what running it on the store does. -/
theorem run_eq {configs : List Config} {p : Plan α} (hp : Plan.build .builtin configs = .ok p)
    (hne : configs ≠ []) {s : Session α} (hm : s.method.Resolved) (fuel : Nat) :
    (run fuel p).run.run s = s.withGraph.after (p.run fuel s.method s.withGraph.store) := by
  obtain ⟨x, rest, hsteps, hid, hjob, hrest⟩ := Plan.steps_of_build hp hne
  obtain ⟨log, hrun⟩ : ∃ log, ∀ t : Store α,
      Job.cfg.run fuel s.method t = .ok ⟨.graph (Cfg.graphOf s.method), log⟩ := by
    simp only [Job.run, Job.runCfg, Cfg.build_eq_ok.mpr ⟨hm, rfl⟩]
    exact ⟨_, fun _ => rfl⟩
  rw [run, Plan.run, hsteps]
  change (perform fuel x >>= fun _ => rest.forM (perform fuel)).run.run s = _
  rw [run_bind, run_perform, Plan.runSteps, hjob, hrun, hrun]
  dsimp only
  rw [run_forM hrest]
  rfl

end Session

end MethodFlow
