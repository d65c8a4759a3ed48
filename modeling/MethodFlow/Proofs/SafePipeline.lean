import MethodFlow.Proofs.BackwardLeast
import MethodFlow.Proofs.CheckedPrograms
import MethodFlow.Proofs.ScopedCode
import MethodFlow.Proofs.SearchEnds

/-!
What is read from a text never makes an analysis fail: its methods are closed, so their graphs can
be built, and everything that the analyses look up in them is there.
-/

namespace MethodFlow

/-- A method that is complete in itself: its jumps are to its own statements, and its statements
are over its own variables, which have different names. -/
structure Method.IsClosed (m : Method) : Prop where
  paired : ∀ x ∈ m.body, x.instr.IsPaired
  resolved : m.Resolved
  vars : ∀ x ∈ m.body, x.instr.vars ⊆ m.vars
  distinct : (m.vars.map Var.name).Nodup

section Reading

open Source

variable {p : Pos} {d : MethodDecl} {m : Method}

theorem Source.MethodDecl.JumpsAsWritten.resolved (h : d.JumpsAsWritten m) : m.Resolved := by
  have hbody : ∀ x ∈ m.body, ∀ t ∈ x.instr.jumps, t.Inside m.size := by
    refine Attempt.forall_mem_of_forall₂ h fun c x hjumps => ?_
    rw [Method.size, ← h.length_eq]
    exact Attempt.forall_mem_of_forall₂ hjumps fun _ _ ht => ht.inside
  intro i s hs
  obtain ⟨x, hx, rfl⟩ := Option.map_eq_some_iff.mp hs
  exact hbody x (List.mem_of_getElem? hx)

/-- A declaration means a closed method only. -/
theorem Source.MethodDecl.isClosed_of_meaning (h : d.meaning p = .ok m) : m.IsClosed := by
  have hresolved := (jumpsAsWritten_of_meaning h).resolved
  obtain ⟨ret, params, scope, l, xs, _, hparams, hscope, hl, hxs, rfl⟩ := d.parts_of_meaning h
  have hps := declares_optional_params (p.after d.head) d.params
  have hvs := declares_vars (p.after d.front) d.decls
  have hnames := hps.adds [] params hparams
  have hfirst := ((hps.decides [] [] rfl .nil).exists_iff.mp ⟨params, hparams⟩).1
  have hall := ((hvs.decides params _ hnames hfirst).exists_iff.mp ⟨scope, hscope⟩).1
  have hinj : Function.Injective String.ofList := fun _ _ => String.ofList_injective
  have hdistinct : (scope.map Var.name).Nodup := by
    rw [hvs.adds params scope hscope, hnames, List.map_nil, List.nil_append, ← List.map_append]
    exact hall.map hinj
  have hvars : Method.scopeOf params scope = scope := by
    obtain ⟨others, rfl⟩ := hvs.grows params scope hscope
    exact scopeOf_append hdistinct.of_map
  have hempty : Layout.empty.IsScoped scope := List.forall_mem_nil _
  refine ⟨Layout.isPaired_of_body hl hxs, hresolved, ?_, ?_⟩
  · rw [Method.make, hvars]
    exact (hempty.ofItems hl).body hxs
  · rw [Method.make, hvars]
    exact hdistinct

theorem isClosed_of_parse {text : String} {ms : List Method} (h : parse text = .ok ms)
    (hm : m ∈ ms) : m.IsClosed := by
  obtain ⟨_, d, _, p, hd⟩ := mem_readText (mem_of_parse h hm)
  exact d.isClosed_of_meaning hd

end Reading

section Solvers

variable {F : Type} [Fact F] {p : Problem F} {g : Cfg}

/-- All that a forward solver can run out of is fuel. -/
theorem Problem.unfinished_of_solveForward (hg : g.Closed) {order : Order} {fuel : Nat} {e : Fault}
    (h : p.solveForward g order fuel = .error e) : e = .unfinished := by
  unfold solveForward at h
  rw [p.runForward_eq hg order fuel (p.sound_start g)] at h
  split at h
  · cases h
  · cases h
    rfl

theorem Problem.unfinished_of_runBackward (hg : g.Closed) {fuel done : Nat} {s : Backward F}
    (hs : s.table.Covers g) {e : Fault}
    (h : p.runBackward g done fuel s.table s.trail = .error e) : e = .unfinished := by
  induction fuel generalizing done s with
  | zero =>
    cases h
    rfl
  | succ fuel ih =>
    obtain ⟨hsweep, hcovers⟩ := p.sweep_eq hg hs
    unfold runBackward at h
    rw [hsweep, Attempt.ok_bind] at h
    split at h
    · exact ih hcovers h
    · cases h

/-- All that a backward solver can run out of is fuel. -/
theorem Problem.unfinished_of_solveBackward (hg : g.Closed) {fuel : Nat} {e : Fault}
    (h : p.solveBackward g fuel = .error e) : e = .unfinished :=
  unfinished_of_runBackward hg (s := ⟨p.startBackward g, [], false⟩) (FactTable.init_covers g _) h

end Solvers

open Source in
/-- In what is read from a text, methods are closed, their graphs can be built, the solvers of
constants and of live variables can only run out of fuel, and from what they come to the dead
statements are found. -/
theorem parse_never_faults {text : String} {ms : List Method} (h : parse text = .ok ms)
    {m : Method} (hm : m ∈ ms) : m.IsClosed ∧ ∃ g, Cfg.build m = .ok g ∧
      (∀ order fuel e, (ConstProp.problem m).solveForward g order fuel = .error e →
        e = .unfinished) ∧
      (∀ fuel e, (Liveness.problem m).solveBackward g fuel = .error e → e = .unfinished) ∧
      ∀ order fuel fuel' constants live,
        (ConstProp.problem m).solveForward g order fuel = .ok constants →
        (Liveness.problem m).solveBackward g fuel' = .ok live →
        ∃ dead, DeadCode.detect ⟨m, g, constants.table.fact .input, live.table.fact .output⟩ =
          .ok dead := by
  have hclosed := isClosed_of_parse h hm
  have hg := Cfg.graphOf_closed hclosed.resolved
  refine ⟨hclosed, Cfg.graphOf m, Cfg.build_eq_ok.mpr ⟨hclosed.resolved, rfl⟩, ?_, ?_, ?_⟩
  · exact fun order fuel e he => Problem.unfinished_of_solveForward hg he
  · exact fun fuel e he => Problem.unfinished_of_solveBackward hg he
  · intro order fuel fuel' constants live hconstants hlive
    let x : DeadCode.Analysed m := {
      resolved := hclosed.resolved
      constants := constants.table
      live := live.table
      constants_solve :=
        Problem.solves_of_solveForward (ConstProp.joining m) hg hconstants
      live_solved := Liveness.solved_of_solveBackward hg hlive }
    exact DeadCode.exists_detect x

/-- A program with a branch whose condition is known. -/
def prunedText : String :=
  "method int f(int n) \x7b int x; x = 1; if (x == 1) goto M; n = 2; M: return n; \x7d"

/-- What is read of `prunedText`. -/
def prunedMethod : Method :=
  let n : Var := ⟨"n", .prim .int⟩
  let x : Var := ⟨"x", .prim .int⟩
  ⟨"f", [n], .prim .int, [n, x],
    [⟨.assign (.var x) (.int 1), 1⟩, ⟨.branch (.bin .eq (.var x) (.int 1)) (.stmt 3), 1⟩,
      ⟨.assign (.var n) (.int 2), 1⟩, ⟨.ret (some (.var n)), 1⟩]⟩

set_option maxRecDepth 20000 in
theorem parse_never_faults_pruned : ∃ g constants live dead, prunedMethod.IsClosed ∧
    Cfg.build prunedMethod = .ok g ∧
    (ConstProp.problem prunedMethod).solveForward g .fifo 20 = .ok constants ∧
    (Liveness.problem prunedMethod).solveBackward g 5 = .ok live ∧
    DeadCode.detect ⟨prunedMethod, g, constants.table.fact .input, live.table.fact .output⟩ =
      .ok dead := by
  have hparse : Source.parse prunedText = .ok [prunedMethod] := by
    simp only [Source.parse, prunedText, String.reduceToList]
    rfl
  obtain ⟨hclosed, g, hg, -, -, hdetect⟩ := parse_never_faults hparse List.mem_cons_self
  obtain ⟨-, rfl⟩ := Cfg.build_eq_ok.mp hg
  obtain ⟨constants, hconstants⟩ : ∃ s, (ConstProp.problem prunedMethod).solveForward
      (Cfg.graphOf prunedMethod) .fifo 20 = .ok s := ⟨_, rfl⟩
  obtain ⟨live, hlive⟩ : ∃ s, (Liveness.problem prunedMethod).solveBackward
      (Cfg.graphOf prunedMethod) 5 = .ok s := ⟨_, rfl⟩
  obtain ⟨dead, hdead⟩ := hdetect .fifo 20 5 constants live hconstants hlive
  exact ⟨_, constants, live, dead, hclosed, hg, hconstants, hlive, hdead⟩

end MethodFlow
