import MethodFlow.Proofs.ConstantSound
import MethodFlow.Proofs.LiveRun
import MethodFlow.Proofs.MachineRun
import MethodFlow.Proofs.Reached

/-!
The runs of the machine stay on feasible paths: a branch whose condition is known to be constant
goes where that constant says, since what is known is true of the run.
-/

namespace MethodFlow

namespace Instr

/-- The cases of a switch with the value `k`. -/
def casesOf (k : Int) (cases : List (Int × Target)) : List (Int × Target) :=
  cases.filter fun c => c.1 = k

/-- Where a switch goes that takes some of its cases: to all their targets, or to its default when
there are none. -/
def goals (default : Target) : List (Int × Target) → List Node
  | [] => [default.goal]
  | c :: cs => (c :: cs).map fun c => c.2.goal

variable {k : Int} {cases : List (Int × Target)}

theorem mem_casesOf {c : Int × Target} : c ∈ casesOf k cases ↔ c ∈ cases ∧ c.1 = k := by
  rw [casesOf, List.mem_filter, decide_eq_true_eq]

theorem goal_mem_goals {t d : Target} (h : (k, t) ∈ cases) :
    t.goal ∈ goals d (casesOf k cases) := by
  have hmem : (k, t) ∈ casesOf k cases := mem_casesOf.mpr ⟨h, rfl⟩
  cases hcases : casesOf k cases with
  | nil =>
    rw [hcases] at hmem
    cases hmem
  | cons c cs =>
    rw [hcases] at hmem
    exact List.mem_map.mpr ⟨_, hmem, rfl⟩

theorem goals_of_forall_ne {d : Target} (h : ∀ c ∈ cases, c.1 ≠ k) :
    goals d (casesOf k cases) = [d.goal] := by
  have hnil : casesOf k cases = [] := by
    rw [casesOf, List.filter_eq_nil_iff]
    simpa using h
  rw [hnil, goals]

end Instr

namespace DeadCode

/-- A method whose problems have been solved over its graph. -/
structure Analysed (m : Method) where
  resolved : m.Resolved
  constants : FactTable ConstMap
  live : FactTable VarSet
  constants_solve :
    (ConstProp.problem m).Solves (Cfg.graphOf m) ConstMap.get constants
  live_solved : Liveness.Solved m (Cfg.graphOf m) live

variable {m : Method}

/-- What the detection of dead code reads of an analysed method. -/
def Analysed.evidence (x : Analysed m) : Evidence :=
  ⟨m, Cfg.graphOf m, x.constants.fact .input, x.live.fact .output⟩

theorem mem_targets {x : Evidence} {p : Edge → Bool} {n k : Node} :
    k ∈ targets x p n ↔ ∃ e ∈ x.graph.outEdges n, p e = true ∧ e.target = k := by
  simp [targets, and_assoc]

variable {ω : Type} {w : World ω} {μ : Memory ω} {es es' : List (Event ω)} {i j : Nat}
  {c : Option (Var × Datum ω)} {s : Instr Target} {ns : List Node}

/-- A branch on a condition that is known goes where the condition says. -/
theorem branch_feasible (x : Analysed m) {f : ConstMap} {a : Expr} {t : Target} {k : Int}
    (hf : ConstProp.Covers f μ) (hi : m.instr? i = some (.branch a t))
    (hx : execute w μ i (.branch a t) es = (.ok (.running j, c), es'))
    (hk : ConstProp.evaluate f a = .const k) :
    Cfg.place m.size j ∈ branchTargets x.evidence k (.stmt i) := by
  obtain ⟨_, d, hd, hj⟩ := execute_branch hx
  obtain ⟨y, rfl, rfl⟩ := ConstProp.evaluate_known hf hd hk
  by_cases hone : y = 1
  · have hint : y.toInt = 1 := Word.toInt_eq_one_iff.mpr hone
    rw [Datum.holds, decide_eq_true hone, if_pos rfl] at hj
    refine mem_targets.mpr ⟨_, (Cfg.mem_outEdges_stmt hi).mpr List.mem_cons_self, ?_, ?_⟩
    · simp [hint]
    · exact goal_of_jump (x.resolved i _ hi t (List.mem_singleton_self t)) hj.symm
  · have hint : ¬ y.toInt = 1 := fun h => hone (Word.toInt_eq_one_iff.mp h)
    rw [Datum.holds, decide_eq_false hone, if_neg Bool.false_ne_true] at hj
    cases hj
    refine mem_targets.mpr ⟨_, (Cfg.mem_outEdges_stmt hi).mpr
      (List.mem_cons_of_mem _ (List.mem_singleton_self _)), ?_, rfl⟩
    simp [hint]

section Switch

variable {x : Evidence} {v : Var} {ks : List Int} {ts : List Target} {d : Target} {k : Int}

/-- The targets of the cases of a switch with a value, in the order of the cases. -/
theorem caseTargets_eq (hg : x.graph = Cfg.graphOf x.method)
    (hi : x.method.instr? i = some (.switch v ks ts d)) :
    targets x (fun e => e.kind = .switchCase ∧ e.case? = some k) (.stmt i) =
      (Instr.casesOf k (ks.zip ts)).map fun c => c.2.goal := by
  rw [targets, hg, Cfg.outEdges_stmt hi, Cfg.exits, List.filter_append, List.filter_map,
    Instr.casesOf]
  simp [Function.comp_def]

theorem switchTargets_eq (hm : x.method.Resolved) (hg : x.graph = Cfg.graphOf x.method)
    (hi : x.method.instr? i = some (.switch v ks ts d)) :
    switchTargets x k d (.stmt i) = .ok (Instr.goals d (Instr.casesOf k (ks.zip ts))) := by
  have hd : d.Inside x.method.size :=
    hm i _ hi d (List.mem_append_right _ List.mem_cons_self)
  unfold switchTargets
  rw [caseTargets_eq hg hi]
  cases Instr.casesOf k (ks.zip ts) with
  | nil =>
    rw [List.map_nil, Cfg.resolve_eq_ok.mpr ⟨(Target.inside_iff.mp hd).1, rfl⟩]
    rfl
  | cons c cs => rfl

end Switch

/-- A switch on a value that is known goes to a case with that value, or to the default when there
is none. -/
theorem switch_feasible (x : Analysed m) {f : ConstMap} {v : Var} {ks : List Int}
    {ts : List Target} {t : Target} {k : Int} (hf : ConstProp.Covers f μ)
    (hi : m.instr? i = some (.switch v ks ts t))
    (hx : execute w μ i (.switch v ks ts t) es = (.ok (.running j, c), es'))
    (hk : ConstProp.evaluate f (.var v) = .const k)
    (hns : switchTargets x.evidence k t (.stmt i) = .ok ns) : Cfg.place m.size j ∈ ns := by
  obtain ⟨_, d, hd, hj⟩ := execute_switch hx
  obtain ⟨y, rfl, rfl⟩ := ConstProp.evaluate_known hf (.var hd) hk
  have hgoal := goal_of_jump
    (x.resolved i _ hi _ ((Datum.word y).choose_mem (ks.zip ts) t)) hj.symm
  cases (switchTargets_eq (x := x.evidence) x.resolved rfl hi).symm.trans hns
  rw [← hgoal]
  rcases Datum.choose_word (ω := ω) y (ks.zip ts) t with hcase | ⟨hnone, hdefault⟩
  · exact Instr.goal_mem_goals hcase
  · rw [hdefault, Instr.goals_of_forall_ne hnone]
    exact List.mem_singleton_self _

/-- The machine goes on where the analysis says that it can. -/
theorem execute_feasible (x : Analysed m) (hμ : Reaches m (Cfg.graphOf m) (.stmt i) μ)
    (hi : m.instr? i = some s) (hx : execute w μ i s es = (.ok (.running j, c), es'))
    (hns : feasible x.evidence (.stmt i) = .ok ns) : Cfg.place m.size j ∈ ns := by
  -- where no constant decides, the analysis keeps all successors, and control goes to one
  have hsuccs : Cfg.place m.size j ∈ (Cfg.graphOf m).succs (.stmt i) :=
    (Cfg.mem_succs_stmt hi).mpr (execute_exits (x.resolved i s hi) hx)
  obtain ⟨hn, hf⟩ :=
    ConstProp.reaches_covers (Cfg.graphOf_closed x.resolved) x.constants_solve hμ
  have hknown := x.constants_solve.covers.fact hn ∅ .input
  obtain ⟨_, _, hns⟩ := Attempt.bind_eq_ok.mp hns
  have hinstr : (Node.stmt i).instr x.evidence.method = s := Node.instr_stmt hi
  rw [hinstr] at hns
  cases s with
  | branch a t =>
    obtain ⟨f, hf', hns⟩ := Attempt.bind_eq_ok.mp hns
    cases hf'.symm.trans hknown
    split at hns
    · rename_i hk
      cases hns
      exact branch_feasible x hf hi hx hk
    · cases hns
      exact hsuccs
  | switch v ks ts t =>
    obtain ⟨f, hf', hns⟩ := Attempt.bind_eq_ok.mp hns
    cases hf'.symm.trans hknown
    split at hns
    · rename_i hk
      exact switch_feasible x hf hi hx hk hns
    · cases hns
      exact hsuccs
  | _ =>
    cases hns
    exact hsuccs

end DeadCode

end MethodFlow
