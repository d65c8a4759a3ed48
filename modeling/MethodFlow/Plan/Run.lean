import MethodFlow.Cfg.Dot
import MethodFlow.Log
import MethodFlow.Plan
import MethodFlow.Result

/-!
Running plans: each step reads the results of earlier ones from the store of the method and adds
its own. A step that fails leaves what was stored before it.
-/

namespace MethodFlow

/-- What a task made of a method, and what it has to say about it. -/
structure Outcome (α : Type) where
  result : Result α
  log : List LogLine

namespace Job

variable {α : Type}

def solverLine (m : Method) (analysis direction : String) (visits : Nat) : LogLine :=
  ⟨.debug, .solver,
    analysis ++ " " ++ direction ++ " solve of " ++ m.name ++ ": " ++ toString visits ++
      " node visits"⟩

def runCfg (m : Method) : Except Fault (Outcome α) := do
  let g ← Cfg.build m
  return ⟨.graph g, [⟨.debug, .graph, "built " ++ g.describe m⟩]⟩

def runConstProp (fuel : Nat) (order : Order) (m : Method) (s : Store α) :
    Except Fault (Outcome α) := do
  let sol ← (ConstProp.problem m).solveForward (← s.graph) order fuel
  return ⟨.constants sol.table,
    [solverLine m "ConstantPropagation" "forward" sol.table.visits]⟩

def runLiveVar (fuel : Nat) (m : Method) (s : Store α) : Except Fault (Outcome α) := do
  let sol ← (Liveness.problem m).solveBackward (← s.graph) fuel
  return ⟨.liveness sol.table,
    [⟨.debug, .solver, "backward solve converged after " ++ toString sol.sweeps ++ " sweeps"⟩,
      solverLine m "LiveVariableAnalysis" "backward" sol.table.visits]⟩

/-- What is stored for the detection of dead code; tables are not looked into before a fact of
theirs is needed. -/
def evidence (m : Method) (s : Store α) : Except Fault DeadCode.Evidence := do
  ["cfg", "constprop", "livevar"].forM fun id => discard (s.result id)
  return {
    method := m
    graph := ← s.graph
    known := fun n => do (← s.constants).fact .input n
    live := fun n => do (← s.liveness).fact .output n }

def runDeadCode (m : Method) (s : Store α) : Except Fault (Outcome α) := do
  let dead ← DeadCode.detect (← evidence m s)
  return ⟨.dead dead,
    [⟨.debug, .deadCode, m.name ++ ": " ++ toString dead.length ++ " dead statement(s)"⟩]⟩

/-- Does a job for a method; solvers make at most `fuel` steps. -/
def run (fuel : Nat) (m : Method) (s : Store α) : Job α → Except Fault (Outcome α)
  | cfg => runCfg m
  | constprop order => runConstProp fuel order m s
  | livevar => runLiveVar fuel m s
  | deadcode => runDeadCode m s
  | custom f => .ok ⟨.value (f m), []⟩

end Job

/-- Where a run stands: what is stored, what was logged, and what made it stop early. -/
structure Progress (α : Type) where
  store : Store α
  log : List LogLine
  fault? : Option Fault

namespace Plan

variable {α : Type}

/-- Runs steps one after the other up to the first that fails. -/
def runSteps (fuel : Nat) (m : Method) (s : Store α) : List (Step α) → Progress α
  | [] => ⟨s, [], none⟩
  | step :: rest =>
    let id := step.config.id
    let line : LogLine :=
      ⟨.info, .plan, "running " ++ id ++ " on " ++ m.name⟩
    match step.job.run fuel m s with
    | .ok o =>
      let p := runSteps fuel m (s.insert id o.result) rest
      { p with log := line :: o.log ++ p.log }
    | .error e => ⟨s, [line], some e⟩

def run (p : Plan α) (fuel : Nat) (m : Method) (s : Store α) : Progress α :=
  runSteps fuel m s p.steps

end Plan

end MethodFlow
