import MethodFlow.Plan.Run

/-!
Sessions: one method with its store of results, worked on step by step. Statements, stored graphs
and stored results may be changed in any order; later steps see them as they are.
-/

namespace MethodFlow

/-- A method with its results; `foreign` nodes outside the stored graph are known. -/
structure Session (α : Type) where
  method : Method
  store : Store α
  foreign : Nat

/-- A point that a step names: an end of the stored graph, the statement at an index, or a new node
outside the method. -/
inductive Point
  | entry
  | exit
  | statement (index : Int)
  | outside

/-- Where a step makes a jump lead. -/
inductive Jump
  | nowhere
  | statement (index : Int)

/-- What a node of a stored graph is and what it is connected to. -/
structure NodeReport where
  node : Node
  label : Except Text.Overlong String
  succs : List Node
  preds : List Node
  outEdges : List Edge
  inEdges : List Edge
  graphSize : Nat
  methodSize : Nat

/-- A step of a session; one that fails keeps what it had changed. -/
abbrev SessionStep (α β : Type) := ExceptT Fault (StateM (Session α)) β

namespace Session

variable {α : Type}

def start (m : Method) (foreign : Nat) : Session α :=
  ⟨m, ∅, foreign⟩

/-- Stores a result. A graph has ends of its own, so stored tables lose hold of those of the graph
before it. -/
def keep (s : Session α) (key : String) (r : Result α) : Session α :=
  match r with
  | .graph _ =>
    { s with
      store := (s.store.mapValues (Result.detach s.foreign)).insert key r
      foreign := s.foreign + 2 }
  | _ => { s with store := s.store.insert key r }

def clear (s : Session α) (key : String) : Session α :=
  { s with store := s.store.erase key }

def perform (fuel : Nat) (step : Step α) : SessionStep α Unit := do
  let s ← get
  let o ← step.job.run fuel s.method s.store
  set (s.keep step.config.id o.result)

/-- Runs a plan up to the first step that fails. -/
def run (fuel : Nat) (p : Plan α) : SessionStep α Unit :=
  p.steps.forM (perform fuel)

def newForeign : SessionStep α Nat := do
  let s ← get
  set { s with foreign := s.foreign + 1 }
  return s.foreign

def position (index : Int) : SessionStep α Nat := do
  match (← get).method.position? index with
  | some i => return i
  | none => throw (.noStatement index)

def node : Point → SessionStep α Node
  | .entry => do let _ ← (← get).store.graph; return .entry
  | .exit => do let _ ← (← get).store.graph; return .exit
  | .statement i => return .stmt (← position i)
  | .outside => return .foreign (← newForeign)

/-- The target that a jump gets. -/
def target : Jump → SessionStep α Target
  | .nowhere => return .unresolved
  | .statement i => return .stmt (← position i)

/-- The statement with its jump, or the default of a switch, leading to `t`. -/
def withTarget (t : Target) : Instr Target → Instr Target
  | .branch c _ => .branch c t
  | .goto _ => .goto t
  | .switch v ks ts _ => .switch v ks ts t
  | i => i

/-- The switch at position `i` with its target number `n` leading to `t`; a negative number counts
from the end. -/
def withCase (i : Nat) (n : Int) (t : Target) : Instr Target → Except Fault (Instr Target)
  | .switch v ks ts d =>
    let j := if n < 0 then n + ts.length else n
    if 0 ≤ j ∧ j < ts.length then .ok (.switch v ks (ts.set j.toNat t) d)
    else .error (.noStatement n)
  | _ => .error (.noSwitch i)

def replace (i : Nat) (instr : Instr Target) : SessionStep α (Instr Target) := do
  modify fun s => { s with method := s.method.setInstr i instr }
  return instr

def setTarget (index : Int) (jump : Jump) : SessionStep α (Instr Target) := do
  let i ← position index
  let t ← target jump
  replace i (withTarget t ((Node.stmt i).instr (← get).method))

def setCase (index n : Int) (jump : Jump) : SessionStep α (Instr Target) := do
  let i ← position index
  let t ← target jump
  replace i (← withCase i n t ((Node.stmt i).instr (← get).method))

/-- The fact that the result under a key has on a side of a point. -/
def factAt (key : String) (side : Side) (p : Point) :
    SessionStep α (ConstMap ⊕ VarSet) := do
  match ← (← get).store.result key with
  | .constants t => return .inl (← t.fact side (← node p))
  | .liveness t => return .inr (← t.fact side (← node p))
  | _ => throw (.otherResult key)

/-- Adds an edge to the stored graph, as far as it can be added. -/
def addEdge (kind : EdgeKind) (source dest : Point) (case? : Option Int) :
    SessionStep α Edge := do
  let g ← (← get).store.graph
  let edge : Edge := ⟨kind, ← node source, ← node dest, case?⟩
  let (g, outcome) := g.addEdge edge
  modify fun s => { s with store := s.store.insert "cfg" (.graph g) }
  outcome
  return edge

/-- What the stored graph says about a point. -/
def report (p : Point) : SessionStep α NodeReport := do
  let g ← (← get).store.graph
  let n ← node p
  Problem.checkNode g n
  let m := (← get).method
  return {
    node := n
    label := n.label m
    succs := g.succs n
    preds := g.preds n
    outEdges := g.outEdges n
    inEdges := g.inEdges n
    graphSize := g.nodes.length
    methodSize := m.size }

end Session

end MethodFlow
