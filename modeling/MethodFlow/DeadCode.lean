import MethodFlow.ConstProp
import MethodFlow.Liveness

/-!
Dead statements: those that no path reaches once branches on constants are pruned, and assignments
of values that nobody reads and nobody misses.
-/

namespace MethodFlow.DeadCode

/-- What the detection reads: the method, its graph, and what the solved problems say about a node:
the values that are known in front of it, and the variables that are live behind it. -/
structure Evidence where
  method : Method
  graph : Cfg
  known : Node → Except Fault ConstMap
  live : Node → Except Fault VarSet

variable (w : Evidence)

/-- Whether the statement at a node assigns to a variable that is dead afterwards a value that can
be left out. -/
def isUseless (n : Node) : Except Fault Bool :=
  match n.instr w.method with
  | .assign (.var v) e => do
    return !decide (v ∈ (← w.live n)) && e.isPure
  | _ => .ok false

/-- The targets of the edges of one kind from a node. -/
def targets (p : Edge → Bool) (n : Node) : List Node :=
  ((w.graph.outEdges n).filter p).map Edge.target

/-- Where a branch goes whose condition has a known value. -/
def branchTargets (k : Int) (n : Node) : List Node :=
  targets w (fun e => e.kind = if k = 1 then .ifTrue else .ifFalse) n

/-- Where a switch on a known value goes: to the cases of the value, or else to the default. -/
def switchTargets (k : Int) (default : Target) (n : Node) : Except Fault (List Node) :=
  match targets w (fun e => e.kind = .switchCase ∧ e.case? = some k) n with
  | [] => do return [← Cfg.resolve n.index.toNat .default default]
  | ts => .ok ts

/-- The nodes where control can go from a node, as far as constants decide branches. -/
def feasible (n : Node) : Except Fault (List Node) := do
  Problem.checkNode w.graph n
  match n.instr w.method with
  | .branch c _ =>
    match ConstProp.evaluate (← w.known n) c with
    | .const k => return branchTargets w k n
    | _ => return w.graph.succs n
  | .switch v _ _ default =>
    match ConstProp.evaluate (← w.known n) (.var v) with
    | .const k => switchTargets w k default n
    | _ => return w.graph.succs n
  | _ => return w.graph.succs n

/-- A search for nodes that feasible paths reach: the nodes that it has visited, and those that are
reachable with a statement to keep, which the ends of the graph count among. -/
structure Search where
  visited : List Node
  reachable : List Node

namespace Search

def start : Search :=
  ⟨[], [.entry, .exit]⟩

def visit (s : Search) (n : Node) (useless : Bool) : Search :=
  ⟨n :: s.visited, if useless then s.reachable else n :: s.reachable⟩

end Search

/-- Goes on with a search from a list of pending nodes, first come, first served. -/
def explore : Nat → List Node → Search → Except Fault Search
  | _, [], s => .ok s
  | 0, _ :: _, _ => .error .unfinished
  | fuel + 1, n :: pending, s =>
    if n ∈ s.visited then explore fuel pending s
    else do
      let s := s.visit n (← isUseless w n)
      let ns ← feasible w n
      explore fuel (pending ++ ns.filter (· ∉ s.visited)) s

/-- Searches from the entry. Every edge makes a node pending at most once, and so does every node by
a default that is no edge. -/
def search : Except Fault Search :=
  explore w (1 + w.graph.edges.length + w.graph.nodes.length) [.entry] .start

/-- The positions of the dead statements, in ascending order. -/
def detect : Except Fault (List Nat) := do
  let s ← search w
  return (List.range w.method.size).filter fun i => .stmt i ∉ s.reachable

end MethodFlow.DeadCode
