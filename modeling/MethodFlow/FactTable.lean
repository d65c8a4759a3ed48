import MethodFlow.Fault
import MethodFlow.OrderedMap

/-!
Tables of facts: one for each side of each node of a graph.
-/

namespace MethodFlow

/-- The facts on both sides of nodes, and how many visits to a node went into them. -/
structure FactTable (F : Type) where
  inputs : OrderedMap Node F := ∅
  outputs : OrderedMap Node F := ∅
  visits : Nat := 0

namespace FactTable

variable {F : Type}

def side (t : FactTable F) : Side → OrderedMap Node F
  | .input => t.inputs
  | .output => t.outputs

def fact (t : FactTable F) (s : Side) (n : Node) : Except Fault F :=
  match (t.side s).find? n with
  | some f => .ok f
  | none => .error (.noFact s n)

def setInput (t : FactTable F) (n : Node) (f : F) : FactTable F :=
  { t with inputs := t.inputs.insert n f }

def setOutput (t : FactTable F) (n : Node) (f : F) : FactTable F :=
  { t with outputs := t.outputs.insert n f }

def nodes (t : FactTable F) : List Node :=
  t.inputs.keys

/-- The facts on both sides of each of some nodes. -/
def rows (t : FactTable F) (ns : List Node) : Except Fault (List (Node × F × F)) :=
  ns.mapM fun n => do return (n, ← t.fact .input n, ← t.fact .output n)

/-- The table with other nodes in place of its own; `f` is to keep them apart. -/
def mapNodes (f : Node → Node) (t : FactTable F) : FactTable F :=
  { t with
    inputs := .ofList (t.inputs.entries.map fun e => (f e.1, e.2))
    outputs := .ofList (t.outputs.entries.map fun e => (f e.1, e.2)) }

/-- How many nodes have facts, and how many visits went into them. -/
def describe (t : FactTable F) : String :=
  "DataflowResult(" ++ toString t.nodes.length ++ " nodes, " ++ toString t.visits ++
    " iterations)"

/-- The table in which each node has the same fact on both of its sides. -/
def init (ns : List Node) (f : Node → F) : FactTable F :=
  let facts := OrderedMap.tabulate ns f
  { inputs := facts, outputs := facts }

end FactTable

end MethodFlow
