import MethodFlow.Cfg
import MethodFlow.Fact.Basic
import MethodFlow.FactTable

/-!
Fixed points of dataflow problems over a graph. A forward problem is solved by taking nodes off a
list of pending ones until none is left, a backward problem by sweeping over all nodes until a
sweep changes nothing.
-/

namespace MethodFlow

/-- A dataflow problem: the facts to start from, how a fact is merged into another, and what a
node makes of the fact that comes to it. -/
structure Problem (F : Type) where
  initial : F
  boundary : F
  merge : F → F → F
  transfer : Node → F → F

/-- Which end of the list of pending nodes is visited next. -/
inductive Order
  | fifo
  | lifo
  deriving DecidableEq

/-- What a visit to a node left behind: the facts on its sides, and whether the fact that the node
passes on changed. -/
structure Visit (F : Type) where
  node : Node
  changed : Bool
  input : F
  output : F

/-- A solved problem: the table of facts, the visits in their order, and the number of sweeps,
which is zero for a forward problem. -/
structure Solution (F : Type) where
  table : FactTable F
  trail : List (Visit F)
  sweeps : Nat

namespace Problem

variable {F : Type} [Fact F] (p : Problem F) (g : Cfg)

/-- Everything that comes to a node from the given side of its neighbours. -/
def gather (t : FactTable F) (s : Side) (ns : List Node) : Except Fault F :=
  ns.foldlM (fun acc n => return p.merge (← t.fact s n) acc) p.initial

def checkNode (n : Node) : Except Fault Unit :=
  if g.has n then .ok () else .error (.stray n)

section Forward

/-- Gathers what the predecessors pass on and applies the node to it. -/
def visitForward (n : Node) (t : FactTable F) : Except Fault (FactTable F × Visit F) := do
  checkNode g n
  let merged ← p.gather t .output (g.preds n)
  let (input, _) := Fact.overwrite (← t.fact .input n) merged
  let (output, changed) := Fact.overwrite (← t.fact .output n) (p.transfer n input)
  let t := { (t.setInput n input).setOutput n output with visits := t.visits + 1 }
  return (t, ⟨n, changed, input, output⟩)

/-- The state of a forward solver; the trail runs from the last visit back to the first. -/
structure Forward (F : Type) where
  table : FactTable F
  pending : List Node
  trail : List (Visit F)

/-- The next pending node and the ones that stay pending. -/
def pop : Order → List Node → Option (Node × List Node)
  | _, [] => none
  | .fifo, n :: ns => some (n, ns)
  | .lifo, n :: ns => some ((n :: ns).getLast (by simp), (n :: ns).dropLast)

def startForward : Forward F :=
  { table := .init g.nodes fun n => if n = .entry then p.boundary else p.initial
    pending := g.nodes.filter (· ≠ .entry)
    trail := [] }

/-- Visits a node; when what it passes on has changed, its successors become pending. -/
def stepForward (n : Node) (rest : List Node) (s : Forward F) : Except Fault (Forward F) := do
  let (t, v) ← p.visitForward g n s.table
  return ⟨t, if v.changed then rest ++ g.succs n else rest, v :: s.trail⟩

/-- Visits pending nodes until none is left. -/
def runForward (order : Order) : Nat → Forward F → Except Fault (Forward F)
  | fuel, s =>
    match pop order s.pending, fuel with
    | none, _ => .ok s
    | some _, 0 => .error .unfinished
    | some (n, rest), fuel + 1 => do runForward order fuel (← p.stepForward g n rest s)

def solveForward (order : Order) (fuel : Nat) : Except Fault (Solution F) := do
  let s ← p.runForward g order fuel (p.startForward g)
  return ⟨s.table, s.trail.reverse, 0⟩

end Forward

section Backward

/-- Gathers what the successors need and applies the node to it; the last component says whether
either side of the node changed. -/
def visitBackward (n : Node) (t : FactTable F) :
    Except Fault (FactTable F × Visit F × Bool) := do
  let merged ← p.gather t .input (g.succs n)
  let (output, changedOut) := Fact.overwrite (← t.fact .output n) merged
  let (input, changedIn) := Fact.overwrite (← t.fact .input n) (p.transfer n output)
  let t := { (t.setOutput n output).setInput n input with visits := t.visits + 1 }
  return (t, ⟨n, changedIn, input, output⟩, changedOut || changedIn)

/-- The state within a sweep; the trail runs from the last visit back to the first. -/
structure Backward (F : Type) where
  table : FactTable F
  trail : List (Visit F)
  changed : Bool

def startBackward : FactTable F :=
  .init g.nodes fun n => if n = .exit then p.boundary else p.initial

def stepBackward (s : Backward F) (n : Node) : Except Fault (Backward F) := do
  let (t, v, changed) ← p.visitBackward g n s.table
  return ⟨t, v :: s.trail, s.changed || changed⟩

/-- Visits every node but the exit, from the last to the first. -/
def sweep (t : FactTable F) (trail : List (Visit F)) : Except Fault (Backward F) :=
  (g.nodes.reverse.filter (· ≠ .exit)).foldlM (p.stepBackward g) ⟨t, trail, false⟩

/-- Sweeps until a sweep changes nothing; `done` sweeps came before. -/
def runBackward (done : Nat) :
    Nat → FactTable F → List (Visit F) → Except Fault (Solution F)
  | 0, _, _ => .error .unfinished
  | fuel + 1, t, trail => do
    let s ← p.sweep g t trail
    if s.changed then runBackward (done + 1) fuel s.table s.trail
    else return ⟨s.table, s.trail.reverse, done + 1⟩

def solveBackward (fuel : Nat) : Except Fault (Solution F) :=
  p.runBackward g 0 fuel (p.startBackward g) []

end Backward

end Problem

end MethodFlow
