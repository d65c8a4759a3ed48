import MethodFlow.Node

/-!
What an analysis can be asked for and not have: the causes, and their wording.
-/

namespace MethodFlow

inductive Side
  | input
  | output
  deriving DecidableEq

def Side.render : Side → String
  | input => "IN"
  | output => "OUT"

/-- The jumps of a statement that may be unresolved. -/
inductive Slot
  | target
  | case (value : Int)
  | default

def Slot.render : Slot → Except Text.Overlong String
  | target => .ok "target"
  | case v => do return "case " ++ (← Text.writeInt v)
  | default => .ok "default"

inductive Fault
  /-- A jump of the statement at an index leads nowhere yet. -/
  | unresolved (slot : Slot) (index : Nat)
  | stray (n : Node)
  /-- A table holds no fact for a side of a node. -/
  | noFact (side : Side) (n : Node)
  | noResult (key : String)
  /-- What is stored under a key is another kind of result. -/
  | otherResult (key : String)
  /-- An index is none of a statement of the method. -/
  | noStatement (index : Int)
  | noSwitch (index : Nat)
  /-- The fuel ran out before a fixed point was reached. -/
  | unfinished
  /-- A text was asked for that has an integer in it which is too long. -/
  | overlong (e : Text.Overlong)

/-- Asking for a text is one way to ask in vain. -/
instance : MonadLift (Except Text.Overlong) (Except Fault) := ⟨Except.mapError .overlong⟩

/-- The wording of a fault that came up in a method, which may itself be too long to be had. -/
def Fault.message (m : Method) : Fault → Except Text.Overlong String
  | unresolved slot i => do
    return "unresolved " ++ (← slot.render) ++ " of '" ++ (← ((Node.stmt i).instr m).render) ++ "'"
  | stray n => do return (← n.describe m) ++ " is not in the graph"
  | noFact side n => do return "no " ++ side.render ++ " fact recorded for " ++ (← n.describe m)
  | noResult key => .ok ("no '" ++ key ++ "' result stored for method " ++ m.name)
  | otherResult key =>
    .ok ("the '" ++ key ++ "' result of method " ++ m.name ++ " is of another kind")
  | noStatement i => .ok ("no statement at index " ++ toString i)
  | noSwitch i => .ok ("no switch at index " ++ toString i)
  | unfinished => .ok "no fixed point reached"
  | overlong e => .error e

end MethodFlow
