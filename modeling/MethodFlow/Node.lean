import MethodFlow.Method

/-!
Points of a control flow graph: the statements of a method between an entry and an exit.
-/

namespace MethodFlow

/-- A point of a graph. A node outside every method is known by its tag. -/
inductive Node
  | entry
  | stmt (index : Nat)
  | exit
  | foreign (tag : Nat)
  deriving DecidableEq

namespace Node

/-- The position shown for a node; only statements of a method have one. -/
def index : Node → Int
  | stmt i => i
  | _ => -1

/-- Turns the ends of a graph into nodes outside it, known by `tag` and the next tag. -/
def detach (tag : Nat) : Node → Node
  | entry => foreign tag
  | exit => foreign (tag + 1)
  | n => n

/-- What runs at a node: a statement, or nothing at a node that is none of the method's. -/
def instr (m : Method) : Node → Instr Target
  | stmt i => (m.instr? i).getD .nop
  | _ => .nop

def describe (m : Method) (n : Node) : Except Text.Overlong String :=
  Method.describe n.index (n.instr m)

end Node

/-- The node a jump leads to, once it is resolved. -/
def Target.node? : Target → Option Node
  | unresolved => none
  | stmt i => some (.stmt i)
  | foreign k => some (.foreign k)

end MethodFlow
