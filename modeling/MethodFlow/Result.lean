import MethodFlow.ConstProp
import MethodFlow.Liveness

/-!
Results of analyses, and the store in which a method keeps them under the ids of the analyses. A
store may also hold values of a type `α` that no analysis here makes sense of.
-/

namespace MethodFlow

inductive Result (α : Type)
  | graph (g : Cfg)
  | constants (t : FactTable ConstMap)
  | liveness (t : FactTable VarSet)
  | dead (positions : List Nat)
  | value (x : α)

/-- The result for when the graph that it was made on is given up: the ends of that graph, which a
table also holds facts for, are nodes outside then. -/
def Result.detach {α : Type} (tag : Nat) : Result α → Result α
  | constants t => constants (t.mapNodes (Node.detach tag))
  | liveness t => liveness (t.mapNodes (Node.detach tag))
  | r => r

abbrev Store (α : Type) := OrderedMap String (Result α)

namespace Store

variable {α : Type}

def result (s : Store α) (key : String) : Except Fault (Result α) :=
  match s.find? key with
  | some r => .ok r
  | none => .error (.noResult key)

def graph (s : Store α) : Except Fault Cfg := do
  match ← s.result "cfg" with
  | .graph g => return g
  | _ => throw (.otherResult "cfg")

def constants (s : Store α) : Except Fault (FactTable ConstMap) := do
  match ← s.result "constprop" with
  | .constants t => return t
  | _ => throw (.otherResult "constprop")

def liveness (s : Store α) : Except Fault (FactTable VarSet) := do
  match ← s.result "livevar" with
  | .liveness t => return t
  | _ => throw (.otherResult "livevar")

end Store

end MethodFlow
