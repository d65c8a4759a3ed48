import MethodFlow.Expr
import MethodFlow.Fact.ConstMap
import MethodFlow.Fact.VarSet

/-!
S-expressions: symbols, strings, whole numbers and lists, and their text on one line.
-/

namespace MethodFlow

inductive Sexp
  | symbol (name : String)
  | string (text : String)
  | int (n : Int)
  | list (items : List Sexp)

namespace Sexp

/-- The characters that a symbol holds behind a backslash. -/
def symbolSpecials : List Char :=
  ['\\', '\'', '`', '"', '(', ')', '[', ']', ' ', ',', '?', ';', '#']

/-- The characters that a string writes as a backslash and another character. -/
def stringEscapes : List (Char × Char) :=
  [('\\', '\\'), ('"', '"'), ('\x08', 'b'), ('\x0c', 'f'), ('\n', 'n'), ('\r', 'r'), ('\t', 't')]

def symbolChar (c : Char) : List Char :=
  if c ∈ symbolSpecials then ['\\', c] else [c]

def stringChar (c : Char) : List Char :=
  match stringEscapes.find? (·.1 = c) with
  | some e => ['\\', e.2]
  | none => [c]

mutual

def render : Sexp → Except Text.Overlong String
  | symbol s => .ok (String.ofList (s.toList.flatMap symbolChar))
  | string s => .ok ("\"" ++ String.ofList (s.toList.flatMap stringChar) ++ "\"")
  | int n => Text.writeInt n
  | list xs => do return "(" ++ " ".intercalate (← renderAll xs) ++ ")"

def renderAll : List Sexp → Except Text.Overlong (List String)
  | [] => .ok []
  | x :: r => do return (← x.render) :: (← renderAll r)

end

end Sexp

/-- A constant is a number; everything else is a symbol. -/
def Value.toSexp : Value → Sexp
  | .undef => .symbol "UNDEF"
  | .const n => .int n
  | .nac => .symbol "NAC"

/-- The variables of a fact with what is known about them, in their listed order. -/
def ConstMap.toSexps (f : ConstMap) : List Sexp :=
  f.map.entries.map fun e => .list [.symbol e.1.name, e.2.toSexp]

def VarSet.toSexps (f : VarSet) : List Sexp :=
  f.elems.map fun v => .symbol v.name

end MethodFlow
