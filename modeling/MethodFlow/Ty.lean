import MethodFlow.Text.Blank

/-!
Types of variables and methods, and their text.
-/

namespace MethodFlow

inductive Prim
  | byte | short | int | char | boolean | long | float | double
  deriving DecidableEq

def Prim.name : Prim → String
  | .byte => "byte"
  | .short => "short"
  | .int => "int"
  | .char => "char"
  | .boolean => "boolean"
  | .long => "long"
  | .float => "float"
  | .double => "double"

def Prim.all : List Prim :=
  [.byte, .short, .int, .char, .boolean, .long, .float, .double]

inductive Ty
  | prim (p : Prim)
  | object (name : String)
  | array (elem : Ty)
  | void
  deriving DecidableEq

namespace Ty

def render : Ty → String
  | prim p => p.name
  | object n => n
  | array t => t.render ++ "[]"
  | void => "void"

def ofName (n : String) : Ty :=
  if n = "void" then void
  else match Prim.all.find? (·.name = n) with
    | some p => prim p
    | none => object n

def arrays : Nat → Ty → Ty
  | 0, t => t
  | n + 1, t => array (arrays n t)

/-- Counts the pairs of brackets at the end of a reversed text and takes them off. -/
def stripBrackets : List Char → Nat × List Char
  | ']' :: '[' :: r => let (n, base) := stripBrackets r; (n + 1, base)
  | r => (0, r)

/-- Reads a type, wherever its text has spacing; `none` for an array of `void`. -/
def ofText? (cs : List Char) : Option Ty :=
  let (dims, base) := stripBrackets (Text.squeeze cs).reverse
  match ofName (String.ofList base.reverse) with
  | void => if dims = 0 then some void else none
  | t => some (arrays dims t)

def parse? (s : String) : Option Ty :=
  ofText? s.toList

/-- Whether variables of the type hold 32-bit integers. -/
def holdsInt : Ty → Bool
  | prim .byte | prim .short | prim .int | prim .char | prim .boolean => true
  | _ => false

end Ty

end MethodFlow
