import MethodFlow.Text.Decimal
import MethodFlow.Text.Escaped
import MethodFlow.Ty

/-!
Variables and expressions of a method body, what an expression reads, and its text.
-/

namespace MethodFlow

/-- A parameter or local; variables of one name and different types are different. -/
structure Var where
  name : String
  ty : Ty
  deriving DecidableEq

def Var.holdsInt (v : Var) : Bool :=
  v.ty.holdsInt

inductive BinOp
  | add | sub | mul | div | rem
  | shl | shr | ushr
  | and | or | xor
  | eq | ne | lt | gt | le | ge
  | cmp | cmpl | cmpg
  deriving DecidableEq

namespace BinOp

def symbol : BinOp → String
  | add => "+"
  | sub => "-"
  | mul => "*"
  | div => "/"
  | rem => "%"
  | shl => "<<"
  | shr => ">>"
  | ushr => ">>>"
  | and => "&"
  | or => "|"
  | xor => "^"
  | eq => "=="
  | ne => "!="
  | lt => "<"
  | gt => ">"
  | le => "<="
  | ge => ">="
  | cmp => "cmp"
  | cmpl => "cmpl"
  | cmpg => "cmpg"

def all : List BinOp :=
  [add, sub, mul, div, rem, shl, shr, ushr, and, or, xor, eq, ne, lt, gt, le, ge, cmp, cmpl, cmpg]

def isArithmetic : BinOp → Bool
  | add | sub | mul | div | rem => true
  | _ => false

/-- The operators whose result says whether a comparison holds. -/
def isCondition : BinOp → Bool
  | eq | ne | lt | gt | le | ge => true
  | _ => false

/-- Division and remainder fail on a zero divisor. -/
def isDivision : BinOp → Bool
  | div | rem => true
  | _ => false

end BinOp

/-- Where the method of a call is looked up. -/
inductive Receiver
  | none
  | object (owner : String)
  | var (v : Var)
  deriving DecidableEq

inductive Expr
  | var (v : Var)
  | int (n : Int)
  | str (s : String)
  | null
  | bin (op : BinOp) (left right : Expr)
  | neg (operand : Expr)
  | new (ty : Ty)
  | newArray (elem : Ty) (length : Expr)
  | cast (ty : Ty) (operand : Expr)
  | field (base : Expr) (name : String)
  | static (owner name : String)
  | element (base index : Expr)
  | call (receiver : Receiver) (method : String) (args : List Expr)

namespace Receiver

def vars : Receiver → List Var
  | var v => [v]
  | _ => []

/-- The text in front of the name of the called method. -/
def render : Receiver → String
  | none => ""
  | object c => c ++ "."
  | var v => v.name ++ "."

end Receiver

namespace Expr

/-- The expressions one step inside an expression, in the order in which they are read. -/
def operands : Expr → List Expr
  | var _ | int _ | str _ | null | new _ | static _ _ => []
  | bin _ a b => [a, b]
  | neg e => [e]
  | newArray _ n => [n]
  | cast _ e => [e]
  | field b _ => [b]
  | element b i => [b, i]
  | call r _ args => r.vars.map var ++ args

/-- Whether evaluating an expression can be left out unnoticed. Allocations, casts, field and
element accesses, divisions and remainders may allocate, run initialisers or fail. -/
def isPure : Expr → Bool
  | new _ | newArray _ _ | cast _ _ | field _ _ | static _ _ | element _ _ => false
  | bin op _ _ => !op.isDivision
  | _ => true

mutual

/-- The text of an expression, which there is unless an integer in it is too long. -/
def render : Expr → Except Text.Overlong String
  | var v => .ok v.name
  | int n => Text.writeInt n
  | str s => .ok (String.ofList (Text.Escaped.encode s.toList))
  | null => .ok "null"
  | bin op a b => do return (← a.render) ++ " " ++ op.symbol ++ " " ++ (← b.render)
  | neg e => do return "-" ++ (← e.render)
  | new t => .ok ("new " ++ t.render)
  | newArray t n => do return "newarray " ++ t.render ++ "[" ++ (← n.render) ++ "]"
  | cast t e => do return "(" ++ t.render ++ ") " ++ (← e.render)
  | field b f => do return (← b.render) ++ "." ++ f
  | static c f => .ok (c ++ "." ++ f)
  | element b i => do return (← b.render) ++ "[" ++ (← i.render) ++ "]"
  | call r m args => do
    return "invoke " ++ r.render ++ m ++ "(" ++ ", ".intercalate (← renderAll args) ++ ")"

def renderAll : List Expr → Except Text.Overlong (List String)
  | [] => .ok []
  | e :: r => do return (← e.render) :: (← renderAll r)

end

end Expr

end MethodFlow
