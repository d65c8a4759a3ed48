import MethodFlow.Expr

/-!
Statements of a method body: what they define, what they read, where they may go, and their text.
-/

namespace MethodFlow

/-- What an assignment writes to. -/
inductive Place
  | var (v : Var)
  | field (base : Expr) (name : String)
  | static (owner name : String)
  | element (base index : Expr)

namespace Place

/-- The expression that reads what is written at the place. -/
def toExpr : Place → Expr
  | var v => .var v
  | field b f => .field b f
  | static c f => .static c f
  | element b i => .element b i

def var? : Place → Option Var
  | var v => some v
  | _ => none

end Place

/-- Where a jump leads: nowhere yet, to a statement of the method, or out of the method. Places
outside are told apart by their tags. -/
inductive Target
  | unresolved
  | stmt (index : Nat)
  | foreign (tag : Nat)
  deriving DecidableEq

def Target.render : Target → String
  | unresolved => "?"
  | stmt i => "@" ++ toString i
  | foreign _ => "@-1"

/-- A statement whose jumps lead to places of type `τ`. A switch pairs its values with its targets
from the front; what is left over of either counts for nothing. -/
inductive Instr (τ : Type)
  | assign (place : Place) (value : Expr)
  | call (result : Option Place) (value : Expr)
  | branch (condition : Expr) (target : τ)
  | goto (target : τ)
  | switch (selector : Var) (values : List Int) (targets : List τ) (default : τ)
  | ret (value : Option Expr)
  | nop

/-- A statement of a method and the line it stands on. -/
structure Stmt where
  instr : Instr Target
  line : Int := -1

namespace Instr

variable {τ : Type}

def kind : Instr τ → String
  | assign _ _ => "AssignStmt"
  | call _ _ => "Invoke"
  | branch _ _ => "If"
  | goto _ => "Goto"
  | switch _ _ _ _ => "Switch"
  | ret _ => "Return"
  | nop => "Nop"

/-- The statement with its jumps led elsewhere. -/
def map {σ : Type} (f : τ → σ) : Instr τ → Instr σ
  | assign p e => .assign p e
  | call p e => .call p e
  | branch c t => .branch c (f t)
  | goto t => .goto (f t)
  | switch v ks ts d => .switch v ks (ts.map f) (f d)
  | ret e => .ret e
  | nop => .nop

def place? : Instr τ → Option Place
  | assign p _ => some p
  | call p _ => p
  | _ => none

def def? (s : Instr τ) : Option Var :=
  s.place?.bind Place.var?

/-- The value that a definition gives to its place. -/
def value? : Instr τ → Option Expr
  | assign _ e => some e
  | call _ e => some e
  | _ => none

/-- The expressions that a statement reads, innermost first. -/
def uses : Instr τ → List Expr
  | assign p e => p.toExpr.operands ++ e.operands ++ [e]
  | call p e => (p.elim [] fun p => p.toExpr.operands) ++ e.operands ++ [e]
  | branch c _ => c.operands ++ [c]
  | switch v _ _ _ => [.var v]
  | ret e => e.toList
  | goto _ | nop => []

/-- The variables among the expressions that a statement reads. -/
def usedVars (s : Instr τ) : List Var :=
  s.uses.filterMap fun
    | .var v => some v
    | _ => none

/-- Whether control can pass to the next statement. -/
def canFallThrough : Instr τ → Bool
  | goto _ | switch _ _ _ _ | ret _ => false
  | _ => true

section Rendering

variable (target : Target → String)

def renderCase (c : Int × Target) : Except Text.Overlong String := do
  return "case " ++ (← Text.writeInt c.1) ++ ": goto " ++ target c.2 ++ ";"

/-- The text of a switch before double blanks are made single. -/
def renderSwitch (v : Var) (cases : List (Int × Target)) (default : Target) :
    Except Text.Overlong String := do
  return "switch (" ++ v.name ++ ") \x7b " ++ " ".intercalate (← cases.mapM (renderCase target)) ++
    " default: goto " ++ target default ++ "; \x7d"

/-- Replaces every two blanks in a row by one, from left to right in a single pass. -/
def halveBlanks : List Char → List Char
  | ' ' :: ' ' :: r => ' ' :: halveBlanks r
  | c :: r => c :: halveBlanks r
  | [] => []

/-- The text of a statement, with its targets written as given; there is none if an integer in it is
too long. -/
def renderWith : Instr Target → Except Text.Overlong String
  | assign p e | call (some p) e => do return (← p.toExpr.render) ++ " = " ++ (← e.render) ++ ";"
  | call none e => do return (← e.render) ++ ";"
  | branch c t => do return "if (" ++ (← c.render) ++ ") goto " ++ target t ++ ";"
  | goto t => .ok ("goto " ++ target t ++ ";")
  | switch v ks ts d => do
    return String.ofList (halveBlanks (← renderSwitch target v (ks.zip ts) d).toList)
  | ret none => .ok "return;"
  | ret (some e) => do return "return " ++ (← e.render) ++ ";"
  | nop => .ok "nop;"

end Rendering

def render (i : Instr Target) : Except Text.Overlong String :=
  i.renderWith Target.render

end Instr

end MethodFlow
