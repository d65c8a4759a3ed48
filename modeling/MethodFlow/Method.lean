import MethodFlow.Stmt

/-!
Methods: a signature, the variables in scope and a body of numbered statements.
-/

namespace MethodFlow

/-- A method; a statement is known by its position in the body. -/
structure Method where
  name : String
  params : List Var
  ret : Ty
  vars : List Var
  body : List Stmt

namespace Method

/-- The variables of a method: its parameters, then each other variable once. -/
def scopeOf (params others : List Var) : List Var :=
  others.foldl (fun vs v => if v ∈ vs then vs else vs ++ [v]) params

def make (name : String) (params : List Var) (ret : Ty) (others : List Var)
    (body : List Stmt) : Method :=
  ⟨name, params, ret, scopeOf params others, body⟩

def size (m : Method) : Nat :=
  m.body.length

def instr? (m : Method) (i : Nat) : Option (Instr Target) :=
  m.body[i]?.map Stmt.instr

/-- The position that an index means; a negative one counts from the end. -/
def position? (m : Method) (i : Int) : Option Nat :=
  let j := if i < 0 then i + m.size else i
  if 0 ≤ j ∧ j < m.size then some j.toNat else none

def setInstr (m : Method) (i : Nat) (s : Instr Target) : Method :=
  { m with body := m.body.modify i fun old => { old with instr := s } }

def signature (m : Method) : String :=
  m.ret.render ++ " " ++ m.name ++ "(" ++
    ", ".intercalate (m.params.map fun p => p.ty.render ++ " " ++ p.name) ++ ")"

def summary (m : Method) : String :=
  "IR(" ++ m.signature ++ ", " ++ toString m.size ++ " stmts)"

def describe (index : Int) (s : Instr Target) : Except Text.Overlong String := do
  return s.kind ++ "(index=" ++ toString index ++ ", " ++ (← s.render) ++ ")"

def listingLine (i : Nat) (s : Stmt) : Except Text.Overlong String := do
  return "  " ++ Text.padLeft 3 (toString i) ++ "@L" ++ Text.padRight 4 (toString s.line) ++ " " ++
    (← s.instr.render)

/-- The signature and one line for each statement, with its position and source line. -/
def listing (m : Method) : Except Text.Overlong String := do
  let lines ← m.body.zipIdx.mapM fun s => listingLine s.2 s.1
  return "\n".intercalate (("method " ++ m.signature) :: lines)

end Method

end MethodFlow
