import MethodFlow.Source.Parse

/-!
The meaning of a method by itself: its declarations make a scope one from the other, and its
statements keep the labels of their jumps until all of them are laid out.
-/

namespace MethodFlow.Source

namespace Layout

/-- Adds an item that stands at a position. -/
def add (s : Scope) (p : Pos) (l : Layout LabelRef) : Item → Checked (Layout LabelRef)
  | .label x => .ok { l with marks := l.marks ++ [⟨⟨String.ofList x.name, p⟩, l.stmts.length⟩] }
  | .statement x => do
    return { l with stmts := l.stmts ++ [⟨← x.command.meaning s p, p.line⟩] }

/-- Lays out the items that stand one after the other from a position on. -/
def ofItems (s : Scope) (p : Pos) (l : Layout LabelRef) : List Item → Checked (Layout LabelRef)
  | [] => .ok l
  | i :: r => do ofItems s (p.after i.text) (← l.add s p i) r

def resolveInstr (l : Layout LabelRef) : Instr LabelRef → Checked (Instr Target)
  | .assign p e => .ok (.assign p e)
  | .call p e => .ok (.call p e)
  | .branch c t => do return .branch c (← l.resolve t)
  | .goto t => do return .goto (← l.resolve t)
  | .switch v ks ts d => do return .switch v ks (← ts.mapM l.resolve) (← l.resolve d)
  | .ret e => .ok (.ret e)
  | .nop => .ok .nop

def resolveStmt (l : Layout LabelRef) (x : Pending LabelRef) : Checked Stmt := do
  return ⟨← l.resolveInstr x.instr, x.line⟩

def body (l : Layout LabelRef) : Checked (List Stmt) := do
  l.check
  l.stmts.mapM l.resolveStmt

end Layout

def Param.declare (s : Scope) (p : Pos) (x : Param) : Checked Scope := do
  let ty ← x.type.meaning p
  s.declare (p.after x.head) ⟨String.ofList x.name, ty⟩

/-- Declares variables that stand one after the other. -/
def declareAll (ty : Ty) (s : Scope) : List (Pos × List Char) → Checked Scope
  | [] => .ok s
  | x :: r => do declareAll ty (← s.declare x.1 ⟨String.ofList x.2, ty⟩) r

def VarDecl.declare (s : Scope) (p : Pos) (d : VarDecl) : Checked Scope := do
  let ty ← d.type.meaning p
  declareAll ty s (d.names.placed (p.after d.head) id)

def declareParams (s : Scope) : List (Pos × Param) → Checked Scope
  | [] => .ok s
  | x :: r => do declareParams (← x.2.declare s x.1) r

/-- Makes the declarations that stand one after the other from a position on. -/
def declareVars (s : Scope) (p : Pos) : List VarDecl → Checked Scope
  | [] => .ok s
  | d :: r => do declareVars (← d.declare s p) (p.after d.text) r

/-- The method that a declaration at a position means. -/
def MethodDecl.meaning (p : Pos) (m : MethodDecl) : Checked Method := do
  let ret ← m.type.meaning (p.after m.start)
  let params ← m.params.elim (.ok []) fun ps =>
    declareParams [] (ps.list.placed (p.after m.head) Param.text)
  let start := p.after m.front
  let scope ← declareVars params start m.decls
  let layout ← Layout.ofItems scope (start.after (m.decls.flatMap VarDecl.text)) .empty m.items
  return .make (String.ofList m.name) params ret scope (← layout.body)

/-- The meanings of methods that stand one after the other, up to the first that has none. -/
def meanings (p : Pos) : List MethodDecl → Reading
  | [] => ⟨[], none⟩
  | d :: r =>
    match d.meaning p with
    | .error e => ⟨[], some e⟩
    | .ok m =>
      let rest := meanings (p.after d.text) r
      { rest with methods := m :: rest.methods }

def Program.meaning (p : Program) : Reading :=
  (meanings (Pos.start.after p.lead.text) p.methods).close

end MethodFlow.Source
