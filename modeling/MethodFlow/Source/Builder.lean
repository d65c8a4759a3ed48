import MethodFlow.Source.Layout

/-!
The builder of methods. One builder goes through a whole program; what it holds at any time is of
the method that it is in, and is dropped where the next method begins.
-/

namespace MethodFlow.Source

/-- The variables in scope, the parameters among them, and the labels that jumps name, to which the
jumps are led when the method has been seen. -/
structure Builder where
  scope : Scope
  params : List Var
  fixups : List LabelRef

abbrev Visit := StateT Builder Checked

namespace Builder

def blank : Builder := ⟨[], [], []⟩

/-- Where a method begins, nothing stays of the one before it. -/
def reset : Visit Unit :=
  set blank

def declare (p : Pos) (v : Var) : Visit Unit := do
  let scope ← (← get).scope.declare p v
  modify fun b => { b with scope }

/-- Notes a jump, which is known by its number from now on. -/
def jumpTo (x : LabelRef) : Visit Nat := do
  let b ← get
  set { b with fixups := b.fixups ++ [x] }
  return b.fixups.length

def noteJumps : Instr LabelRef → Visit (Instr Nat)
  | .assign q e => return .assign q e
  | .call q e => return .call q e
  | .branch c x => return .branch c (← jumpTo x)
  | .goto x => return .goto (← jumpTo x)
  | .switch v ks xs d => return .switch v ks (← xs.mapM jumpTo) (← jumpTo d)
  | .ret e => return .ret e
  | .nop => return .nop

end Builder

def Param.visit (p : Pos) (x : Param) : Visit Unit := do
  let ty ← x.type.meaning p
  let v : Var := ⟨String.ofList x.name, ty⟩
  Builder.declare (p.after x.head) v
  modify fun b => { b with params := b.params ++ [v] }

def VarDecl.visit (p : Pos) (d : VarDecl) : Visit Unit := do
  let ty ← d.type.meaning p
  (d.names.placed (p.after d.head) id).forM fun x =>
    Builder.declare x.1 ⟨String.ofList x.2, ty⟩

/-- Visits declarations that stand one after the other from a position on. -/
def visitVars (p : Pos) : List VarDecl → Visit Unit
  | [] => return ()
  | d :: r => do
    d.visit p
    visitVars (p.after d.text) r

def Item.visit (p : Pos) (l : Layout Nat) : Item → Visit (Layout Nat)
  | .label x => return l.mark ⟨String.ofList x.name, p⟩
  | .statement x => do
    let i ← x.command.meaning (← get).scope p
    return l.push ⟨← Builder.noteJumps i, p.line⟩

/-- Visits items that stand one after the other from a position on. -/
def visitItems (p : Pos) (l : Layout Nat) : List Item → Visit (Layout Nat)
  | [] => return l
  | i :: r => do visitItems (p.after i.text) (← i.visit p l) r

/-- The statement with its jumps led to their targets, each of which stands at the number of the
jump. -/
def Pending.lead (ts : List Target) (y : Pending Nat) : Stmt :=
  ⟨y.instr.map fun k => ts.getD k .unresolved, y.line⟩

/-- The statements of a body, with their jumps led to the labels that were noted for them. -/
def visitBody (p : Pos) (xs : List Item) : Visit (List Stmt) := do
  let l ← visitItems p .empty xs
  l.check
  let targets ← l.resolveAll (← get).fixups
  return l.stmts.map (Pending.lead targets)

/-- The method that a declaration at a position declares. -/
def MethodDecl.visit (p : Pos) (d : MethodDecl) : Visit Method := do
  Builder.reset
  let ret ← d.type.meaning (p.after d.start)
  d.params.elim (pure ()) fun ps =>
    (ps.list.placed (p.after d.head) Param.text).forM fun x => x.2.visit x.1
  let start := p.after d.front
  visitVars start d.decls
  let body ← visitBody (start.after (d.decls.flatMap VarDecl.text)) d.items
  let b ← get
  return .make (String.ofList d.name) b.params ret b.scope body

end MethodFlow.Source
