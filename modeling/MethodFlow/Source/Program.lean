import MethodFlow.Source.Statement

/-!
Programs: methods one after the other, each with its parameters, its variables and its body.
-/

namespace MethodFlow.Source

structure Param where
  type : TypeName
  lead : Gap
  name : List Char

/-- The text of a parameter up to its name. -/
def Param.head (p : Param) : List Char :=
  p.type.text ++ p.lead.text

def Param.text (p : Param) : List Char :=
  p.head ++ p.name

structure Params where
  list : Listed Param
  after : Gap

def Params.text (p : Params) : List Char :=
  p.list.text Param.text ++ p.after.text

/-- A declaration of variables of one type, with the gap after it. -/
structure VarDecl where
  type : TypeName
  lead : Gap
  names : Listed (List Char)
  after : Gap
  trail : Gap

/-- The text of a declaration up to its names. -/
def VarDecl.head (d : VarDecl) : List Char :=
  d.type.text ++ d.lead.text

def VarDecl.text (d : VarDecl) : List Char :=
  d.head ++ d.names.text id ++ d.after.text ++ ';' :: d.trail.text

/-- A method, with the gap after it. -/
structure MethodDecl where
  lead : Gap
  type : TypeName
  between : Gap
  name : List Char
  before : Gap
  inside : Gap
  params : Option Params
  after : Gap
  body : Gap
  decls : List VarDecl
  items : List Item
  trail : Gap

/-- The text of a method up to the type it returns. -/
def MethodDecl.start (m : MethodDecl) : List Char :=
  "method".toList ++ m.lead.text

/-- The text of a method up to its parameters. -/
def MethodDecl.head (m : MethodDecl) : List Char :=
  m.start ++ m.type.text ++ m.between.text ++ m.name ++ m.before.text ++ '(' :: m.inside.text

/-- The text of a method up to its declarations. -/
def MethodDecl.front (m : MethodDecl) : List Char :=
  m.head ++ m.params.elim [] Params.text ++ ')' :: m.after.text ++ '\x7b' :: m.body.text

def MethodDecl.text (m : MethodDecl) : List Char :=
  m.front ++ m.decls.flatMap VarDecl.text ++ m.items.flatMap Item.text ++ '\x7d' :: m.trail.text

structure Program where
  lead : Gap
  methods : List MethodDecl

def Program.text (p : Program) : List Char :=
  p.lead.text ++ p.methods.flatMap MethodDecl.text

namespace Reader

def param : Reader Param := do
  return ⟨← typeName, ← gap1, ← name⟩

def params : Reader Params := do
  return ⟨← listed param, ← gap⟩

def varDecl : Reader VarDecl := do
  let type ← typeName
  let lead ← gap1
  let names ← listed name
  let after ← gap
  exactly ";"
  return ⟨type, lead, names, after, ← gap⟩

def methodDecl : Reader MethodDecl := do
  exactly "method"
  let lead ← gap1
  let type ← typeName
  let between ← gap1
  let name ← name
  let before ← gap
  exactly "("
  let inside ← gap
  let params ← optional params
  exactly ")"
  let after ← gap
  exactly "\x7b"
  let body ← gap
  let decls ← many varDecl
  let items ← many item
  exactly "\x7d"
  return ⟨lead, type, between, name, before, inside, params, after, body, decls, items, ← gap⟩

/-- A program always matches; what is left of the text is no method. -/
def program : Reader Program := do
  return ⟨← gap, ← many methodDecl⟩

end Reader

end MethodFlow.Source
