import MethodFlow.Expr
import MethodFlow.Source.Atom

/-!
Phrases: what stands on either side of an assignment, in conditions and in calls.
-/

namespace MethodFlow.Source

/-- A name and one of its members, as in `a.b`. -/
structure Member where
  owner : List Char
  before : Gap
  after : Gap
  name : List Char

def Member.text (m : Member) : List Char :=
  m.owner ++ m.before.text ++ '.' :: m.after.text ++ m.name

/-- An element of an array, as in `a[i]`. -/
structure Element where
  base : List Char
  before : Gap
  inside : Gap
  index : Atom
  after : Gap

/-- The text of an element up to its index. -/
def Element.head (e : Element) : List Char :=
  e.base ++ e.before.text ++ '[' :: e.inside.text

def Element.text (e : Element) : List Char :=
  e.head ++ e.index.text ++ e.after.text ++ [']']

/-- An item of a list after the first, with the comma before it. -/
structure Later (α : Type) where
  before : Gap
  after : Gap
  item : α

structure Listed (α : Type) where
  first : α
  rest : List (Later α)

section

variable {α : Type} (print : α → List Char)

/-- The text of a later item up to the item itself. -/
def Later.head (l : Later α) : List Char :=
  l.before.text ++ ',' :: l.after.text

def Later.text (l : Later α) : List Char :=
  l.head ++ print l.item

def Listed.text (l : Listed α) : List Char :=
  print l.first ++ l.rest.flatMap (Later.text print)

end

/-- A method that is called, by its name alone or as a member of something. -/
inductive Callee
  | member (m : Member)
  | plain (name : List Char)

def Callee.text : Callee → List Char
  | member m => m.text
  | plain x => x

structure Arguments where
  atoms : Listed Atom
  after : Gap

def Arguments.text (a : Arguments) : List Char :=
  a.atoms.text Atom.text ++ a.after.text

structure Invocation where
  lead : Gap
  callee : Callee
  before : Gap
  inside : Gap
  arguments : Option Arguments

/-- The text of a call up to its arguments. -/
def Invocation.head (i : Invocation) : List Char :=
  "invoke".toList ++ i.lead.text ++ i.callee.text ++ i.before.text ++ '(' :: i.inside.text

def Invocation.text (i : Invocation) : List Char :=
  i.head ++ i.arguments.elim [] Arguments.text ++ [')']

structure Operation where
  left : Atom
  before : Gap
  op : BinOp
  after : Gap
  right : Atom

/-- The text of an operation up to its right operand. -/
def Operation.head (o : Operation) : List Char :=
  o.left.text ++ o.before.text ++ o.op.symbol.toList ++ o.after.text

def Operation.text (o : Operation) : List Char :=
  o.head ++ o.right.text

structure NewArray where
  lead : Gap
  elem : TypeName
  before : Gap
  inside : Gap
  length : Atom
  after : Gap

/-- The text of an allocation of an array up to the type of its elements. -/
def NewArray.start (a : NewArray) : List Char :=
  "newarray".toList ++ a.lead.text

/-- The text of an allocation of an array up to its length. -/
def NewArray.head (a : NewArray) : List Char :=
  a.start ++ a.elem.text ++ a.before.text ++ '[' :: a.inside.text

def NewArray.text (a : NewArray) : List Char :=
  a.head ++ a.length.text ++ a.after.text ++ [']']

structure NewObject where
  lead : Gap
  type : TypeName

/-- The text of an allocation of an object up to its type. -/
def NewObject.start (n : NewObject) : List Char :=
  "new".toList ++ n.lead.text

def NewObject.text (n : NewObject) : List Char :=
  n.start ++ n.type.text

structure Cast where
  inside : Gap
  type : TypeName
  after : Gap
  before : Gap
  operand : Atom

/-- The text of a cast up to its type. -/
def Cast.start (c : Cast) : List Char :=
  '(' :: c.inside.text

/-- The text of a cast up to its operand. -/
def Cast.head (c : Cast) : List Char :=
  c.start ++ c.type.text ++ c.after.text ++ ')' :: c.before.text

def Cast.text (c : Cast) : List Char :=
  c.head ++ c.operand.text

structure Negation where
  before : Gap
  name : List Char

/-- The text of a negation up to its operand. -/
def Negation.start (n : Negation) : List Char :=
  '-' :: n.before.text

def Negation.text (n : Negation) : List Char :=
  n.start ++ n.name

/-- What an assignment writes to. -/
inductive LeftSide
  | element (e : Element)
  | member (m : Member)
  | name (x : List Char)

def LeftSide.text : LeftSide → List Char
  | element e => e.text
  | member m => m.text
  | name x => x

/-- What an assignment writes. -/
inductive RightSide
  | newArray (a : NewArray)
  | newObject (n : NewObject)
  | call (i : Invocation)
  | cast (c : Cast)
  | operation (o : Operation)
  | negation (n : Negation)
  | element (e : Element)
  | member (m : Member)
  | atom (a : Atom)

def RightSide.text : RightSide → List Char
  | newArray a => a.text
  | newObject n => n.text
  | call i => i.text
  | cast c => c.text
  | operation o => o.text
  | negation n => n.text
  | element e => e.text
  | member m => m.text
  | atom a => a.text

namespace Reader

def member : Reader Member := do
  let owner ← name
  let before ← gap
  exactly "."
  let after ← gap
  return ⟨owner, before, after, ← name⟩

def element : Reader Element := do
  let base ← name
  let before ← gap
  exactly "["
  let inside ← gap
  let index ← atom
  let after ← gap
  exactly "]"
  return ⟨base, before, inside, index, after⟩

def later {α : Type} (item : Reader α) : Reader (Later α) := do
  let before ← gap
  exactly ","
  let after ← gap
  return ⟨before, after, ← item⟩

def listed {α : Type} (item : Reader α) : Reader (Listed α) := do
  return ⟨← item, ← many (later item)⟩

def callee : Reader Callee :=
  (.member <$> member) <|> (.plain <$> name)

def arguments : Reader Arguments := do
  return ⟨← listed atom, ← gap⟩

def invocation : Reader Invocation := do
  exactly "invoke"
  let lead ← gap1
  let callee ← callee
  let before ← gap
  exactly "("
  let inside ← gap
  let arguments ← optional arguments
  exactly ")"
  return ⟨lead, callee, before, inside, arguments⟩

/-- The first of some operators that a text starts with. -/
def operatorOf : List BinOp → Reader BinOp
  | [] => failure
  | op :: ops => (do exactly op.symbol; return op) <|> operatorOf ops

/-- An operator that says whether a comparison holds. -/
def relation : Reader BinOp :=
  operatorOf [.ge, .le, .eq, .ne, .gt, .lt]

def wordOperator : Reader BinOp := do
  let op ← operatorOf [.cmpl, .cmpg, .cmp]
  ahead endsWord
  return op

/-- Any operator; of those that begin alike the longest comes first. -/
def operator : Reader BinOp :=
  operatorOf [.ushr, .shr, .shl, .ge, .le, .eq, .ne, .gt, .lt, .add, .sub, .mul, .div, .rem, .and,
    .or, .xor] <|> wordOperator

def operation (op : Reader BinOp) : Reader Operation := do
  let left ← atom
  let before ← gap
  let op ← op
  let after ← gap
  return ⟨left, before, op, after, ← atom⟩

def condition : Reader Operation :=
  operation relation

def binary : Reader Operation :=
  operation operator

def newArray : Reader NewArray := do
  exactly "newarray"
  let lead ← gap1
  let elem ← typeName
  let before ← gap
  exactly "["
  let inside ← gap
  let length ← atom
  let after ← gap
  exactly "]"
  return ⟨lead, elem, before, inside, length, after⟩

def newObject : Reader NewObject := do
  exactly "new"
  return ⟨← gap1, ← typeName⟩

def cast : Reader Cast := do
  exactly "("
  let inside ← gap
  let type ← typeName
  let after ← gap
  exactly ")"
  return ⟨inside, type, after, ← gap, ← atom⟩

def negation : Reader Negation := do
  exactly "-"
  return ⟨← gap, ← name⟩

def leftSide : Reader LeftSide :=
  (.element <$> element) <|> (.member <$> member) <|> (.name <$> name)

def rightSide : Reader RightSide :=
  (.newArray <$> newArray) <|> (.newObject <$> newObject) <|> (.call <$> invocation) <|>
    (.cast <$> cast) <|> (.operation <$> binary) <|> (.negation <$> negation) <|>
    (.element <$> element) <|> (.member <$> member) <|> (.atom <$> atom)

end Reader

end MethodFlow.Source
