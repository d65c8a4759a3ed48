import MethodFlow.Source.Phrase

/-!
Statements of a program, the labels in front of them, and their jumps to labels.
-/

namespace MethodFlow.Source

/-- A jump to a label: what stands from `goto` to the semicolon. -/
structure JumpTo where
  lead : Gap
  label : List Char
  after : Gap

/-- The text of a jump up to its label. -/
def JumpTo.head (j : JumpTo) : List Char :=
  "goto".toList ++ j.lead.text

def JumpTo.text (j : JumpTo) : List Char :=
  j.head ++ j.label ++ j.after.text ++ [';']

structure Branch where
  before : Gap
  inside : Gap
  condition : Operation
  after : Gap
  lead : Gap
  jump : JumpTo

/-- The text of a branch up to its condition. -/
def Branch.start (b : Branch) : List Char :=
  "if".toList ++ b.before.text ++ '(' :: b.inside.text

/-- The text of a branch up to its jump. -/
def Branch.head (b : Branch) : List Char :=
  b.start ++ b.condition.text ++ b.after.text ++ ')' :: b.lead.text

def Branch.text (b : Branch) : List Char :=
  b.head ++ b.jump.text

/-- A case of a switch, with the gap after it. -/
structure Case where
  lead : Gap
  value : Number
  before : Gap
  after : Gap
  jump : JumpTo
  trail : Gap

/-- The text of a case up to its jump. -/
def Case.head (c : Case) : List Char :=
  "case".toList ++ c.lead.text ++ c.value.text ++ c.before.text ++ ':' :: c.after.text

def Case.text (c : Case) : List Char :=
  c.head ++ c.jump.text ++ c.trail.text

/-- The default of a switch, with the gap after it. -/
structure Default where
  before : Gap
  after : Gap
  jump : JumpTo
  trail : Gap

/-- The text of a default up to its jump. -/
def Default.head (d : Default) : List Char :=
  "default".toList ++ d.before.text ++ ':' :: d.after.text

def Default.text (d : Default) : List Char :=
  d.head ++ d.jump.text ++ d.trail.text

structure Switch where
  before : Gap
  inside : Gap
  selector : List Char
  after : Gap
  lead : Gap
  body : Gap
  cases : List Case
  default : Default

/-- The text of a switch up to its selector. -/
def Switch.start (s : Switch) : List Char :=
  "switch".toList ++ s.before.text ++ '(' :: s.inside.text

/-- The text of a switch up to its cases. -/
def Switch.head (s : Switch) : List Char :=
  s.start ++ s.selector ++ s.after.text ++ ')' :: s.lead.text ++ '\x7b' :: s.body.text

def Switch.text (s : Switch) : List Char :=
  s.head ++ s.cases.flatMap Case.text ++ s.default.text ++ ['\x7d']

structure Assignment where
  left : LeftSide
  before : Gap
  after : Gap
  right : RightSide
  trail : Gap

/-- The text of an assignment up to its right side. -/
def Assignment.head (a : Assignment) : List Char :=
  a.left.text ++ a.before.text ++ '=' :: a.after.text

def Assignment.text (a : Assignment) : List Char :=
  a.head ++ a.right.text ++ a.trail.text ++ [';']

/-- What a method returns, with the gap before it. -/
structure Returned where
  lead : Gap
  value : Atom

def Returned.text (r : Returned) : List Char :=
  r.lead.text ++ r.value.text

inductive Command
  | ret (value : Option Returned) (after : Gap)
  | goto (jump : JumpTo)
  | branch (b : Branch)
  | switch (s : Switch)
  | nop (after : Gap)
  | call (i : Invocation) (after : Gap)
  | assign (a : Assignment)

def Command.text : Command → List Char
  | ret v g => "return".toList ++ v.elim [] Returned.text ++ g.text ++ [';']
  | goto j => j.text
  | branch b => b.text
  | switch s => s.text
  | nop g => "nop".toList ++ g.text ++ [';']
  | call i g => i.text ++ g.text ++ [';']
  | assign a => a.text

structure Statement where
  command : Command
  trail : Gap

def Statement.text (s : Statement) : List Char :=
  s.command.text ++ s.trail.text

/-- The definition of a label, with the gap after it. -/
structure Label where
  name : List Char
  before : Gap
  trail : Gap

def Label.text (l : Label) : List Char :=
  l.name ++ l.before.text ++ ':' :: l.trail.text

inductive Item
  | label (l : Label)
  | statement (s : Statement)

def Item.text : Item → List Char
  | label l => l.text
  | statement s => s.text

namespace Reader

def jumpTo : Reader JumpTo := do
  exactly "goto"
  let lead ← gap1
  let label ← name
  let after ← gap
  exactly ";"
  return ⟨lead, label, after⟩

def branch : Reader Branch := do
  exactly "if"
  let before ← gap
  exactly "("
  let inside ← gap
  let condition ← condition
  let after ← gap
  exactly ")"
  return ⟨before, inside, condition, after, ← gap, ← jumpTo⟩

def case : Reader Case := do
  exactly "case"
  let lead ← gap1
  let value ← number
  let before ← gap
  exactly ":"
  return ⟨lead, value, before, ← gap, ← jumpTo, ← gap⟩

def default : Reader Default := do
  exactly "default"
  let before ← gap
  exactly ":"
  return ⟨before, ← gap, ← jumpTo, ← gap⟩

def switch : Reader Switch := do
  exactly "switch"
  let before ← gap
  exactly "("
  let inside ← gap
  let selector ← name
  let after ← gap
  exactly ")"
  let lead ← gap
  exactly "\x7b"
  let body ← gap
  let cases ← many case
  let default ← default
  exactly "\x7d"
  return ⟨before, inside, selector, after, lead, body, cases, default⟩

def assignment : Reader Assignment := do
  let left ← leftSide
  let before ← gap
  exactly "="
  let after ← gap
  let right ← rightSide
  let trail ← gap
  exactly ";"
  return ⟨left, before, after, right, trail⟩

def returned : Reader Returned := do
  return ⟨← gap1, ← atom⟩

def returnCommand : Reader Command := do
  exactly "return"
  let value ← optional returned
  let after ← gap
  exactly ";"
  return .ret value after

def nopCommand : Reader Command := do
  exactly "nop"
  let after ← gap
  exactly ";"
  return .nop after

def callCommand : Reader Command := do
  let i ← invocation
  let after ← gap
  exactly ";"
  return .call i after

def command : Reader Command :=
  returnCommand <|> (.goto <$> jumpTo) <|> (.branch <$> branch) <|> (.switch <$> switch) <|>
    nopCommand <|> callCommand <|> (.assign <$> assignment)

def statement : Reader Statement := do
  return ⟨← command, ← gap⟩

def label : Reader Label := do
  let x ← name
  let before ← gap
  exactly ":"
  return ⟨x, before, ← gap⟩

def item : Reader Item :=
  (.label <$> label) <|> (.statement <$> statement)

end Reader

end MethodFlow.Source
