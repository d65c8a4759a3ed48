import MethodFlow.Proofs.Lexemes
import MethodFlow.Source.Program

/-!
The tokens of a syntax tree: gaps, string literals and words, in the order in which they stand in
the text of the tree. A gap stands for the blanks and comments in it.
-/

namespace MethodFlow.Source

/-- A word is everything that is neither a gap nor a string literal, marks and numbers too. -/
inductive Token
  | gap (g : Gap)
  | string (pieces : List Piece)
  | word (x : List Char)

def Token.lexemes : Token → List Lexeme
  | gap g => g.map .blank
  | string ps => [.string ps]
  | word x => x.map .char

def Token.mark (s : String) : Token :=
  .word s.toList

def lexemesOf (ts : List Token) : List Lexeme :=
  ts.flatMap Token.lexemes

/-- The text that tokens make one after the other. -/
def spelling (ts : List Token) : List Char :=
  textOf (lexemesOf ts)

section Spelling

variable {α : Type} {ts us : List Token}

@[simp] theorem lexemesOf_nil : lexemesOf [] = [] := rfl

@[simp] theorem lexemesOf_cons (t : Token) (ts : List Token) :
    lexemesOf (t :: ts) = t.lexemes ++ lexemesOf ts :=
  List.flatMap_cons

@[simp] theorem lexemesOf_append (ts us : List Token) :
    lexemesOf (ts ++ us) = lexemesOf ts ++ lexemesOf us :=
  List.flatMap_append

theorem textOf_append (ls ls' : List Lexeme) : textOf (ls ++ ls') = textOf ls ++ textOf ls' :=
  List.flatMap_append

theorem textOf_gap (g : Gap) : textOf (g.map .blank) = g.text :=
  List.flatMap_map ..

theorem textOf_chars (x : List Char) : textOf (x.map .char) = x := by
  rw [textOf, List.flatMap_map]
  exact List.flatMap_singleton' x

@[simp] theorem spelling_nil : spelling [] = [] := rfl

@[simp] theorem spelling_append (ts us : List Token) :
    spelling (ts ++ us) = spelling ts ++ spelling us := by
  rw [spelling, lexemesOf_append, textOf_append, spelling, spelling]

@[simp] theorem spelling_gap (g : Gap) (ts : List Token) :
    spelling (.gap g :: ts) = g.text ++ spelling ts := by
  rw [spelling, lexemesOf_cons, textOf_append, Token.lexemes, textOf_gap, spelling]

@[simp] theorem spelling_word (x : List Char) (ts : List Token) :
    spelling (.word x :: ts) = x ++ spelling ts := by
  rw [spelling, lexemesOf_cons, textOf_append, Token.lexemes, textOf_chars, spelling]

@[simp] theorem spelling_mark (s : String) (ts : List Token) :
    spelling (.mark s :: ts) = s.toList ++ spelling ts :=
  spelling_word s.toList ts

/-- The spelling of things that stand one after the other. -/
@[simp] theorem spelling_flatMap (tokens : α → List Token) (xs : List α) :
    spelling (xs.flatMap tokens) = xs.flatMap fun x => spelling (tokens x) := by
  induction xs with
  | nil => rfl
  | cons x xs ih => rw [List.flatMap_cons, List.flatMap_cons, spelling_append, ih]

@[simp] theorem spelling_elim (tokens : α → List Token) (o : Option α) :
    spelling (o.elim [] tokens) = o.elim [] fun x => spelling (tokens x) := by
  cases o <;> rfl

end Spelling

open Token

section Words

def Brackets.tokens (b : Brackets) : List Token :=
  [gap b.before, mark "[", gap b.inside, mark "]"]

@[simp] theorem Brackets.spelling_tokens (b : Brackets) : spelling b.tokens = b.text := by
  simp [tokens, text]

def TypeName.tokens (t : TypeName) : List Token :=
  word t.base :: t.dims.flatMap Brackets.tokens

@[simp] theorem TypeName.spelling_tokens (t : TypeName) : spelling t.tokens = t.text := by
  simp [tokens, text]

def Atom.tokens : Atom → List Token
  | int n => [word n.text]
  | string ps => [.string ps]
  | null => [mark "null"]
  | name x => [word x]

@[simp] theorem Atom.spelling_tokens (a : Atom) : spelling a.tokens = a.text := by
  cases a with
  | string ps => exact List.append_nil _
  | _ => simp [tokens, text]

end Words

section Phrases

variable {α : Type} (f : α → List Token)

def Member.tokens (m : Member) : List Token :=
  [word m.owner, gap m.before, mark ".", gap m.after, word m.name]

@[simp] theorem Member.spelling_tokens (m : Member) : spelling m.tokens = m.text := by
  simp [tokens, text]

def Element.tokens (e : Element) : List Token :=
  [word e.base, gap e.before, mark "[", gap e.inside] ++ e.index.tokens ++
    [gap e.after, mark "]"]

@[simp] theorem Element.spelling_tokens (e : Element) : spelling e.tokens = e.text := by
  simp [tokens, text, head]

def Later.tokens (l : Later α) : List Token :=
  [gap l.before, mark ",", gap l.after] ++ f l.item

@[simp] theorem Later.spelling_tokens (l : Later α) :
    spelling (l.tokens f) = l.text fun x => spelling (f x) := by
  simp [tokens, text, head]

def Listed.tokens (l : Listed α) : List Token :=
  f l.first ++ l.rest.flatMap (Later.tokens f)

@[simp] theorem Listed.spelling_tokens (l : Listed α) :
    spelling (l.tokens f) = l.text fun x => spelling (f x) := by
  simp [tokens, text]

def Callee.tokens : Callee → List Token
  | member m => m.tokens
  | plain x => [word x]

@[simp] theorem Callee.spelling_tokens (c : Callee) : spelling c.tokens = c.text := by
  cases c <;> simp [tokens, text]

def Arguments.tokens (a : Arguments) : List Token :=
  a.atoms.tokens Atom.tokens ++ [gap a.after]

@[simp] theorem Arguments.spelling_tokens (a : Arguments) : spelling a.tokens = a.text := by
  simp [tokens, text]

def Invocation.tokens (i : Invocation) : List Token :=
  mark "invoke" :: gap i.lead :: i.callee.tokens ++
    [gap i.before, mark "(", gap i.inside] ++ i.arguments.elim [] Arguments.tokens ++
    [mark ")"]

@[simp] theorem Invocation.spelling_tokens (i : Invocation) : spelling i.tokens = i.text := by
  delta text head
  simp [tokens]

def Operation.tokens (o : Operation) : List Token :=
  o.left.tokens ++ [gap o.before, mark o.op.symbol, gap o.after] ++ o.right.tokens

@[simp] theorem Operation.spelling_tokens (o : Operation) : spelling o.tokens = o.text := by
  simp [tokens, text, head]

def NewArray.tokens (a : NewArray) : List Token :=
  mark "newarray" :: gap a.lead :: a.elem.tokens ++
    [gap a.before, mark "[", gap a.inside] ++ a.length.tokens ++ [gap a.after, mark "]"]

@[simp] theorem NewArray.spelling_tokens (a : NewArray) : spelling a.tokens = a.text := by
  delta text head start
  simp [tokens]

def NewObject.tokens (n : NewObject) : List Token :=
  mark "new" :: gap n.lead :: n.type.tokens

@[simp] theorem NewObject.spelling_tokens (n : NewObject) : spelling n.tokens = n.text := by
  delta text start
  simp [tokens]

def Cast.tokens (c : Cast) : List Token :=
  mark "(" :: gap c.inside :: c.type.tokens ++ [gap c.after, mark ")", gap c.before] ++
    c.operand.tokens

@[simp] theorem Cast.spelling_tokens (c : Cast) : spelling c.tokens = c.text := by
  simp [tokens, text, head, start]

def Negation.tokens (n : Negation) : List Token :=
  [mark "-", gap n.before, word n.name]

@[simp] theorem Negation.spelling_tokens (n : Negation) : spelling n.tokens = n.text := by
  simp [tokens, text, start]

def LeftSide.tokens : LeftSide → List Token
  | element e => e.tokens
  | member m => m.tokens
  | name x => [word x]

@[simp] theorem LeftSide.spelling_tokens (l : LeftSide) : spelling l.tokens = l.text := by
  cases l <;> simp [tokens, text]

def RightSide.tokens : RightSide → List Token
  | newArray a => a.tokens
  | newObject n => n.tokens
  | call i => i.tokens
  | cast c => c.tokens
  | operation o => o.tokens
  | negation n => n.tokens
  | element e => e.tokens
  | member m => m.tokens
  | atom a => a.tokens

@[simp] theorem RightSide.spelling_tokens (r : RightSide) : spelling r.tokens = r.text := by
  cases r <;> simp [tokens, text]

end Phrases

section Statements

def JumpTo.tokens (j : JumpTo) : List Token :=
  [mark "goto", gap j.lead, word j.label, gap j.after, mark ";"]

@[simp] theorem JumpTo.spelling_tokens (j : JumpTo) : spelling j.tokens = j.text := by
  delta text head
  simp [tokens]

def Branch.tokens (b : Branch) : List Token :=
  [mark "if", gap b.before, mark "(", gap b.inside] ++ b.condition.tokens ++
    [gap b.after, mark ")", gap b.lead] ++ b.jump.tokens

@[simp] theorem Branch.spelling_tokens (b : Branch) : spelling b.tokens = b.text := by
  delta text head start
  simp [tokens]

def Case.tokens (c : Case) : List Token :=
  [mark "case", gap c.lead, word c.value.text, gap c.before, mark ":",
    gap c.after] ++ c.jump.tokens ++ [gap c.trail]

@[simp] theorem Case.spelling_tokens (c : Case) : spelling c.tokens = c.text := by
  delta text head
  simp [tokens]

def Default.tokens (d : Default) : List Token :=
  [mark "default", gap d.before, mark ":", gap d.after] ++ d.jump.tokens ++
    [gap d.trail]

@[simp] theorem Default.spelling_tokens (d : Default) : spelling d.tokens = d.text := by
  delta text head
  simp [tokens]

def Switch.tokens (s : Switch) : List Token :=
  [mark "switch", gap s.before, mark "(", gap s.inside, word s.selector,
    gap s.after, mark ")", gap s.lead, mark "\x7b", gap s.body] ++
    s.cases.flatMap Case.tokens ++ s.default.tokens ++ [mark "\x7d"]

@[simp] theorem Switch.spelling_tokens (s : Switch) : spelling s.tokens = s.text := by
  delta text head start
  simp [tokens]

def Assignment.tokens (a : Assignment) : List Token :=
  a.left.tokens ++ [gap a.before, mark "=", gap a.after] ++ a.right.tokens ++
    [gap a.trail, mark ";"]

@[simp] theorem Assignment.spelling_tokens (a : Assignment) : spelling a.tokens = a.text := by
  simp [tokens, text, head]

def Returned.tokens (r : Returned) : List Token :=
  gap r.lead :: r.value.tokens

@[simp] theorem Returned.spelling_tokens (r : Returned) : spelling r.tokens = r.text := by
  simp [tokens, text]

def Command.tokens : Command → List Token
  | ret v g => mark "return" :: v.elim [] Returned.tokens ++ [gap g, mark ";"]
  | goto j => j.tokens
  | branch b => b.tokens
  | switch s => s.tokens
  | nop g => [mark "nop", gap g, mark ";"]
  | call i g => i.tokens ++ [gap g, mark ";"]
  | assign a => a.tokens

@[simp] theorem Command.spelling_tokens (c : Command) : spelling c.tokens = c.text := by
  delta text
  cases c <;> simp [tokens]

def Statement.tokens (s : Statement) : List Token :=
  s.command.tokens ++ [gap s.trail]

@[simp] theorem Statement.spelling_tokens (s : Statement) : spelling s.tokens = s.text := by
  simp [tokens, text]

def Label.tokens (l : Label) : List Token :=
  [word l.name, gap l.before, mark ":", gap l.trail]

@[simp] theorem Label.spelling_tokens (l : Label) : spelling l.tokens = l.text := by
  simp [tokens, text]

def Item.tokens : Item → List Token
  | label l => l.tokens
  | statement s => s.tokens

@[simp] theorem Item.spelling_tokens (i : Item) : spelling i.tokens = i.text := by
  cases i <;> simp [tokens, text]

end Statements

section Methods

def Param.tokens (p : Param) : List Token :=
  p.type.tokens ++ [gap p.lead, word p.name]

@[simp] theorem Param.spelling_tokens (p : Param) : spelling p.tokens = p.text := by
  simp [tokens, text, head]

def Params.tokens (p : Params) : List Token :=
  p.list.tokens Param.tokens ++ [gap p.after]

@[simp] theorem Params.spelling_tokens (p : Params) : spelling p.tokens = p.text := by
  simp [tokens, text]

def VarDecl.tokens (d : VarDecl) : List Token :=
  d.type.tokens ++ [gap d.lead] ++ d.names.tokens (fun x => [word x]) ++
    [gap d.after, mark ";", gap d.trail]

@[simp] theorem VarDecl.spelling_tokens (d : VarDecl) : spelling d.tokens = d.text := by
  simp [tokens, text, head]
  rfl

/-- The text of a method up to its closing brace. -/
def MethodDecl.inner (d : MethodDecl) : List Char :=
  d.front ++ d.decls.flatMap VarDecl.text ++ d.items.flatMap Item.text

theorem MethodDecl.text_eq (d : MethodDecl) : d.text = d.inner ++ '\x7d' :: d.trail.text := rfl

/-- The tokens of a method up to its closing brace. -/
def MethodDecl.innerTokens (d : MethodDecl) : List Token :=
  mark "method" :: gap d.lead :: d.type.tokens ++
    [gap d.between, word d.name, gap d.before, mark "(", gap d.inside] ++
    d.params.elim [] Params.tokens ++ [mark ")", gap d.after, mark "\x7b", gap d.body] ++
    d.decls.flatMap VarDecl.tokens ++ d.items.flatMap Item.tokens

@[simp] theorem MethodDecl.spelling_innerTokens (d : MethodDecl) :
    spelling d.innerTokens = d.inner := by
  delta inner front head start
  simp [innerTokens]

def MethodDecl.tokens (d : MethodDecl) : List Token :=
  d.innerTokens ++ [mark "\x7d", gap d.trail]

@[simp] theorem MethodDecl.spelling_tokens (d : MethodDecl) : spelling d.tokens = d.text := by
  simp [tokens, text_eq]

def Program.tokens (p : Program) : List Token :=
  gap p.lead :: p.methods.flatMap MethodDecl.tokens

@[simp] theorem Program.spelling_tokens (p : Program) : spelling p.tokens = p.text := by
  simp [tokens, text]

end Methods

end MethodFlow.Source
