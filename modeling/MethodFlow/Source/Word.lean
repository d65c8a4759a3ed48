import MethodFlow.Source.Gap
import MethodFlow.Text.WordChar

/-!
The words of a program: keywords, names, and names of types with their brackets.
-/

namespace MethodFlow.Source

/-- The words that cannot begin a name. -/
def keywords : List String :=
  ["method", "return", "goto", "if", "switch", "case", "default", "newarray", "new", "invoke",
    "nop", "null"]

/-- Whether a text cannot go on with the word before it. -/
def endsWord : List Char → Bool
  | [] => true
  | c :: _ => !Text.isWordChar c

/-- What follows a keyword that a text starts with as a whole word. Only letters, digits and
underscores are parts of a word here, so `goto$` starts with one. -/
def afterKeyword? (cs : List Char) : Option (List Char) :=
  keywords.findSome? fun k => (Reader.after? k.toList cs).filter endsWord

def isNameStart (c : Char) : Bool :=
  c.isAlpha || c == '_' || c == '$'

def isNameChar (c : Char) : Bool :=
  c.isAlphanum || c == '_' || c == '$'

def isTypeChar (c : Char) : Bool :=
  isNameChar c || c == '.'

structure Brackets where
  before : Gap
  inside : Gap

def Brackets.text (b : Brackets) : List Char :=
  b.before.text ++ '[' :: b.inside.text ++ [']']

structure TypeName where
  base : List Char
  dims : List Brackets

def TypeName.text (t : TypeName) : List Char :=
  t.base ++ t.dims.flatMap Brackets.text

namespace Reader

def keyword : Reader Unit :=
  fun cs => (afterKeyword? cs).map ((), ·)

/-- Characters of a word that is no keyword. -/
def wordOf (isChar : Char → Bool) : Reader (List Char) := do
  ahead fun cs => (afterKeyword? cs).isNone
  return (← satisfying isNameStart) :: (← span isChar)

def name : Reader (List Char) :=
  wordOf isNameChar

def brackets : Reader Brackets := do
  let before ← gap
  exactly "["
  let inside ← gap
  exactly "]"
  return ⟨before, inside⟩

def typeName : Reader TypeName := do
  let base ← wordOf isTypeChar
  let dims ← many brackets
  return ⟨base, dims⟩

end Reader

end MethodFlow.Source
