import MethodFlow.Source.Word
import MethodFlow.Text.Decimal
import MethodFlow.Text.Escaped

/-!
Atoms: numbers, string literals, `null` and names.
-/

namespace MethodFlow.Source

/-- The digits of a number: hexadecimal behind `0` and a mark, or decimal. -/
inductive Digits
  | hex (mark : Char) (digits : List Char)
  | decimal (digits : List Char)

def Digits.text : Digits → List Char
  | hex mark ds => '0' :: mark :: ds
  | decimal ds => ds

structure Number where
  negative : Bool
  digits : Digits

def Number.text (n : Number) : List Char :=
  (if n.negative then ['-'] else []) ++ n.digits.text

/-- The value of a hexadecimal digit; other characters count as zero. -/
def hexValue (c : Char) : Nat :=
  if c.isDigit then c.toNat - '0'.toNat
  else if 'a' ≤ c ∧ c ≤ 'f' then c.toNat - 'a'.toNat + 10
  else if 'A' ≤ c ∧ c ≤ 'F' then c.toNat - 'A'.toNat + 10
  else 0

def isHexDigit (c : Char) : Bool :=
  c.isDigit || ('a' ≤ c && c ≤ 'f') || ('A' ≤ c && c ≤ 'F')

/-- What digits denote; only decimal ones can be too many. -/
def Digits.value : Digits → Except Text.Overlong Nat
  | hex _ ds => .ok (Text.ofDigits 16 (ds.map hexValue))
  | decimal ds => Text.readDecimal (ds.map hexValue)

def Number.value (n : Number) : Except Text.Overlong Int := do
  let magnitude ← n.digits.value
  return if n.negative then -(magnitude : Int) else magnitude

/-- A piece of a string literal: a character for itself, or one behind a backslash. -/
inductive Piece
  | plain (c : Char)
  | escaped (c : Char)

def Piece.text : Piece → List Char
  | plain c => [c]
  | escaped c => ['\\', c]

def Piece.value : Piece → Char
  | plain c => c
  | escaped c => Text.Escaped.decodeChar c

inductive Atom
  | int (n : Number)
  | string (pieces : List Piece)
  | null
  | name (x : List Char)

def Atom.text : Atom → List Char
  | int n => n.text
  | string ps => '"' :: ps.flatMap Piece.text ++ ['"']
  | null => "null".toList
  | name x => x

namespace Reader

def hexDigits : Reader Digits := do
  exactly "0"
  let mark ← satisfying fun c => c == 'x' || c == 'X'
  return .hex mark (← span1 isHexDigit)

def decimalDigits : Reader Digits := do
  return .decimal (← span1 Char.isDigit)

def number : Reader Number := do
  let sign ← optional (exactly "-")
  let digits ← hexDigits <|> decimalDigits
  return ⟨sign.isSome, digits⟩

/-- A backslash takes any character with it but the end of the line. -/
def piece : Reader Piece :=
  (.plain <$> satisfying fun c => c ≠ '"' && c ≠ '\\') <|> do
    exactly "\\"
    return .escaped (← satisfying (· ≠ '\n'))

def stringLiteral : Reader (List Piece) := do
  exactly "\""
  let ps ← many piece
  exactly "\""
  return ps

/-- `null` is read off any word that begins with it. -/
def literal : Reader Atom :=
  (.int <$> number) <|> (.string <$> stringLiteral) <|> do
    exactly "null"
    return .null

def atom : Reader Atom :=
  literal <|> (.name <$> name)

end Reader

end MethodFlow.Source
