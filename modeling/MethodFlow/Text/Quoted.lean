import MethodFlow.Text.Unprintable

/-!
Text shown inside a message: in single quotes, or in double quotes when it holds a single quote
and no double one, with escapes for whatever would not be seen.
-/

namespace MethodFlow.Text.Quoted

def mark (cs : List Char) : Char :=
  if cs.contains '\'' && !cs.contains '"' then '"' else '\''

/-- `n` in lower-case hexadecimal with at least `width` digits. -/
def hex (width n : Nat) : List Char :=
  let ds := Nat.toDigits 16 n
  List.replicate (width - ds.length) '0' ++ ds

/-- A character as it is written between two marks `q`. -/
def encodeChar (q c : Char) : List Char :=
  if c = '\\' || c = q then ['\\', c]
  else if c = '\n' then ['\\', 'n']
  else if c = '\r' then ['\\', 'r']
  else if c = '\t' then ['\\', 't']
  else if !isUnprintable c then [c]
  else if c.toNat < 0x100 then '\\' :: 'x' :: hex 2 c.toNat
  else if c.toNat < 0x10000 then '\\' :: 'u' :: hex 4 c.toNat
  else '\\' :: 'U' :: hex 8 c.toNat

def encode (cs : List Char) : List Char :=
  let q := mark cs
  q :: cs.flatMap (encodeChar q) ++ [q]

end Quoted

def quoted (s : String) : String :=
  String.ofList (Quoted.encode s.toList)

end MethodFlow.Text
