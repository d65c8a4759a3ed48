/-!
Text in UTF-8: decoding bytes, and what is wrong with bytes that are no text.
-/

namespace MethodFlow.Text.Utf8

inductive Reason
  | startByte
  | continuationByte
  | endOfData
  deriving DecidableEq

def Reason.render : Reason → String
  | startByte => "invalid start byte"
  | continuationByte => "invalid continuation byte"
  | endOfData => "unexpected end of data"

/-- The first bytes that are no text: their values, the position of the first, and the reason. -/
structure Malformed where
  bytes : List Nat
  position : Nat
  reason : Reason

def hexByte (b : Nat) : String :=
  String.ofList ((if b < 16 then ['0'] else []) ++ Nat.toDigits 16 b)

def Malformed.message (e : Malformed) : String :=
  "'utf-8' codec can't decode " ++
    (match e.bytes with
      | [b] => "byte 0x" ++ hexByte b ++ " in position " ++ toString e.position
      | bs => "bytes in position " ++ toString e.position ++ "-" ++
        toString (e.position + bs.length - 1)) ++
    ": " ++ e.reason.render

/-- The first byte of a character: how many bytes follow, the range of the first of these, and the
bits that the byte contributes. -/
structure Lead where
  following : Nat
  low : Nat
  high : Nat
  bits : Nat

def lead? (b : Nat) : Option Lead :=
  if b < 0x80 then some ⟨0, 0x80, 0xBF, b⟩
  else if b < 0xC2 then none
  else if b < 0xE0 then some ⟨1, 0x80, 0xBF, b - 0xC0⟩
  else if b = 0xE0 then some ⟨2, 0xA0, 0xBF, 0⟩
  else if b = 0xED then some ⟨2, 0x80, 0x9F, b - 0xE0⟩
  else if b < 0xF0 then some ⟨2, 0x80, 0xBF, b - 0xE0⟩
  else if b = 0xF0 then some ⟨3, 0x90, 0xBF, 0⟩
  else if b < 0xF4 then some ⟨3, 0x80, 0xBF, b - 0xF0⟩
  else if b = 0xF4 then some ⟨3, 0x80, 0x8F, b - 0xF0⟩
  else none

/-- Reads `n` continuation bytes, the first of which lies between `low` and `high`; `taken` are the
bytes of the character so far, the last one first. -/
def follow (position : Nat) :
    (n low high bits : Nat) → (taken bytes : List Nat) → Except Malformed (Char × List Nat)
  | 0, _, _, bits, _, rest => .ok (Char.ofNat bits, rest)
  | _ + 1, _, _, _, taken, [] => .error ⟨taken.reverse, position, .endOfData⟩
  | n + 1, low, high, bits, taken, b :: rest =>
    if low ≤ b ∧ b ≤ high then
      follow position n 0x80 0xBF (bits * 64 + (b - 0x80)) (b :: taken) rest
    else .error ⟨taken.reverse, position, .continuationByte⟩

/-- The first character of some bytes, and the bytes after it. -/
def char (position b : Nat) (rest : List Nat) : Except Malformed (Char × List Nat) :=
  match lead? b with
  | some l => follow position l.following l.low l.high l.bits [b] rest
  | none => .error ⟨[b], position, .startByte⟩

/-- Decodes at most `n` characters. -/
def decodeUpTo : (n position : Nat) → List Nat → Except Malformed (List Char)
  | 0, _, _ | _, _, [] => .ok []
  | n + 1, position, b :: rest => do
    let (c, after) ← char position b rest
    return c :: (← decodeUpTo n (position + (rest.length + 1 - after.length)) after)

/-- The text that bytes encode; every character takes at least one byte. -/
def decode (bytes : List Nat) : Except Malformed (List Char) :=
  decodeUpTo bytes.length 0 bytes

end MethodFlow.Text.Utf8
