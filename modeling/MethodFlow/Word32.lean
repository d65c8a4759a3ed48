import MethodFlow.Expr
import MethodFlow.Value

/-!
Signed 32-bit arithmetic on whole numbers of any size. An operator is applied to the numbers as they
are, and its result is brought into -2^31, ..., 2^31 - 1 afterwards.
-/

namespace MethodFlow.Word32

/-! The bits of a whole number go on to the left without end, with zeros for a number that is not
negative and with ones for a negative number: those of `-(n + 1)` are those of `n` turned over. -/

def flip (n : Int) : Int :=
  -n - 1

/-- The bits that two numbers share. -/
def both : Int → Int → Int
  | .ofNat m, .ofNat n => .ofNat (m &&& n)
  | .ofNat m, .negSucc n => .ofNat (m ^^^ (m &&& n))
  | .negSucc m, .ofNat n => .ofNat (n ^^^ (n &&& m))
  | .negSucc m, .negSucc n => .negSucc (m ||| n)

/-- The bits that one of two numbers has. -/
def either (a b : Int) : Int :=
  flip (both (flip a) (flip b))

/-- The bits in which two numbers differ. -/
def differ (a b : Int) : Int :=
  both (either a b) (flip (both a b))

/-- The low 32 bits of a number, where the highest of them stands for a minus. -/
def wrap (n : Int) : Int :=
  let low := both n 0xFFFFFFFF
  if both low 0x80000000 ≠ 0 then low - 0x100000000 else low

/-- Divides toward zero, where `b` is not zero. -/
def quotient (a b : Int) : Int :=
  let q : Int := a.natAbs / b.natAbs
  if (a < 0) = (b < 0) then q else -q

/-- What is left of `a`, with its sign. -/
def remainder (a b : Int) : Int :=
  a - quotient a b * b

/-- A shift distance has five bits. -/
def distance (n : Int) : Nat :=
  (both n 31).toNat

/-- A comparison that holds is 1, one that fails is 0. -/
def truth (b : Bool) : Int :=
  if b then 1 else 0

/-- The operators on integers, on numbers of any size. -/
def operator? : BinOp → Option (Int → Int → Int)
  | .add => some fun a b => a + b
  | .sub => some fun a b => a - b
  | .mul => some fun a b => a * b
  | .div => some quotient
  | .rem => some remainder
  | .shl => some fun a b => a <<< distance b
  | .shr => some fun a b => a >>> distance b
  | .and => some both
  | .or => some either
  | .xor => some differ
  | .gt => some fun a b => truth (a > b)
  | .lt => some fun a b => truth (a < b)
  | .ge => some fun a b => truth (a ≥ b)
  | .le => some fun a b => truth (a ≤ b)
  | .eq => some fun a b => truth (a = b)
  | .ne => some fun a b => truth (a ≠ b)
  | .ushr | .cmp | .cmpl | .cmpg => none

/-- What is known about the result of an operator on two constants: nothing when a zero divides,
and that it may vary when the operator is none on integers. -/
def apply (op : BinOp) (a b : Int) : Value :=
  match operator? op with
  | some f => if b = 0 ∧ op.isDivision then .undef else .const (wrap (f a b))
  | none => .nac

end MethodFlow.Word32
