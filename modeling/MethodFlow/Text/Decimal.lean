import MethodFlow.Text.DecimalDigit

/-!
Whole numbers and their decimal texts. Neither is made of the other when the text has too many
digits.
-/

namespace MethodFlow.Text

/-- A decimal text of more digits than this is not converted. -/
def digitLimit : Nat := 4300

/-- What has too many digits: a text with its number of them, or a number that is to be written. -/
inductive Overlong
  | text (digits : Nat)
  | number
  deriving DecidableEq

def Overlong.message (e : Overlong) : String :=
  "Exceeds the limit (" ++ toString digitLimit ++ " digits) for integer string conversion" ++
    (match e with
      | text n => ": value has " ++ toString n ++ " digits"
      | number => "") ++
    "; use sys.set_int_max_str_digits() to increase the limit"

/-- The number that decimal digits denote; leading zeros count among the digits. -/
def readDecimal (ds : List Nat) : Except Overlong Nat :=
  if ds.length ≤ digitLimit then .ok (ofDigits 10 ds) else .error (.text ds.length)

def isWritable (n : Int) : Bool :=
  (Nat.toDigits 10 n.natAbs).length ≤ digitLimit

/-- The decimal text of a number. -/
def writeInt (n : Int) : Except Overlong String :=
  if isWritable n then .ok (toString n) else .error .number

/-- A whole number: an optional minus sign and at least one decimal digit. -/
def wholeNumber? : List Char → Except Overlong (Option Int)
  | '-' :: cs => do return (← magnitude? cs).map fun n => -(n : Int)
  | cs => do return (← magnitude? cs).map fun n => (n : Int)
where
  magnitude? (cs : List Char) : Except Overlong (Option Nat) :=
    if cs.isEmpty then .ok none
    else (cs.mapM digitValue?).mapM readDecimal

end MethodFlow.Text
