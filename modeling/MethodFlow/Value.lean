import MethodFlow.Text.Decimal

/-!
What constant propagation knows about a variable: nothing yet, its constant value, or that it may
vary. `meet` combines what is known on two paths.
-/

namespace MethodFlow

inductive Value
  | undef
  | const (n : Int)
  | nac
  deriving DecidableEq

namespace Value

/-- Nothing known is below every constant, and every constant below a value that may vary. -/
inductive Le : Value → Value → Prop
  | undef (v : Value) : Le undef v
  | refl (v : Value) : Le v v
  | nac (v : Value) : Le v nac

instance : LE Value := ⟨Le⟩

def meet : Value → Value → Value
  | undef, w => w
  | v, undef => v
  | const a, const b => if a = b then const a else nac
  | _, _ => nac

def const? : Value → Option Int
  | const n => some n
  | _ => none

def render : Value → Except Text.Overlong String
  | undef => .ok "UNDEF"
  | const n => Text.writeInt n
  | nac => .ok "NAC"

/-- The constant of a value, or the complaint about one that has none. -/
def constant : Value → Except String Int
  | const n => .ok n
  | undef => .error "UNDEF is not a constant"
  | nac => .error "NAC is not a constant"

end Value

end MethodFlow
