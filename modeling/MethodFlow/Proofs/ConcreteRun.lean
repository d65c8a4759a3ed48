import MethodFlow.Cfg
import MethodFlow.Proofs.Words

/-!
Concrete runs of a method along the edges of a graph. Words are computed with; everything else may
give anything, so one method has many runs.
-/

namespace MethodFlow

/-- What a variable can hold: a word, or something of another type. -/
inductive Datum (ω : Type)
  | word (w : Word)
  | other (x : ω)
  deriving DecidableEq

/-- What the variables hold that have been assigned. -/
def Memory (ω : Type) : Type :=
  Var → Option (Datum ω)

namespace Memory

variable {ω : Type}

def set (μ : Memory ω) (v : Var) (d : Datum ω) : Memory ω :=
  fun w => if w = v then some d else μ w

@[simp] theorem set_self (μ : Memory ω) (v : Var) (d : Datum ω) : μ.set v d v = some d :=
  if_pos rfl

theorem set_of_ne {v w : Var} (h : w ≠ v) (μ : Memory ω) (d : Datum ω) : μ.set v d w = μ w :=
  if_neg h

end Memory

/-- The expressions that may give anything once what they read is known. -/
def Expr.isOpen : Expr → Bool
  | var _ | int _ | bin _ _ _ => false
  | _ => true

variable {ω : Type}

/-- What an expression can evaluate to. It evaluates to nothing when it reads a variable that has
not been assigned, or divides a word by zero. -/
inductive Evaluates (μ : Memory ω) : Expr → Datum ω → Prop
  | var {v d} (h : μ v = some d) : Evaluates μ (.var v) d
  | int (n) : Evaluates μ (.int n) (.word (Word.ofInt n))
  | words {op a b x y z} (ha : Evaluates μ a (.word x)) (hb : Evaluates μ b (.word y))
      (h : Word.combine? op x y = some z) : Evaluates μ (.bin op a b) (.word z)
  | mixed {op a b d d'} (ha : Evaluates μ a d) (hb : Evaluates μ b d')
      (h : op.isFree = true ∨ ∀ x y, ¬ (d = .word x ∧ d' = .word y)) (r) :
      Evaluates μ (.bin op a b) r
  | anything {e} (h : e.isOpen = true) (f : Expr → Datum ω)
      (hf : ∀ a ∈ e.operands, Evaluates μ a (f a)) (r) : Evaluates μ e r

/-- What a statement can do to the memory: everything that it reads has a value, and a variable that
it defines takes on the value of its right side. -/
inductive Executes (s : Instr Target) (μ : Memory ω) : Memory ω → Prop
  | define {v e d} (hv : s.def? = some v) (he : s.value? = some e) (h : Evaluates μ e d) :
      Executes s μ (μ.set v d)
  | keep (hv : s.def? = none) (h : ∀ e ∈ s.uses, ∃ d, Evaluates μ e d) : Executes s μ μ

/-- The points that runs of a method come to, and the memory there: a run starts with the parameters
assigned, and may take any edge. -/
inductive Reaches (m : Method) (g : Cfg) : Node → Memory ω → Prop
  | start {μ} (h : ∀ v, (μ v).isSome ↔ v ∈ m.params) : Reaches m g .entry μ
  | step {n k μ μ'} (h : Reaches m g n μ) (hx : Executes (n.instr m) μ μ') (hk : k ∈ g.succs n) :
      Reaches m g k μ'

end MethodFlow
