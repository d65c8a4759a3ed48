import MethodFlow.Fact.ConstMap
import MethodFlow.Solver
import MethodFlow.Word32

/-!
Constant propagation: a forward problem whose facts say what each integer variable holds.
-/

namespace MethodFlow.ConstProp

/-- What is known about an expression when `f` is known about the variables. Only variables that
hold integers, integer literals and operators on two constants can be constant. -/
def evaluate (f : ConstMap) : Expr → Value
  | .var v => if v.holdsInt then f.get v else .nac
  | .int n => .const (Word32.wrap n)
  | .bin op a b =>
    match evaluate f a, evaluate f b with
    | .const x, .const y => Word32.apply op x y
    | _, _ => .nac
  | _ => .nac

/-- What is known after a statement: only a definition of an integer variable changes it. -/
def transfer {τ : Type} (s : Instr τ) (f : ConstMap) : ConstMap :=
  match s.def?, s.value? with
  | some v, some e => if v.holdsInt then f.set v (evaluate f e) else f
  | _, _ => f

/-- At the entry the parameters may hold anything. -/
def boundary (m : Method) : ConstMap :=
  m.params.foldl (fun f v => f.set v .nac) ∅

def problem (m : Method) : Problem ConstMap where
  initial := ∅
  boundary := boundary m
  merge := ConstMap.merge
  transfer n := transfer (n.instr m)

end MethodFlow.ConstProp
