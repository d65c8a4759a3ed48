import MethodFlow.Fact.VarSet
import MethodFlow.Solver

/-!
Liveness: a backward problem whose facts are the variables that may be read before they are set.
-/

namespace MethodFlow.Liveness

/-- The variables live before a statement: those it reads, and those live after it that it does
not set. -/
def transfer {τ : Type} (s : Instr τ) (after : VarSet) : VarSet :=
  s.usedVars.foldl VarSet.add (s.def?.elim after after.remove)

def problem (m : Method) : Problem VarSet where
  initial := ∅
  boundary := ∅
  merge source target := target.union source
  transfer n := transfer (n.instr m)

end MethodFlow.Liveness
