import MethodFlow.Text.Decimal

/-!
Facts: what an analysis knows at a point of a method. A fact in a table is replaced only by one
that says something else, so its listed order changes only together with its content.
-/

namespace MethodFlow

class Fact (F : Type) where
  /-- Whether two facts say the same. -/
  same : F → F → Bool
  render : F → Except Text.Overlong String

/-- The fact that stands in a table after `new` was written over `old`, and whether it changed. -/
def Fact.overwrite {F : Type} [Fact F] (old new : F) : F × Bool :=
  if same old new then (old, false) else (new, true)

end MethodFlow
