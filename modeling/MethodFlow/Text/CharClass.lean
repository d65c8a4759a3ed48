/-!
Classes of characters given by the code points at which membership changes.
-/

namespace MethodFlow.Text

/-- A set of code points: `edges` ascends, and membership changes at each of its entries. -/
structure CharClass where
  edges : List Nat

/-- A character belongs to a class when an odd number of edges lie at or below it. -/
def CharClass.contains (k : CharClass) (c : Char) : Bool :=
  (k.edges.takeWhile (· ≤ c.toNat)).length % 2 == 1

end MethodFlow.Text
