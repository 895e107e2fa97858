/-!
Sets of code points, kept as the sorted list of the places where membership changes.
-/

namespace TolerantParser

/-- A set of code points. `edges` holds, in increasing order, each code point whose membership
differs from that of the code point before it. -/
structure CodeSet where
  edges : List Nat
  deriving DecidableEq, Repr

/-- A character is in the set when an odd number of edges lie at or before it. -/
def CodeSet.contains (s : CodeSet) (c : Char) : Bool :=
  (s.edges.takeWhile (· ≤ c.toNat)).length % 2 == 1

end TolerantParser
