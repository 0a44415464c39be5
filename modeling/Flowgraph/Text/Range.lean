/-!
# Classes of characters

A class of characters is written as the closed intervals of code points that belong to it, in
increasing order.
-/

namespace Flowgraph.Text

/-- A class of characters, given by intervals of code points with both ends included. -/
structure CharClass where
  intervals : List (Nat × Nat)

def CharClass.contains (k : CharClass) (c : Char) : Bool :=
  k.intervals.any fun i => i.1 ≤ c.toNat && c.toNat ≤ i.2

end Flowgraph.Text
