/-!
# Places in a text

A place is counted in characters from the start. Only the line feed ends a line; lines and columns
count from one.
-/

namespace Flowgraph.Text

/-- A line and a column, both counted from one. -/
structure Position where
  line : Nat
  column : Nat
  deriving DecidableEq, Repr

/-- The line and column of the place after `offset` characters. -/
def Position.at (text : List Char) (offset : Nat) : Position :=
  let before := text.take offset
  { line := before.count '\n' + 1
    column := (before.reverse.takeWhile (· != '\n')).length + 1 }

end Flowgraph.Text
