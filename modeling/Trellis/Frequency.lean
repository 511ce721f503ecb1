import Trellis.Arithmetic
import Trellis.Table

/-!
# Relative frequencies

Counts divided by their total, row by row (`relativeRow`). A row whose total is not
positive has no frequencies and is left as it is.
-/

namespace Trellis

variable {α : Type} [Arithmetic α] {n m : Nat}

/-- The counts of a row divided by their total, if that is positive. -/
def relativeRow (counts : Vector α n) : Vector α n :=
  let sum := rowTotal counts.toList
  if 0 < sum then counts.map (· / sum) else counts

/-- The relative frequencies within each row. -/
def Table.relativeRows (counts : Table n m α) : Table n m α := counts.mapRows relativeRow

end Trellis
