import Trellis.Decimal.Binary

/-!
# Rounded decimals

A float rounded to a number of significant digits; a number halfway between two
goes to the even one.
-/

namespace Trellis.Decimal

/-- The nearest decimal with the given number of significant digits. -/
def rounded (places : Nat) (mantissa : Nat) (two : Int) : Decimal :=
  let ten := magnitude mantissa two - places
  let steps := stepsBelow mantissa two ten
  let halfway := decimalSide (2 * steps + 1) ten two
  let twice := binarySide (2 * mantissa) ten two
  ⟨if halfway < twice ∨ halfway = twice ∧ steps % 2 = 1 then steps + 1 else steps, ten⟩

end Trellis.Decimal
