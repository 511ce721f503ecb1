import Trellis.Decimal.Binary

/-!
# Shortest decimals

The decimal with the fewest digits that reads back as a given float, and of
those the nearest. The floats that round to a float form an interval around it,
which contains its ends if the mantissa is even.
-/

namespace Trellis.Decimal

/-- The decimal lies between the halfway points to the neighbouring floats. All
numbers are counted in quarters of the unit of the mantissa. -/
def readsBack (mantissa : Nat) (two : Int) (d : Decimal) : Bool :=
  let below := if mantissa = leadingBit ∧ -1074 < two then 4 * mantissa - 1 else 4 * mantissa - 2
  let above := 4 * mantissa + 2
  let value := decimalSide d.digits d.exponent (two - 2)
  let low := binarySide below d.exponent (two - 2)
  let high := binarySide above d.exponent (two - 2)
  if mantissa % 2 = 0 then low ≤ value && value ≤ high else low < value && value < high

/-- The nearest decimal of a power of ten that reads back, if one does; of two
equally near the greater. -/
def nearestOnGrid? (mantissa : Nat) (two ten : Int) : Option Decimal :=
  let steps := stepsBelow mantissa two ten
  let lower : Decimal := ⟨steps, ten⟩
  let upper : Decimal := ⟨steps + 1, ten⟩
  let upperIsNearer :=
    decimalSide (2 * steps + 1) ten two ≤ binarySide (2 * mantissa) ten two
  match readsBack mantissa two lower, readsBack mantissa two upper with
  | true, true => some (if upperIsNearer then upper else lower)
  | true, false => some lower
  | false, true => some upper
  | false, false => none

/-- The shortest decimal of a positive float. Seventeen digits always suffice. -/
def shortest (mantissa : Nat) (two : Int) : Decimal :=
  let size := magnitude mantissa two
  ((List.range 17).findSome? fun count =>
    nearestOnGrid? mantissa two (size - (count + 1 : Nat))).getD
    ⟨stepsBelow mantissa two (size - 17), size - 17⟩

end Trellis.Decimal

namespace Trellis

/-- The shortest digits of a float, written positionally. -/
def floatText (x : Float) : String :=
  match FloatValue.ofFloat x with
  | .notANumber => "NaN"
  | .infinite negative => if negative then "-inf" else "inf"
  | .finite negative mantissa exponent =>
    let digits := if mantissa = 0 then "0" else (Decimal.shortest mantissa exponent).positional
    if negative then "-" ++ digits else digits

end Trellis
