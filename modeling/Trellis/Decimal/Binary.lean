import Trellis.Decimal.Basic

/-!
# Binary floating point, exactly

The exact value of a 64-bit float, and its place between the powers of ten.
-/

namespace Trellis

/-- What the bits of a float say. -/
inductive FloatValue where
  | notANumber
  | infinite (negative : Bool)
  | finite (negative : Bool) (mantissa : Nat) (exponent : Int)
deriving DecidableEq, Repr

/-- The bit of the mantissa that the representation leaves out, `2 ^ 52`. -/
def leadingBit : Nat := 0x10000000000000

/-- Reads sign, mantissa and exponent; the value of a finite float is
`mantissa * 2 ^ exponent`. -/
def FloatValue.ofFloat (x : Float) : FloatValue :=
  let negative : Bool := x.toBits >>> 63 = 1
  let biased : Nat := ((x.toBits >>> 52) &&& 0x7ff).toNat
  let fraction : Nat := (x.toBits &&& 0xfffffffffffff).toNat
  if biased = 0x7ff then
    if fraction = 0 then .infinite negative else .notANumber
  else if biased = 0 then .finite negative fraction (-1074)
  else .finite negative (leadingBit + fraction) ((biased : Int) - 1075)

namespace Decimal

/-- `digits * 10 ^ ten`, on a scale shared with `binarySide`. -/
def decimalSide (digits : Nat) (ten two : Int) : Nat :=
  digits * Nat.pow 10 ten.toNat * Nat.pow 2 (-two).toNat

/-- `mantissa * 2 ^ two`, on a scale shared with `decimalSide`. -/
def binarySide (mantissa : Nat) (ten two : Int) : Nat :=
  mantissa * Nat.pow 2 two.toNat * Nat.pow 10 (-ten).toNat

/-- How many decimal digits `mantissa * 2 ^ two` has before the point; zero or
negative for a number below one. -/
def magnitude (mantissa : Nat) (two : Int) : Int :=
  let above : Int := (digitList (binarySide mantissa 0 two)).length
  let below : Int := (digitList (decimalSide 1 0 two)).length
  let guess := above - below
  if decimalSide 1 guess two ≤ binarySide mantissa guess two then guess + 1 else guess

/-- The whole number of times `10 ^ ten` goes into `mantissa * 2 ^ two`. -/
def stepsBelow (mantissa : Nat) (two ten : Int) : Nat :=
  binarySide mantissa ten two / decimalSide 1 ten two

end Decimal

end Trellis
