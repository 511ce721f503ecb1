/-!
# Decimals

A natural number times a power of ten, and two ways to write it: positionally,
and with one digit before the point and an exponent.
-/

namespace Trellis

/-- The number `digits * 10 ^ exponent`. -/
structure Decimal where
  digits : Nat
  exponent : Int
deriving DecidableEq, Repr

namespace Decimal

def digitList (n : Nat) : List Char := Nat.toDigits 10 n

/-- Drops the zeros at the end of the digits. -/
def trim (d : Decimal) : Decimal :=
  if d.digits ≠ 0 ∧ d.digits % 10 = 0 then trim ⟨d.digits / 10, d.exponent + 1⟩ else d
termination_by d.digits
decreasing_by omega

/-- All digits in their places, with a point only if there is a fraction. -/
def positional (d : Decimal) : String :=
  let t := d.trim
  let ds := digitList t.digits
  if 0 ≤ t.exponent then
    String.ofList (ds ++ List.replicate t.exponent.toNat '0')
  else
    let places := (-t.exponent).toNat
    let padded := List.replicate (places + 1 - ds.length) '0' ++ ds
    let whole := padded.length - places
    String.ofList (padded.take whole ++ '.' :: padded.drop whole)

/-- One digit before the point, no zeros at the end, and an exponent of ten. -/
def scientific (d : Decimal) : String :=
  let t := d.trim
  let exponent : Int := t.exponent + ((digitList t.digits).length - 1 : Nat)
  let mantissa := match digitList t.digits with
    | first :: second :: rest => first :: '.' :: second :: rest
    | short => short
  String.ofList mantissa ++ "e" ++ toString exponent

end Decimal

end Trellis
