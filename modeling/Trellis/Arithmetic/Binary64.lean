import Trellis.Arithmetic

/-!
# Binary64

The rounding arithmetic of 64-bit floating point, as numbers and as scores. The
score of what cannot happen is negative infinity, which is also the logarithm
of zero. A row is summed in eight lanes (`laneTotal`), which for rows of fewer
than eight members is the sum from left to right.
-/

namespace Trellis

/-- Adds members to running sums, eight at a time, and tells what is left over. -/
def lanes (sums : List Float) : List Float → List Float × List Float
  | a :: b :: c :: d :: e :: f :: g :: h :: rest =>
    lanes (sums.zipWith (· + ·) [a, b, c, d, e, f, g, h]) rest
  | rest => (sums, rest)

/-- The total of a row in eight lanes: lanes that are four apart are joined, and
added up with the members that are left over. -/
def laneTotal (xs : List Float) : Float :=
  let (sums, rest) := lanes (.replicate 8 0) xs
  total ((sums.take 4).zipWith (· + ·) (sums.drop 4) ++ rest)

instance : Arithmetic Float where
  zero := 0
  one := 1
  natCast := Float.ofNat
  decidableLE := inferInstance
  decidableLT := inferInstance
  rowTotal := laneTotal

instance : Score Float where
  zero := 0
  bottom := -1 / 0
  decidableLE := inferInstance
  decidableLT := inferInstance

instance : Logarithm Float Float where
  log := Float.log

end Trellis
