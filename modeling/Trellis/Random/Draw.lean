import Trellis.Arithmetic

/-!
# Draws

A draw in the unit interval from one word of a random stream.
-/

namespace Trellis

/-- The upper 53 bits of a word, as a fraction of the least number they cannot reach,
`2 ^ 53`. -/
def draw {α : Type} [Arithmetic α] (word : UInt64) : α :=
  ((word >>> 11).toNat : α) / ((9007199254740992 : Nat) : α)

end Trellis
