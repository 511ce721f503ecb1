import Trellis.Backward

/-!
# Posteriors

The probability of each state at each position, given the whole sequence: the
products of the forward and the backward row, divided by their total
(`Model.posteriors`). The total is checked, though it is one wherever nothing is
rounded.
-/

namespace Trellis.Model

variable {S E α : Type} {Q : Alphabet S} {A : Alphabet E} [Arithmetic α]

/-- A row divided by its total, which has to be a divisor. -/
def posteriorRow {n : Nat} (position : Nat) (forward backward : Vector α n) :
    Except (Error S E α) (Vector α n) :=
  let products := forward.zipWith (· * ·) backward
  let sum := rowTotal products.toList
  if IsDivisor sum then .ok (products.map (· / sum)) else .error (.numerical position .posterior)

/-- The posterior rows from a position on. -/
def posteriorRows {n : Nat} (position : Nat) :
    List (Vector α n × Vector α n) → Except (Error S E α) (List (Vector α n))
  | [] => .ok []
  | (forward, backward) :: rest => do
    let row ← posteriorRow position forward backward
    let rows ← posteriorRows (position + 1) rest
    .ok (row :: rows)

/-- What the two recursions say about one position. -/
structure Smoothed (n : Nat) (α : Type) where
  forward : ForwardStep n α
  backward : Vector α n
  posterior : Vector α n

/-- Both recursions and the posteriors over a sequence, position by position. -/
def smooth (m : Model Q A α) (xs : List A.Code) :
    Except (Error S E α) (List (Smoothed Q.size α)) := do
  let steps ← m.forward xs
  let rows ← m.backward xs (steps.map ForwardStep.scale)
  let posteriors ← posteriorRows 0 ((steps.map ForwardStep.row).zip rows)
  .ok (((steps.zip rows).zip posteriors).map fun ((f, b), p) => ⟨f, b, p⟩)

/-- The posterior distribution over the states at each position. -/
def posteriors (m : Model Q A α) (xs : List A.Code) :
    Except (Error S E α) (List (Vector α Q.size)) :=
  (m.smooth xs).map (·.map Smoothed.posterior)

end Trellis.Model
