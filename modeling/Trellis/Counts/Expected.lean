import Trellis.Counts.Basic
import Trellis.Posterior

/-!
# Expected counts

The counts of a sequence whose path is not known: how often each start, step
and emission is to be expected, given the sequence (`Model.expectedCounts`).
-/

namespace Trellis.Model

variable {S E α σ : Type} {Q : Alphabet S} {A : Alphabet E} [Arithmetic α]

/-- The positions of a sequence: its symbols with what the recursions say. -/
abbrev Positions (Q : Alphabet S) (A : Alphabet E) (α : Type) : Type :=
  List (A.Code × Smoothed Q.size α)

/-- The posterior probability of starting in a state; zero for no positions. -/
def expectedStart (positions : Positions Q A α) (k : Q.Code) : α :=
  match positions with
  | [] => 0
  | (_, p) :: _ => p.posterior.get k

/-- The posterior probability of each step over an arc, summed. -/
def expectedSteps (m : Model Q A α) (positions : Positions Q A α) (k l : Q.Code) : α :=
  if m.allows k l then
    total ((positions.zip positions.tail).map fun ((_, here), (x, next)) =>
      here.forward.row.get k * m.transition k l * m.emission l x * next.backward.get l
        / next.forward.scale)
  else 0

/-- The posterior probability of a state where a symbol was seen, summed. -/
def expectedEmissions (positions : Positions Q A α) (k : Q.Code) (x : A.Code) : α :=
  total ((positions.filter (·.1 = x)).map (·.2.posterior.get k))

/-- The expected counts of a sequence, with its log-likelihood. -/
def expectedCounts [Score σ] [Logarithm α σ] (m : Model Q A α) (xs : List A.Code) :
    Except (Error S E α) (Counts (.ofModel Q.size A.size) α σ) := do
  let smoothed ← m.smooth xs
  let positions := xs.zip smoothed
  .ok {
    initial := .ofFn (expectedStart positions)
    transitions := .ofFn (m.expectedSteps positions)
    emissions := .ofFn (expectedEmissions positions)
    logLikelihood := ForwardStep.logLikelihood (smoothed.map Smoothed.forward) }

end Trellis.Model
