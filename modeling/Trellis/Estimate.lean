import Trellis.Builder.Build
import Trellis.Counts.Expected
import Trellis.Counts.Labelled
import Trellis.Frequency

/-!
# Estimation

From counts to a model: each group becomes the relative frequencies of its
counts, to which the pseudocounts may be added (`Model.estimate`). Arcs that are
forbidden stay forbidden, whatever was counted for them. The two training steps
estimate from counts of their own (`Model.baumWelchStep`, `Model.labelledStep`).
-/

namespace Trellis

variable {S E α σ : Type} {Q : Alphabet S} {A : Alphabet E} [Arithmetic α]

/-- What an estimate takes into account beside the counts. -/
structure Estimation where
  usePseudocounts : Bool := true
  reestimateInitial : Bool := false
deriving DecidableEq, Repr

/-- The weight of an entry: its count, and its pseudocount if those are used. -/
def Estimation.weight (options : Estimation) (count : α) (e : Entry α) : α :=
  if options.usePseudocounts then count + e.pseudocount else count

/-- A model with the log-likelihood, under the model before, of what it was
estimated from. -/
structure Estimate (Q : Alphabet S) (A : Alphabet E) (α σ : Type) where
  model : Model Q A α
  logLikelihood : σ

namespace Model

/-- The weight of each arc, zero where it is forbidden. -/
def transitionWeights (m : Model Q A α) (options : Estimation)
    (counts : Table Q.size Q.size α) : Table Q.size Q.size α :=
  .ofFn fun k l => (m.transitions.get k l).elim 0 (options.weight (counts.get k l))

/-- The weight of each emission. -/
def emissionWeights (m : Model Q A α) (options : Estimation)
    (counts : Table Q.size A.size α) : Table Q.size A.size α :=
  .ofFn fun k x => options.weight (counts.get k x) (m.emissions.get k x)

/-- The initial distribution of an estimate: that of the model, unless it is to
be reestimated and something was counted. -/
def estimatedInitial (m : Model Q A α) (options : Estimation) (counts : Vector α Q.size) :
    Vector α Q.size :=
  let sum := rowTotal counts.toList
  if options.reestimateInitial ∧ 0 < sum then counts.map (· / sum) else m.initial

/-- The builder whose groups are the relative frequencies of the weights. -/
def reweighted (m : Model Q A α) (options : Estimation)
    (counts : Counts (.ofModel Q.size A.size) α σ) : Builder Q A α where
  toParameters :=
    m.reweigh (m.transitionWeights options counts.transitions).relativeRows
      (m.emissionWeights options counts.emissions).relativeRows
  initial := some (m.estimatedInitial options counts.initial)

/-- The model estimated from counts. Groups without weight become uniform. -/
def estimate (m : Model Q A α) (options : Estimation)
    (counts : Counts (.ofModel Q.size A.size) α σ) : Except (Error S E α) (Model Q A α) :=
  (m.reweighted options counts).build

section Step

variable [Score σ] [Logarithm α σ] [DecidableEq E]

/-- Reestimates the model from the expected counts of a sequence. -/
def baumWelchStep (m : Model Q A α) (options : Estimation) (sequence : Sequence S E) :
    Except (Error S E α) (Estimate Q A α σ) := do
  let xs ← m.observe sequence.emissions
  let counts ← m.expectedCounts (σ := σ) xs
  let model ← m.estimate options counts
  .ok ⟨model, counts.logLikelihood⟩

/-- Reestimates the model from the counts of a labelled sequence. -/
def labelledStep [DecidableEq S] (m : Model Q A α) (options : Estimation)
    (sequence : Sequence S E) : Except (Error S E α) (Estimate Q A α σ) := do
  let counts ← m.labelledCounts (σ := σ) sequence
  let model ← m.estimate options counts
  .ok ⟨model, counts.logLikelihood⟩

end Step

end Model

end Trellis
