import Trellis.Alphabet.Lookup
import Trellis.Counts.Basic
import Trellis.Sequence
import Trellis.StatePath

/-!
# Counts of a known path

Each start, step and emission of a labelled sequence counts once
(`Model.labelledCounts`). The path has to follow the arcs; the first step that does
not is reported.
-/

namespace Trellis.Model

variable {S E α σ : Type} {Q : Alphabet S} {A : Alphabet E}

/-- The counts of a path of states and the symbols it emits. -/
def pathCounts [Arithmetic α] [Score σ] [Logarithm α σ] (m : Model Q A α)
    (path : List (Q.Code × A.Code)) : Counts (.ofModel Q.size A.size) α σ :=
  let states := path.map Prod.fst
  let starts := states.take 1
  let steps := states.zip states.tail
  { initial := .ofFn fun k => (starts.count k : α)
    transitions := .ofFn fun k l => (steps.count (k, l) : α)
    emissions := .ofFn fun k x => (path.count (k, x) : α)
    logLikelihood := Trellis.logLikelihood (m.factors path) }

/-- The counts of a labelled sequence, whose path has to follow the arcs. -/
def labelledCounts [Arithmetic α] [Score σ] [Logarithm α σ] [DecidableEq S] [DecidableEq E]
    (m : Model Q A α) (sequence : Sequence S E) :
    Except (Error S E α) (Counts (.ofModel Q.size A.size) α σ) := do
  if !sequence.isLabelled then
    .error .unlabelled
  else
    let states ← Q.stateCodes .countKnownStates sequence.states
    let symbols ← A.symbolCodes .countKnownStates sequence.emissions
    match m.forbiddenStep? states with
    | some (k, l) => .error (.notAllowed (Q.symbol k) (Q.symbol l))
    | none => .ok (m.pathCounts (states.zip symbols))

end Trellis.Model
