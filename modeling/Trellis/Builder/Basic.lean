import Trellis.Model

/-!
# Builders

A model under construction over two fixed alphabets (`Builder`). Its entries may be
edited one at a time, so its groups need not be distributions; its initial
distribution may be missing. A builder starts empty, or from the tables of a finished
model (`Builder.ofModel`).
-/

namespace Trellis

variable {S E α : Type}

/-- Parameters under construction, with an initial distribution once it is set. -/
structure Builder (Q : Alphabet S) (A : Alphabet E) (α : Type) extends Parameters Q A α where
  initial : Option (Vector α Q.size)
deriving DecidableEq

/-- The pseudocount of an entry for which none was chosen. -/
def defaultPseudocount [One α] : α := 1

namespace Builder

variable {Q : Alphabet S} {A : Alphabet E}

/-- No arcs, no emission probabilities and no initial distribution. -/
def empty [Zero α] [One α] : Builder Q A α where
  transitions := .ofFn fun _ _ => none
  emissions := .ofFn fun _ _ => ⟨0, defaultPseudocount⟩
  initial := none

/-- Starts from the tables of a finished model. -/
def ofModel (m : Model Q A α) : Builder Q A α where
  toParameters := m.toParameters
  initial := some m.initial

@[ext] theorem ext {b c : Builder Q A α} (parameters : b.toParameters = c.toParameters)
    (initial : b.initial = c.initial) : b = c := by
  obtain ⟨bp, bi⟩ := b
  obtain ⟨cp, ci⟩ := c
  cases parameters
  cases initial
  rfl

/-! ### Lookup by symbol

A builder tells what it does not have: a lookup of an unknown state or symbol,
of a forbidden arc or of a missing initial distribution has no answer.
-/

section Lookup

variable [DecidableEq S] [DecidableEq E]

/-- The probability of starting in a state, once an initial distribution is set. -/
def initialProbability? (b : Builder Q A α) (state : S) : Option α := do
  let k ← Q.codeOf? state
  let row ← b.initial
  return row.get k

/-- The probability of an arc, if the arc is allowed. -/
def transitionProbability? (b : Builder Q A α) (source target : S) : Option α :=
  (b.arc? source target).map Entry.probability

/-- The pseudocount of an arc, if the arc is allowed. -/
def transitionPseudocount? (b : Builder Q A α) (source target : S) : Option α :=
  (b.arc? source target).map Entry.pseudocount

def emissionProbability? (b : Builder Q A α) (state : S) (symbol : E) : Option α :=
  (b.emission? state symbol).map Entry.probability

def emissionPseudocount? (b : Builder Q A α) (state : S) (symbol : E) : Option α :=
  (b.emission? state symbol).map Entry.pseudocount

end Lookup

end Builder

end Trellis
