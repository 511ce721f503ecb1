import Trellis.Arithmetic

/-!
# Groups of entries

An entry is a probability with the pseudocount kept beside it. The entries of
one distribution form a group: the arcs that leave a state, or the emissions of
a state. A group is either vacant (it totals zero) or has to total one. The arcs
of a state are scattered over a row of which the rest is forbidden, so their
total is the sum of a list (`Group.mass`); the emissions of a state are a row of
their own (`Group.rowMass`).
-/

namespace Trellis

/-- What a table holds for an arc or an emission. -/
structure Entry (α : Type) where
  probability : α
  pseudocount : α
deriving DecidableEq, Repr

/-- The entries of one distribution, in code order. -/
abbrev Group (α : Type) : Type := List (Entry α)

namespace Entry

variable {α : Type}

/-- Replaces the probability and keeps the pseudocount. -/
def withProbability (e : Entry α) (p : α) : Entry α := { e with probability := p }

@[simp] theorem probability_withProbability (e : Entry α) (p : α) :
    (e.withProbability p).probability = p := rfl

@[simp] theorem pseudocount_withProbability (e : Entry α) (p : α) :
    (e.withProbability p).pseudocount = e.pseudocount := rfl

end Entry

namespace Group

variable {α : Type} [Arithmetic α]

/-- The sum of the probabilities of a group. -/
def mass (g : Group α) : α := total (g.map Entry.probability)

/-- The total of the probabilities of a group that is kept as a row. -/
def rowMass (g : Group α) : α := rowTotal (g.map Entry.probability)

/-- Gives an entry of the group an equal share. -/
def equalize (g : Group α) (e : Entry α) : Entry α := e.withProbability (share g.length)

/-- A group with total zero becomes uniform; any other is left alone. -/
def fill (sum : α) (g : Group α) (e : Entry α) : Entry α := if IsZero sum then equalize g e else e

/-- Divides by the mass of the group; a group without mass becomes uniform. -/
def proportion (g : Group α) (e : Entry α) : Entry α :=
  if 0 < mass g then e.withProbability (e.probability / mass g) else equalize g e

@[simp] theorem pseudocount_equalize (g : Group α) (e : Entry α) :
    (equalize g e).pseudocount = e.pseudocount := rfl

@[simp] theorem pseudocount_fill (sum : α) (g : Group α) (e : Entry α) :
    (fill sum g e).pseudocount = e.pseudocount := by
  unfold fill
  split <;> rfl

@[simp] theorem pseudocount_proportion (g : Group α) (e : Entry α) :
    (proportion g e).pseudocount = e.pseudocount := by
  unfold proportion
  split <;> rfl

end Group

end Trellis
