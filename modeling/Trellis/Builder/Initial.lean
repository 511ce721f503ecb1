import Trellis.Builder.Entries

/-!
# Shares of probability

The operations that set many probabilities at once: the initial distribution
from a list of entries (`Builder.setInitial`), and equal shares for every group
(`Builder.setEqual`).
-/

namespace Trellis.Builder

variable {S E α : Type} {Q : Alphabet S} {A : Alphabet E} [Arithmetic α]

/-- What a list of entries gives to each state: the last entry of a state counts. -/
abbrev Given (Q : Alphabet S) (α : Type) : Type := Vector (Option α) Q.size

/-- The sum of what is given, in state order. -/
def givenTotal (given : Given Q α) : α := totalFromFirst (given.toList.filterMap id)

/-- How many states are given nothing. -/
def missing (given : Given Q α) : Nat := given.toList.countP Option.isNone

/-- The equal share of the remaining probability for a state without an entry. -/
def remainingShare (given : Given Q α) : α :=
  let rest := 1 - givenTotal given
  (if rest ≤ 0 then 0 else rest) / (missing given : α)

/-- The probability a state is given, or its share of the rest. -/
def completed (given : Given Q α) : Vector α Q.size :=
  given.map (·.getD (remainingShare given))

/-- Reads the entries in order; each has to name a state and lie in the unit interval. -/
def readEntries [DecidableEq S] (given : Given Q α) :
    List (S × α) → Except (Error S E α) (Given Q α)
  | [] => .ok given
  | (state, p) :: rest => do
    let k ← Q.stateCode .setInitial state
    checkProbability .setInitial p
    readEntries (given.set k (some p)) rest

/-- Sets the initial distribution from entries. The states without an entry
share what is left; if there are none, the entries have to total one. -/
def setInitial [DecidableEq S] (b : Builder Q A α) (entries : List (S × α)) :
    Except (Error S E α) (Builder Q A α) := do
  let given ← readEntries (.replicate Q.size none) entries
  let sum := givenTotal given
  if 1 + tolerance < sum then
    .error (.invalidProbability .setInitial sum .initialAboveOne)
  else if missing given = 0 ∧ ¬ NearOne sum then
    .error (.invalidProbability .setInitial sum .initialIncomplete)
  else
    .ok { b with initial := some (completed given) }

/-- The uniform distribution over the states. -/
def uniformInitial : Vector α Q.size := .replicate Q.size (share Q.size)

/-- Gives every entry an equal share of its group. -/
def setEqual (b : Builder Q A α) : Builder Q A α where
  toParameters := b.mapGroups Group.equalize
  initial := some uniformInitial

end Trellis.Builder
