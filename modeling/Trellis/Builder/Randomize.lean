import Trellis.Builder.Initial
import Trellis.Random.Draw

/-!
# Random probabilities

Every group is filled with draws from a stream of words and divided by its
total (`Builder.randomize`). The words are used in order: first the initial
distribution, then, state by state, the arcs in code order and the emissions in code
order. `Builder.randomizeCounting` tells how many words that takes.
-/

namespace Trellis.Builder

variable {S E α : Type} {Q : Alphabet S} {A : Alphabet E} [Arithmetic α]

/-- Fills the groups of one state with the draws from a position on. -/
def drawState (words : Nat → UInt64) (position : Nat) (p : Parameters Q A α) (k : Q.Code) :
    Parameters Q A α :=
  let targets := p.targets k
  { transitions := p.transitions.setRow k (.ofFn fun l =>
      (p.transitions.get k l).map
        (·.withProbability (draw (words (position + targets.idxOf l)))))
    emissions := p.emissions.setRow k (.ofFn fun x =>
      (p.emissions.get k x).withProbability
        (draw (words (position + targets.length + x)))) }

/-- Fills the groups of the listed states one after another, and tells the
position after the last draw. -/
def drawStates (words : Nat → UInt64) (position : Nat) (p : Parameters Q A α) :
    List Q.Code → Parameters Q A α × Nat
  | [] => (p, position)
  | k :: rest =>
    drawStates words (position + (p.targets k).length + A.size)
      (drawState words position p k) rest

/-- The draws for the initial distribution, divided by their total. -/
def drawInitial (words : Nat → UInt64) : Vector α Q.size :=
  let draws : Vector α Q.size := .ofFn fun k => draw (words k)
  let sum := total draws.toList
  if 0 < sum then draws.map (· / sum) else uniformInitial

/-- Random probabilities for every group, with the number of words used. -/
def randomizeCounting (b : Builder Q A α) (words : Nat → UInt64) : Builder Q A α × Nat :=
  let (drawn, used) := drawStates words Q.size b.toParameters Q.codes
  ({ toParameters := drawn.mapGroups Group.proportion
     initial := some (drawInitial words) }, used)

/-- Random probabilities for every group. -/
def randomize (b : Builder Q A α) (words : Nat → UInt64) : Builder Q A α :=
  (b.randomizeCounting words).1

end Trellis.Builder
