import Trellis.Model

/-!
# State paths

The probabilities met along a path of states that emits a sequence of symbols
(`Model.factors`): the initial probability, then by turns the emission at a position
and the arc to the next one.
-/

namespace Trellis.Model

variable {S E α : Type} {Q : Alphabet S} {A : Alphabet E} [Zero α]

/-- The factors after a position at which the path is in state `k`. -/
def laterFactors (m : Model Q A α) (k : Q.Code) : List (Q.Code × A.Code) → List α
  | [] => []
  | (l, x) :: rest => m.transition k l :: m.emission l x :: m.laterFactors l rest

/-- The factors of the joint probability of a path and its symbols, in the order
in which the path meets them. -/
def factors (m : Model Q A α) : List (Q.Code × A.Code) → List α
  | [] => []
  | (k, x) :: rest => m.initial.get k :: m.emission k x :: m.laterFactors k rest

/-- The first step of a path over an arc that is forbidden. -/
def forbiddenStep? (m : Model Q A α) : List Q.Code → Option (Q.Code × Q.Code)
  | k :: l :: rest => if m.allows k l then m.forbiddenStep? (l :: rest) else some (k, l)
  | _ => none

end Trellis.Model
