import Trellis.Alphabet.Lookup
import Trellis.Model

/-!
# Scaled forward recursion

The forward row of a position says how probable it is to have seen the symbols
so far and to be in each state (`Model.forward`). Every row is divided by its total,
the scale of the position, so that long sequences do not underflow; the scales
multiply to the probability of the sequence. The scale of one position can be asked
for, given the row before it (`Model.scaleAt`). How a row is totalled is left to the
arithmetic.
-/

namespace Trellis

variable {S E α σ : Type} {Q : Alphabet S} {A : Alphabet E}

/-- A forward row divided by its total, and that total. -/
structure ForwardStep (n : Nat) (α : Type) where
  row : Vector α n
  scale : α
deriving DecidableEq

/-- The log-likelihood of a sequence, from the steps of its forward recursion. -/
def ForwardStep.logLikelihood [Score σ] [Logarithm α σ] {n : Nat}
    (steps : List (ForwardStep n α)) : σ :=
  Trellis.logLikelihood (steps.map ForwardStep.scale)

namespace Model

/-- The codes of a sequence that the recursions are to run over. -/
def observe [DecidableEq E] (_m : Model Q A α) (symbols : List E) :
    Except (Error S E α) (List A.Code) :=
  A.symbolCodes .observe symbols

variable [Arithmetic α]

/-- The probability of arriving in a state: from the previous row over the arcs
into the state, or from the initial distribution if there is no previous row. -/
def arrival (m : Model Q A α) (previous : Option (Vector α Q.size)) (l : Q.Code) : α :=
  match previous with
  | none => m.initial.get l
  | some row => total ((m.predecessors l).map fun k => row.get k * m.transition k l)

/-- The forward row before scaling. -/
def rawRow (m : Model Q A α) (previous : Option (Vector α Q.size)) (x : A.Code) :
    Vector α Q.size :=
  .ofFn fun k => m.emission k x * m.arrival previous k

/-- The scale of a row, which has to be a divisor. -/
def scaleOf {n : Nat} (position : Nat) (row : Vector α n) : Except (Error S E α) α :=
  let sum := rowTotal row.toList
  if IsDivisor sum then .ok sum else .error (.numerical position (.scale sum))

/-- The steps from a position on, given the row before it. -/
def forwardFrom (m : Model Q A α) (position : Nat) (previous : Option (Vector α Q.size)) :
    List A.Code → Except (Error S E α) (List (ForwardStep Q.size α))
  | [] => .ok []
  | x :: rest => do
    let raw := m.rawRow previous x
    let scale ← scaleOf position raw
    let row := raw.map (· / scale)
    let steps ← m.forwardFrom (position + 1) (some row) rest
    .ok (⟨row, scale⟩ :: steps)

/-- The forward recursion over a sequence. -/
def forward (m : Model Q A α) (xs : List A.Code) :
    Except (Error S E α) (List (ForwardStep Q.size α)) :=
  m.forwardFrom 0 none xs

/-- The scale of one position, given the row before it. At the first position
the row is not used, but its length is checked all the same. -/
def scaleAt (m : Model Q A α) (xs : List A.Code) (position : Nat) (previous : List α) :
    Except (Error S E α) α :=
  match xs[position]? with
  | none => .error (.positionOutOfRange .scale position xs.length)
  | some x =>
    if h : previous.length = Q.size then
      let row : Vector α Q.size := ⟨previous.toArray, by simp [h]⟩
      scaleOf position (m.rawRow (if position = 0 then none else some row) x)
    else
      .error (.sizeMismatch .scale Q.size previous.length)

end Model

end Trellis
