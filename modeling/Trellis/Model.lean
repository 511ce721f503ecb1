import Trellis.Parameters

/-!
# Models

A finished model: its parameters, an initial distribution and, for the
recursions, the arcs listed by source and by target. The lists are stored, and
a field states that they are those of the parameters, so they never go stale
(`successors_eq`, `predecessors_eq`). Two models with the same parameters and initial
distribution are equal (`ext_parameters`).
-/

namespace Trellis

/-- For each of `n` states, the states it has arcs to and those it has arcs from. -/
structure Adjacency (n : Nat) where
  successors : Vector (List (Fin n)) n
  predecessors : Vector (List (Fin n)) n
deriving DecidableEq

namespace Adjacency

variable {n : Nat}

/-- Lists the arcs of a mask in code order. -/
def ofMask (allows : Fin n → Fin n → Bool) : Adjacency n where
  successors := .ofFn fun k => (List.finRange n).filter fun l => allows k l
  predecessors := .ofFn fun l => (List.finRange n).filter fun k => allows k l

theorem successors_ofMask (allows : Fin n → Fin n → Bool) (k : Fin n) :
    (ofMask allows).successors.get k = (List.finRange n).filter fun l => allows k l := by
  simp [ofMask]

theorem predecessors_ofMask (allows : Fin n → Fin n → Bool) (l : Fin n) :
    (ofMask allows).predecessors.get l = (List.finRange n).filter fun k => allows k l := by
  simp [ofMask]

end Adjacency

variable {S E α : Type}

/-- A hidden Markov model over two alphabets. -/
structure Model (Q : Alphabet S) (A : Alphabet E) (α : Type) extends Parameters Q A α where
  initial : Vector α Q.size
  adjacency : Adjacency Q.size
  adjacency_eq : adjacency = .ofMask toParameters.allows
deriving DecidableEq

namespace Model

variable {Q : Alphabet S} {A : Alphabet E}

/-- The model of given parameters and initial distribution. -/
def ofParameters (p : Parameters Q A α) (initial : Vector α Q.size) : Model Q A α where
  toParameters := p
  initial
  adjacency := .ofMask p.allows
  adjacency_eq := rfl

/-- A model is its parameters and its initial distribution. -/
theorem ext_parameters {m r : Model Q A α} (parameters : m.toParameters = r.toParameters)
    (initial : m.initial = r.initial) : m = r := by
  obtain ⟨mp, mi, ma, mh⟩ := m
  obtain ⟨rp, ri, ra, rh⟩ := r
  cases parameters
  cases initial
  cases mh
  cases rh
  rfl

theorem ofParameters_eq_self (m : Model Q A α) : ofParameters m.toParameters m.initial = m :=
  ext_parameters rfl rfl

/-- The states that a state has arcs to, in code order. -/
def successors (m : Model Q A α) (k : Q.Code) : List Q.Code := m.adjacency.successors.get k

/-- The states that have arcs to a state, in code order. -/
def predecessors (m : Model Q A α) (l : Q.Code) : List Q.Code := m.adjacency.predecessors.get l

theorem successors_eq (m : Model Q A α) (k : Q.Code) :
    m.successors k = Q.codes.filter fun l => m.allows k l := by
  rw [successors, m.adjacency_eq, Adjacency.successors_ofMask, Alphabet.codes]

theorem predecessors_eq (m : Model Q A α) (l : Q.Code) :
    m.predecessors l = Q.codes.filter fun k => m.allows k l := by
  rw [predecessors, m.adjacency_eq, Adjacency.predecessors_ofMask, Alphabet.codes]

/-! ### Lookup by symbol

A finished model answers every lookup: what it does not know has probability
and pseudocount zero, and no arcs.
-/

section Lookup

variable [DecidableEq S] [DecidableEq E] [Zero α]

/-- The probability of starting in a state. -/
def initialProbability (m : Model Q A α) (state : S) : α :=
  (Q.codeOf? state).elim 0 m.initial.get

/-- The probability of the arc from one state to another. -/
def transitionProbability (m : Model Q A α) (source target : S) : α :=
  (m.arc? source target).elim 0 Entry.probability

/-- The pseudocount of the arc from one state to another, zero like its probability where
there is no arc. -/
def pseudocountOfTransition (m : Model Q A α) (source target : S) : α :=
  (m.arc? source target).elim 0 Entry.pseudocount

/-- The probability that a state emits a symbol. -/
def emissionProbability (m : Model Q A α) (state : S) (symbol : E) : α :=
  (m.emission? state symbol).elim 0 Entry.probability

/-- The pseudocount of a symbol in a state. -/
def pseudocountOfEmission (m : Model Q A α) (state : S) (symbol : E) : α :=
  (m.emission? state symbol).elim 0 Entry.pseudocount

end Lookup

section DecidableEq

variable [DecidableEq S]

/-- Whether there is an arc from one state to another. -/
def isAllowed (m : Model Q A α) (source target : S) : Bool :=
  (m.arc? source target).isSome

/-- The states that can follow a state. -/
def transitionsFrom (m : Model Q A α) (state : S) : List S :=
  (Q.codeOf? state).elim [] fun k => (m.successors k).map Q.symbol

/-- The states that a state can follow. -/
def transitionsTo (m : Model Q A α) (state : S) : List S :=
  (Q.codeOf? state).elim [] fun k => (m.predecessors k).map Q.symbol

end DecidableEq

end Model

end Trellis
