import Trellis.Error

/-!
# Training sequences

Symbols that were observed, with the states that emitted them if those are
known. Each symbol has a state then, which `Sequence.ofStates` checks.
-/

namespace Trellis

/-- Observed symbols, labelled with a state each or not at all. -/
structure Sequence (S E : Type) where
  emissions : List E
  states : List S
  aligned : states = [] ∨ states.length = emissions.length

namespace Sequence

variable {S E α : Type}

def unlabelled (emissions : List E) : Sequence S E := ⟨emissions, [], .inl rfl⟩

/-- A sequence with its states. An empty list of states leaves it unlabelled. -/
def ofStates (emissions : List E) (states : List S) : Except (Error S E α) (Sequence S E) :=
  if h : states = [] ∨ states.length = emissions.length then .ok ⟨emissions, states, h⟩
  else .error (.lengthMismatch states.length emissions.length)

/-- Whether there are states beside the symbols. A sequence without symbols has none. -/
def isLabelled (s : Sequence S E) : Bool := !s.states.isEmpty

def length (s : Sequence S E) : Nat := s.emissions.length

def isEmpty (s : Sequence S E) : Bool := s.emissions.isEmpty

/-- A label goes with a symbol. -/
theorem isLabelled_eq_false_of_isEmpty {s : Sequence S E} (empty : s.isEmpty = true) :
    s.isLabelled = false := by
  have nothing : s.emissions = [] := List.isEmpty_iff.mp empty
  rcases s.aligned with unlabelled | lengths
  · simp [isLabelled, unlabelled]
  · rw [nothing, List.length_nil, List.length_eq_zero_iff] at lengths
    simp [isLabelled, lengths]

end Sequence

end Trellis
