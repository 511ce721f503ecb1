import Trellis.Alphabet

/-!
# Errors

The causes for which an operation is refused. An error carries the state,
symbol or number at fault; its wording is `Error.message`.
-/

namespace Trellis

/-- The operations that name themselves in their errors. -/
inductive Operation where
  | allowTransition
  | destroyTransition
  | setTransition
  | setTransitionPseudocount
  | setEmission
  | setEmissionPseudocount
  | setInitial
  | build
  | decode
  | observe
  | scale
  | backward
  | accumulate
  | countKnownStates
deriving DecidableEq, Repr

/-- What is wrong with a probability or with the total of a group. -/
inductive ProbabilityFault (S : Type) where
  | outsideUnitInterval
  | initialAboveOne
  | initialIncomplete
  | initialTotal
  | transitionTotal (source : S)
  | emissionTotal (state : S)
deriving DecidableEq, Repr

/-- What stops a recursion at a position. -/
inductive NumericalFault (α : Type) where
  | scale (value : α)
  | posterior
  | noPath
deriving DecidableEq, Repr

/-- Why an operation was refused. `unalignedTables` says that
two tables could not be added because their axes do not fit. -/
inductive Error (S E α : Type) where
  | unknownState (operation : Operation) (state : S)
  | unknownSymbol (operation : Operation) (symbol : E)
  | invalidProbability (operation : Operation) (value : α) (fault : ProbabilityFault S)
  | invalidPseudocount (operation : Operation) (value : α)
  | stateAlphabet (fault : Alphabet.Fault S)
  | symbolAlphabet (fault : Alphabet.Fault E)
  | noStatesToSearch
  | alreadyAllowed (source target : S)
  | notAllowed (source target : S)
  | lengthMismatch (states emissions : Nat)
  | unlabelled
  | positionOutOfRange (operation : Operation) (position length : Nat)
  | sizeMismatch (operation : Operation) (expected found : Nat)
  | numerical (position : Nat) (fault : NumericalFault α)
  | unalignedTables
deriving DecidableEq, Repr

end Trellis
