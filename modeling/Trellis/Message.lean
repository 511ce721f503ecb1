import Trellis.Decimal.Shortest
import Trellis.Error
import Trellis.Text.Quoted

/-!
# Messages

The wording of errors.
-/

namespace Trellis

/-- The name an operation goes by in messages. -/
def Operation.name : Operation → String
  | .allowTransition => "allow_transition"
  | .destroyTransition => "destroy_transition"
  | .setTransition => "set_transition_score"
  | .setTransitionPseudocount => "set_transition_pseudocount"
  | .setEmission => "set_emission_score"
  | .setEmissionPseudocount => "set_emission_pseudocount"
  | .setInitial => "set_initial_probabilities"
  | .build => "build"
  | .decode => "viterbi"
  | .observe => "scaled_dp"
  | .scale => "calculate_s_value"
  | .backward => "backward"
  | .accumulate => "accumulate"
  | .countKnownStates => "count_known_states"

def ProbabilityFault.reason {S : Type} [Quoted S] : ProbabilityFault S → String
  | .outsideUnitInterval => "probabilities must lie in [0, 1]"
  | .initialAboveOne => "initial probabilities add up to more than 1"
  | .initialIncomplete => "initial probabilities for every state must add up to 1"
  | .initialTotal => "initial probabilities must add up to 1"
  | .transitionTotal source => "transitions out of " ++ quoted source ++ " must add up to 1"
  | .emissionTotal state => "emissions of " ++ quoted state ++ " must add up to 1"

def NumericalFault.reason : NumericalFault Float → String
  | .scale value => "scale factor " ++ floatText value ++ " is not strictly positive"
  | .posterior => "posterior probabilities do not normalize"
  | .noPath => "every state path has probability 0"

def Alphabet.Fault.reason {τ : Type} [Quoted τ] : Alphabet.Fault τ → String
  | .empty => "an alphabet needs at least one symbol"
  | .duplicate symbol => "duplicate symbol " ++ quoted symbol

/-- The text of an error. -/
def Error.message {S E : Type} [Quoted S] [Quoted E] : Error S E Float → String
  | .unknownState operation state => operation.name ++ ": unknown state " ++ quoted state
  | .unknownSymbol operation symbol =>
    operation.name ++ ": unknown emission symbol " ++ quoted symbol
  | .invalidProbability operation value fault =>
    operation.name ++ ": invalid probability " ++ floatText value ++ ": " ++ fault.reason
  | .invalidPseudocount operation value =>
    operation.name ++ ": invalid pseudocount " ++ floatText value
  | .stateAlphabet fault => "invalid alphabet: " ++ fault.reason
  | .symbolAlphabet fault => "invalid alphabet: " ++ fault.reason
  | .noStatesToSearch => "invalid alphabet: no states to decode over"
  | .alreadyAllowed source target =>
    "transition " ++ quoted source ++ " -> " ++ quoted target ++ " is already allowed"
  | .notAllowed source target =>
    "transition " ++ quoted source ++ " -> " ++ quoted target ++ " is not allowed"
  | .lengthMismatch states emissions =>
    "state path has " ++ toString states ++ " entries but there are " ++ toString emissions
      ++ " emissions"
  | .unlabelled => "training sequence has no state path"
  | .positionOutOfRange operation position length =>
    operation.name ++ ": position " ++ toString position ++ " is out of range for length "
      ++ toString length
  | .sizeMismatch operation expected found =>
    operation.name ++ ": expected size " ++ toString expected ++ ", found " ++ toString found
  | .numerical position fault =>
    "numerical failure at position " ++ toString position ++ ": " ++ fault.reason
  | .unalignedTables => "tables cannot be aligned"

end Trellis
