import Trellis.Builder.Randomize

/-!
# Edits

The operations on a builder as values, so that a run of them is a list
(`Builder.apply`). An edit addresses states and symbols by name and does not mention
codes.
-/

namespace Trellis

variable {S E α : Type}

/-- A change to a builder. -/
inductive Edit (S E α : Type) where
  | allow (source target : S) (probability pseudocount : α)
  | allowAll
  | destroy (source target : S)
  | setTransition (source target : S) (probability : α)
  | setTransitionPseudocount (source target : S) (pseudocount : α)
  | setEmission (state : S) (symbol : E) (probability : α)
  | setEmissionPseudocount (state : S) (symbol : E) (pseudocount : α)
  | setInitial (entries : List (S × α))
  | setEqual
  | randomize (words : Nat → UInt64)

namespace Builder

variable {Q : Alphabet S} {A : Alphabet E} [Arithmetic α] [DecidableEq S] [DecidableEq E]

/-- The builder after an edit, or why the edit is refused. -/
def apply (b : Builder Q A α) : Edit S E α → Except (Error S E α) (Builder Q A α)
  | .allow source target p c => b.allow source target p c
  | .allowAll => .ok b.allowAll
  | .destroy source target => b.destroy source target
  | .setTransition source target p => b.setTransition source target p
  | .setTransitionPseudocount source target c => b.setTransitionPseudocount source target c
  | .setEmission state symbol p => b.setEmission state symbol p
  | .setEmissionPseudocount state symbol c => b.setEmissionPseudocount state symbol c
  | .setInitial entries => b.setInitial entries
  | .setEqual => .ok b.setEqual
  | .randomize words => .ok (b.randomize words)

end Builder

end Trellis
