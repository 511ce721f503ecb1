import Mathlib.Data.List.Chain
import Trellis.Builder.Edit

/-!
# Transcripts

What can be seen of a run of edits from outside (`transcript`): for each edit
whether it was refused and why, and the answers to every question by name after it.
Two ways of keeping a builder are the same to their users if their transcripts are,
which follows from one step (`transcript_eq`). That a refused edit changes no answer
follows from one step as well (`settles_transcript`). Drawing at random is left out;
all other edits are called definite (`Edit.Definite`).
-/

namespace Trellis

variable {S E α : Type}

/-- Nothing about the edit is left to chance. -/
def Edit.Definite : Edit S E α → Prop
  | .randomize _ => False
  | _ => True

/-- An edit that leaves nothing to chance. -/
abbrev DefiniteEdit (S E α : Type) : Type := { edit : Edit S E α // edit.Definite }

/-- What a builder tells when it is asked by name. -/
@[ext] structure Answers (S E α : Type) where
  transitionProbability : S → S → Option α
  transitionPseudocount : S → S → Option α
  emissionProbability : S → E → Option α
  emissionPseudocount : S → E → Option α
  initialProbability : S → Option α
  arcs : List (S × S)

/-- A builder answers through its lookups by name, of which each may have no answer. -/
def Builder.answers {Q : Alphabet S} {A : Alphabet E} [DecidableEq S] [DecidableEq E]
    (b : Builder Q A α) : Answers S E α where
  transitionProbability := b.transitionProbability?
  transitionPseudocount := b.transitionPseudocount?
  emissionProbability := b.emissionProbability?
  emissionPseudocount := b.emissionPseudocount?
  initialProbability := b.initialProbability?
  arcs := b.arcs

/-- How an edit ended: with a refusal or without, and with these answers. -/
structure Event (S E α : Type) where
  refusal : Option (Error S E α)
  answers : Answers S E α

/-- An edit that is refused changes no answer. -/
def Event.Settles (before after : Event S E α) : Prop :=
  after.refusal ≠ none → after.answers = before.answers

/-- An operation that returns nothing when it is refused leaves what there was. -/
def ending {ε β : Type} (b : β) : Except ε β → Option ε × β
  | .ok c => (none, c)
  | .error refusal => (some refusal, b)

/-- How an edit of a builder ends, and the builder it leaves. -/
def Builder.step {Q : Alphabet S} {A : Alphabet E} [Arithmetic α] [DecidableEq S] [DecidableEq E]
    (b : Builder Q A α) (edit : DefiniteEdit S E α) : Option (Error S E α) × Builder Q A α :=
  ending b (b.apply edit.val)

section Transcript

variable {β γ : Type} (step : β → DefiniteEdit S E α → Option (Error S E α) × β)
  (answers : β → Answers S E α) (step' : γ → DefiniteEdit S E α → Option (Error S E α) × γ)
  (answers' : γ → Answers S E α)

/-- The events of a run, given how one edit ends and what it leaves. -/
def transcript (b : β) : List (DefiniteEdit S E α) → List (Event S E α)
  | [] => []
  | edit :: rest =>
    ⟨(step b edit).1, answers (step b edit).2⟩ :: transcript (step b edit).2 rest

variable {step answers step' answers'}

/-- What is related, and stays related over every edit, is the same from outside. -/
theorem transcript_eq {R : β → γ → Prop}
    (steps : ∀ b c edit, R b c →
      (step b edit).1 = (step' c edit).1 ∧ R (step b edit).2 (step' c edit).2)
    (tells : ∀ b c, R b c → answers b = answers' c) {b : β} {c : γ} (related : R b c)
    (edits : List (DefiniteEdit S E α)) :
    transcript step answers b edits = transcript step' answers' c edits := by
  induction edits generalizing b c with
  | nil => rfl
  | cons edit rest ih =>
    obtain ⟨refusal, left⟩ := steps b c edit related
    rw [transcript, transcript, refusal, tells _ _ left, ih left]

/-- If refused edits leave the answers, no event of a run unsettles the one before. -/
theorem settles_transcript
    (keeps : ∀ b edit, (step b edit).1 ≠ none → answers (step b edit).2 = answers b) (b : β)
    (before : Option (Error S E α)) (edits : List (DefiniteEdit S E α)) :
    List.IsChain Event.Settles (⟨before, answers b⟩ :: transcript step answers b edits) := by
  induction edits generalizing b before with
  | nil => exact .singleton _
  | cons edit rest ih =>
    rw [transcript]
    exact .cons_cons (keeps b edit) (ih _ _)

end Transcript

end Trellis
