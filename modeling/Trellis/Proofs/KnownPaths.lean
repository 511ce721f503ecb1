import Trellis.Counts.Labelled
import Trellis.Proofs.Groups

/-!
# Known paths

A path whose factors are not zero takes no forbidden arc
(`forbiddenStep?_of_factors`), and a sequence labelled with a path that takes no
forbidden arc can be counted (`labelledCounts_of_forbiddenStep?`). A forbidden
arc has probability zero in any arithmetic, so no law of the numbers is used.
-/

namespace Trellis.Model

variable {S E α σ : Type} {Q : Alphabet S} {A : Alphabet E}

/-! ### Forbidden arcs -/

/-- The steps of a path are searched for one that is forbidden. -/
theorem forbiddenStep?_eq_find? (m : Model Q A α) (states : List Q.Code) :
    m.forbiddenStep? states =
      (states.zip states.tail).find? fun step => !m.allows step.1 step.2 := by
  induction states with
  | nil => rfl
  | cons k rest ih =>
    cases rest with
    | nil => rfl
    | cons l later =>
      rw [List.tail_cons] at ih ⊢
      rw [List.zip_cons_cons, List.find?_cons, forbiddenStep?, ih]
      cases m.allows k l <;> rfl

/-- A path takes no forbidden arc exactly if every step of it is allowed. -/
theorem forbiddenStep?_eq_none_iff {m : Model Q A α} {states : List Q.Code} :
    m.forbiddenStep? states = none ↔
      ∀ step ∈ states.zip states.tail, m.allows step.1 step.2 = true := by
  simp [forbiddenStep?_eq_find?]

section Zero

variable [Zero α] {m : Model Q A α}

theorem forbiddenStep?_of_laterFactors {k : Q.Code} {states : List Q.Code}
    {symbols : List A.Code} (aligned : states.length = symbols.length)
    (nonzero : ∀ p ∈ m.laterFactors k (states.zip symbols), p ≠ 0) :
    m.forbiddenStep? (k :: states) = none := by
  induction states generalizing k symbols with
  | nil => rfl
  | cons l rest ih =>
    cases symbols with
    | nil => simp at aligned
    | cons x symbols =>
      rw [List.zip_cons_cons, laterFactors] at nonzero
      have arc : m.allows k l = true :=
        Parameters.allows_of_transition_ne_zero (nonzero _ List.mem_cons_self)
      rw [forbiddenStep?, if_pos arc]
      exact ih (Nat.succ.inj aligned) fun p mem =>
        nonzero p (List.mem_cons_of_mem _ (List.mem_cons_of_mem _ mem))

/-- A path none of whose factors is zero takes no forbidden arc. -/
theorem forbiddenStep?_of_factors {states : List Q.Code} {symbols : List A.Code}
    (aligned : states.length = symbols.length)
    (nonzero : ∀ p ∈ m.factors (states.zip symbols), p ≠ 0) : m.forbiddenStep? states = none := by
  cases states with
  | nil => rfl
  | cons k rest =>
    cases symbols with
    | nil => simp at aligned
    | cons x symbols =>
      rw [List.zip_cons_cons, factors] at nonzero
      exact forbiddenStep?_of_laterFactors (Nat.succ.inj aligned) fun p mem =>
        nonzero p (List.mem_cons_of_mem _ (List.mem_cons_of_mem _ mem))

end Zero

/-! ### Counting -/

variable [Arithmetic α] [Score σ] [Logarithm α σ] [DecidableEq S] [DecidableEq E]
  {m : Model Q A α}

/-- A labelled sequence of known states and symbols can be counted if its path
takes no forbidden arc. -/
theorem labelledCounts_of_codes {sequence : Sequence S E} (labelled : sequence.isLabelled = true)
    {states : List Q.Code} (path : Q.encode sequence.states = .ok states) {xs : List A.Code}
    (known : A.encode sequence.emissions = .ok xs) (follows : m.forbiddenStep? states = none) :
    m.labelledCounts sequence =
      (.ok (m.pathCounts (states.zip xs)) : Except (Error S E α) (Counts _ α σ)) := by
  simp only [labelledCounts, labelled, Bool.not_true, Bool.false_eq_true, if_false,
    Alphabet.stateCodes, Alphabet.symbolCodes, path, known, Except.mapError, follows, bind,
    Except.bind]

/-- Symbols can be labelled with a path of their length that takes no forbidden
arc, and then be counted. -/
theorem labelledCounts_of_forbiddenStep? {symbols : List E} {xs : List A.Code}
    (known : A.encode symbols = .ok xs) {states : List Q.Code} (observed : xs ≠ [])
    (aligned : states.length = xs.length) (follows : m.forbiddenStep? states = none) :
    ∃ sequence : Sequence S E,
      Sequence.ofStates symbols (states.map Q.symbol) = (.ok sequence : Except (Error S E α) _) ∧
      m.labelledCounts sequence =
        (.ok (m.pathCounts (states.zip xs)) : Except (Error S E α) (Counts _ α σ)) := by
  have lengths : (states.map Q.symbol).length = symbols.length := by
    rw [List.length_map, aligned, Alphabet.length_of_encode known]
  have labelled : (Sequence.mk symbols (states.map Q.symbol) (.inr lengths)).isLabelled = true := by
    cases states with
    | nil => exact absurd (List.length_eq_zero_iff.mp aligned.symm) observed
    | cons k rest => rfl
  exact ⟨_, dif_pos (.inr lengths),
    labelledCounts_of_codes labelled (Q.encode_map_symbol states) known follows⟩

end Trellis.Model
