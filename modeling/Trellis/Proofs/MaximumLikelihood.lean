import Trellis.Proofs.RelativeFrequencies
import Trellis.Proofs.Training

/-!
# Maximum likelihood

A step over a labelled sequence whose path takes no forbidden arc succeeds, and
without pseudocounts no competing model makes the sequence and its path more
probable (`labelledStep_maximizes`). The counts of a path are the exponents of its
joint probability, so a competitor that holds the path possible loses in every
group of cells (`Competes.jointProbability_le`); one that holds it impossible has
nothing to lose.
-/

namespace Trellis.Model

variable {S E K σ : Type} {Q : Alphabet S} {A : Alphabet E} [Field K] [LinearOrder K]
  [Score σ] [Logarithm K σ] {m r : Model Q A K} {states : List Q.Code} {xs : List A.Code}

/-! ### The counts of a path -/

/-- Some start is counted on every path. -/
theorem exists_initial_pathCounts_ne_zero [IsStrictOrderedRing K] (m : Model Q A K)
    (aligned : states.length = xs.length) (occupied : states ≠ []) :
    ∃ k, (m.pathCounts (states.zip xs) : Counts _ K σ).initial.get k ≠ 0 := by
  obtain ⟨k, rest, rfl⟩ := List.exists_cons_of_ne_nil occupied
  have count := m.cell_pathCounts (σ := σ) aligned (.inl k)
  refine ⟨k, count.trans_ne ?_⟩
  simp [cellCount]

omit [Field K] [LinearOrder K] in
/-- A path over allowed arcs takes no other ones. -/
theorem cellCount_of_forbidden
    (follows : ∀ step ∈ states.zip states.tail, m.allows step.1 step.2 = true)
    (xs : List A.Code) {k l : Q.Code} (forbidden : m.allows k l = false) :
    cellCount states xs (.inr (.inl (k, l))) = 0 := by
  refine List.count_eq_zero_of_not_mem fun taken => ?_
  have allowed := follows (k, l) taken
  rw [forbidden] at allowed
  cases allowed

theorem admits_pathCounts (aligned : states.length = xs.length)
    (follows : ∀ step ∈ states.zip states.tail, m.allows step.1 step.2 = true) :
    m.Admits (m.pathCounts (states.zip xs) : Counts _ K σ) := by
  intro k l forbidden
  have count := m.cell_pathCounts (σ := σ) aligned (.inr (.inl (k, l)))
  rwa [cellCount_of_forbidden follows xs forbidden, Nat.cast_zero] at count

theorem supports_pathCounts (aligned : states.length = xs.length)
    (possible : r.jointProbability states xs ≠ 0) :
    r.Supports (m.pathCounts (states.zip xs) : Counts _ K σ) := by
  intro cell counted
  rw [m.cell_pathCounts aligned] at counted
  refine cell_ne_zero_of_jointProbability aligned possible fun unmet => counted ?_
  rw [unmet, Nat.cast_zero]

/-! ### Comparison -/

variable [IsStrictOrderedRing K] [Archimedean K] {options : Estimation}

/-- No competitor makes a path more probable than the estimate from its counts does. -/
theorem Competes.jointProbability_le (competes : m.Competes options r) (sound : m.WellFormed)
    (plain : options.usePseudocounts = false) (aligned : states.length = xs.length) :
    r.jointProbability states xs ≤
      (m.reweighted options (m.pathCounts (states.zip xs) : Counts _ K σ)).finished.jointProbability
        states xs := by
  have nonneg := m.nonneg_pathCounts (σ := σ) (states.zip xs)
  have estimated : m.estimate options (m.pathCounts (states.zip xs) : Counts _ K σ) = .ok _ :=
    sound.estimate_eq_ok nonneg
  have later := sound.estimate nonneg estimated
  by_cases possible : r.jointProbability states xs = 0
  · rw [possible]
    exact later.jointProbability_nonneg states xs
  · have supports := supports_pathCounts (m := m) (σ := σ) aligned possible
    have cells : (fun cell => (cellCount states xs cell : K)) =
        (m.pathCounts (states.zip xs) : Counts _ K σ).cell :=
      funext fun cell => (m.cell_pathCounts aligned cell).symm
    refine jointProbability_le_of_gain competes.nonneg later.cell_nonneg aligned ?_ ?_
    · intro cell met
      refine competes.estimate_ne_zero plain supports nonneg cell ?_
      rw [m.cell_pathCounts aligned]
      exact Nat.cast_ne_zero.mpr met
    · rw [cells]
      exact competes.gain_estimate_nonneg plain supports nonneg

variable [DecidableEq S] [DecidableEq E]

/-- **Training on a known path is maximum likelihood.** From any reachable model,
a step over a labelled sequence of known states and symbols succeeds if every
step of the path is allowed. Without pseudocounts its model has the arcs of the
given one and groups that add up to one, and under no other such model is the
path with its symbols more probable. -/
theorem labelledStep_maximizes (reach : m.Reachable) {sequence : Sequence S E}
    (labelled : sequence.isLabelled = true) (path : Q.encode sequence.states = .ok states)
    (known : A.encode sequence.emissions = .ok xs)
    (follows : ∀ step ∈ states.zip states.tail, m.allows step.1 step.2 = true)
    (plain : options.usePseudocounts = false) :
    ∃ estimate : Estimate Q A K σ, m.labelledStep options sequence = .ok estimate ∧
      m.Competes options estimate.model ∧
      ∀ r, m.Competes options r →
        r.jointProbability states xs ≤ estimate.model.jointProbability states xs := by
  have sound := reach.wellFormed
  have labels : sequence.states ≠ [] := by
    intro unlabelled
    simp [Sequence.isLabelled, unlabelled] at labelled
  have length := Alphabet.length_of_encode path
  have aligned : states.length = xs.length := by
    rw [length, Alphabet.length_of_encode known]
    exact sequence.aligned.resolve_left labels
  have occupied : states ≠ [] := by
    rintro rfl
    exact labels (List.length_eq_zero_iff.mp length.symm)
  have nonneg := m.nonneg_pathCounts (σ := σ) (states.zip xs)
  obtain ⟨k, started⟩ := m.exists_initial_pathCounts_ne_zero (σ := σ) aligned occupied
  have counted := labelledCounts_of_codes (σ := σ) labelled path known
    (forbiddenStep?_eq_none_iff.mpr follows)
  have estimated : m.estimate options (m.pathCounts (states.zip xs) : Counts _ K σ) = .ok _ :=
    sound.estimate_eq_ok nonneg
  refine ⟨⟨(m.reweighted options (m.pathCounts (states.zip xs) : Counts _ K σ)).finished,
    (m.pathCounts (states.zip xs) : Counts _ K σ).logLikelihood⟩, ?_, ?_, ?_⟩
  · simp only [labelledStep, counted, estimated, bind, Except.bind]
  · exact sound.competes_estimate plain (admits_pathCounts aligned follows) nonneg started
  · intro r competes
    exact competes.jointProbability_le sound plain aligned

/-- The machine that works, works again and then fails. -/
def failing : Sequence Nat Nat := ⟨[0, 0, 1], [1, 1, 2], .inr rfl⟩

theorem labelledStep_machine :
    ∃ estimate : Estimate Machine.states Machine.symbols ℚ EReal,
      Machine.model.labelledStep ⟨false, true⟩ failing = .ok estimate ∧
      Machine.model.jointProbability
          [Machine.working, Machine.working, Machine.failed] Machine.shown ≤
        estimate.model.jointProbability
          [Machine.working, Machine.working, Machine.failed] Machine.shown := by
  have path : Machine.states.encode failing.states =
      .ok [Machine.working, Machine.working, Machine.failed] := by decide
  have known : Machine.symbols.encode failing.emissions = .ok Machine.shown := by decide
  have plain : (⟨false, true⟩ : Estimation).usePseudocounts = false := rfl
  obtain ⟨estimate, stepped, -, best⟩ := labelledStep_maximizes (σ := EReal)
    Machine.model_reachable rfl path known (by decide +kernel) plain
  have normalized : Machine.model.Normalized :=
    ⟨by decide +kernel, by decide +kernel, by decide +kernel⟩
  exact ⟨estimate, stepped,
    best _ (normalized.competes Machine.model_reachable.wellFormed ⟨false, true⟩)⟩

end Trellis.Model
