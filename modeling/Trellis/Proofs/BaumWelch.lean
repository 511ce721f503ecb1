import Trellis.Proofs.Pseudocounts

/-!
# Baum-Welch

Reestimation from the expected counts of a sequence does not make the sequence
less probable, if the groups of the model add up to exactly one
(`baumWelch_ascends`). Then the model is itself among those that its estimate is
compared with, and the estimate is the best choice for these counts
(`Trainable.probability_mul_cellPowers_le`).

`Trainable.ascend` is the step, for any choice of options: it succeeds, reports the
log-likelihood of the sequence, and leaves a model that can be trained again. A run
of steps (`baumWelchEstimates`) relates its models as each step relates two of them
(`Trainable.run`).
-/

namespace Trellis

variable {S E K σ : Type} {Q : Alphabet S} {A : Alphabet E} [Field K] [LinearOrder K]

namespace Model

/-! ### Expected counts -/

/-- What a possible path meets is expected. -/
theorem Expects.ne_zero_of_met [IsStrictOrderedRing K] {m : Model Q A K} {xs : List A.Code}
    {counts : Counts (.ofModel Q.size A.size) K σ} (expects : m.Expects xs counts)
    (sound : m.WellFormed) {states : List Q.Code} (path : states ∈ Q.paths xs.length)
    (possible : m.jointProbability states xs ≠ 0) {cell : Cell Q A}
    (met : cellCount states xs cell ≠ 0) : counts.cell cell ≠ 0 := by
  intro zero
  have vanishing := expects cell
  rw [zero, mul_zero, eq_comm, Finset.sum_eq_zero_iff_of_nonneg fun states _ =>
    mul_nonneg (sound.jointProbability_nonneg states xs) (Nat.cast_nonneg _)] at vanishing
  exact mul_ne_zero possible (Nat.cast_ne_zero.mpr met) (vanishing states path)

/-- A model in whose cells nothing expected is impossible can show the symbols. -/
theorem Expects.probability_pos [IsStrictOrderedRing K] {m r : Model Q A K} {xs : List A.Code}
    {counts : Counts (.ofModel Q.size A.size) K σ} (expects : m.Expects xs counts)
    (sound : m.WellFormed) (later : r.WellFormed) (positive : 0 < m.probability xs)
    (support : ∀ cell, counts.cell cell ≠ 0 → r.cell cell ≠ 0) : 0 < r.probability xs := by
  obtain ⟨states, path, possible⟩ := Finset.exists_ne_zero_of_sum_ne_zero positive.ne'
  refine Finset.sum_pos' (fun states _ => later.jointProbability_nonneg states xs)
    ⟨states, path, lt_of_le_of_ne (later.jointProbability_nonneg states xs) (Ne.symm ?_)⟩
  rw [r.jointProbability_eq_prod (Alphabet.mem_paths.mp path)]
  refine Finset.prod_ne_zero_iff.mpr fun cell _ => ?_
  by_cases met : cellCount states xs cell = 0
  · rw [met, pow_zero]
    exact one_ne_zero
  · exact pow_ne_zero _ (support cell (expects.ne_zero_of_met sound path possible met))

omit [LinearOrder K] in
/-- What is expected at all is met on some possible path. -/
theorem Expects.supports {m : Model Q A K} {xs : List A.Code}
    {counts : Counts (.ofModel Q.size A.size) K σ} (expects : m.Expects xs counts)
    (possible : m.probability xs ≠ 0) : m.Supports counts := by
  intro cell counted
  have sum := mul_ne_zero possible counted
  rw [expects] at sum
  obtain ⟨states, path, term⟩ := Finset.exists_ne_zero_of_sum_ne_zero sum
  refine cell_ne_zero_of_jointProbability (Alphabet.mem_paths.mp path)
    (left_ne_zero_of_mul term) fun zero => ?_
  exact right_ne_zero_of_mul term (by rw [zero, Nat.cast_zero])

/-! ### One step -/

section Step

variable [IsStrictOrderedRing K] [DecidableEq S] [DecidableEq E]

/-- What one step asks of a model and a sequence, and what it keeps. -/
structure Trainable (m : Model Q A K) (xs : List A.Code) : Prop where
  reachable : m.Reachable
  normalized : m.Normalized
  positive : 0 < m.probability xs

variable [Archimedean K] {m : Model Q A K} {xs : List A.Code}

/-- A model that allows all that is counted or added does not beat the estimate
from both together. -/
theorem Trainable.probability_mul_cellPowers_le (trainable : m.Trainable xs)
    {counts : Counts (.ofModel Q.size A.size) K σ} (expects : m.Expects xs counts)
    {options : Estimation}
    (support : ∀ cell, counts.cell cell + m.added options cell ≠ 0 →
      (m.reweighted options counts).finished.cell cell ≠ 0) :
    toReal K (m.probability xs) * m.cellPowers (m.added options) ≤
      toReal K ((m.reweighted options counts).finished.probability xs) *
        (m.reweighted options counts).finished.cellPowers (m.added options) := by
  have sound := trainable.reachable.wellFormed
  have positive := trainable.positive
  have nonneg := expects.nonneg sound positive
  have estimated : m.estimate options counts = .ok _ := sound.estimate_eq_ok nonneg
  have later := sound.estimate nonneg estimated
  have supports := expects.supports positive.ne'
  rcases (m.cellPowers_nonneg sound.cell_nonneg (m.added options)).eq_or_lt with zero | powers
  · -- A pseudocount on a cell of probability zero: the left side is zero.
    rw [← zero, mul_zero]
    exact mul_nonneg (toReal_nonneg (later.probability_nonneg xs))
      (cellPowers_nonneg later.cell_nonneg _)
  · have weighed : m.Supports (m.weighed options counts) := by
      intro cell counted
      rw [cell_weighed supports.admits] at counted
      rcases eq_or_ne (counts.cell cell) 0 with uncounted | expected
      · rw [uncounted, zero_add] at counted
        exact cell_ne_zero_of_cellPowers powers counted
      · exact supports cell expected
    have gains := (trainable.normalized.competes sound options.plain).gain_estimate_nonneg rfl
      weighed (sound.nonneg_weighed options nonneg)
    rw [reweighted_weighed, funext (cell_weighed supports.admits)] at gains
    exact probability_mul_cellPowers_le_of_gain sound.cell_nonneg later.cell_nonneg positive.le
      (sound.added_nonneg options) expects support gains

variable [Score σ] [Logarithm K σ] [LawfulLogarithm K σ]

/-- A step reports the log-likelihood of its sequence. What does not decrease is
the probability of the sequence times the cells to the powers that are added to
their counts. -/
theorem Trainable.ascend (trainable : m.Trainable xs) {sequence : Sequence S E}
    (known : A.encode sequence.emissions = .ok xs) (options : Estimation) :
    ∃ estimate : Estimate Q A K σ, m.baumWelchStep options sequence = .ok estimate ∧
      estimate.logLikelihood = Logarithm.log (m.probability xs) ∧
      toReal K (m.probability xs) * m.cellPowers (m.added options) ≤
        toReal K (estimate.model.probability xs) * estimate.model.cellPowers (m.added options) ∧
      m.KeepsStructure estimate.model ∧ estimate.model.Trainable xs := by
  have positive := trainable.positive
  have sound := trainable.reachable.wellFormed
  obtain ⟨steps, computed, counts, counted, reported, expects⟩ :=
    sound.expectedCounts_eq_ok (σ := σ) positive
  obtain ⟨_, forward, -, log⟩ := sound.exists_forward (σ := σ) positive
  cases computed.symm.trans forward
  have nonneg := expects.nonneg sound positive
  have supports := expects.supports positive.ne'
  have estimated : m.estimate options counts = .ok _ := sound.estimate_eq_ok nonneg
  have reachable := trainable.reachable.estimate options counts nonneg estimated
  -- The estimate is the relative frequencies of the counts with what is added to them.
  have weights := sound.nonneg_weighed options nonneg
  have normalized : (m.reweighted options.plain (m.weighed options counts)).finished.Normalized :=
    trainable.normalized.estimate rfl admits_weighed weights
  have possible : ∀ cell, counts.cell cell + m.added options cell ≠ 0 →
      (m.reweighted options counts).finished.cell cell ≠ 0 := by
    intro cell counted
    rw [← cell_weighed supports.admits] at counted
    rw [← reweighted_weighed]
    exact estimate_cell_ne_zero rfl admits_weighed weights
      (fun _ k started => supports (.inl k) started) cell counted
  rw [reweighted_weighed] at normalized
  refine ⟨⟨(m.reweighted options counts).finished, counts.logLikelihood⟩, ?_,
    reported.trans log, ?_, m.keepsStructure_estimate options counts, reachable, normalized, ?_⟩
  · have observed : m.observe sequence.emissions = (.ok xs : Except (Error S E K) _) := by
      rw [observe, Alphabet.symbolCodes, known]
      rfl
    simp only [baumWelchStep, observed, counted, estimated, bind, Except.bind]
  · exact trainable.probability_mul_cellPowers_le expects possible
  · exact expects.probability_pos sound reachable.wellFormed positive fun cell counted =>
      possible cell (add_pos_of_pos_of_nonneg ((nonneg.cell_nonneg cell).lt_of_ne counted.symm)
        (sound.added_nonneg options cell)).ne'

/-- Without pseudocounts it is the probability of the sequence that does not decrease. -/
theorem Trainable.step (trainable : m.Trainable xs) {sequence : Sequence S E}
    (known : A.encode sequence.emissions = .ok xs) {options : Estimation}
    (plain : options.usePseudocounts = false) :
    ∃ estimate : Estimate Q A K σ, m.baumWelchStep options sequence = .ok estimate ∧
      estimate.logLikelihood = Logarithm.log (m.probability xs) ∧
      m.probability xs ≤ estimate.model.probability xs ∧ estimate.model.Trainable xs := by
  obtain ⟨estimate, stepped, reported, ascends, -, next⟩ := trainable.ascend (σ := σ) known options
  have nothing : m.added options = fun _ => 0 :=
    funext fun cell => if_neg (Bool.eq_false_iff.mp plain)
  rw [nothing, cellPowers_zero, cellPowers_zero, mul_one, mul_one,
    toReal_strictMono.le_iff_le] at ascends
  exact ⟨estimate, stepped, reported, ascends, next⟩

/-! ### Iteration -/

/-- Steps over one sequence, one for each choice of options: what each of them
gives. A step starts from the model of the one before. -/
def baumWelchEstimates (m : Model Q A K) (sequence : Sequence S E) :
    List Estimation → Except (Error S E K) (List (Estimate Q A K σ))
  | [] => .ok []
  | options :: rest => do
    let estimate ← m.baumWelchStep options sequence
    let later ← estimate.model.baumWelchEstimates sequence rest
    .ok (estimate :: later)

/-- The model at the end of such steps, with the log-likelihoods that they report. -/
def baumWelchRun (m : Model Q A K) (sequence : Sequence S E) (choices : List Estimation) :
    Except (Error S E K) (Model Q A K × List σ) := do
  let estimates ← m.baumWelchEstimates (σ := σ) sequence choices
  .ok ((estimates.map Estimate.model).getLastD m, estimates.map Estimate.logLikelihood)

omit [IsStrictOrderedRing K] [Archimedean K] [LawfulLogarithm K σ] in
/-- **A run** does not fail if no step from a model that can be trained does. Its models,
the first one included, are related as a step relates two of them, and each step reports
the log-likelihood under the model that it starts from. -/
theorem Trainable.run {R : Model Q A K → Model Q A K → Prop} (trainable : m.Trainable xs)
    (sequence : Sequence S E) {choices : List Estimation}
    (step : ∀ r : Model Q A K, r.Trainable xs → ∀ options ∈ choices,
      ∃ estimate : Estimate Q A K σ, r.baumWelchStep options sequence = .ok estimate ∧
        estimate.logLikelihood = Logarithm.log (r.probability xs) ∧ R r estimate.model ∧
        estimate.model.Trainable xs) :
    ∃ estimates : List (Estimate Q A K σ),
      m.baumWelchEstimates sequence choices = .ok estimates ∧
      estimates.length = choices.length ∧
      (m :: estimates.map Estimate.model).IsChain R ∧
      estimates.map Estimate.logLikelihood =
        (m :: estimates.map Estimate.model).dropLast.map fun r =>
          Logarithm.log (r.probability xs) := by
  induction choices generalizing m with
  | nil => exact ⟨[], rfl, rfl, .singleton m, rfl⟩
  | cons options rest ih =>
    obtain ⟨estimate, stepped, reported, related, next⟩ :=
      step m trainable options List.mem_cons_self
    obtain ⟨estimates, ran, length, chain, reports⟩ :=
      ih next fun r trainable o mem => step r trainable o (List.mem_cons_of_mem _ mem)
    refine ⟨estimate :: estimates, ?_, congrArg Nat.succ length, chain.cons_cons related, ?_⟩
    · simp only [baumWelchEstimates, stepped, ran, bind, Except.bind]
    · rw [List.map_cons, reports, reported, List.map_cons, List.dropLast_cons_cons, List.map_cons]

/-- Without pseudocounts the log-likelihoods that a run reports do not decrease. -/
theorem Trainable.scores [OrderedScore σ] (trainable : m.Trainable xs) {sequence : Sequence S E}
    (known : A.encode sequence.emissions = .ok xs) {choices : List Estimation}
    (plain : ∀ options ∈ choices, options.usePseudocounts = false) :
    ∃ final, ∃ scores : List σ, m.baumWelchRun sequence choices = .ok (final, scores) ∧
      scores.length = choices.length ∧ scores.Pairwise (· ≤ ·) := by
  obtain ⟨estimates, ran, length, chain, reports⟩ :=
    trainable.run (σ := σ) sequence
      (R := fun r s => 0 ≤ r.probability xs ∧ r.probability xs ≤ s.probability xs)
      fun r trainable options mem => by
        obtain ⟨estimate, stepped, reported, ascends, next⟩ :=
          trainable.step (σ := σ) known (plain options mem)
        exact ⟨estimate, stepped, reported, ⟨trainable.positive.le, ascends⟩, next⟩
  have ended : m.baumWelchRun sequence choices = .ok ((estimates.map Estimate.model).getLastD m,
      estimates.map Estimate.logLikelihood) := by
    simp only [baumWelchRun, ran, bind, Except.bind]
  refine ⟨_, _, ended, ?_, ?_⟩
  · rw [List.length_map, length]
  · have : IsTrans σ (· ≤ ·) := ⟨fun _ _ _ => OrderedScore.le_trans⟩
    rw [reports, ← List.isChain_iff_pairwise, List.isChain_map]
    exact chain.dropLast.imp fun _ _ ascends => log_le_log ascends.1 ascends.2

/-- **Baum-Welch never decreases the likelihood.** A step without pseudocounts
succeeds, and the scales of the sequence under its model multiply to at least
what they did before; so steps can be iterated without end, and the
log-likelihoods they report never decrease. -/
theorem baumWelch_ascends [OrderedScore σ] (reach : m.Reachable) (normalized : m.Normalized)
    {sequence : Sequence S E} (known : A.encode sequence.emissions = .ok xs)
    (positive : 0 < m.probability xs) :
    (∀ options : Estimation, options.usePseudocounts = false →
      ∃ (estimate : Estimate Q A K σ) (before after : List (ForwardStep Q.size K)),
        m.baumWelchStep options sequence = .ok estimate ∧
        (m.forward xs : Except (Error S E K) _) = .ok before ∧
        (estimate.model.forward xs : Except (Error S E K) _) = .ok after ∧
        (before.map ForwardStep.scale).prod = m.probability xs ∧
        (after.map ForwardStep.scale).prod = estimate.model.probability xs ∧
        (before.map ForwardStep.scale).prod ≤ (after.map ForwardStep.scale).prod) ∧
    ∀ choices : List Estimation, (∀ options ∈ choices, options.usePseudocounts = false) →
      ∃ final, ∃ scores : List σ, m.baumWelchRun sequence choices = .ok (final, scores) ∧
        scores.length = choices.length ∧ scores.Pairwise (· ≤ ·) := by
  have trainable : m.Trainable xs := ⟨reach, normalized, positive⟩
  constructor
  · intro options plain
    obtain ⟨estimate, stepped, -, ascends, next⟩ := trainable.step (σ := σ) known plain
    obtain ⟨before, computed, product, -⟩ := reach.wellFormed.exists_forward (σ := σ) positive
    obtain ⟨after, recomputed, later, -⟩ :=
      next.reachable.wellFormed.exists_forward (σ := σ) next.positive
    refine ⟨estimate, before, after, stepped, computed, recomputed, product, later, ?_⟩
    rwa [product, later]
  · intro choices plain
    exact trainable.scores known plain

theorem baumWelch_machine :
    ∃ final, ∃ scores : List EReal,
      Machine.model.baumWelchRun (.unlabelled [0, 0, 1])
        [⟨false, true⟩, ⟨false, false⟩, ⟨false, true⟩] = .ok (final, scores) ∧
        scores.length = 3 ∧ scores.Pairwise (· ≤ ·) := by
  have normalized : Machine.model.Normalized :=
    ⟨by decide +kernel, by decide +kernel, by decide +kernel⟩
  have known : Machine.symbols.encode (Sequence.unlabelled [0, 0, 1] :
      Sequence Nat Nat).emissions = .ok Machine.shown := by decide
  obtain ⟨-, ascends⟩ := baumWelch_ascends (σ := EReal) Machine.model_reachable normalized known
    (by decide +kernel)
  exact ascends [⟨false, true⟩, ⟨false, false⟩, ⟨false, true⟩] (by simp)

end Step

end Model

end Trellis
