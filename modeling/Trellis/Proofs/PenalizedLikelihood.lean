import Trellis.Proofs.BaumWelch

/-!
# Penalized likelihood

With pseudocounts a step of Baum-Welch can make its sequence less probable. What
it never decreases is the probability times every entry of the model to the
power of its pseudocount (`penalizedLikelihood`), as if the pseudocounts had been
seen beside the sequence (`Trainable.penalizedStep`). Training does not change the
pseudocounts, so this holds of any number of steps with one objective
(`Trainable.penalizedRun`). `baumWelch_ascends_penalized` states step and run.
-/

namespace Trellis.Model

variable {S E K σ : Type} {Q : Alphabet S} {A : Alphabet E} [Field K] [LinearOrder K]
  [IsStrictOrderedRing K] [Archimedean K]

/-- The probability of the symbols, times the probabilities of all arcs and
emissions to the powers of their pseudocounts. To the power of zero, every
probability is one. -/
noncomputable def penalizedLikelihood (m : Model Q A K) (xs : List A.Code) : ℝ :=
  toReal K (m.probability xs) *
    (∏ k, ∏ l with m.allows k l,
      toReal K (m.transition k l) ^ toReal K (m.transitionPseudocount k l)) *
    ∏ k, ∏ x, toReal K (m.emission k x) ^ toReal K (m.emissionPseudocount k x)

/-- Starts and forbidden arcs have no pseudocount, so they are no factors. -/
theorem penalizedLikelihood_eq (m : Model Q A K) (xs : List A.Code) :
    m.penalizedLikelihood xs = toReal K (m.probability xs) * m.cellPowers m.pseudocount := by
  have arcs : ∀ k, ∏ l with m.allows k l,
      toReal K (m.transition k l) ^ toReal K (m.transitionPseudocount k l) =
        ∏ l, toReal K (m.transition k l) ^ toReal K (m.transitionPseudocount k l) := by
    intro k
    refine Finset.prod_filter_of_ne fun l _ factor => ?_
    by_contra forbidden
    rw [Parameters.transitionPseudocount_eq_zero (Bool.eq_false_iff.mpr forbidden), map_zero,
      Real.rpow_zero] at factor
    exact factor rfl
  simp only [penalizedLikelihood, arcs, cellPowers, cell, pseudocount, Fintype.prod_sum_type,
    Fintype.prod_prod_type, map_zero, Real.rpow_zero, Finset.prod_const_one, one_mul, mul_assoc]

variable [DecidableEq S] [DecidableEq E] [Score σ] [Logarithm K σ]

variable [LawfulLogarithm K σ] {m : Model Q A K} {xs : List A.Code} {sequence : Sequence S E}

/-- The pseudocounts as powers are what a step adds to its counts, so the step does not
decrease the penalized likelihood. -/
theorem Trainable.penalizedStep (trainable : m.Trainable xs)
    (known : A.encode sequence.emissions = .ok xs) {options : Estimation}
    (counted : options.usePseudocounts = true) :
    ∃ estimate : Estimate Q A K σ, m.baumWelchStep options sequence = .ok estimate ∧
      estimate.logLikelihood = Logarithm.log (m.probability xs) ∧
      (m.KeepsStructure estimate.model ∧
        m.penalizedLikelihood xs ≤ estimate.model.penalizedLikelihood xs) ∧
      estimate.model.Trainable xs := by
  obtain ⟨estimate, stepped, reported, ascends, kept, next⟩ :=
    trainable.ascend (σ := σ) known options
  have added : m.added options = m.pseudocount := funext fun cell => if_pos counted
  refine ⟨estimate, stepped, reported, ⟨kept, ?_⟩, next⟩
  rw [penalizedLikelihood_eq, penalizedLikelihood_eq, kept.pseudocount_eq, ← added]
  exact ascends

/-- Over a run the structure is that of the first model, and with it the objective. -/
theorem Trainable.penalizedRun (trainable : m.Trainable xs)
    (known : A.encode sequence.emissions = .ok xs) {choices : List Estimation}
    (counted : ∀ options ∈ choices, options.usePseudocounts = true) :
    ∃ estimates : List (Estimate Q A K σ),
      m.baumWelchEstimates sequence choices = .ok estimates ∧
      estimates.length = choices.length ∧
      (∀ estimate ∈ estimates, m.KeepsStructure estimate.model) ∧
      (m.penalizedLikelihood xs ::
        estimates.map fun estimate => estimate.model.penalizedLikelihood xs).Pairwise
          (· ≤ ·) := by
  obtain ⟨estimates, ran, length, chain, -⟩ :=
    trainable.run (σ := σ) sequence
      (R := fun r s => r.KeepsStructure s ∧
        r.penalizedLikelihood xs ≤ s.penalizedLikelihood xs)
      fun r trainable options mem => trainable.penalizedStep known (counted options mem)
  have : IsTrans (Model Q A K) fun r s => r.KeepsStructure s ∧
      r.penalizedLikelihood xs ≤ s.penalizedLikelihood xs :=
    ⟨fun _ _ _ first second => ⟨first.1.trans second.1, first.2.trans second.2⟩⟩
  have related := List.isChain_iff_pairwise.mp chain
  refine ⟨estimates, ran, length, fun estimate mem => ?_, ?_⟩
  · exact (List.rel_of_pairwise_cons related (List.mem_map_of_mem mem)).1
  · have values := related.map (fun r : Model Q A K => r.penalizedLikelihood xs)
      fun _ _ related => related.2
    rwa [List.map_cons, List.map_map] at values

/-- **Baum-Welch with pseudocounts never decreases the penalized likelihood.** A
step succeeds and keeps the arcs and the pseudocounts, so steps can be iterated
without end, with one objective that never decreases. -/
theorem baumWelch_ascends_penalized (reach : m.Reachable) (normalized : m.Normalized)
    (known : A.encode sequence.emissions = .ok xs) (positive : 0 < m.probability xs) :
    (∀ options : Estimation, options.usePseudocounts = true →
      ∃ estimate : Estimate Q A K σ, m.baumWelchStep options sequence = .ok estimate ∧
        m.KeepsStructure estimate.model ∧
        m.penalizedLikelihood xs ≤ estimate.model.penalizedLikelihood xs) ∧
    ∀ choices : List Estimation, (∀ options ∈ choices, options.usePseudocounts = true) →
      ∃ estimates : List (Estimate Q A K σ),
        m.baumWelchEstimates sequence choices = .ok estimates ∧
        estimates.length = choices.length ∧
        (∀ estimate ∈ estimates, m.KeepsStructure estimate.model) ∧
        (m.penalizedLikelihood xs ::
          estimates.map fun estimate => estimate.model.penalizedLikelihood xs).Pairwise
            (· ≤ ·) := by
  have trainable : m.Trainable xs := ⟨reach, normalized, positive⟩
  constructor
  · intro options counted
    obtain ⟨estimate, stepped, -, ⟨kept, ascends⟩, -⟩ :=
      trainable.penalizedStep (σ := σ) known counted
    exact ⟨estimate, stepped, kept, ascends⟩
  · intro choices counted
    exact trainable.penalizedRun known counted

theorem baumWelch_penalized_machine :
    ∃ estimates : List (Estimate Machine.states Machine.symbols ℚ EReal),
      Machine.model.baumWelchEstimates (.unlabelled [0, 0, 1])
        [⟨true, true⟩, ⟨true, false⟩, ⟨true, true⟩] = .ok estimates ∧
      estimates.length = 3 ∧
      (∀ estimate ∈ estimates, Machine.model.KeepsStructure estimate.model) ∧
      (Machine.model.penalizedLikelihood Machine.shown :: estimates.map fun estimate =>
        estimate.model.penalizedLikelihood Machine.shown).Pairwise (· ≤ ·) := by
  have normalized : Machine.model.Normalized :=
    ⟨by decide +kernel, by decide +kernel, by decide +kernel⟩
  have known : Machine.symbols.encode (Sequence.unlabelled [0, 0, 1] :
      Sequence Nat Nat).emissions = .ok Machine.shown := by decide
  obtain ⟨-, ascends⟩ := baumWelch_ascends_penalized (σ := EReal) Machine.model_reachable
    normalized known (by decide +kernel)
  exact ascends [⟨true, true⟩, ⟨true, false⟩, ⟨true, true⟩] (by simp)

end Trellis.Model
