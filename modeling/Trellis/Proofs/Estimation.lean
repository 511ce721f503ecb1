import Trellis.Proofs.Soundness

/-!
# Estimates from any counts

Counts are numbers that anyone may write down, so nothing here asks that they
are not negative. What is estimated from them is checked by its totals alone. An
estimate is refused exactly if the weights of some group add up to less than
zero, and the error then names such a group (`Overdrawn`). Any other counts give a
model that is balanced. Its entries are probabilities exactly if no positive total
was reached by cancelling (`WeightsShareOut`): the counts 2 and -1 add up to one,
and pass. `estimate_cases` states both cases, and `estimate_not_stochastic` is a
model with an entry above one.
-/

namespace Trellis.Model

variable {S E K σ : Type} {Q : Alphabet S} {A : Alphabet E} [Field K] [LinearOrder K]

/-- A total of weights that is negative, beside what it is the total of. -/
inductive Overdrawn (m : Model Q A K) (options : Estimation)
    (counts : Counts (.ofModel Q.size A.size) K σ) : K → ProbabilityFault S → Prop where
  | transitions (k : Q.Code) :
      ∑ l, (m.transitionWeights options counts.transitions).get k l < 0 →
      Overdrawn m options counts (∑ l, (m.transitionWeights options counts.transitions).get k l)
        (.transitionTotal (Q.symbol k))
  | emissions (k : Q.Code) :
      ∑ x, (m.emissionWeights options counts.emissions).get k x < 0 →
      Overdrawn m options counts (∑ x, (m.emissionWeights options counts.emissions).get k x)
        (.emissionTotal (Q.symbol k))

/-- No group that is divided by its total has a negative weight. -/
structure WeightsShareOut (m : Model Q A K) (options : Estimation)
    (counts : Counts (.ofModel Q.size A.size) K σ) : Prop where
  initial : options.reestimateInitial = true → SharesOut counts.initial
  transitions : ∀ k, SharesOut ((m.transitionWeights options counts.transitions).row k)
  emissions : ∀ k, SharesOut ((m.emissionWeights options counts.emissions).row k)

section Reweighted

variable (m : Model Q A K) (options : Estimation) (counts : Counts (.ofModel Q.size A.size) K σ)

/-! ### The builder of an estimate -/

theorem allows_reweighted (k l : Q.Code) :
    (m.reweighted options counts).allows k l = m.allows k l := by
  simp [reweighted, Parameters.allows]

theorem transition_reweighted (k l : Q.Code) :
    (m.reweighted options counts).transition k l =
      (relativeRow ((m.transitionWeights options counts.transitions).row k)).get l := by
  cases arc : m.transitions.get k l with
  | none =>
    have unweighted : ((m.transitionWeights options counts.transitions).row k).get l = 0 := by
      simp [transitionWeights, arc]
    rw [get_relativeRow_of_eq_zero unweighted]
    simp [reweighted, Parameters.transition, arc]
  | some e => simp [reweighted, Parameters.transition, arc, Table.relativeRows]

theorem emission_reweighted (k : Q.Code) (x : A.Code) :
    (m.reweighted options counts).emission k x =
      (relativeRow ((m.emissionWeights options counts.emissions).row k)).get x := by
  simp [reweighted, Parameters.emission, Table.relativeRows]

/-- The estimate keeps the initial distribution or has the shares of the counts. -/
theorem estimatedInitial_cases :
    m.estimatedInitial options counts.initial = m.initial ∨
      (0 < ∑ k, counts.initial.get k ∧
        ∀ k, (m.estimatedInitial options counts.initial).get k =
          counts.initial.get k / ∑ j, counts.initial.get j) := by
  simp only [estimatedInitial, rowTotal_toList]
  split
  · rename_i counted
    exact .inr ⟨counted.2, fun k => by rw [Row.get_map]⟩
  · exact .inl rfl

variable [IsStrictOrderedRing K]

/-! ### Refusal -/

variable {m}

theorem nearOne_estimatedInitial (near : NearOne (∑ k, m.initial.get k)) :
    NearOne (∑ k, (m.estimatedInitial options counts.initial).get k) := by
  rcases m.estimatedInitial_cases options counts with kept | ⟨positive, shares⟩
  · rw [kept]
    exact near
  · simp only [shares, sum_div_sum positive.ne']
    exact nearOne_one

variable {options counts}

/-- A builder with a negative total of weights has some fault. -/
theorem Overdrawn.faulty {sum : K} {fault : ProbabilityFault S}
    (overdrawn : m.Overdrawn options counts sum fault) :
    (m.reweighted options counts).fault? ≠ none := by
  intro faultless
  obtain ⟨-, transitions, emissions⟩ := Builder.fault?_eq_none_iff.mp faultless
  cases overdrawn with
  | transitions k negative =>
    obtain ⟨occupied, far⟩ := (sum_relativeRow_refused_iff _).mpr negative
    simp only [← transition_reweighted] at occupied far
    exact (transitions k).elim occupied far
  | emissions k negative =>
    obtain ⟨occupied, far⟩ := (sum_relativeRow_refused_iff _).mpr negative
    simp only [← emission_reweighted] at occupied far
    exact (emissions k).elim occupied far

/-- Whatever fault is reported, it is a negative total of weights. -/
theorem overdrawn_of_hasFault (near : NearOne (∑ k, m.initial.get k)) {sum : K}
    {fault : ProbabilityFault S} (faulty : (m.reweighted options counts).HasFault sum fault) :
    m.Overdrawn options counts sum fault := by
  cases faulty with
  | initial far => exact absurd (nearOne_estimatedInitial options counts near) far
  | transitions k occupied far =>
    simp only [transition_reweighted] at occupied far ⊢
    have negative := (sum_relativeRow_refused_iff _).mp ⟨occupied, far⟩
    rw [sum_relativeRow, if_neg negative.not_gt]
    exact .transitions k negative
  | emissions k occupied far =>
    simp only [emission_reweighted] at occupied far ⊢
    have negative := (sum_relativeRow_refused_iff _).mp ⟨occupied, far⟩
    rw [sum_relativeRow, if_neg negative.not_gt]
    exact .emissions k negative

/-! ### Success -/

/-- Counts that are not negative can always be estimated from. -/
theorem WellFormed.estimate_eq_ok (sound : m.WellFormed) (nonneg : counts.Nonneg) :
    m.estimate options counts = .ok (m.reweighted options counts).finished := by
  rcases (m.reweighted options counts).build_cases with ⟨-, built⟩ | ⟨_, _, -, faulty⟩
  · exact built
  · cases overdrawn_of_hasFault sound.initial_total faulty with
    | transitions k negative =>
      have weights := sound.transitionWeights_nonneg options nonneg k
      exact absurd negative (Finset.sum_nonneg fun l _ => weights l).not_gt
    | emissions k negative =>
      have weights := sound.emissionWeights_nonneg options nonneg k
      exact absurd negative (Finset.sum_nonneg fun x _ => weights x).not_gt

theorem unitRow_estimatedInitial_iff (unit : UnitRow m.initial) :
    UnitRow (m.estimatedInitial options counts.initial) ↔
      (options.reestimateInitial = true → SharesOut counts.initial) := by
  simp only [estimatedInitial, rowTotal_toList]
  split
  · rename_i counted
    rw [unitRow_div_sum_iff counted.2]
    constructor
    · intro nonneg _ _
      exact nonneg
    · intro shares
      exact shares counted.1 counted.2
  · rename_i kept
    constructor
    · intro _ chosen positive
      exact absurd ⟨chosen, positive⟩ kept
    · intro _
      exact unit

/-- Relative frequencies that are kept where they have a total, and replaced by
probabilities where they have none, are probabilities exactly if the weights can
be shared out. -/
theorem filled_mem_iff {n : Nat} {weights : Vector K n} {filled : Fin n → K}
    (solvent : ¬ ∑ i, weights.get i < 0)
    (kept : ∑ i, (relativeRow weights).get i ≠ 0 → ∀ i, filled i = (relativeRow weights).get i)
    (replaced : ∑ i, (relativeRow weights).get i = 0 → ∀ i, 0 ≤ filled i ∧ filled i ≤ 1) :
    (∀ i, 0 ≤ filled i ∧ filled i ≤ 1) ↔ SharesOut weights := by
  have sum := sum_relativeRow weights
  by_cases positive : 0 < ∑ i, weights.get i
  · rw [if_pos positive] at sum
    simp only [kept (sum.trans_ne one_ne_zero), relativeRow_of_sum_pos positive]
    rw [SharesOut, imp_iff_right positive]
    exact unitRow_div_sum_iff positive
  · rw [if_neg positive, le_antisymm (not_lt.mp positive) (not_lt.mp solvent)] at sum
    constructor
    · intro _ shared
      exact absurd shared positive
    · intro _
      exact replaced sum

/-- Arcs that leave a state get probabilities exactly if their weights can be shared out. -/
theorem transition_estimate_mem_iff {k : Q.Code}
    (solvent : ¬ ∑ l, (m.transitionWeights options counts.transitions).get k l < 0) :
    (∀ l, 0 ≤ (m.reweighted options counts).finished.transition k l ∧
        (m.reweighted options counts).finished.transition k l ≤ 1) ↔
      SharesOut ((m.transitionWeights options counts.transitions).row k) := by
  refine filled_mem_iff solvent ?_ ?_
  · intro occupied l
    simp only [← transition_reweighted] at occupied ⊢
    exact Builder.transition_finished_of_sum_ne_zero _ occupied l
  · intro vacant l
    simp only [← transition_reweighted] at vacant
    cases allowed : (m.reweighted options counts).allows k l with
    | true =>
      rw [Builder.transition_finished _ allowed, if_pos vacant]
      exact ⟨share_nonneg _, share_le_one _⟩
    | false =>
      rw [Parameters.transition_eq_zero ((Builder.allows_finished _ k l).trans allowed)]
      exact ⟨le_rfl, zero_le_one⟩

theorem emission_estimate_mem_iff {k : Q.Code}
    (solvent : ¬ ∑ x, (m.emissionWeights options counts.emissions).get k x < 0) :
    (∀ x, 0 ≤ (m.reweighted options counts).finished.emission k x ∧
        (m.reweighted options counts).finished.emission k x ≤ 1) ↔
      SharesOut ((m.emissionWeights options counts.emissions).row k) := by
  refine filled_mem_iff solvent ?_ ?_
  · intro occupied x
    simp only [← emission_reweighted] at occupied ⊢
    rw [Builder.emission_finished, if_neg occupied]
  · intro vacant x
    simp only [← emission_reweighted] at vacant
    rw [Builder.emission_finished, if_pos vacant]
    exact ⟨share_nonneg _, share_le_one _⟩

end Reweighted

variable [IsStrictOrderedRing K] [DecidableEq S] [DecidableEq E]

/-- **Estimates are checked by their totals.** Whatever the counts are, an
estimate is refused for a group whose weights add up to less than zero, or there
is none and a balanced model is returned, in which every entry is a probability
exactly if no group divided by its total has a negative weight. -/
theorem estimate_cases {m : Model Q A K} (reach : m.Reachable) (options : Estimation)
    (counts : Counts (.ofModel Q.size A.size) K σ) :
    (∃ sum fault, m.estimate options counts = .error (.invalidProbability .build sum fault) ∧
      m.Overdrawn options counts sum fault) ∨
    ((∀ sum fault, ¬ m.Overdrawn options counts sum fault) ∧
      ∃ r, m.estimate options counts = .ok r ∧ r.Balanced ∧
        (r.Stochastic ↔ m.WeightsShareOut options counts)) := by
  have sound := reach.wellFormed
  rcases (m.reweighted options counts).build_cases with
    ⟨faultless, built⟩ | ⟨sum, fault, refused, faulty⟩
  · have solvent : ∀ sum fault, ¬ m.Overdrawn options counts sum fault := by
      intro sum fault overdrawn
      exact overdrawn.faulty faultless
    have balanced := Builder.balanced_of_build built
    have initial : UnitRow (m.estimatedInitial options counts.initial) ↔ _ :=
      unitRow_estimatedInitial_iff sound.initial
    have transitions := fun k => transition_estimate_mem_iff fun negative =>
      solvent _ _ (.transitions k negative)
    have emissions := fun k => emission_estimate_mem_iff fun negative =>
      solvent _ _ (.emissions k negative)
    refine .inr ⟨solvent, _, built, balanced, ?_⟩
    constructor
    · intro stochastic
      exact ⟨initial.mp stochastic.initial_mem,
        fun k => (transitions k).mp (stochastic.transition_mem k),
        fun k => (emissions k).mp (stochastic.emission_mem k)⟩
    · intro shared
      exact ⟨balanced, initial.mpr shared.initial,
        fun k => (transitions k).mpr (shared.transitions k),
        fun k => (emissions k).mpr (shared.emissions k)⟩
  · exact .inl ⟨sum, fault, refused, overdrawn_of_hasFault sound.initial_total faulty⟩

/-- Counts for the machine: two steps that go on, and minus one that fails. -/
def cancelling : Counts (.ofModel Machine.states.size Machine.symbols.size) ℚ ℚ where
  initial := .ofFn fun k => if k = Machine.working then 1 else 0
  transitions := .ofFn fun k l =>
    if k = Machine.failed then 0 else if l = Machine.working then 2 else -1
  emissions := .ofFn fun _ _ => 0
  logLikelihood := 0

theorem estimate_cancelling :
    ∃ r, Machine.model.estimate ⟨false, false⟩ cancelling = .ok r ∧ r.Balanced ∧
      ¬ r.Stochastic := by
  rcases estimate_cases Machine.model_reachable ⟨false, false⟩ cancelling with
    ⟨_, _, -, overdrawn⟩ | ⟨-, r, estimated, balanced, stochastic_iff⟩
  · cases overdrawn with
    | transitions k negative => exact absurd negative (by revert k; decide +kernel)
    | emissions k negative => exact absurd negative (by revert k; decide +kernel)
  · refine ⟨r, estimated, balanced, fun stochastic => ?_⟩
    have shared := (stochastic_iff.mp stochastic).transitions Machine.working (by decide +kernel)
    exact absurd (shared Machine.failed) (by decide +kernel)

/-- A model that can be reached is estimated into one that is not stochastic. -/
theorem estimate_not_stochastic :
    Machine.model.Reachable ∧
      ∃ r, Machine.model.estimate ⟨false, false⟩ cancelling = .ok r ∧
        r.transition Machine.working Machine.working = 2 ∧
        r.transition Machine.working Machine.failed = -1 ∧ ¬ r.Stochastic := by
  have below : (Machine.model.reweighted ⟨false, false⟩ cancelling).finished.transition
      Machine.working Machine.failed = -1 := by decide +kernel
  refine ⟨Machine.model_reachable, _, Builder.build_eq_ok_iff.mpr ⟨by decide +kernel, rfl⟩,
    by decide +kernel, below, fun stochastic => ?_⟩
  have nonneg := (stochastic.transition_mem Machine.working Machine.failed).1
  rw [below] at nonneg
  exact absurd nonneg (by decide)

end Trellis.Model
