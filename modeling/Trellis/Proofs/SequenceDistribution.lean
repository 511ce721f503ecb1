import Trellis.Proofs.Forward
import Trellis.Proofs.RelativeFrequencies

/-!
# The distribution of sequences

If the groups of a model add up to exactly one, the likelihoods of all sequences
of a length add up to one as well, as long as no state path ends early
(`sum_likelihood`). A path ends early in a state without arcs: what is lost is the
probability of being in such a state before the last position
(`Normalized.sum_occupation`).
-/

namespace Trellis.Model

variable {S E K : Type} {Q : Alphabet S} {A : Alphabet E} [Field K]

/-! ### State paths without symbols -/

/-- The probability of a state path, whatever it emits. -/
def walkProbability (m : Model Q A K) : List Q.Code → K
  | [] => 1
  | k :: rest =>
    m.initial.get k * (((k :: rest).zip rest).map fun step => m.transition step.1 step.2).prod

/-- The probability of being in state `k` at a position, whatever is emitted. -/
def occupation (m : Model Q A K) (position : Nat) (k : Q.Code) : K :=
  ∑ states ∈ Q.paths (position + 1) with states.getLast? = some k, m.walkProbability states

/-- A state that no arc leaves. -/
def DeadEnd (m : Model Q A K) (k : Q.Code) : Prop := ∀ l, m.allows k l = false

instance (m : Model Q A K) : DecidablePred m.DeadEnd :=
  fun k => inferInstanceAs (Decidable (∀ l, m.allows k l = false))

/-- The weights after one more step. -/
def move (m : Model Q A K) (weight : Q.Code → K) (l : Q.Code) : K :=
  ∑ k, weight k * m.transition k l

/-- Moving on sums over the walks that start with these weights. -/
theorem iterate_move (m : Model Q A K) (n : Nat) (weight : Q.Code → K) (l : Q.Code) :
    m.move^[n] weight l =
      ∑ k, ∑ states ∈ Q.paths n, weight k *
        (((k :: states).zip states).map fun step => m.transition step.1 step.2).prod *
          endsIn l (k :: states) := by
  induction n generalizing weight with
  | zero => simp [Alphabet.paths, endsIn]
  | succ n ih =>
    rw [Function.iterate_succ_apply, ih]
    simp only [Alphabet.sum_paths_succ, List.zip_cons_cons, List.map_cons, List.prod_cons,
      endsIn_cons_cons]
    rw [Finset.sum_comm (t := Finset.univ)]
    refine Finset.sum_congr rfl fun j _ => ?_
    rw [Finset.sum_comm]
    refine Finset.sum_congr rfl fun states _ => ?_
    simp only [move, Finset.sum_mul, mul_assoc]

theorem occupation_eq (m : Model Q A K) (position : Nat) :
    m.occupation position = m.move^[position] m.initial.get := by
  funext k
  rw [iterate_move, occupation, Finset.sum_filter, Alphabet.sum_paths_succ]
  simp only [endsIn, mul_ite, mul_one, mul_zero]
  rfl

theorem occupation_zero (m : Model Q A K) : m.occupation 0 = m.initial.get :=
  m.occupation_eq 0

/-- The next position is reached by one more step. -/
theorem occupation_succ (m : Model Q A K) (position : Nat) :
    m.occupation (position + 1) = m.move (m.occupation position) := by
  rw [occupation_eq, occupation_eq, Function.iterate_succ_apply']

/-! ### Sums over sequences -/

variable {m : Model Q A K}

/-- A step loses what is in the states that no arc leaves. -/
theorem Normalized.sum_move (normalized : m.Normalized) (weight : Q.Code → K) :
    ∑ l, m.move weight l = ∑ k, weight k - ∑ k with m.DeadEnd k, weight k := by
  have leaving : ∀ k, ∑ l, m.transition k l = if m.DeadEnd k then 0 else 1 := by
    intro k
    split
    · rename_i dead
      exact Finset.sum_eq_zero fun l _ => Parameters.transition_eq_zero (dead l)
    · rename_i alive
      obtain ⟨l, arc⟩ := not_forall.mp alive
      exact normalized.transition k l (Bool.eq_true_of_not_eq_false arc)
  simp only [move]
  rw [Finset.sum_comm, Finset.sum_filter, ← Finset.sum_sub_distrib]
  refine Finset.sum_congr rfl fun k _ => ?_
  rw [← Finset.mul_sum, leaving]
  split <;> simp

/-- Over all symbols, only the states count. -/
theorem Normalized.sum_mass (normalized : m.Normalized) (n : Nat) (weight : Q.Code → K) :
    ∑ xs ∈ A.paths n, m.mass weight xs = ∑ k, m.move^[n] weight k := by
  induction n generalizing weight with
  | zero => simp [Alphabet.paths, mass_nil]
  | succ n ih =>
    have emitted : ∀ k, ∑ x, m.advance weight x k = m.move weight k := by
      intro k
      simp only [advance, ← Finset.sum_mul, normalized.emission, one_mul, move]
    rw [Function.iterate_succ_apply, ← ih, Alphabet.sum_paths_succ, Finset.sum_comm]
    refine Finset.sum_congr rfl fun xs _ => ?_
    simp only [mass_cons]
    simp only [mass_eq_sum]
    rw [Finset.sum_comm]
    simp only [← Finset.sum_mul, emitted]

theorem Normalized.sum_probability (normalized : m.Normalized) (n : Nat) :
    ∑ xs ∈ A.paths (n + 1), m.probability xs = ∑ k, m.occupation n k := by
  have entered : ∀ k, ∑ x, m.enter x k = m.initial.get k := by
    intro k
    simp only [enter, ← Finset.sum_mul, normalized.emission, one_mul]
  rw [occupation_eq, ← normalized.sum_mass, Alphabet.sum_paths_succ, Finset.sum_comm]
  refine Finset.sum_congr rfl fun xs _ => ?_
  simp only [probability_cons, mass_eq_sum]
  rw [Finset.sum_comm]
  simp only [← Finset.sum_mul, entered]

/-- What is not lost before a position is there. -/
theorem Normalized.sum_occupation (normalized : m.Normalized) (n : Nat) :
    ∑ k, m.occupation n k = 1 - ∑ t ∈ Finset.range n, ∑ k with m.DeadEnd k, m.occupation t k := by
  induction n with
  | zero => rw [occupation_zero, normalized.initial, Finset.sum_range_zero, sub_zero]
  | succ n ih =>
    rw [occupation_succ, normalized.sum_move, ih, Finset.sum_range_succ, sub_sub]

/-! ### Likelihoods -/

variable [LinearOrder K]

/-- The likelihood that the forward recursion computes: the product of its
scales, and zero where it fails. -/
def likelihood (m : Model Q A K) (xs : List A.Code) : K :=
  match (m.forward xs : Except (Error S E K) _) with
  | .ok steps => (steps.map ForwardStep.scale).prod
  | .error _ => 0

variable [IsStrictOrderedRing K]

theorem WellFormed.likelihood_eq (sound : m.WellFormed) (xs : List A.Code) :
    m.likelihood xs = m.probability xs := by
  rw [likelihood]
  by_cases positive : 0 < m.probability xs
  · obtain ⟨steps, computed, product, -⟩ := sound.exists_scales positive
    rw [computed]
    exact product
  · obtain ⟨t, -, failed, -⟩ := sound.forward_eq_error positive
    rw [failed]
    exact ((sound.probability_nonneg xs).eq_of_not_lt positive)

theorem WellFormed.occupation_nonneg (sound : m.WellFormed) (position : Nat) (k : Q.Code) :
    0 ≤ m.occupation position k := by
  induction position generalizing k with
  | zero =>
    rw [occupation_zero]
    exact (sound.initial k).1
  | succ n ih =>
    rw [occupation_succ]
    exact Finset.sum_nonneg fun j _ => mul_nonneg (ih j) (sound.parameters.transition_nonneg j k)

variable [DecidableEq S] [DecidableEq E]

/-- **The likelihoods of all sequences of a length.** They add up to one, less
the probability that some state without arcs is occupied before the last
position. So they never add up to more than one, and to one exactly if no such
state can be occupied there. -/
theorem sum_likelihood (reach : m.Reachable) (normalized : m.Normalized) {length : Nat}
    (observed : 1 ≤ length) :
    ∑ xs ∈ A.paths length, m.likelihood xs =
      1 - ∑ t ∈ Finset.range (length - 1), ∑ k with m.DeadEnd k, m.occupation t k ∧
    ∑ xs ∈ A.paths length, m.likelihood xs ≤ 1 ∧
    (∑ xs ∈ A.paths length, m.likelihood xs = 1 ↔
      ¬ ∃ k, m.DeadEnd k ∧ ∃ t < length - 1, 0 < m.occupation t k) := by
  have sound := reach.wellFormed
  have exact_sum : ∑ xs ∈ A.paths length, m.likelihood xs =
      1 - ∑ t ∈ Finset.range (length - 1), ∑ k with m.DeadEnd k, m.occupation t k := by
    obtain ⟨n, rfl⟩ := Nat.exists_eq_add_of_le' observed
    simp only [sound.likelihood_eq]
    rw [normalized.sum_probability, normalized.sum_occupation, Nat.add_sub_cancel]
  have lost : ∀ t ∈ Finset.range (length - 1), 0 ≤ ∑ k with m.DeadEnd k, m.occupation t k :=
    fun t _ => Finset.sum_nonneg fun k _ => sound.occupation_nonneg t k
  refine ⟨exact_sum, ?_, ?_⟩
  · rw [exact_sum]
    exact sub_le_self 1 (Finset.sum_nonneg lost)
  · rw [exact_sum, sub_eq_self, Finset.sum_eq_zero_iff_of_nonneg lost]
    have vanish : ∀ t, ∑ k with m.DeadEnd k, m.occupation t k = 0 ↔
        ∀ k, m.DeadEnd k → ¬ 0 < m.occupation t k := by
      intro t
      rw [Finset.sum_eq_zero_iff_of_nonneg fun k _ => sound.occupation_nonneg t k]
      simp only [Finset.mem_filter_univ, (sound.occupation_nonneg t _).not_lt_iff_eq']
    simp only [Finset.mem_range, vanish, not_exists, not_and]
    exact ⟨fun h k dead t before => h t before k dead, fun h t before k dead => h k dead t before⟩

/-- Half of the machines have failed before the last of three positions. -/
theorem sum_likelihood_machine :
    1 ≤ 3 ∧ ∑ xs ∈ Machine.symbols.paths 3, Machine.model.likelihood xs = 1 / 2 ∧
      ∃ k, Machine.model.DeadEnd k ∧ ∃ t < 3 - 1, 0 < Machine.model.occupation t k := by
  have normalized : Machine.model.Normalized :=
    ⟨by decide +kernel, by decide +kernel, by decide +kernel⟩
  obtain ⟨sum, -, -⟩ :=
    sum_likelihood Machine.model_reachable normalized (show 1 ≤ 3 by decide)
  refine ⟨by decide, sum.trans (by decide +kernel), Machine.failed, ?_, 1, by decide, ?_⟩
  · decide +kernel
  · decide +kernel

end Trellis.Model
