import Mathlib.Analysis.SpecialFunctions.Pow.Real
import Trellis.Proofs.ExpectedCounts

/-!
# Ascent of the likelihood

The joint probability of a path is a product of powers, with the counts of the
path as exponents (`jointProbability_eq_prod`). For sums of such products there is
a condition on two sets of parameters that makes the second sum at least the
first (`sum_prod_rpow_le`): the logarithms of the parameters, weighted with the
expected exponents, do not decrease. Relative frequencies meet it in every group
(`gain_nonneg`). The exponents need not be whole numbers, so that pseudocounts can
be among them (`probability_mul_cellPowers_le_of_gain`).
-/

namespace Trellis

variable {S E K : Type} {Q : Alphabet S} {A : Alphabet E}

/-! ### Products of powers -/

/-- The product over a list is the product over its type, with the counts as
exponents. -/
theorem prod_map_eq_prod_pow_count {ι : Type} [Fintype ι] [BEq ι] [LawfulBEq ι]
    [CommMonoid K] (f : ι → K) (xs : List ι) : (xs.map f).prod = ∏ i, f i ^ xs.count i := by
  induction xs with
  | nil => simp
  | cons j rest ih =>
    have first : ∏ i, f i ^ (if j == i then 1 else 0) = f j := by
      rw [Finset.prod_eq_single_of_mem j (Finset.mem_univ j)]
      · simp
      · intro i _ other
        simp [other.symm]
    simp only [List.count_cons, pow_add, Finset.prod_mul_distrib, first]
    rw [List.map_cons, List.prod_cons, ih, mul_comm]

namespace Model

variable [Field K]

/-- The probability that a model has in a cell. -/
def cell (m : Model Q A K) : Cell Q A → K
  | .inl k => m.initial.get k
  | .inr (.inl (k, l)) => m.transition k l
  | .inr (.inr (k, x)) => m.emission k x

theorem laterProbability_eq_prod (m : Model Q A K) (k : Q.Code) {states : List Q.Code}
    {symbols : List A.Code} (aligned : states.length = symbols.length) :
    m.laterProbability k states symbols =
      (((k :: states).zip states).map fun step => m.transition step.1 step.2).prod *
        ((states.zip symbols).map fun shown => m.emission shown.1 shown.2).prod := by
  induction states generalizing k symbols with
  | nil => simp
  | cons l rest ih =>
    cases symbols with
    | nil => simp at aligned
    | cons x symbols =>
      rw [laterProbability_cons, ih l (Nat.succ.inj aligned)]
      simp only [List.zip_cons_cons, List.map_cons, List.prod_cons]
      ring

/-- The joint probability of a path is the product of the probabilities of the
cells it meets. -/
theorem jointProbability_eq_prod (m : Model Q A K) {states : List Q.Code}
    {symbols : List A.Code} (aligned : states.length = symbols.length) :
    m.jointProbability states symbols = ∏ cell, m.cell cell ^ cellCount states symbols cell := by
  rw [Fintype.prod_sum_type, Fintype.prod_sum_type]
  simp only [cell, cellCount]
  rw [← prod_map_eq_prod_pow_count m.initial.get,
    ← prod_map_eq_prod_pow_count fun step : Q.Code × Q.Code => m.transition step.1 step.2,
    ← prod_map_eq_prod_pow_count fun shown : Q.Code × A.Code => m.emission shown.1 shown.2]
  cases states with
  | nil => simp [jointProbability, factors]
  | cons k rest =>
    cases symbols with
    | nil => simp at aligned
    | cons x symbols =>
      rw [jointProbability_cons, m.laterProbability_eq_prod k (Nat.succ.inj aligned)]
      simp
      ring

/-- A path that is possible meets no cell of probability zero. -/
theorem cell_ne_zero_of_jointProbability {m : Model Q A K} {states : List Q.Code}
    {symbols : List A.Code} (aligned : states.length = symbols.length)
    (possible : m.jointProbability states symbols ≠ 0) {cell : Cell Q A}
    (met : cellCount states symbols cell ≠ 0) : m.cell cell ≠ 0 := by
  rw [m.jointProbability_eq_prod aligned] at possible
  exact (pow_ne_zero_iff met).mp (Finset.prod_ne_zero_iff.mp possible cell (Finset.mem_univ cell))

end Model

/-! ### Weighted logarithms -/

section Real

variable {ι ζ : Type} [Fintype ι] {a b : ι → ℝ}

theorem log_prod_rpow {c : ι → ℝ} (nonneg : ∀ i, 0 ≤ a i) (factors : ∀ i, a i ^ c i ≠ 0) :
    Real.log (∏ i, a i ^ c i) = ∑ i, c i * Real.log (a i) := by
  rw [Real.log_prod fun i _ => factors i]
  refine Finset.sum_congr rfl fun i _ => ?_
  rcases (nonneg i).eq_or_lt with zero | positive
  · -- Zero to a power is no factor unless the power is zero.
    have exponent : c i = 0 := by
      by_contra ne
      exact factors i (by rw [← zero, Real.zero_rpow ne])
    rw [exponent, Real.rpow_zero, Real.log_one, zero_mul]
  · exact Real.log_rpow positive (c i)

/-- The tangent of the logarithm bounds its gain on a product of powers. -/
theorem prod_rpow_mul_gain_le (a_nonneg : ∀ i, 0 ≤ a i) (b_nonneg : ∀ i, 0 ≤ b i) {c : ι → ℝ}
    (support : 0 < ∏ i, a i ^ c i → ∀ i, c i ≠ 0 → 0 < b i) :
    (∏ i, a i ^ c i) * ∑ i, c i * (Real.log (b i) - Real.log (a i)) ≤
      ∏ i, b i ^ c i - ∏ i, a i ^ c i := by
  have before_nonneg : 0 ≤ ∏ i, a i ^ c i :=
    Finset.prod_nonneg fun i _ => Real.rpow_nonneg (a_nonneg i) _
  have after_nonneg : 0 ≤ ∏ i, b i ^ c i :=
    Finset.prod_nonneg fun i _ => Real.rpow_nonneg (b_nonneg i) _
  rcases before_nonneg.eq_or_lt with vacant | before
  · rw [← vacant, zero_mul, sub_zero]
    exact after_nonneg
  · have b_factors : ∀ i, 0 < b i ^ c i := by
      intro i
      by_cases absent : c i = 0
      · rw [absent, Real.rpow_zero]
        exact one_pos
      · exact Real.rpow_pos_of_pos (support before i absent) _
    have after : 0 < ∏ i, b i ^ c i := Finset.prod_pos fun i _ => b_factors i
    have a_factors : ∀ i, a i ^ c i ≠ 0 := fun i =>
      Finset.prod_ne_zero_iff.mp before.ne' i (Finset.mem_univ i)
    have gain : ∑ i, c i * (Real.log (b i) - Real.log (a i)) =
        Real.log ((∏ i, b i ^ c i) / ∏ i, a i ^ c i) := by
      rw [Real.log_div after.ne' before.ne', log_prod_rpow b_nonneg fun i => (b_factors i).ne',
        log_prod_rpow a_nonneg a_factors, ← Finset.sum_sub_distrib]
      exact Finset.sum_congr rfl fun i _ => mul_sub _ _ _
    rw [gain]
    calc (∏ i, a i ^ c i) * Real.log ((∏ i, b i ^ c i) / ∏ i, a i ^ c i)
        ≤ (∏ i, a i ^ c i) * ((∏ i, b i ^ c i) / (∏ i, a i ^ c i) - 1) :=
          mul_le_mul_of_nonneg_left (Real.log_le_sub_one_of_pos (div_pos after before)) before.le
      _ = ∏ i, b i ^ c i - ∏ i, a i ^ c i := by
          rw [mul_sub, mul_div_cancel₀ _ before.ne', mul_one]

/-- Parameters that do not lose on the expected exponents do not lose at all. -/
theorem sum_prod_rpow_le (a_nonneg : ∀ i, 0 ≤ a i) (b_nonneg : ∀ i, 0 ≤ b i) (paths : Finset ζ)
    {c : ζ → ι → ℝ} (c_nonneg : ∀ z i, 0 ≤ c z i)
    (support : ∀ i, ∑ z ∈ paths, (∏ j, a j ^ c z j) * c z i ≠ 0 → 0 < b i)
    (gain : 0 ≤ ∑ i, (∑ z ∈ paths, (∏ j, a j ^ c z j) * c z i) *
      (Real.log (b i) - Real.log (a i))) :
    ∑ z ∈ paths, ∏ i, a i ^ c z i ≤ ∑ z ∈ paths, ∏ i, b i ^ c z i := by
  -- Where a path occurs, every cell it meets has an expected exponent, so `support` applies.
  have weight_nonneg : ∀ z i, 0 ≤ (∏ j, a j ^ c z j) * c z i := fun z i =>
    mul_nonneg (Finset.prod_nonneg fun j _ => Real.rpow_nonneg (a_nonneg j) _) (c_nonneg z i)
  have expected : ∀ z ∈ paths, 0 < ∏ j, a j ^ c z j → ∀ i, c z i ≠ 0 → 0 < b i := by
    intro z member positive i met
    refine support i (Finset.sum_pos' (fun y _ => weight_nonneg y i) ⟨z, member, ?_⟩).ne'
    exact mul_pos positive ((c_nonneg z i).lt_of_ne met.symm)
  -- The gain is summed over the cells, the bound over the paths.
  have swapped : ∑ i, (∑ z ∈ paths, (∏ j, a j ^ c z j) * c z i) *
      (Real.log (b i) - Real.log (a i)) =
      ∑ z ∈ paths, (∏ j, a j ^ c z j) * ∑ i, c z i * (Real.log (b i) - Real.log (a i)) := by
    simp only [Finset.sum_mul, Finset.mul_sum, mul_assoc]
    exact Finset.sum_comm
  rw [swapped] at gain
  have bound := gain.trans (Finset.sum_le_sum fun z member =>
    prod_rpow_mul_gain_le a_nonneg b_nonneg (expected z member))
  rw [Finset.sum_sub_distrib] at bound
  exact sub_nonneg.mp bound

/-- Among all distributions the relative frequencies have the greatest weighted
logarithm. -/
theorem sum_mul_log_share_nonneg {n : ι → ℝ} (counts : ∀ i, 0 ≤ n i) (nonneg : ∀ i, 0 ≤ a i)
    (le_one : ∑ i, a i ≤ 1) (support : ∀ i, n i ≠ 0 → a i ≠ 0) :
    0 ≤ ∑ i, n i * (Real.log (n i / ∑ j, n j) - Real.log (a i)) := by
  set sum := ∑ j, n j with sum_eq
  have sum_nonneg : 0 ≤ sum := Finset.sum_nonneg fun i _ => counts i
  rcases sum_nonneg.eq_or_lt with vacant | positive
  · have zero : ∀ i, n i = 0 := fun i =>
      (Finset.sum_eq_zero_iff_of_nonneg fun j _ => counts j).mp (sum_eq ▸ vacant.symm) i
        (Finset.mem_univ i)
    simp [zero]
  · have bound : ∀ i, n i - sum * a i ≤ n i * (Real.log (n i / sum) - Real.log (a i)) := by
      intro i
      rcases (counts i).eq_or_lt with zero | count
      · rw [← zero, zero_mul, zero_sub]
        exact neg_nonpos.mpr (mul_nonneg sum_nonneg (nonneg i))
      · have share : 0 < n i / sum := div_pos count positive
        have probability : 0 < a i := lt_of_le_of_ne (nonneg i) (support i count.ne').symm
        have tangent := Real.log_le_sub_one_of_pos (div_pos probability share)
        rw [Real.log_div probability.ne' share.ne'] at tangent
        calc n i - sum * a i = n i * (1 - a i / (n i / sum)) := by
              field_simp
          _ ≤ n i * (Real.log (n i / sum) - Real.log (a i)) :=
              mul_le_mul_of_nonneg_left (by linarith) count.le
    calc (0 : ℝ) ≤ sum * (1 - ∑ i, a i) := mul_nonneg sum_nonneg (sub_nonneg.mpr le_one)
      _ = ∑ i, (n i - sum * a i) := by
          rw [Finset.sum_sub_distrib, ← Finset.mul_sum, mul_sub, mul_one, sum_eq]
      _ ≤ ∑ i, n i * (Real.log (n i / sum) - Real.log (a i)) :=
          Finset.sum_le_sum fun i _ => bound i

end Real

/-! ### Models and counts -/

section Gain

variable [Field K] [LinearOrder K] [IsStrictOrderedRing K] [Archimedean K]

/-- What a second set of parameters gains over a first one, weighted with counts. -/
noncomputable def gain {ι : Type} [Fintype ι] (n a b : ι → K) : ℝ :=
  ∑ i, toReal K (n i) * (Real.log (toReal K (b i)) - Real.log (toReal K (a i)))

theorem gain_self {ι : Type} [Fintype ι] (n a : ι → K) : gain n a a = 0 := by
  simp [gain]

/-- Relative frequencies gain over every distribution. -/
theorem gain_nonneg {ι : Type} [Fintype ι] {n a b : ι → K} (counts : ∀ i, 0 ≤ n i)
    (nonneg : ∀ i, 0 ≤ a i) (le_one : ∑ i, a i ≤ 1) (support : ∀ i, n i ≠ 0 → a i ≠ 0)
    (shares : ∀ i, n i ≠ 0 → b i = n i / ∑ j, n j) : 0 ≤ gain n a b := by
  have real_le_one : ∑ i, toReal K (a i) ≤ 1 := by
    rw [← map_sum, ← map_one (toReal K)]
    exact toReal_strictMono.monotone le_one
  have real_support : ∀ i, toReal K (n i) ≠ 0 → toReal K (a i) ≠ 0 := by
    intro i
    simpa using support i
  have real := sum_mul_log_share_nonneg (fun i => toReal_nonneg (counts i))
    (fun i => toReal_nonneg (nonneg i)) real_le_one real_support
  refine real.trans_eq (Finset.sum_congr rfl fun i _ => ?_)
  by_cases absent : n i = 0
  · simp [absent]
  · rw [shares i absent, map_div₀, map_sum]

theorem gain_cells (n a b : Cell Q A → K) :
    gain n a b =
      gain (fun k => n (.inl k)) (fun k => a (.inl k)) (fun k => b (.inl k)) +
        (∑ k, gain (fun l => n (.inr (.inl (k, l)))) (fun l => a (.inr (.inl (k, l))))
          (fun l => b (.inr (.inl (k, l)))) +
        ∑ k, gain (fun x => n (.inr (.inr (k, x)))) (fun x => a (.inr (.inr (k, x))))
          (fun x => b (.inr (.inr (k, x))))) := by
  simp only [gain, Fintype.sum_sum_type, Fintype.sum_prod_type]

namespace Model

omit [IsStrictOrderedRing K] [Archimedean K] in
theorem WellFormed.cell_nonneg {m : Model Q A K} (sound : m.WellFormed) (cell : Cell Q A) :
    0 ≤ m.cell cell := by
  match cell with
  | .inl k => exact (sound.initial k).1
  | .inr (.inl (k, l)) => exact sound.parameters.transition_nonneg k l
  | .inr (.inr (k, x)) => exact sound.parameters.emission_nonneg k x

theorem toReal_jointProbability (m : Model Q A K) {states : List Q.Code} {xs : List A.Code}
    (aligned : states.length = xs.length) :
    toReal K (m.jointProbability states xs) =
      ∏ cell, toReal K (m.cell cell) ^ (cellCount states xs cell : ℝ) := by
  rw [m.jointProbability_eq_prod aligned, map_prod]
  refine Finset.prod_congr rfl fun cell _ => ?_
  rw [map_pow, Real.rpow_natCast]

/-- A model that gains on the counts of a path does not make the path less probable. -/
theorem jointProbability_le_of_gain {m r : Model Q A K} (nonneg : ∀ cell, 0 ≤ m.cell cell)
    (later : ∀ cell, 0 ≤ r.cell cell) {states : List Q.Code} {xs : List A.Code}
    (aligned : states.length = xs.length)
    (support : ∀ cell, cellCount states xs cell ≠ 0 → r.cell cell ≠ 0)
    (gains : 0 ≤ gain (fun cell => (cellCount states xs cell : K)) m.cell r.cell) :
    m.jointProbability states xs ≤ r.jointProbability states xs := by
  have before := fun cell => toReal_nonneg (nonneg cell)
  have after := fun cell => toReal_nonneg (later cell)
  have bound := prod_rpow_mul_gain_le before after (c := fun cell => cellCount states xs cell)
    fun _ cell met => toReal_pos.mpr
      (lt_of_le_of_ne (later cell) (support cell (Nat.cast_ne_zero.mp met)).symm)
  simp only [gain, map_natCast] at gains
  have product := Finset.prod_nonneg fun cell (_ : cell ∈ Finset.univ) =>
    Real.rpow_nonneg (before cell) (cellCount states xs cell)
  rw [← toReal_strictMono.le_iff_le, m.toReal_jointProbability aligned,
    r.toReal_jointProbability aligned]
  exact sub_nonneg.mp ((mul_nonneg product gains).trans bound)

/-! ### Powers of cells -/

/-- The product of the cells of a model, each raised to a power of its own. -/
noncomputable def cellPowers (m : Model Q A K) (d : Cell Q A → K) : ℝ :=
  ∏ cell, toReal K (m.cell cell) ^ toReal K (d cell)

theorem cellPowers_zero (m : Model Q A K) : m.cellPowers (fun _ => 0) = 1 := by
  simp [cellPowers]

theorem cellPowers_nonneg {m : Model Q A K} (nonneg : ∀ cell, 0 ≤ m.cell cell)
    (d : Cell Q A → K) : 0 ≤ m.cellPowers d :=
  Finset.prod_nonneg fun cell _ => Real.rpow_nonneg (toReal_nonneg (nonneg cell)) _

/-- A product of powers that is positive has no factor zero. -/
theorem cell_ne_zero_of_cellPowers {m : Model Q A K} {d : Cell Q A → K}
    (positive : 0 < m.cellPowers d) {cell : Cell Q A} (counted : d cell ≠ 0) :
    m.cell cell ≠ 0 := by
  intro zero
  have exponent : toReal K (d cell) ≠ 0 := by simpa using counted
  have factor := Finset.prod_ne_zero_iff.mp positive.ne' cell (Finset.mem_univ cell)
  exact factor (by rw [zero, map_zero, Real.zero_rpow exponent])

/-- The powers of the cells join the counts of a path in its exponents. -/
theorem toReal_jointProbability_mul_cellPowers {m : Model Q A K}
    (nonneg : ∀ cell, 0 ≤ m.cell cell) {d : Cell Q A → K} (d_nonneg : ∀ cell, 0 ≤ d cell)
    {states : List Q.Code} {xs : List A.Code} (aligned : states.length = xs.length) :
    toReal K (m.jointProbability states xs) * m.cellPowers d =
      ∏ cell, toReal K (m.cell cell) ^ (cellCount states xs cell + toReal K (d cell)) := by
  rw [m.toReal_jointProbability aligned, cellPowers, ← Finset.prod_mul_distrib]
  refine Finset.prod_congr rfl fun cell _ => ?_
  exact (Real.rpow_add_of_nonneg (toReal_nonneg (nonneg cell)) (Nat.cast_nonneg _)
    (toReal_nonneg (d_nonneg cell))).symm

theorem toReal_probability_mul_cellPowers {m : Model Q A K} (nonneg : ∀ cell, 0 ≤ m.cell cell)
    {d : Cell Q A → K} (d_nonneg : ∀ cell, 0 ≤ d cell) (xs : List A.Code) :
    toReal K (m.probability xs) * m.cellPowers d =
      ∑ states ∈ Q.paths xs.length,
        ∏ cell, toReal K (m.cell cell) ^ (cellCount states xs cell + toReal K (d cell)) := by
  rw [probability, map_sum, Finset.sum_mul]
  exact Finset.sum_congr rfl fun states path =>
    toReal_jointProbability_mul_cellPowers nonneg d_nonneg (Alphabet.mem_paths.mp path)

/-- If `n` are the expected counts, then `n` with the exponents `d` added are the
expected exponents of the cells. -/
theorem sum_cellPowers_mul_exponent {m : Model Q A K} (nonneg : ∀ cell, 0 ≤ m.cell cell)
    {n d : Cell Q A → K} (d_nonneg : ∀ cell, 0 ≤ d cell) {xs : List A.Code} {cell : Cell Q A}
    (counted : m.probability xs * n cell =
      ∑ states ∈ Q.paths xs.length,
        m.jointProbability states xs * (cellCount states xs cell : K)) :
    ∑ states ∈ Q.paths xs.length,
        (∏ c, toReal K (m.cell c) ^ (cellCount states xs c + toReal K (d c))) *
          (cellCount states xs cell + toReal K (d cell)) =
      toReal K (m.probability xs) * m.cellPowers d * toReal K (n cell + d cell) := by
  have real := congrArg (toReal K) counted
  simp only [map_mul, map_sum, map_natCast] at real
  have split : ∀ states ∈ Q.paths xs.length,
      (∏ c, toReal K (m.cell c) ^ (cellCount states xs c + toReal K (d c))) *
          (cellCount states xs cell + toReal K (d cell)) =
        (toReal K (m.jointProbability states xs) * cellCount states xs cell +
          toReal K (m.jointProbability states xs) * toReal K (d cell)) * m.cellPowers d := by
    intro states path
    rw [← toReal_jointProbability_mul_cellPowers nonneg d_nonneg (Alphabet.mem_paths.mp path)]
    ring
  rw [Finset.sum_congr rfl split, ← Finset.sum_mul, Finset.sum_add_distrib, ← real,
    ← Finset.sum_mul, ← map_sum, ← probability, map_add]
  ring

/-- A model that gains on the expected counts and the exponents `d` together does
not lose on the probability of the symbols times the cells to the powers `d`. -/
theorem probability_mul_cellPowers_le_of_gain {m r : Model Q A K}
    (nonneg : ∀ cell, 0 ≤ m.cell cell) (later : ∀ cell, 0 ≤ r.cell cell) {xs : List A.Code}
    (possible : 0 ≤ m.probability xs) {n d : Cell Q A → K} (d_nonneg : ∀ cell, 0 ≤ d cell)
    (cells : ∀ cell, m.probability xs * n cell =
      ∑ states ∈ Q.paths xs.length, m.jointProbability states xs * (cellCount states xs cell : K))
    (support : ∀ cell, n cell + d cell ≠ 0 → r.cell cell ≠ 0)
    (gains : 0 ≤ gain (fun cell => n cell + d cell) m.cell r.cell) :
    toReal K (m.probability xs) * m.cellPowers d ≤
      toReal K (r.probability xs) * r.cellPowers d := by
  have expected := fun cell => sum_cellPowers_mul_exponent nonneg d_nonneg (cells cell)
  rw [toReal_probability_mul_cellPowers nonneg d_nonneg,
    toReal_probability_mul_cellPowers later d_nonneg]
  refine sum_prod_rpow_le (fun cell => toReal_nonneg (nonneg cell))
    (fun cell => toReal_nonneg (later cell)) _
    (fun states cell => add_nonneg (Nat.cast_nonneg _) (toReal_nonneg (d_nonneg cell)))
    (fun cell occurs => ?_) ?_
  · rw [expected] at occurs
    have count : n cell + d cell ≠ 0 := by
      intro zero
      rw [zero, map_zero, mul_zero] at occurs
      exact occurs rfl
    exact toReal_pos.mpr (lt_of_le_of_ne (later cell) (support cell count).symm)
  · simp only [expected, mul_assoc, ← Finset.mul_sum]
    exact mul_nonneg (toReal_nonneg possible) (mul_nonneg (cellPowers_nonneg nonneg d) gains)

end Model

end Gain

end Trellis
