import Trellis.Counts.Expected
import Trellis.Proofs.KnownPaths
import Trellis.Proofs.Smoothing

/-!
# Expected counts as averages

The expected counts of a sequence are the averages of the counts of its paths,
each weighted with its posterior probability (`expectedCounts_eq_average`). All
three tables are sums over the positions of the recursions, so each is compared
with the enumeration by one induction over the later symbols
(`mass_mul_expectedStart`, `mass_mul_expectedSteps`, `mass_mul_expectedEmissions`).
The expected counts of a sequence that is possible can always be computed
(`WellFormed.expectedCounts_eq_ok`).
-/

namespace Trellis

variable {S E K σ : Type} {Q : Alphabet S} {A : Alphabet E}

/-! ### Cells -/

/-- The cells of the tables of counts: starts, steps and emissions. -/
abbrev Cell (Q : Alphabet S) (A : Alphabet E) : Type :=
  Q.Code ⊕ (Q.Code × Q.Code) ⊕ (Q.Code × A.Code)

/-- The count of a start, a step or an emission. -/
def Counts.cell (c : Counts (.ofModel Q.size A.size) K σ) : Cell Q A → K
  | .inl k => c.initial.get k
  | .inr (.inl (k, l)) => c.transitions.get k l
  | .inr (.inr (k, x)) => c.emissions.get k x

theorem Counts.Nonneg.cell_nonneg [Zero K] [LE K] {counts : Counts (.ofModel Q.size A.size) K σ}
    (nonneg : counts.Nonneg) (cell : Cell Q A) : 0 ≤ counts.cell cell := by
  match cell with
  | .inl k => exact nonneg.initial k
  | .inr (.inl (k, l)) => exact nonneg.transitions k l
  | .inr (.inr (k, x)) => exact nonneg.emissions k x

/-- How often a path and its symbols meet a cell. -/
def cellCount (states : List Q.Code) (symbols : List A.Code) : Cell Q A → Nat
  | .inl k => (states.take 1).count k
  | .inr (.inl step) => (states.zip states.tail).count step
  | .inr (.inr shown) => (states.zip symbols).count shown

namespace Model

variable [Field K] [LinearOrder K]

theorem cell_pathCounts [Score σ] [Logarithm K σ] (m : Model Q A K) {states : List Q.Code}
    {symbols : List A.Code} (aligned : states.length = symbols.length) (cell : Cell Q A) :
    (m.pathCounts (states.zip symbols) : Counts _ K σ).cell cell =
      (cellCount states symbols cell : K) := by
  have path : (states.zip symbols).map Prod.fst = states := List.map_fst_zip aligned.le
  match cell with
  | .inl k => simp [Counts.cell, pathCounts, cellCount, path]
  | .inr (.inl (k, l)) => simp [Counts.cell, pathCounts, cellCount, path]
  | .inr (.inr (k, x)) => simp [Counts.cell, pathCounts, cellCount]

/-- The counts are those of the paths of the symbols, weighted with the joint
probabilities of the paths and divided by their sum. -/
def Expects (m : Model Q A K) (xs : List A.Code)
    (counts : Counts (.ofModel Q.size A.size) K σ) : Prop :=
  ∀ cell : Cell Q A, m.probability xs * counts.cell cell =
    ∑ states ∈ Q.paths xs.length, m.jointProbability states xs * (cellCount states xs cell : K)

/-! ### Positions from a row on -/

/-- The positions from a row before scaling on, with their symbols. -/
def positionsFrom (m : Model Q A K) (x : A.Code) (raw : Vector K Q.size) (rest : List A.Code) :
    Positions Q A K :=
  (x :: rest).zip (m.smoothedFrom raw rest)

theorem positionsFrom_nil (m : Model Q A K) (x : A.Code) (raw : Vector K Q.size) :
    m.positionsFrom x raw [] = [(x, m.smoothedStep raw [])] := rfl

theorem positionsFrom_cons (m : Model Q A K) (x y : A.Code) (raw : Vector K Q.size)
    (rest : List A.Code) :
    m.positionsFrom x raw (y :: rest) =
      (x, m.smoothedStep raw (y :: rest)) ::
        m.positionsFrom y (m.rawRow (some (scaledRow raw)) y) rest := rfl

theorem positionsFrom_eq_cons (m : Model Q A K) (x : A.Code) (raw : Vector K Q.size)
    (rest : List A.Code) :
    ∃ later, m.positionsFrom x raw rest = (x, m.smoothedStep raw rest) :: later := by
  cases rest with
  | nil => exact ⟨[], rfl⟩
  | cons y rest => exact ⟨_, rfl⟩

/-- The step of a path sum over one symbol, on rows. -/
theorem pathSum_step (m : Model Q A K) {raw : Vector K Q.size} (occupied : ∑ k, raw.get k ≠ 0)
    (x : A.Code) (symbols : List A.Code) {f h : List Q.Code → K} {g : Q.Code → Q.Code → K}
    (split : ∀ k l states, f (k :: l :: states) = g k l + h (l :: states)) :
    m.pathSum raw.get (x :: symbols) f =
      (∑ k, ∑ l,
        raw.get k * m.transition k l * m.emission l x * m.continuation l symbols * g k l) +
      (∑ k, raw.get k) * m.pathSum (m.rawRow (some (scaledRow raw)) x).get symbols h := by
  have next := m.pathSum_next raw x symbols (f := fun states => h states.tail) fun _ _ _ => rfl
  rw [m.pathSum_tail _ x symbols (h := h) fun _ _ _ => rfl] at next
  rw [m.pathSum_cons raw.get x symbols split, next, mul_div_cancel₀ _ occupied]

/-! ### Starts, steps and emissions -/

/-- An expected number of steps is a sum over the positions, whether the arc is
allowed or not. -/
theorem expectedSteps_cons (m : Model Q A K) (x y : A.Code) (here next : Smoothed Q.size K)
    (later : Positions Q A K) (k l : Q.Code) :
    m.expectedSteps ((x, here) :: (y, next) :: later) k l =
      here.forward.row.get k * m.transition k l * m.emission l y *
          (next.backward.get l / next.forward.scale) +
        m.expectedSteps ((y, next) :: later) k l := by
  by_cases allowed : m.allows k l = true
  · simp only [expectedSteps, if_pos allowed, total_eq_sum, List.tail_cons, List.zip_cons_cons,
      List.map_cons, List.sum_cons, mul_div_assoc]
  · have zero := Parameters.transition_eq_zero (Bool.eq_false_iff.mpr allowed)
    simp only [expectedSteps, if_neg allowed, zero, mul_zero, zero_mul, add_zero]

theorem expectedEmissions_cons (x : A.Code) (p : Smoothed Q.size K)
    (positions : Positions Q A K) (k : Q.Code) (y : A.Code) :
    expectedEmissions ((x, p) :: positions) k y =
      (if x = y then p.posterior.get k else 0) + expectedEmissions positions k y := by
  simp only [expectedEmissions, total_map_filter, List.map_cons, List.sum_cons, decide_eq_true_eq]

section Alive

variable [IsStrictOrderedRing K] {m : Model Q A K} {raw : Vector K Q.size} {rest : List A.Code}

omit [IsStrictOrderedRing K] in
theorem mass_mul_posterior (alive : m.Alive raw rest) (k : Q.Code) :
    m.mass raw.get rest * (m.smoothedStep raw rest).posterior.get k =
      raw.get k * m.continuation k rest := by
  rw [smoothedStep, Row.get_ofFn, mul_div_cancel₀ _ alive.positive.ne']

/-- The expected starts, times the total weight, are the starts of all paths with their
weights. -/
theorem mass_mul_expectedStart (alive : m.Alive raw rest) (x : A.Code) (k : Q.Code) :
    m.mass raw.get rest * expectedStart (m.positionsFrom x raw rest) k =
      m.pathSum raw.get rest fun states => ((states.take 1).count k : K) := by
  obtain ⟨later, positions⟩ := m.positionsFrom_eq_cons x raw rest
  have head : ∀ (i : Q.Code) (states : List Q.Code),
      (((i :: states).take 1).count k : K) = if i = k then 1 else 0 := by
    intro i states
    simp [List.count_cons]
  rw [positions, expectedStart, mass_mul_posterior alive, m.pathSum_head _ _ head]
  simp

/-- The same of the steps over an arc: a step of a path is the one at the first position or
one of the later ones. -/
theorem mass_mul_expectedSteps (sound : m.WellFormed) (alive : m.Alive raw rest) (x : A.Code)
    (k l : Q.Code) :
    m.mass raw.get rest * m.expectedSteps (m.positionsFrom x raw rest) k l =
      m.pathSum raw.get rest fun states => ((states.zip states.tail).count (k, l) : K) := by
  -- On the later symbols: `sum_mul_mass_next` undoes the scale of this position on both sides.
  induction rest generalizing raw x with
  | nil => simp [positionsFrom_nil, expectedSteps]
  | cons y rest ih =>
    have next := alive.next sound
    have steps := ih next y
    obtain ⟨later, positions⟩ :=
      m.positionsFrom_eq_cons y (m.rawRow (some (scaledRow raw)) y) rest
    have row : (m.smoothedStep raw (y :: rest)).forward.row.get k = raw.get k / ∑ i, raw.get i :=
      Row.get_map _ _ _
    have first : m.expectedSteps (m.positionsFrom x raw (y :: rest)) k l =
        raw.get k * m.transition k l * m.emission l y * m.continuation l rest /
          m.mass raw.get (y :: rest) +
        m.expectedSteps (m.positionsFrom y (m.rawRow (some (scaledRow raw)) y) rest) k l := by
      have sum_ne := alive.sum_pos.ne'
      rw [positionsFrom_cons, positions, expectedSteps_cons, backward_div_scale sound next, row,
        mass_next]
      have mass_ne := alive.positive.ne'
      congr 1
      field_simp
    have split : ∀ (i j : Q.Code) (states : List Q.Code),
        (((i :: j :: states).zip (i :: j :: states).tail).count (k, l) : K) =
          (if i = k ∧ j = l then 1 else 0) +
            (((j :: states).zip (j :: states).tail).count (k, l) : K) := by
      intro i j states
      simp [List.count_cons, add_comm]
    rw [m.pathSum_step alive.sum_pos.ne' y rest
        (g := fun i j => if i = k ∧ j = l then 1 else 0)
        (h := fun states => ((states.zip states.tail).count (k, l) : K)) split,
      first, mul_add, mul_div_cancel₀ _ alive.positive.ne', ← steps, ← mul_assoc,
      m.sum_mul_mass_next alive.sum_pos.ne']
    congr 1
    simp [ite_and]

/-- The same of a symbol shown in a state. -/
theorem mass_mul_expectedEmissions (sound : m.WellFormed) (alive : m.Alive raw rest)
    (x : A.Code) (k : Q.Code) (y : A.Code) :
    m.mass raw.get rest * expectedEmissions (m.positionsFrom x raw rest) k y =
      m.pathSum raw.get rest fun states => ((states.zip (x :: rest)).count (k, y) : K) := by
  induction rest generalizing raw x with
  | nil =>
    have posterior := mass_mul_posterior alive k
    rw [positionsFrom_nil, expectedEmissions_cons, pathSum_nil]
    have none_later : expectedEmissions ([] : Positions Q A K) k y = 0 := rfl
    rw [none_later, add_zero, mul_ite, posterior]
    simp [List.count_cons, ite_and]
  | cons z rest ih =>
    have next := alive.next sound
    have emissions := ih next z
    have posterior := mass_mul_posterior alive k
    have split : ∀ (i j : Q.Code) (states : List Q.Code),
        (((i :: j :: states).zip (x :: z :: rest)).count (k, y) : K) =
          (if i = k ∧ x = y then 1 else 0) +
            (((j :: states).zip (z :: rest)).count (k, y) : K) := by
      intro i j states
      simp [List.count_cons, add_comm]
    rw [m.pathSum_step alive.sum_pos.ne' z rest
        (g := fun i j => if i = k ∧ x = y then 1 else 0)
        (h := fun states => ((states.zip (z :: rest)).count (k, y) : K)) split,
      positionsFrom_cons, expectedEmissions_cons, mul_add, mul_ite, posterior, mul_zero,
      ← emissions, ← mul_assoc, m.sum_mul_mass_next alive.sum_pos.ne']
    congr 1
    have inner : ∀ i, ∑ j, raw.get i * m.transition i j * m.emission j z *
        m.continuation j rest * (if i = k ∧ x = y then 1 else 0) =
        raw.get i * m.continuation i (z :: rest) * (if i = k ∧ x = y then 1 else 0) := by
      intro i
      rw [continuation_cons, Finset.mul_sum, Finset.sum_mul]
      exact Finset.sum_congr rfl fun j _ => by ring
    -- A posterior does not depend on the next state, so the arcs sum to `continuation`.
    simp only [inner]
    simp [ite_and]

/-- Over possible symbols the expected counts can be computed, and they are
averages of the counts of the paths. -/
theorem WellFormed.expectedCounts_eq_ok [Score σ] [Logarithm K σ] (sound : m.WellFormed)
    {xs : List A.Code} (positive : 0 < m.probability xs) :
    ∃ steps, (m.forward xs : Except (Error S E K) _) = .ok steps ∧
      ∃ counts : Counts (.ofModel Q.size A.size) K σ,
        m.expectedCounts xs = (.ok counts : Except (Error S E K) _) ∧
        counts.logLikelihood = ForwardStep.logLikelihood steps ∧ m.Expects xs counts := by
  cases xs with
  | nil =>
    refine ⟨[], rfl, _, rfl, rfl, fun cell => ?_⟩
    match cell with
    | .inl k => simp [Alphabet.paths, cellCount, Counts.cell, expectedStart]
    | .inr (.inl (k, l)) => simp [Alphabet.paths, cellCount, Counts.cell, expectedSteps]
    | .inr (.inr (k, x)) => simp [Alphabet.paths, cellCount, Counts.cell, expectedEmissions]
  | cons x rest =>
    have alive := sound.alive positive
    have smoothed := sound.smooth_eq_ok positive
    refine ⟨_, sound.forward_eq_ok positive,
      ⟨.ofFn (expectedStart (m.positionsFrom x (m.rawRow none x) rest)),
        .ofFn (m.expectedSteps (m.positionsFrom x (m.rawRow none x) rest)),
        .ofFn (expectedEmissions (m.positionsFrom x (m.rawRow none x) rest)),
        ForwardStep.logLikelihood (m.stepsFrom (m.rawRow none x) rest)⟩, ?_, rfl, fun cell => ?_⟩
    · rw [expectedCounts, smoothed, ← map_forward_smoothedFrom]
      rfl
    · rw [m.sum_jointProbability_mul x rest, probability_cons, ← get_rawRow_none]
      match cell with
      | .inl k =>
        rw [Counts.cell, Row.get_ofFn]
        exact mass_mul_expectedStart alive x k
      | .inr (.inl (k, l)) =>
        rw [Counts.cell, Table.get_ofFn]
        exact mass_mul_expectedSteps sound alive x k l
      | .inr (.inr (k, y)) =>
        rw [Counts.cell, Table.get_ofFn]
        exact mass_mul_expectedEmissions sound alive x k y

/-- Expected counts can be computed over possible symbols alone. -/
theorem WellFormed.expects_of_expectedCounts [Score σ] [Logarithm K σ] (sound : m.WellFormed)
    {xs : List A.Code} {counts : Counts (.ofModel Q.size A.size) K σ}
    (computed : m.expectedCounts xs = (.ok counts : Except (Error S E K) _)) :
    0 < m.probability xs ∧ m.Expects xs counts := by
  obtain ⟨smoothed, both, -⟩ := bind_eq_ok.mp computed
  obtain ⟨steps, forward, -⟩ := bind_eq_ok.mp both
  have positive := sound.probability_pos forward
  obtain ⟨-, -, expected, recomputed, -, expects⟩ := sound.expectedCounts_eq_ok (σ := σ) positive
  cases computed.symm.trans recomputed
  exact ⟨positive, expects⟩

theorem Expects.nonneg {xs : List A.Code} {counts : Counts (.ofModel Q.size A.size) K σ}
    (expects : m.Expects xs counts) (sound : m.WellFormed) (positive : 0 < m.probability xs) :
    counts.Nonneg := by
  have cells : ∀ cell : Cell Q A, 0 ≤ counts.cell cell := by
    intro cell
    refine (mul_nonneg_iff_of_pos_left positive).mp ?_
    rw [expects]
    exact Finset.sum_nonneg fun states _ =>
      mul_nonneg (sound.jointProbability_nonneg states xs) (Nat.cast_nonneg _)
  exact ⟨fun k => cells (.inl k), fun k l => cells (.inr (.inl (k, l))),
    fun k x => cells (.inr (.inr (k, x)))⟩

end Alive

/-! ### Known paths -/

section Known

variable {m : Model Q A K}

omit [LinearOrder K] in
/-- A possible path takes no forbidden arc. -/
theorem forbiddenStep?_of_jointProbability {states : List Q.Code} {symbols : List A.Code}
    (aligned : states.length = symbols.length) (possible : m.jointProbability states symbols ≠ 0) :
    m.forbiddenStep? states = none := by
  refine forbiddenStep?_of_factors aligned fun p mem zero => ?_
  rw [zero] at mem
  exact possible (List.prod_eq_zero_iff.mpr mem)

variable [DecidableEq S] [DecidableEq E]

/-- A sequence labelled with a possible path can be counted. -/
theorem labelledCounts_eq_ok [Score σ] [Logarithm K σ] {symbols : List E} {xs : List A.Code}
    (known : A.encode symbols = .ok xs) {states : List Q.Code} (observed : xs ≠ [])
    (aligned : states.length = xs.length) (possible : m.jointProbability states xs ≠ 0) :
    ∃ sequence : Sequence S E,
      Sequence.ofStates symbols (states.map Q.symbol) = (.ok sequence : Except (Error S E K) _) ∧
      m.labelledCounts sequence =
        (.ok (m.pathCounts (states.zip xs)) : Except (Error S E K) (Counts _ K σ)) :=
  labelledCounts_of_forbiddenStep? known observed aligned
    (forbiddenStep?_of_jointProbability aligned possible)

end Known

/-! ### Averages -/

/-- The state paths that are possible for a sequence. -/
def possiblePaths (m : Model Q A K) (xs : List A.Code) : Finset (List Q.Code) :=
  {states ∈ Q.paths xs.length | 0 < m.jointProbability states xs}

/-- The average over the possible paths, by their posterior probabilities. -/
def posteriorAverage (m : Model Q A K) (xs : List A.Code) (f : List Q.Code → K) : K :=
  ∑ states ∈ m.possiblePaths xs, m.jointProbability states xs / m.probability xs * f states

section Average

variable {m : Model Q A K} {xs : List A.Code}

theorem posteriorAverage_congr {f g : List Q.Code → K}
    (same : ∀ states ∈ m.possiblePaths xs, f states = g states) :
    m.posteriorAverage xs f = m.posteriorAverage xs g := by
  refine Finset.sum_congr rfl fun states possible => ?_
  rw [same states possible]

theorem posteriorAverage_add (m : Model Q A K) (xs : List A.Code) (f g : List Q.Code → K) :
    (m.posteriorAverage xs fun states => f states + g states) =
      m.posteriorAverage xs f + m.posteriorAverage xs g := by
  simp only [posteriorAverage, mul_add, Finset.sum_add_distrib]

theorem posteriorAverage_sum {ι : Type} [Fintype ι] (m : Model Q A K) (xs : List A.Code)
    (f : ι → List Q.Code → K) :
    (m.posteriorAverage xs fun states => ∑ i, f i states) = ∑ i, m.posteriorAverage xs (f i) := by
  simp only [posteriorAverage, Finset.mul_sum]
  exact Finset.sum_comm

variable [IsStrictOrderedRing K]

/-- An average over the possible paths is one over all paths. -/
theorem WellFormed.mul_posteriorAverage (sound : m.WellFormed) (positive : 0 < m.probability xs)
    (f : List Q.Code → K) :
    m.probability xs * m.posteriorAverage xs f =
      ∑ states ∈ Q.paths xs.length, m.jointProbability states xs * f states := by
  have weights : ∀ states : List Q.Code,
      m.probability xs * (m.jointProbability states xs / m.probability xs * f states) =
        m.jointProbability states xs * f states := by
    intro states
    rw [← mul_assoc, mul_div_cancel₀ _ positive.ne']
  simp only [posteriorAverage, possiblePaths, Finset.mul_sum, weights]
  refine Finset.sum_filter_of_ne fun states _ occurs => ?_
  exact lt_of_le_of_ne (sound.jointProbability_nonneg states xs)
    (left_ne_zero_of_mul occurs).symm

theorem WellFormed.posteriorAverage_of_const (sound : m.WellFormed)
    (positive : 0 < m.probability xs) {f : List Q.Code → K} {a : K}
    (same : ∀ states ∈ m.possiblePaths xs, f states = a) : m.posteriorAverage xs f = a := by
  refine mul_left_cancel₀ positive.ne' ?_
  rw [posteriorAverage_congr same, sound.mul_posteriorAverage positive, probability,
    Finset.sum_mul]

theorem posteriorAverage_mono (positive : 0 < m.probability xs) {f g : List Q.Code → K}
    (below : ∀ states ∈ m.possiblePaths xs, f states ≤ g states) :
    m.posteriorAverage xs f ≤ m.posteriorAverage xs g := by
  refine Finset.sum_le_sum fun states possible => ?_
  have weight := div_nonneg (Finset.mem_filter.mp possible).2.le positive.le
  exact mul_le_mul_of_nonneg_left (below states possible) weight

/-- A cell of the expected counts is an average over the possible paths. -/
theorem Expects.cell_eq_average {counts : Counts (.ofModel Q.size A.size) K σ}
    (expects : m.Expects xs counts) (sound : m.WellFormed) (positive : 0 < m.probability xs)
    (cell : Cell Q A) :
    counts.cell cell = m.posteriorAverage xs fun states => (cellCount states xs cell : K) := by
  refine mul_left_cancel₀ positive.ne' ?_
  rw [expects, sound.mul_posteriorAverage positive]

variable [DecidableEq S] [DecidableEq E]

/-- **Expected counts are posterior averages.** Every cell of the expected counts
of a sequence is the average of that cell over the possible state paths, each of
which can be counted as a labelled sequence. -/
theorem expectedCounts_eq_average [Score σ] [Logarithm K σ] (reach : m.Reachable)
    {symbols : List E} (known : A.encode symbols = .ok xs) (observed : xs ≠ [])
    (positive : 0 < m.probability xs) :
    ∃ counts : Counts (.ofModel Q.size A.size) K σ,
      m.expectedCounts xs = (.ok counts : Except (Error S E K) _) ∧
      (∀ states ∈ m.possiblePaths xs, ∃ sequence : Sequence S E,
        Sequence.ofStates symbols (states.map Q.symbol) = (.ok sequence : Except (Error S E K) _) ∧
        m.labelledCounts sequence =
          (.ok (m.pathCounts (states.zip xs)) : Except (Error S E K) (Counts _ K σ))) ∧
      (∀ k, counts.initial.get k = m.posteriorAverage xs fun states =>
        (m.pathCounts (states.zip xs) : Counts _ K σ).initial.get k) ∧
      (∀ k l, counts.transitions.get k l = m.posteriorAverage xs fun states =>
        (m.pathCounts (states.zip xs) : Counts _ K σ).transitions.get k l) ∧
      ∀ k x, counts.emissions.get k x = m.posteriorAverage xs fun states =>
        (m.pathCounts (states.zip xs) : Counts _ K σ).emissions.get k x := by
  have sound := reach.wellFormed
  obtain ⟨-, -, counts, computed, -, expects⟩ := sound.expectedCounts_eq_ok (σ := σ) positive
  have average : ∀ cell : Cell Q A, counts.cell cell = m.posteriorAverage xs fun states =>
      (m.pathCounts (states.zip xs) : Counts _ K σ).cell cell := by
    intro cell
    rw [expects.cell_eq_average sound positive]
    refine posteriorAverage_congr fun states possible => ?_
    rw [m.cell_pathCounts (Alphabet.mem_paths.mp (Finset.mem_filter.mp possible).1)]
  refine ⟨counts, computed, fun states possible => ?_, fun k => average (.inl k),
    fun k l => average (.inr (.inl (k, l))), fun k x => average (.inr (.inr (k, x)))⟩
  obtain ⟨path, joint⟩ := Finset.mem_filter.mp possible
  exact labelledCounts_eq_ok known observed (Alphabet.mem_paths.mp path) joint.ne'

theorem expectedCounts_machine :
    ∃ counts : Counts (.ofModel 2 2) ℚ EReal,
      Machine.model.expectedCounts Machine.shown = (.ok counts : Except (Error Nat Nat ℚ) _) ∧
      ∀ k l, counts.transitions.get k l = Machine.model.posteriorAverage Machine.shown fun states =>
        (Machine.model.pathCounts (states.zip Machine.shown) :
          Counts (.ofModel 2 2) ℚ EReal).transitions.get k l := by
  have known : Machine.symbols.encode [0, 0, 1] = .ok Machine.shown := by decide
  obtain ⟨counts, computed, -, -, steps, -⟩ := expectedCounts_eq_average (σ := EReal)
    Machine.model_reachable known (by decide) (by decide +kernel)
  exact ⟨counts, computed, steps⟩

end Average

end Model

end Trellis
