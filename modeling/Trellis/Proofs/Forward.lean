import Mathlib.Algebra.Order.BigOperators.GroupWithZero.List
import Trellis.Forward
import Trellis.Proofs.Paths
import Trellis.Proofs.Scores
import Trellis.Proofs.Soundness

/-!
# The forward recursion

The scaled rows of the forward recursion are the shares of the path sums of the
prefixes, and its scales are the ratios of consecutive path sums. It stops at
the first prefix that no path can emit. Along the recursion only the weights
change from unscaled to scaled ones, and a path sum is homogeneous in them
(`pathSum_smul`), so each division by a scale cancels (`pathSum_next`).
`forward_eq_path_sums` states rows, scales and the position of a failure; in
between, a sequence that is possible has steps (`WellFormed.exists_forward`).
-/

namespace Trellis

variable {S E K σ : Type} {Q : Alphabet S} {A : Alphabet E} [Field K] [LinearOrder K]

namespace Model

/-! ### Dense sums -/

omit [LinearOrder K] in
/-- The sum over the states with arcs into a state is the sum over all states. -/
theorem total_predecessors (m : Model Q A K) (l : Q.Code) {f : Q.Code → K}
    (absent : ∀ k, m.transition k l = 0 → f k = 0) :
    total ((m.predecessors l).map f) = ∑ k, f k := by
  rw [predecessors_eq, Alphabet.codes, total_map_filter_finRange]
  refine Finset.sum_congr rfl fun k _ => ?_
  split
  · rfl
  · rename_i forbidden
    exact (absent k (Parameters.transition_eq_zero (Bool.eq_false_iff.mpr forbidden))).symm

omit [LinearOrder K] in
/-- The sum over the states with arcs from a state is the sum over all states. -/
theorem total_successors (m : Model Q A K) (k : Q.Code) {f : Q.Code → K}
    (absent : ∀ l, m.transition k l = 0 → f l = 0) :
    total ((m.successors k).map f) = ∑ l, f l := by
  rw [successors_eq, Alphabet.codes, total_map_filter_finRange]
  refine Finset.sum_congr rfl fun l _ => ?_
  split
  · rfl
  · rename_i forbidden
    exact (absent l (Parameters.transition_eq_zero (Bool.eq_false_iff.mpr forbidden))).symm

theorem get_rawRow_none (m : Model Q A K) (x : A.Code) : (m.rawRow none x).get = m.enter x := by
  funext k
  rw [rawRow, Row.get_ofFn]
  rfl

theorem get_rawRow_some (m : Model Q A K) (row : Vector K Q.size) (x : A.Code) :
    (m.rawRow (some row) x).get = m.advance row.get x := by
  funext l
  rw [rawRow, Row.get_ofFn, arrival, advance, m.total_predecessors l]
  intro k forbidden
  rw [forbidden, mul_zero]

/-- The probability of a prefix, from the first row before scaling. -/
theorem probability_take_succ (m : Model Q A K) (x : A.Code) (rest : List A.Code) (t : Nat) :
    m.probability ((x :: rest).take (t + 1)) = m.mass (m.rawRow none x).get (rest.take t) := by
  rw [List.take_succ_cons, probability_cons, get_rawRow_none]

/-! ### Sums that are not negative -/

namespace WellFormed

variable [IsStrictOrderedRing K] {m : Model Q A K}

theorem enter_nonneg (sound : m.WellFormed) (x : A.Code) (k : Q.Code) : 0 ≤ m.enter x k :=
  mul_nonneg (sound.parameters.emission_nonneg k x) (sound.initial k).1

omit [IsStrictOrderedRing K] in
theorem laterFactors_nonneg (sound : m.WellFormed) (k : Q.Code)
    (path : List (Q.Code × A.Code)) : ∀ p ∈ m.laterFactors k path, 0 ≤ p := by
  induction path generalizing k with
  | nil => simp [laterFactors]
  | cons step rest ih =>
    obtain ⟨l, x⟩ := step
    intro p mem
    rcases List.mem_cons.mp mem with rfl | mem
    · exact sound.parameters.transition_nonneg k l
    rcases List.mem_cons.mp mem with rfl | mem
    · exact sound.parameters.emission_nonneg l x
    · exact ih l p mem

omit [IsStrictOrderedRing K] in
theorem factors_nonneg (sound : m.WellFormed) (path : List (Q.Code × A.Code)) :
    ∀ p ∈ m.factors path, 0 ≤ p := by
  cases path with
  | nil => simp [factors]
  | cons step rest =>
    obtain ⟨k, x⟩ := step
    intro p mem
    rcases List.mem_cons.mp mem with rfl | mem
    · exact (sound.initial k).1
    rcases List.mem_cons.mp mem with rfl | mem
    · exact sound.parameters.emission_nonneg k x
    · exact sound.laterFactors_nonneg k rest p mem

theorem jointProbability_nonneg (sound : m.WellFormed) (states : List Q.Code)
    (symbols : List A.Code) : 0 ≤ m.jointProbability states symbols :=
  List.prod_nonneg (sound.factors_nonneg _)

theorem probability_nonneg (sound : m.WellFormed) (xs : List A.Code) : 0 ≤ m.probability xs :=
  Finset.sum_nonneg fun states _ => sound.jointProbability_nonneg states xs

theorem laterProbability_nonneg (sound : m.WellFormed) (k : Q.Code) (states : List Q.Code)
    (symbols : List A.Code) : 0 ≤ m.laterProbability k states symbols :=
  List.prod_nonneg (sound.laterFactors_nonneg k _)

theorem continuation_nonneg (sound : m.WellFormed) (k : Q.Code) (symbols : List A.Code) :
    0 ≤ m.continuation k symbols :=
  Finset.sum_nonneg fun states _ => sound.laterProbability_nonneg k states symbols

variable {weight : Q.Code → K}

theorem advance_nonneg (sound : m.WellFormed) (nonneg : ∀ k, 0 ≤ weight k) (x : A.Code)
    (l : Q.Code) : 0 ≤ m.advance weight x l :=
  mul_nonneg (sound.parameters.emission_nonneg l x)
    (Finset.sum_nonneg fun k _ => mul_nonneg (nonneg k) (sound.parameters.transition_nonneg k l))

theorem mass_nonneg (sound : m.WellFormed) (nonneg : ∀ k, 0 ≤ weight k)
    (symbols : List A.Code) : 0 ≤ m.mass weight symbols := by
  rw [mass_eq_sum]
  exact Finset.sum_nonneg fun k _ => mul_nonneg (nonneg k) (sound.continuation_nonneg k symbols)

/-- Weights that add up to zero lead nowhere. -/
theorem mass_eq_zero (nonneg : ∀ k, 0 ≤ weight k)
    (vacant : ∑ k, weight k = 0) (symbols : List A.Code) : m.mass weight symbols = 0 := by
  rw [mass_eq_sum]
  refine Finset.sum_eq_zero fun k member => ?_
  rw [(Finset.sum_eq_zero_iff_of_nonneg fun j _ => nonneg j).mp vacant k member, zero_mul]

theorem sum_pos_of_mass_pos (nonneg : ∀ k, 0 ≤ weight k) {symbols : List A.Code}
    (positive : 0 < m.mass weight symbols) : 0 < ∑ k, weight k := by
  refine lt_of_le_of_ne (Finset.sum_nonneg fun k _ => nonneg k) fun vacant => ?_
  rw [mass_eq_zero nonneg vacant.symm] at positive
  exact lt_irrefl 0 positive

/-- Every prefix of possible symbols is possible. -/
theorem mass_take_pos (sound : m.WellFormed) (nonneg : ∀ k, 0 ≤ weight k)
    {symbols : List A.Code} (positive : 0 < m.mass weight symbols) (t : Nat) :
    0 < m.mass weight (symbols.take t) := by
  induction t generalizing weight symbols with
  | zero =>
    rw [List.take_zero, mass_nil]
    exact sum_pos_of_mass_pos nonneg positive
  | succ t ih =>
    cases symbols with
    | nil => exact positive
    | cons x rest =>
      rw [mass_cons] at positive
      rw [List.take_succ_cons, mass_cons]
      exact ih (sound.advance_nonneg nonneg x) positive

theorem probability_take_pos (sound : m.WellFormed) {xs : List A.Code}
    (positive : 0 < m.probability xs) (t : Nat) : 0 < m.probability (xs.take t) := by
  cases xs with
  | nil => rwa [List.take_nil]
  | cons x rest =>
    cases t with
    | zero =>
      rw [List.take_zero, probability_nil]
      exact one_pos
    | succ t =>
      rw [probability_cons] at positive
      rw [List.take_succ_cons, probability_cons]
      exact sound.mass_take_pos (sound.enter_nonneg x) positive t

end WellFormed

/-! ### The recursion without failures -/

/-- A row before scaling, divided by its total. -/
def scaledRow (raw : Vector K Q.size) : Vector K Q.size := raw.map (· / ∑ k, raw.get k)

/-- The steps from a row before scaling on, given the later symbols. -/
def stepsFrom (m : Model Q A K) (raw : Vector K Q.size) :
    List A.Code → List (ForwardStep Q.size K)
  | [] => [⟨scaledRow raw, ∑ k, raw.get k⟩]
  | x :: rest =>
    ⟨scaledRow raw, ∑ k, raw.get k⟩ :: m.stepsFrom (m.rawRow (some (scaledRow raw)) x) rest

@[simp] theorem length_stepsFrom (m : Model Q A K) (raw : Vector K Q.size)
    (rest : List A.Code) : (m.stepsFrom raw rest).length = rest.length + 1 := by
  induction rest generalizing raw with
  | nil => rfl
  | cons x rest ih => simp [stepsFrom, ih]

theorem scaleOf_eq_ok {position : Nat} {raw : Vector K Q.size} (positive : 0 < ∑ k, raw.get k) :
    scaleOf position raw = (.ok (∑ k, raw.get k) : Except (Error S E K) K) := by
  simp only [scaleOf, rowTotal_toList]
  exact if_pos (isDivisor_iff.mpr positive)

theorem scaleOf_eq_error {position : Nat} {raw : Vector K Q.size}
    (vacant : ∑ k, raw.get k = 0) :
    scaleOf position raw = (.error (.numerical position (.scale 0)) : Except (Error S E K) K) := by
  simp only [scaleOf, rowTotal_toList, vacant]
  exact if_neg (mt isDivisor_iff.mp (lt_irrefl 0))

theorem forwardFrom_cons (m : Model Q A K) (position : Nat)
    (previous : Option (Vector K Q.size)) (x : A.Code) (rest : List A.Code)
    (positive : 0 < ∑ k, (m.rawRow previous x).get k) :
    m.forwardFrom position previous (x :: rest) =
      (m.forwardFrom (position + 1) (some (scaledRow (m.rawRow previous x))) rest).map
        (⟨scaledRow (m.rawRow previous x), ∑ k, (m.rawRow previous x).get k⟩ :: ·) := by
  simp only [forwardFrom, scaleOf_eq_ok positive]
  rfl

theorem sum_scaledRow {raw : Vector K Q.size} (positive : 0 < ∑ k, raw.get k) :
    ∑ k, (scaledRow raw).get k = 1 := by
  simp only [scaledRow, Row.get_map, ← Finset.sum_div]
  exact div_self positive.ne'

omit [LinearOrder K] in
theorem pathSum_scaledRow (m : Model Q A K) (raw : Vector K Q.size) (symbols : List A.Code)
    (f : List Q.Code → K) :
    m.pathSum (scaledRow raw).get symbols f =
      m.pathSum raw.get symbols f / ∑ k, raw.get k := by
  have row : (scaledRow raw).get = fun k => (∑ k, raw.get k)⁻¹ * raw.get k := by
    funext k
    rw [scaledRow, Row.get_map, div_eq_inv_mul]
  rw [row, pathSum_smul, div_eq_inv_mul]

/-- The next row before scaling carries the path sums on, up to the scale. -/
theorem pathSum_next (m : Model Q A K) (raw : Vector K Q.size) (x : A.Code)
    (symbols : List A.Code) {f h : List Q.Code → K}
    (split : ∀ k l states, f (k :: l :: states) = h (l :: states)) :
    m.pathSum (m.rawRow (some (scaledRow raw)) x).get symbols h =
      m.pathSum raw.get (x :: symbols) f / ∑ k, raw.get k := by
  rw [get_rawRow_some, ← m.pathSum_tail _ x symbols split, pathSum_scaledRow]

theorem mass_next (m : Model Q A K) (raw : Vector K Q.size) (x : A.Code)
    (symbols : List A.Code) :
    m.mass (m.rawRow (some (scaledRow raw)) x).get symbols =
      m.mass raw.get (x :: symbols) / ∑ k, raw.get k :=
  m.pathSum_next raw x symbols fun _ _ _ => rfl

theorem sum_mul_mass_next (m : Model Q A K) {raw : Vector K Q.size}
    (occupied : ∑ k, raw.get k ≠ 0) (x : A.Code) (symbols : List A.Code) :
    (∑ k, raw.get k) * m.mass (m.rawRow (some (scaledRow raw)) x).get symbols =
      m.mass raw.get (x :: symbols) := by
  rw [mass_next, mul_div_cancel₀ _ occupied]

/-- Weights that are not negative and from which the symbols are possible. -/
structure Alive (m : Model Q A K) (raw : Vector K Q.size) (rest : List A.Code) : Prop where
  nonneg : ∀ k, 0 ≤ raw.get k
  positive : 0 < m.mass raw.get rest

section Alive

variable [IsStrictOrderedRing K]

namespace Alive

variable {m : Model Q A K} {raw : Vector K Q.size} {x : A.Code} {rest : List A.Code}

theorem sum_pos (alive : m.Alive raw rest) : 0 < ∑ k, raw.get k :=
  WellFormed.sum_pos_of_mass_pos alive.nonneg alive.positive

theorem scaledRow_nonneg (alive : m.Alive raw rest) (k : Q.Code) : 0 ≤ (scaledRow raw).get k := by
  rw [scaledRow, Row.get_map]
  exact div_nonneg (alive.nonneg k) alive.sum_pos.le

theorem next (alive : m.Alive raw (x :: rest)) (sound : m.WellFormed) :
    m.Alive (m.rawRow (some (scaledRow raw)) x) rest where
  nonneg l := by
    rw [get_rawRow_some]
    exact sound.advance_nonneg alive.scaledRow_nonneg x l
  positive := by
    rw [mass_next]
    exact div_pos alive.positive alive.sum_pos

end Alive

theorem forwardFrom_eq_ok {m : Model Q A K} (sound : m.WellFormed) (position : Nat)
    (previous : Option (Vector K Q.size)) (x : A.Code) (rest : List A.Code)
    (alive : m.Alive (m.rawRow previous x) rest) :
    m.forwardFrom position previous (x :: rest) = .ok (m.stepsFrom (m.rawRow previous x) rest) := by
  induction rest generalizing position previous x with
  | nil =>
    rw [forwardFrom_cons m position previous x [] alive.sum_pos]
    rfl
  | cons y rest ih =>
    rw [forwardFrom_cons m position previous x _ alive.sum_pos, ih _ _ _ (alive.next sound)]
    rfl

/-- The product of the scales is the mass of the whole sequence. -/
theorem prod_scale_stepsFrom {m : Model Q A K} (sound : m.WellFormed) {raw : Vector K Q.size}
    {rest : List A.Code} (alive : m.Alive raw rest) :
    ((m.stepsFrom raw rest).map ForwardStep.scale).prod = m.mass raw.get rest := by
  induction rest generalizing raw with
  | nil => simp [stepsFrom, mass_nil]
  | cons x rest ih =>
    rw [stepsFrom, List.map_cons, List.prod_cons, ih (alive.next sound)]
    exact m.sum_mul_mass_next alive.sum_pos.ne' x rest

theorem scale_stepsFrom_pos {m : Model Q A K} (sound : m.WellFormed) {raw : Vector K Q.size}
    {rest : List A.Code} (alive : m.Alive raw rest) {step : ForwardStep Q.size K}
    (mem : step ∈ m.stepsFrom raw rest) : 0 < step.scale := by
  induction rest generalizing raw with
  | nil =>
    rw [List.mem_singleton.mp mem]
    exact alive.sum_pos
  | cons x rest ih =>
    rcases List.mem_cons.mp mem with rfl | later
    · exact alive.sum_pos
    · exact ih (alive.next sound) later

theorem sum_row_stepsFrom {m : Model Q A K} (sound : m.WellFormed) {raw : Vector K Q.size}
    {rest : List A.Code} (alive : m.Alive raw rest) {step : ForwardStep Q.size K}
    (mem : step ∈ m.stepsFrom raw rest) : ∑ k, step.row.get k = 1 := by
  induction rest generalizing raw with
  | nil =>
    rw [List.mem_singleton.mp mem]
    exact sum_scaledRow alive.sum_pos
  | cons x rest ih =>
    rcases List.mem_cons.mp mem with rfl | later
    · exact sum_scaledRow alive.sum_pos
    · exact ih (alive.next sound) later

/-- A scaled row holds the shares of the states in which the paths of the prefix end. -/
theorem row_stepsFrom {m : Model Q A K} (sound : m.WellFormed) {raw : Vector K Q.size}
    {rest : List A.Code} (alive : m.Alive raw rest) {t : Nat} {step : ForwardStep Q.size K}
    (at_t : (m.stepsFrom raw rest)[t]? = some step) (l : Q.Code) :
    step.row.get l =
      m.pathSum raw.get (rest.take t) (endsIn l) / m.mass raw.get (rest.take t) := by
  induction t generalizing raw rest with
  | zero =>
    have first : step = ⟨scaledRow raw, ∑ k, raw.get k⟩ := by
      cases rest <;> exact (Option.some.inj at_t).symm
    rw [first, List.take_zero, mass_nil, pathSum_nil, scaledRow, Row.get_map]
    simp [endsIn]
  | succ t ih =>
    cases rest with
    | nil => simp [stepsFrom] at at_t
    | cons x rest =>
      rw [stepsFrom, List.getElem?_cons_succ] at at_t
      rw [ih (alive.next sound) at_t, mass_next,
        m.pathSum_next raw x (rest.take t) (endsIn_cons_cons l),
        div_div_div_cancel_right₀ alive.sum_pos.ne', List.take_succ_cons]

/-- A scale is the ratio of the masses of consecutive prefixes. -/
theorem scale_stepsFrom {m : Model Q A K} (sound : m.WellFormed) {raw : Vector K Q.size}
    {rest : List A.Code} (alive : m.Alive raw rest) {t : Nat} {step : ForwardStep Q.size K}
    (at_t : (m.stepsFrom raw rest)[t]? = some step) :
    step.scale = m.mass raw.get (rest.take t) /
      if t = 0 then 1 else m.mass raw.get (rest.take (t - 1)) := by
  induction t generalizing raw rest with
  | zero =>
    have first : step = ⟨scaledRow raw, ∑ k, raw.get k⟩ := by
      cases rest <;> exact (Option.some.inj at_t).symm
    rw [first, List.take_zero, mass_nil, if_pos rfl, div_one]
  | succ t ih =>
    cases rest with
    | nil => simp [stepsFrom] at at_t
    | cons x rest =>
      rw [stepsFrom, List.getElem?_cons_succ] at at_t
      rw [ih (alive.next sound) at_t, if_neg (Nat.succ_ne_zero t), List.take_succ_cons, mass_next,
        Nat.add_sub_cancel]
      cases t with
      | zero => simp [mass_nil]
      | succ t =>
        rw [if_neg (Nat.succ_ne_zero t), Nat.add_sub_cancel, mass_next,
          div_div_div_cancel_right₀ alive.sum_pos.ne', List.take_succ_cons]

/-- A recursion over symbols that are not possible stops at the first of them. -/
theorem forwardFrom_eq_error {m : Model Q A K} (sound : m.WellFormed) (position : Nat)
    (previous : Option (Vector K Q.size)) (x : A.Code) (rest : List A.Code)
    (nonneg : ∀ k, 0 ≤ (m.rawRow previous x).get k)
    (dead : m.mass (m.rawRow previous x).get rest = 0) :
    ∃ t ≤ rest.length,
      m.forwardFrom position previous (x :: rest) = .error (.numerical (position + t) (.scale 0)) ∧
        m.mass (m.rawRow previous x).get (rest.take t) = 0 ∧
        ∀ s < t, 0 < m.mass (m.rawRow previous x).get (rest.take s) := by
  induction rest generalizing position previous x with
  | nil =>
    rw [mass_nil] at dead
    refine ⟨0, le_rfl, ?_, by rw [List.take_zero, mass_nil, dead], by simp⟩
    simp only [forwardFrom, scaleOf_eq_error dead]
    rfl
  | cons y rest ih =>
    by_cases vacant : ∑ k, (m.rawRow previous x).get k = 0
    · refine ⟨0, Nat.zero_le _, ?_, by rw [List.take_zero, mass_nil, vacant], by simp⟩
      simp only [forwardFrom, scaleOf_eq_error vacant]
      rfl
    · have positive : 0 < ∑ k, (m.rawRow previous x).get k :=
        lt_of_le_of_ne (Finset.sum_nonneg fun k _ => nonneg k) (Ne.symm vacant)
      set raw := m.rawRow previous x with raw_eq
      obtain ⟨t, bound, failed, zero, before⟩ := ih (position + 1) (some (scaledRow raw)) y
        (fun l => by
          rw [get_rawRow_some]
          refine sound.advance_nonneg (fun k => ?_) y l
          rw [scaledRow, Row.get_map]
          exact div_nonneg (nonneg k) positive.le)
        (by rw [mass_next, dead, zero_div])
      have scaled : ∀ s, m.mass raw.get ((y :: rest).take (s + 1)) = (∑ k, raw.get k) *
          m.mass (m.rawRow (some (scaledRow raw)) y).get (rest.take s) := by
        intro s
        rw [m.sum_mul_mass_next vacant, List.take_succ_cons]
      refine ⟨t + 1, Nat.succ_le_succ bound, ?_, ?_, ?_⟩
      · rw [forwardFrom_cons m position previous x _ positive, failed, Nat.add_right_comm,
          Nat.add_assoc]
        rfl
      · rw [scaled, zero, mul_zero]
      · intro s lt
        cases s with
        | zero => rwa [List.take_zero, mass_nil]
        | succ s =>
          rw [scaled]
          exact mul_pos positive (before s (Nat.lt_of_succ_lt_succ lt))

theorem WellFormed.alive {m : Model Q A K} (sound : m.WellFormed) {x : A.Code}
    {rest : List A.Code} (positive : 0 < m.probability (x :: rest)) :
    m.Alive (m.rawRow none x) rest where
  nonneg k := by
    rw [get_rawRow_none]
    exact sound.enter_nonneg x k
  positive := by rwa [get_rawRow_none, ← probability_cons]

/-- Over possible symbols the forward recursion succeeds. -/
theorem WellFormed.forward_eq_ok {m : Model Q A K} (sound : m.WellFormed) {x : A.Code}
    {rest : List A.Code} (positive : 0 < m.probability (x :: rest)) :
    m.forward (x :: rest) = .ok (m.stepsFrom (m.rawRow none x) rest) :=
  forwardFrom_eq_ok sound 0 none x rest (sound.alive positive)

/-- Over symbols that are not possible the recursion stops at the first prefix
that is not. -/
theorem WellFormed.forward_eq_error {m : Model Q A K} (sound : m.WellFormed) {xs : List A.Code}
    (impossible : ¬ 0 < m.probability xs) :
    ∃ t < xs.length,
      m.forward xs = (.error (.numerical t (.scale 0)) : Except (Error S E K) _) ∧
        m.probability (xs.take (t + 1)) = 0 ∧ ∀ s < t, 0 < m.probability (xs.take (s + 1)) := by
  cases xs with
  | nil =>
    rw [probability_nil] at impossible
    exact absurd one_pos impossible
  | cons x rest =>
    have nonneg : ∀ k, 0 ≤ (m.rawRow none x).get k := by
      rw [get_rawRow_none]
      exact sound.enter_nonneg x
    have dead : m.mass (m.rawRow none x).get rest = 0 := by
      rw [probability_cons, ← get_rawRow_none] at impossible
      exact le_antisymm (not_lt.mp impossible) (sound.mass_nonneg nonneg rest)
    have prefixes := m.probability_take_succ x rest
    obtain ⟨t, bound, failed, zero, before⟩ :=
      forwardFrom_eq_error sound 0 none x rest nonneg dead
    refine ⟨t, Nat.lt_succ_of_le bound, ?_, by rw [prefixes, zero], fun s lt => ?_⟩
    · rw [forward, failed, Nat.zero_add]
    · rw [prefixes]
      exact before s lt

theorem WellFormed.probability_pos {m : Model Q A K} (sound : m.WellFormed) {xs : List A.Code}
    {steps : List (ForwardStep Q.size K)}
    (computed : m.forward xs = (.ok steps : Except (Error S E K) _)) : 0 < m.probability xs := by
  by_contra impossible
  obtain ⟨t, -, failed, -⟩ := sound.forward_eq_error impossible
  cases failed.symm.trans computed

/-- Over possible symbols the scales are positive and multiply to their probability. -/
theorem WellFormed.exists_scales {m : Model Q A K} (sound : m.WellFormed) {xs : List A.Code}
    (positive : 0 < m.probability xs) :
    ∃ steps, (m.forward xs : Except (Error S E K) _) = .ok steps ∧
      (steps.map ForwardStep.scale).prod = m.probability xs ∧
      ∀ step ∈ steps, 0 < step.scale := by
  cases xs with
  | nil => exact ⟨[], rfl, m.probability_nil.symm, by simp⟩
  | cons x rest =>
    have alive := sound.alive positive
    refine ⟨_, sound.forward_eq_ok positive, ?_, fun step => scale_stepsFrom_pos sound alive⟩
    rw [prod_scale_stepsFrom sound alive, probability_cons, get_rawRow_none]

/-- The log-likelihood is the logarithm of the probability. -/
theorem WellFormed.exists_forward [Score σ] [Logarithm K σ] [LawfulLogarithm K σ]
    {m : Model Q A K} (sound : m.WellFormed) {xs : List A.Code}
    (positive : 0 < m.probability xs) :
    ∃ steps, (m.forward xs : Except (Error S E K) _) = .ok steps ∧
      (steps.map ForwardStep.scale).prod = m.probability xs ∧
      ForwardStep.logLikelihood steps = (Logarithm.log (m.probability xs) : σ) := by
  obtain ⟨steps, computed, product, scales⟩ := sound.exists_scales positive
  refine ⟨steps, computed, product, ?_⟩
  rw [ForwardStep.logLikelihood, logLikelihood_eq_log_prod, product]
  intro c mem
  obtain ⟨step, member, rfl⟩ := List.mem_map.mp mem
  exact (scales step member).le

end Alive

/-! ### The recursion and the enumeration -/

section Reachable

variable [IsStrictOrderedRing K] [DecidableEq S] [DecidableEq E] {m : Model Q A K}

/-- **The forward recursion computes the path sums.** If every prefix is
possible, the recursion succeeds, and its rows and scales are the ratios of the
path sums of the prefixes; otherwise it fails at the first prefix that is not. -/
theorem forward_eq_path_sums [Score σ] [Logarithm K σ] (reach : m.Reachable)
    (xs : List A.Code) :
    ((∀ t < xs.length, 0 < m.probability (xs.take (t + 1))) →
      ∃ steps, m.forward xs = .ok steps ∧ steps.length = xs.length ∧
        (∀ t step, steps[t]? = some step →
          (∀ k, step.row.get k =
            m.probabilityEndingIn (xs.take (t + 1)) k / m.probability (xs.take (t + 1))) ∧
          step.scale = m.probability (xs.take (t + 1)) / m.probability (xs.take t) ∧
          (t = 0 → step.scale = m.probability (xs.take 1)) ∧
          ∑ k, step.row.get k = 1) ∧
        (steps.map ForwardStep.scale).prod = m.probability xs ∧
        ForwardStep.logLikelihood steps =
          total (steps.map fun step => (Logarithm.log step.scale : σ))) ∧
    ((¬ ∀ t < xs.length, 0 < m.probability (xs.take (t + 1))) →
      ∃ t < xs.length, m.forward xs = .error (.numerical t (.scale 0)) ∧
        m.probability (xs.take (t + 1)) = 0 ∧
        ∀ s < t, 0 < m.probability (xs.take (s + 1))) := by
  have sound := reach.wellFormed
  constructor
  · intro possible
    have logs : ∀ steps : List (ForwardStep Q.size K), ForwardStep.logLikelihood steps =
        total (steps.map fun step => (Logarithm.log step.scale : σ)) := by
      intro steps
      rw [ForwardStep.logLikelihood, logLikelihood, List.map_map]
      rfl
    cases xs with
    | nil => exact ⟨[], rfl, rfl, by simp, by simp, logs []⟩
    | cons x rest =>
      have prefixes := m.probability_take_succ x rest
      have positive : 0 < m.probability (x :: rest) := by
        simpa using possible rest.length (Nat.lt_succ_self _)
      have alive := sound.alive positive
      refine ⟨_, sound.forward_eq_ok positive, by simp, fun t step at_t => ?_, ?_, logs _⟩
      · have scale := scale_stepsFrom sound alive at_t
        refine ⟨fun k => ?_, ?_, ?_, sum_row_stepsFrom sound alive (List.mem_of_getElem? at_t)⟩
        · rw [row_stepsFrom sound alive at_t, prefixes, List.take_succ_cons,
            probabilityEndingIn_cons, get_rawRow_none]
        · cases t with
          | zero =>
            rw [scale, prefixes, if_pos rfl, List.take_zero (l := x :: rest), probability_nil]
          | succ t =>
            rw [scale, prefixes, prefixes, if_neg (Nat.succ_ne_zero t), Nat.add_sub_cancel]
        · rintro rfl
          rw [scale, if_pos rfl, div_one, ← prefixes]
      · rw [prod_scale_stepsFrom sound alive, probability_cons, get_rawRow_none]
  · intro impossible
    refine sound.forward_eq_error fun positive => impossible fun t _ => ?_
    exact sound.probability_take_pos positive (t + 1)

theorem forward_machine :
    ∃ steps, Machine.model.forward Machine.shown = .ok steps ∧
      (steps.map ForwardStep.scale).prod = Machine.model.probability Machine.shown ∧
      (ForwardStep.logLikelihood steps : EReal) =
        total (steps.map fun step => Logarithm.log step.scale) := by
  obtain ⟨computed, -⟩ :=
    forward_eq_path_sums (σ := EReal) Machine.model_reachable Machine.shown
  obtain ⟨steps, succeeded, -, -, product, logs⟩ := computed (by decide +kernel)
  exact ⟨steps, succeeded, product, logs⟩

end Reachable

end Model

end Trellis
