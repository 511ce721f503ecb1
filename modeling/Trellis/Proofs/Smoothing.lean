import Trellis.Posterior
import Trellis.Proofs.Forward

/-!
# Smoothing

The backward rows are the probabilities of the later symbols, divided by the
scales of their positions (`get_backwardRows_mul_prod`). Over possible symbols the
scales multiply to the probability of the sequence, so the products of the two
recursions are the posterior probabilities of the states (`row_mul_backward`) and
already add up to one (`sum_posterior`). So smoothing succeeds
(`WellFormed.smooth_eq_ok`).
-/

namespace Trellis.Model

variable {S E K : Type} {Q : Alphabet S} {A : Alphabet E} [Field K] [LinearOrder K]

/-! ### Backward rows -/

theorem get_backwardRow (m : Model Q A K) (x : A.Code) (scale : K) (next : Vector K Q.size)
    (k : Q.Code) :
    (m.backwardRow x scale next).get k =
      (∑ l, m.transition k l * m.emission l x * next.get l) / scale := by
  rw [backwardRow, Row.get_ofFn, m.total_successors k]
  intro l forbidden
  rw [forbidden, zero_mul, zero_mul]

/-- A backward row is the probability of the later symbols, up to the scales. -/
theorem get_backwardRows_mul_prod (m : Model Q A K) {later : List (A.Code × K)}
    (divisors : ∀ p ∈ later, p.2 ≠ 0) (k : Q.Code) :
    (m.backwardRows later).1.get k * (later.map Prod.snd).prod =
      m.continuation k (later.map Prod.fst) := by
  induction later generalizing k with
  | nil => simp [backwardRows]
  | cons p rest ih =>
    obtain ⟨x, scale⟩ := p
    have divisor : scale ≠ 0 := divisors _ List.mem_cons_self
    have next := ih fun q mem => divisors q (List.mem_cons_of_mem _ mem)
    have row : (m.backwardRows ((x, scale) :: rest)).1 =
        m.backwardRow x scale (m.backwardRows rest).1 := rfl
    rw [row, get_backwardRow, List.map_cons, List.prod_cons, List.map_cons, continuation_cons,
      ← mul_assoc, div_mul_cancel₀ _ divisor, Finset.sum_mul]
    refine Finset.sum_congr rfl fun l _ => ?_
    rw [mul_assoc, next l]

/-! ### Positions -/

/-- The later symbols with the scales of their positions. -/
def laterScales (m : Model Q A K) (raw : Vector K Q.size) (rest : List A.Code) :
    List (A.Code × K) :=
  rest.zip ((m.stepsFrom raw rest).tail.map ForwardStep.scale)

/-- What the recursions say about the position of a row before scaling. -/
def smoothedStep (m : Model Q A K) (raw : Vector K Q.size) (rest : List A.Code) :
    Smoothed Q.size K where
  forward := ⟨scaledRow raw, ∑ k, raw.get k⟩
  backward := (m.backwardRows (m.laterScales raw rest)).1
  posterior := .ofFn fun k => raw.get k * m.continuation k rest / m.mass raw.get rest

/-- The positions from a row before scaling on. -/
def smoothedFrom (m : Model Q A K) (raw : Vector K Q.size) : List A.Code → List (Smoothed Q.size K)
  | [] => [m.smoothedStep raw []]
  | x :: rest =>
    m.smoothedStep raw (x :: rest) :: m.smoothedFrom (m.rawRow (some (scaledRow raw)) x) rest

theorem stepsFrom_eq_cons (m : Model Q A K) (raw : Vector K Q.size) (rest : List A.Code) :
    m.stepsFrom raw rest = ⟨scaledRow raw, ∑ k, raw.get k⟩ :: (m.stepsFrom raw rest).tail := by
  cases rest <;> rfl

theorem laterScales_cons (m : Model Q A K) (raw : Vector K Q.size) (x : A.Code)
    (rest : List A.Code) :
    m.laterScales raw (x :: rest) =
      (x, ∑ k, (m.rawRow (some (scaledRow raw)) x).get k) ::
        m.laterScales (m.rawRow (some (scaledRow raw)) x) rest := by
  rw [laterScales, stepsFrom, List.tail_cons, stepsFrom_eq_cons, List.map_cons, List.zip_cons_cons]
  rfl

theorem map_fst_laterScales (m : Model Q A K) (raw : Vector K Q.size) (rest : List A.Code) :
    (m.laterScales raw rest).map Prod.fst = rest := by
  rw [laterScales, List.map_fst_zip]
  simp

theorem map_forward_smoothedFrom (m : Model Q A K) (raw : Vector K Q.size) (rest : List A.Code) :
    (m.smoothedFrom raw rest).map Smoothed.forward = m.stepsFrom raw rest := by
  induction rest generalizing raw with
  | nil => rfl
  | cons x rest ih => exact congrArg _ (ih _)

theorem map_backward_smoothedFrom (m : Model Q A K) (raw : Vector K Q.size)
    (rest : List A.Code) :
    (m.smoothedFrom raw rest).map Smoothed.backward =
      (m.backwardRows (m.laterScales raw rest)).1 ::
        (m.backwardRows (m.laterScales raw rest)).2 := by
  induction rest generalizing raw with
  | nil => rfl
  | cons x rest ih => simp only [smoothedFrom, smoothedStep, List.map_cons, ih, laterScales_cons,
      backwardRows]

section Alive

variable [IsStrictOrderedRing K] {m : Model Q A K} {raw : Vector K Q.size} {rest : List A.Code}

theorem scale_pos (sound : m.WellFormed) (alive : m.Alive raw rest) :
    ∀ p ∈ m.laterScales raw rest, 0 < p.2 := by
  intro p mem
  obtain ⟨step, later, eq⟩ := List.mem_map.mp (List.of_mem_zip mem).2
  rw [← eq]
  exact scale_stepsFrom_pos sound alive (List.mem_of_mem_tail later)

/-- The scales of the later positions multiply to the rest of the mass. -/
theorem sum_mul_prod_laterScales (sound : m.WellFormed) (alive : m.Alive raw rest) :
    (∑ k, raw.get k) * ((m.laterScales raw rest).map Prod.snd).prod = m.mass raw.get rest := by
  have scales : (m.laterScales raw rest).map Prod.snd =
      (m.stepsFrom raw rest).tail.map ForwardStep.scale := by
    rw [laterScales, List.map_snd_zip]
    simp
  rw [scales, ← prod_scale_stepsFrom sound alive, stepsFrom_eq_cons m raw rest]
  rfl

/-- A backward row, divided by the scale of its position, is the probability of
the later symbols among all that follows the row before scaling. -/
theorem backward_div_scale (sound : m.WellFormed) (alive : m.Alive raw rest) (k : Q.Code) :
    (m.smoothedStep raw rest).backward.get k / (m.smoothedStep raw rest).forward.scale =
      m.continuation k rest / m.mass raw.get rest := by
  have backward := m.get_backwardRows_mul_prod
    (fun p mem => (scale_pos sound alive p mem).ne') k
  rw [map_fst_laterScales] at backward
  have mass := sum_mul_prod_laterScales sound alive
  have prod_ne : ((m.laterScales raw rest).map Prod.snd).prod ≠ 0 := by
    intro zero
    rw [zero, mul_zero] at mass
    exact alive.positive.ne mass
  rw [← backward, ← mass, mul_comm (∑ k, raw.get k),
    mul_comm ((m.backwardRows (m.laterScales raw rest)).1.get k), mul_div_mul_left _ _ prod_ne]
  rfl

/-- The product of the two recursions is the posterior probability of the state. -/
theorem row_mul_backward (sound : m.WellFormed) (alive : m.Alive raw rest) (k : Q.Code) :
    (m.smoothedStep raw rest).forward.row.get k * (m.smoothedStep raw rest).backward.get k =
      (m.smoothedStep raw rest).posterior.get k := by
  have row : (m.smoothedStep raw rest).forward.row.get k =
      raw.get k / (m.smoothedStep raw rest).forward.scale := Row.get_map _ _ _
  rw [row, div_mul_eq_mul_div, mul_div_assoc, backward_div_scale sound alive, ← mul_div_assoc,
    smoothedStep, Row.get_ofFn]

omit [IsStrictOrderedRing K] in
/-- The posteriors of a position add up to one before they are divided. -/
theorem sum_posterior (alive : m.Alive raw rest) :
    ∑ k, (m.smoothedStep raw rest).posterior.get k = 1 := by
  simp only [smoothedStep, Row.get_ofFn, ← Finset.sum_div, ← mass_eq_sum]
  exact div_self alive.positive.ne'

theorem posteriorRow_smoothedStep (sound : m.WellFormed) (alive : m.Alive raw rest)
    (position : Nat) :
    posteriorRow position (m.smoothedStep raw rest).forward.row (m.smoothedStep raw rest).backward =
      (.ok (m.smoothedStep raw rest).posterior : Except (Error S E K) _) := by
  have products : (m.smoothedStep raw rest).forward.row.zipWith (· * ·)
      (m.smoothedStep raw rest).backward = (m.smoothedStep raw rest).posterior := by
    refine Row.ext fun k => ?_
    rw [Row.get_zipWith, row_mul_backward sound alive]
  simp only [posteriorRow, products, rowTotal_toList, sum_posterior alive,
    if_pos (isDivisor_iff.mpr one_pos)]
  congr 1
  exact Row.ext fun k => by rw [Row.get_map, div_one]

theorem posteriorRows_smoothedFrom (sound : m.WellFormed) (alive : m.Alive raw rest)
    (position : Nat) :
    posteriorRows position
        (((m.smoothedFrom raw rest).map fun p => p.forward.row).zip
          ((m.smoothedFrom raw rest).map Smoothed.backward)) =
      (.ok ((m.smoothedFrom raw rest).map Smoothed.posterior) : Except (Error S E K) _) := by
  induction rest generalizing raw position with
  | nil =>
    simp only [smoothedFrom, List.map_cons, List.map_nil, List.zip_cons_cons, List.zip_nil_left,
      posteriorRows, posteriorRow_smoothedStep sound alive]
    rfl
  | cons x rest ih =>
    simp only [smoothedFrom, List.map_cons, List.zip_cons_cons, posteriorRows,
      posteriorRow_smoothedStep sound alive, ih (alive.next sound)]
    rfl

omit [IsStrictOrderedRing K] in
theorem backward_stepsFrom (m : Model Q A K) (raw : Vector K Q.size) (x : A.Code)
    (rest : List A.Code) :
    m.backward (x :: rest) ((m.stepsFrom raw rest).map ForwardStep.scale) =
      (.ok ((m.smoothedFrom raw rest).map Smoothed.backward) : Except (Error S E K) _) := by
  rw [backward, if_pos (by simp), map_backward_smoothedFrom, stepsFrom_eq_cons, List.map_cons,
    List.zip_cons_cons]
  rfl

omit [LinearOrder K] [IsStrictOrderedRing K] [Field K] in
/-- Positions are put together again from what they say. -/
theorem zip_smoothed {n : Nat} (positions : List (Smoothed n K)) :
    (((positions.map Smoothed.forward).zip (positions.map Smoothed.backward)).zip
        (positions.map Smoothed.posterior)).map
      (fun ((f, b), p) => (⟨f, b, p⟩ : Smoothed n K)) = positions := by
  induction positions with
  | nil => rfl
  | cons p rest ih => simp only [List.map_cons, List.zip_cons_cons, ih]

/-- Over possible symbols both recursions and the posteriors succeed. -/
theorem WellFormed.smooth_eq_ok (sound : m.WellFormed) {x : A.Code}
    (positive : 0 < m.probability (x :: rest)) :
    m.smooth (x :: rest) = .ok (m.smoothedFrom (m.rawRow none x) rest) := by
  have posteriors := posteriorRows_smoothedFrom sound (sound.alive positive) 0
  have steps := m.map_forward_smoothedFrom (m.rawRow none x) rest
  simp only [smooth, sound.forward_eq_ok positive, bind, Except.bind, backward_stepsFrom]
  rw [← steps, List.map_map]
  simp only [Function.comp_def, posteriors, zip_smoothed]

end Alive

end Trellis.Model
