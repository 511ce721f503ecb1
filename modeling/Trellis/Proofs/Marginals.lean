import Trellis.Proofs.Smoothing

/-!
# Posteriors as marginals

The posterior probability of a state at a position is the share of the paths
that are in the state there, among all paths of the symbols
(`posteriors_eq_marginals`). The recursions of a position know the whole sequence
between them: the forward row what came before, the backward row what comes after
(`posterior_smoothedFrom`). Their products already add up to one
(`sum_row_mul_backward`), so only the forward recursion can fail
(`posteriors_eq_error`).
-/

namespace Trellis.Model

variable {S E K : Type} {Q : Alphabet S} {A : Alphabet E} [Field K]

/-! ### Visits -/

/-- The probability of a sequence and of being in state `k` at a position. -/
def probabilityVisiting (m : Model Q A K) (symbols : List A.Code) (position : Nat)
    (k : Q.Code) : K :=
  ∑ states ∈ Q.paths symbols.length with states[position]? = some k,
    m.jointProbability states symbols

/-- Whether a path is in a state at a position, as a number. -/
def visits (position : Nat) (k : Q.Code) (states : List Q.Code) : K :=
  if states[position]? = some k then 1 else 0

theorem visits_zero (k i : Q.Code) (states : List Q.Code) :
    (visits 0 k (i :: states) : K) = if i = k then 1 else 0 := by
  simp [visits]

theorem visits_succ (position : Nat) (k i j : Q.Code) (states : List Q.Code) :
    (visits (position + 1) k (i :: j :: states) : K) = visits position k (j :: states) := by
  rw [visits, List.getElem?_cons_succ, visits]

theorem probabilityVisiting_cons (m : Model Q A K) (x : A.Code) (symbols : List A.Code)
    (position : Nat) (k : Q.Code) :
    m.probabilityVisiting (x :: symbols) position k =
      m.pathSum (m.enter x) symbols (visits position k) := by
  rw [← sum_jointProbability_mul, probabilityVisiting, Finset.sum_filter]
  simp only [visits, mul_ite, mul_one, mul_zero]

variable [LinearOrder K] [IsStrictOrderedRing K] {m : Model Q A K}

/-! ### Positions -/

section Alive

variable {raw : Vector K Q.size} {rest : List A.Code} {p : Smoothed Q.size K}

/-- The posterior of a position, counted from a row before scaling, is the share
of the paths from this row that are in the state there. -/
theorem posterior_smoothedFrom (sound : m.WellFormed) (alive : m.Alive raw rest) {t : Nat}
    (at_t : (m.smoothedFrom raw rest)[t]? = some p) (k : Q.Code) :
    p.posterior.get k = m.pathSum raw.get rest (visits t k) / m.mass raw.get rest := by
  induction t generalizing raw rest with
  | zero =>
    have first : p = m.smoothedStep raw rest := by
      cases rest with
      | nil => exact (Option.some.inj at_t).symm
      | cons x rest => exact (Option.some.inj at_t).symm
    rw [first, smoothedStep, Row.get_ofFn, m.pathSum_head raw.get rest (visits_zero k)]
    simp only [mul_ite, mul_one, mul_zero, Finset.sum_ite_eq', Finset.mem_univ, if_true]
  | succ t ih =>
    cases rest with
    | nil => cases at_t
    | cons x rest =>
      -- The next row carries both sums on, each divided by the scale of this one.
      rw [ih (alive.next sound) at_t, m.pathSum_next raw x rest (visits_succ t k), mass_next,
        div_div_div_cancel_right₀ alive.sum_pos.ne']

theorem exists_smoothedStep (sound : m.WellFormed) (alive : m.Alive raw rest)
    (mem : p ∈ m.smoothedFrom raw rest) :
    ∃ raw' rest', m.Alive raw' rest' ∧ p = m.smoothedStep raw' rest' := by
  induction rest generalizing raw with
  | nil => exact ⟨raw, [], alive, List.mem_singleton.mp mem⟩
  | cons x rest ih =>
    rcases List.mem_cons.mp mem with here | later
    · exact ⟨raw, x :: rest, alive, here⟩
    · exact ih (alive.next sound) later

/-- The products of the two recursions add up to one before they are normalized. -/
theorem sum_row_mul_backward (sound : m.WellFormed) (alive : m.Alive raw rest)
    (mem : p ∈ m.smoothedFrom raw rest) : ∑ k, p.forward.row.get k * p.backward.get k = 1 := by
  obtain ⟨raw', rest', alive', rfl⟩ := exists_smoothedStep sound alive mem
  simp only [row_mul_backward sound alive']
  exact sum_posterior alive'

end Alive

/-! ### Sequences -/

omit [IsStrictOrderedRing K] in
/-- Where the forward recursion fails, there are no posteriors. -/
theorem posteriors_eq_error {xs : List A.Code} {e : Error S E K}
    (failed : m.forward xs = .error e) : m.posteriors xs = .error e := by
  rw [posteriors, smooth, failed]
  rfl

/-- Where it succeeds, the backward recursion and the posteriors do so too. -/
theorem WellFormed.exists_positions (sound : m.WellFormed) {xs : List A.Code}
    {steps : List (ForwardStep Q.size K)}
    (computed : m.forward xs = (.ok steps : Except (Error S E K) _)) :
    ∃ positions : List (Smoothed Q.size K),
      positions.length = xs.length ∧
      positions.map Smoothed.forward = steps ∧
      m.backward xs (steps.map ForwardStep.scale) =
        (.ok (positions.map Smoothed.backward) : Except (Error S E K) _) ∧
      m.posteriors xs = (.ok (positions.map Smoothed.posterior) : Except (Error S E K) _) ∧
      ∀ t p, positions[t]? = some p →
        ∑ k, p.forward.row.get k * p.backward.get k = 1 ∧
        ∀ k, p.posterior.get k = m.probabilityVisiting xs t k / m.probability xs := by
  cases xs with
  | nil =>
    cases computed
    exact ⟨[], rfl, rfl, rfl, rfl, by simp⟩
  | cons x rest =>
    have positive := sound.probability_pos computed
    have alive := sound.alive positive
    cases computed.symm.trans (sound.forward_eq_ok positive)
    have steps := m.map_forward_smoothedFrom (m.rawRow none x) rest
    refine ⟨m.smoothedFrom (m.rawRow none x) rest, ?_, steps, m.backward_stepsFrom _ x rest, ?_, ?_⟩
    · rw [← List.length_map (f := Smoothed.forward), steps, length_stepsFrom, List.length_cons]
    · rw [posteriors, sound.smooth_eq_ok positive]
      rfl
    · intro t p at_t
      refine ⟨sum_row_mul_backward sound alive (List.mem_of_getElem? at_t), fun k => ?_⟩
      rw [posterior_smoothedFrom sound alive at_t, get_rawRow_none, probabilityVisiting_cons,
        probability_cons]

variable [DecidableEq S] [DecidableEq E]

/-- **Posteriors are the marginals of the paths.** They fail exactly where the
forward recursion fails, with its error, and never because the products of the
two recursions do not normalize: these add up to one at every position. The
posterior of a state at a position is the sum over the paths that are in the
state there, divided by the sum over all paths. -/
theorem posteriors_eq_marginals (reach : m.Reachable) (xs : List A.Code) :
    (∀ e : Error S E K, m.posteriors xs = .error e ↔ m.forward xs = .error e) ∧
    (∀ position, m.posteriors xs ≠
      (.error (.numerical position .posterior) : Except (Error S E K) _)) ∧
    ∀ steps, m.forward xs = (.ok steps : Except (Error S E K) _) →
      ∃ betas gammas : List (Vector K Q.size),
        m.backward xs (steps.map ForwardStep.scale) = (.ok betas : Except (Error S E K) _) ∧
        m.posteriors xs = (.ok gammas : Except (Error S E K) _) ∧
        gammas.length = xs.length ∧
        (∀ (t : Nat) step beta, steps[t]? = some step → betas[t]? = some beta →
          ∑ k, step.row.get k * beta.get k = 1) ∧
        ∀ (t : Nat) gamma, gammas[t]? = some gamma → ∀ k,
          gamma.get k =
            (∑ states ∈ Q.paths xs.length with states[t]? = some k,
              m.jointProbability states xs) /
            ∑ states ∈ Q.paths xs.length, m.jointProbability states xs := by
  have sound := reach.wellFormed
  have fails : ∀ e : Error S E K, m.posteriors xs = .error e ↔ m.forward xs = .error e := by
    intro e
    constructor
    · intro failed
      cases computed : (m.forward xs : Except (Error S E K) _) with
      | error e' =>
        cases (posteriors_eq_error computed).symm.trans failed
        rfl
      | ok steps =>
        obtain ⟨positions, -, -, -, succeeded, -⟩ := sound.exists_positions computed
        cases succeeded.symm.trans failed
    · exact posteriors_eq_error
  refine ⟨fails, ?_, ?_⟩
  · intro position failed
    have impossible : ¬ 0 < m.probability xs := by
      intro positive
      obtain ⟨steps, computed, -⟩ := sound.exists_scales (S := S) (E := E) positive
      cases computed.symm.trans ((fails _).mp failed)
    obtain ⟨t, -, scale_failed, -⟩ := sound.forward_eq_error impossible
    cases scale_failed.symm.trans ((fails _).mp failed)
  · intro steps computed
    obtain ⟨positions, length, rfl, backward, succeeded, cells⟩ := sound.exists_positions computed
    refine ⟨_, _, backward, succeeded, by rw [List.length_map, length], ?_, ?_⟩
    · intro t step beta step_at beta_at
      rw [List.getElem?_map, Option.map_eq_some_iff] at step_at
      obtain ⟨p, at_t, rfl⟩ := step_at
      rw [List.getElem?_map, at_t] at beta_at
      cases beta_at
      exact (cells t p at_t).1
    · intro t gamma gamma_at k
      rw [List.getElem?_map, Option.map_eq_some_iff] at gamma_at
      obtain ⟨p, at_t, rfl⟩ := gamma_at
      exact (cells t p at_t).2 k

/-- Of the machines that show 0, 0 and 1, four in five have failed at the end. -/
theorem posteriors_machine :
    ∃ gammas gamma,
      Machine.model.posteriors Machine.shown = (.ok gammas : Except (Error Nat Nat ℚ) _) ∧
      gammas[2]? = some gamma ∧ gamma.get Machine.failed = 4 / 5 := by
  obtain ⟨-, -, marginals⟩ :=
    posteriors_eq_marginals Machine.model_reachable Machine.shown
  obtain ⟨steps, computed, -⟩ := Machine.model_reachable.wellFormed.exists_scales
    (S := Nat) (E := Nat) (show 0 < Machine.model.probability Machine.shown by decide +kernel)
  obtain ⟨-, gammas, -, succeeded, length, -, cells⟩ := marginals steps computed
  have last : 2 < gammas.length := by
    rw [length]
    decide
  refine ⟨gammas, gammas[2], succeeded, List.getElem?_eq_getElem last, ?_⟩
  rw [cells 2 _ (List.getElem?_eq_getElem last) Machine.failed]
  decide +kernel

end Trellis.Model
