import Trellis.Estimate
import Trellis.Proofs.Estimation
import Trellis.Proofs.KnownPaths
import Trellis.Proofs.RecodedBuilders
import Trellis.Proofs.Training

/-!
# Models by other codes

Every recursion over a model gives, by other codes, the same rows by those
codes (`forward_recode`, `backward_recode`, `posteriors_recode`,
`expectedCounts_recode`), and so does every training step
(`WellFormed.baumWelchStep_recode`, `WellFormed.labelledStep_recode`). Sums over
states run in another order there, and so do the listings of arcs, but no exact
sum depends on its order. Scales, likelihoods and errors are not indexed by codes,
so they are the same.
-/

namespace Trellis

variable {S E K σ : Type} {Q Q' : Alphabet S} {A A' : Alphabet E} [Field K] [LinearOrder K]

namespace Model

variable (q : Recoding Q Q') (a : Recoding A A') (m : Model Q A K)

/-! ### Rows -/

theorem rawRow_recode (previous : Option (Vector K Q.size)) (x : A.Code) :
    (m.recode q a).rawRow (previous.map (Row.recode q.code)) (a.code x) =
      Row.recode q.code (m.rawRow previous x) := by
  refine Row.eq_recode fun l => ?_
  cases previous with
  | none =>
    rw [Option.map_none, get_rawRow_none, get_rawRow_none, enter, enter, get_initial_recode,
      toParameters_recode, Parameters.emission_recode]
  | some row =>
    rw [Option.map_some, get_rawRow_some, get_rawRow_some, advance, advance, ← q.code.sum_comp]
    simp only [toParameters_recode, Parameters.emission_recode, Parameters.transition_recode,
      Row.get_recode]

theorem backwardRow_recode (x : A.Code) (scale : K) (next : Vector K Q.size) :
    (m.recode q a).backwardRow (a.code x) scale (Row.recode q.code next) =
      Row.recode q.code (m.backwardRow x scale next) := by
  refine Row.eq_recode fun k => ?_
  rw [get_backwardRow, get_backwardRow, ← q.code.sum_comp]
  simp only [toParameters_recode, Parameters.emission_recode, Parameters.transition_recode,
    Row.get_recode]

section Rows

variable {n n' : Nat} (e : Fin n ≃ Fin n') (position : Nat)

theorem scaleOf_recode (row : Vector K n) :
    (scaleOf position (Row.recode e row) : Except (Error S E K) K) = scaleOf position row := by
  rw [scaleOf, scaleOf, Row.rowTotal_recode]

theorem posteriorRow_recode (forward backward : Vector K n) :
    (posteriorRow position (Row.recode e forward) (Row.recode e backward) :
      Except (Error S E K) _) = Row.recode e <$> posteriorRow position forward backward := by
  rw [posteriorRow, posteriorRow, Row.zipWith_recode, Row.rowTotal_recode]
  split
  · exact congrArg Except.ok (Row.map_recode e _ _)
  · rfl

theorem posteriorRows_recode (rows : List (Vector K n × Vector K n)) :
    (posteriorRows position (rows.map (Prod.map (Row.recode e) (Row.recode e))) :
      Except (Error S E K) _) = List.map (Row.recode e) <$> posteriorRows position rows := by
  induction rows generalizing position with
  | nil => rfl
  | cons row rest ih =>
    simp only [List.map_cons, posteriorRows, Prod.map, posteriorRow_recode, map_bind,
      bind_map_left]
    refine bind_congr fun first => ?_
    rw [ih, bind_map_left]
    rfl

end Rows

end Model

/-! ### Recursions -/

/-- The same step by other codes. -/
def ForwardStep.recode {n n' : Nat} (e : Fin n ≃ Fin n') (step : ForwardStep n K) :
    ForwardStep n' K :=
  ⟨Row.recode e step.row, step.scale⟩

/-- The same position by other codes. -/
def Model.Smoothed.recode {n n' : Nat} (e : Fin n ≃ Fin n') (p : Smoothed n K) : Smoothed n' K :=
  ⟨p.forward.recode e, Row.recode e p.backward, Row.recode e p.posterior⟩

namespace Model

variable (q : Recoding Q Q') (a : Recoding A A') (m : Model Q A K)

theorem forwardFrom_recode (position : Nat) (previous : Option (Vector K Q.size))
    (xs : List A.Code) :
    ((m.recode q a).forwardFrom position (previous.map (Row.recode q.code)) (xs.map a.code) :
      Except (Error S E K) _) =
      List.map (ForwardStep.recode q.code) <$> m.forwardFrom position previous xs := by
  induction xs generalizing position previous with
  | nil => rfl
  | cons x rest ih =>
    simp only [List.map_cons, forwardFrom, rawRow_recode, scaleOf_recode, map_bind]
    refine bind_congr fun scale => ?_
    have later := ih (position + 1) (some ((m.rawRow previous x).map (· / scale)))
    rw [Option.map_some, ← Row.map_recode] at later
    rw [later, bind_map_left]
    refine bind_congr fun steps => ?_
    rw [Row.map_recode]
    rfl

/-- The forward recursion by other codes, with the same scales and errors. -/
theorem forward_recode (xs : List A.Code) :
    ((m.recode q a).forward (xs.map a.code) : Except (Error S E K) _) =
      List.map (ForwardStep.recode q.code) <$> m.forward xs :=
  m.forwardFrom_recode q a 0 none xs

theorem backwardRows_recode (later : List (A.Code × K)) :
    (m.recode q a).backwardRows (later.map (Prod.map a.code id)) =
      Prod.map (Row.recode q.code) (List.map (Row.recode q.code)) (m.backwardRows later) := by
  induction later with
  | nil => exact Prod.ext (Row.replicate_recode q.code 1) rfl
  | cons first rest ih =>
    simp only [List.map_cons, backwardRows, ih, Prod.map, backwardRow_recode]
    rfl

/-- The backward recursion by other codes, for the same scales. -/
theorem backward_recode (xs : List A.Code) (scales : List K) :
    ((m.recode q a).backward (xs.map a.code) scales : Except (Error S E K) _) =
      List.map (Row.recode q.code) <$> m.backward xs scales := by
  have zipped : (xs.map a.code).zip scales = (xs.zip scales).map (Prod.map a.code id) := by
    rw [List.zip_map_left]
  rw [backward, backward, List.length_map, zipped]
  split
  · cases xs.zip scales with
    | nil => rfl
    | cons first later =>
      simp only [List.map_cons, backwardRows_recode]
      rfl
  · rfl

theorem smooth_recode (xs : List A.Code) :
    ((m.recode q a).smooth (xs.map a.code) : Except (Error S E K) _) =
      List.map (Smoothed.recode q.code) <$> m.smooth xs := by
  have scales : ∀ steps : List (ForwardStep Q.size K),
      (steps.map (ForwardStep.recode q.code)).map ForwardStep.scale =
        steps.map ForwardStep.scale := fun steps => List.map_map
  simp only [smooth, forward_recode, bind_map_left, scales, backward_recode, map_bind]
  refine bind_congr fun steps => bind_congr fun rows => ?_
  have zipped : ((steps.map (ForwardStep.recode q.code)).map ForwardStep.row).zip
      (rows.map (Row.recode q.code)) =
      ((steps.map ForwardStep.row).zip rows).map
        (Prod.map (Row.recode q.code) (Row.recode q.code)) := by
    rw [← List.zip_map, List.map_map, List.map_map]
    rfl
  rw [zipped, posteriorRows_recode, bind_map_left]
  refine bind_congr fun posteriors => congrArg Except.ok ?_
  rw [List.zip_map, List.zip_map, List.map_map, List.map_map]
  rfl

/-- The posterior distributions by other codes. -/
theorem posteriors_recode (xs : List A.Code) :
    ((m.recode q a).posteriors (xs.map a.code) : Except (Error S E K) _) =
      List.map (Row.recode q.code) <$> m.posteriors xs := by
  rw [posteriors, posteriors, smooth_recode]
  cases (m.smooth xs : Except (Error S E K) _) with
  | error e => rfl
  | ok positions => exact congrArg Except.ok (by simp [Smoothed.recode])

omit [Field K] [LinearOrder K] in
theorem observe_recode [DecidableEq E] (symbols : List E) :
    ((m.recode q a).observe symbols : Except (Error S E K) _) =
      List.map a.code <$> m.observe symbols :=
  a.symbolCodes_eq .observe symbols

end Model

/-! ### Counts -/

namespace Counts

variable (q : Recoding Q Q') (a : Recoding A A')

/-- The same counts by other codes. -/
def recode (counts : Counts (.ofModel Q.size A.size) K σ) :
    Counts (.ofModel Q'.size A'.size) K σ where
  initial := Row.recode q.code counts.initial
  transitions := counts.transitions.recode q.code q.code
  emissions := counts.emissions.recode q.code a.code
  logLikelihood := counts.logLikelihood

variable {q a}

omit [Field K] [LinearOrder K] in
theorem eq_recode {counts : Counts (.ofModel Q.size A.size) K σ}
    {others : Counts (.ofModel Q'.size A'.size) K σ}
    (initial : ∀ k, others.initial.get (q.code k) = counts.initial.get k)
    (transitions : ∀ k l, others.transitions.get (q.code k) (q.code l) =
      counts.transitions.get k l)
    (emissions : ∀ k x, others.emissions.get (q.code k) (a.code x) = counts.emissions.get k x)
    (logLikelihood : others.logLikelihood = counts.logLikelihood) :
    others = counts.recode q a := by
  obtain ⟨oi, ot, oe, ol⟩ := others
  congr
  · exact Row.eq_recode initial
  · exact Table.eq_recode transitions
  · exact Table.eq_recode emissions

end Counts

namespace Model

variable (q : Recoding Q Q') (a : Recoding A A') (m : Model Q A K)

section Expected

variable (positions : Positions Q A K)

theorem expectedStart_recode (k : Q.Code) :
    expectedStart (positions.map (Prod.map a.code (Smoothed.recode q.code))) (q.code k) =
      expectedStart positions k := by
  cases positions with
  | nil => rfl
  | cons first rest => exact Row.get_recode q.code first.2.posterior k

theorem expectedSteps_recode (k l : Q.Code) :
    (m.recode q a).expectedSteps (positions.map (Prod.map a.code (Smoothed.recode q.code)))
        (q.code k) (q.code l) =
      m.expectedSteps positions k l := by
  simp only [expectedSteps, toParameters_recode, Parameters.allows_recode,
    Parameters.transition_recode, ← List.map_tail, List.zip_map, List.map_map]
  split
  · refine congrArg total (List.map_congr_left fun step _ => ?_)
    obtain ⟨⟨_, here⟩, x, next⟩ := step
    simp only [Function.comp_apply, Prod.map, Smoothed.recode, ForwardStep.recode,
      Row.get_recode, Parameters.emission_recode]
  · rfl

theorem expectedEmissions_recode (k : Q.Code) (x : A.Code) :
    expectedEmissions (positions.map (Prod.map a.code (Smoothed.recode q.code)))
        (q.code k) (a.code x) =
      expectedEmissions positions k x := by
  simp only [expectedEmissions, List.filter_map, List.map_map]
  refine congrArg total ?_
  simp [Function.comp_def, Smoothed.recode, a.code.injective.eq_iff]

end Expected

section Known

variable (path : List (Q.Code × A.Code))

omit [LinearOrder K] in
theorem laterFactors_recode (k : Q.Code) :
    (m.recode q a).laterFactors (q.code k) (path.map (Prod.map q.code a.code)) =
      m.laterFactors k path := by
  induction path generalizing k with
  | nil => rfl
  | cons step rest ih =>
    simp only [List.map_cons, laterFactors, Prod.map, ih, toParameters_recode,
      Parameters.transition_recode, Parameters.emission_recode]

omit [LinearOrder K] in
theorem factors_recode :
    (m.recode q a).factors (path.map (Prod.map q.code a.code)) = m.factors path := by
  cases path with
  | nil => rfl
  | cons step rest =>
    simp only [List.map_cons, factors, Prod.map, laterFactors_recode, get_initial_recode,
      toParameters_recode, Parameters.emission_recode]

omit [Field K] [LinearOrder K] in
theorem forbiddenStep?_recode (states : List Q.Code) :
    (m.recode q a).forbiddenStep? (states.map q.code) =
      (m.forbiddenStep? states).map (Prod.map q.code q.code) := by
  rw [forbiddenStep?_eq_find?, forbiddenStep?_eq_find?, ← List.map_tail, List.zip_map,
    List.find?_map]
  simp only [Function.comp_def, Prod.map, toParameters_recode, Parameters.allows_recode]

end Known

section Counting

variable [Score σ] [Logarithm K σ]

/-- The expected counts by other codes, with the same log-likelihood. -/
theorem expectedCounts_recode (xs : List A.Code) :
    ((m.recode q a).expectedCounts (xs.map a.code) : Except (Error S E K) (Counts _ K σ)) =
      Counts.recode q a <$> m.expectedCounts xs := by
  simp only [expectedCounts, smooth_recode, bind_map_left, map_bind, List.zip_map]
  refine bind_congr fun smoothed => congrArg Except.ok (Counts.eq_recode ?_ ?_ ?_ ?_)
  · intro k
    simp only [Row.get_ofFn, expectedStart_recode]
  · intro k l
    simp only [Table.get_ofFn, expectedSteps_recode]
  · intro k x
    simp only [Table.get_ofFn, expectedEmissions_recode]
  · simp only [ForwardStep.logLikelihood, List.map_map]
    rfl

theorem pathCounts_recode (path : List (Q.Code × A.Code)) :
    ((m.recode q a).pathCounts (path.map (Prod.map q.code a.code)) : Counts _ K σ) =
      (m.pathCounts path).recode q a := by
  have states : (path.map (Prod.map q.code a.code)).map Prod.fst = (path.map Prod.fst).map q.code :=
    by simp [Function.comp_def]
  have pairs : Function.Injective (Prod.map q.code a.code) :=
    q.code.injective.prodMap a.code.injective
  have steps : Function.Injective (Prod.map q.code q.code) :=
    q.code.injective.prodMap q.code.injective
  refine Counts.eq_recode ?_ ?_ ?_ ?_
  · intro k
    simp only [pathCounts, Row.get_ofFn, states, ← List.map_take,
      List.count_map_of_injective _ _ q.code.injective]
  · intro k l
    have step : (q.code k, q.code l) = Prod.map q.code q.code (k, l) := rfl
    simp only [pathCounts, Table.get_ofFn, states, ← List.map_tail, List.zip_map, step,
      List.count_map_of_injective _ _ steps]
  · intro k x
    have shown : (q.code k, a.code x) = Prod.map q.code a.code (k, x) := rfl
    simp only [pathCounts, Table.get_ofFn, shown, List.count_map_of_injective _ _ pairs]
  · simp only [pathCounts, factors_recode]

theorem labelledCounts_recode [DecidableEq S] [DecidableEq E] (sequence : Sequence S E) :
    ((m.recode q a).labelledCounts sequence : Except (Error S E K) (Counts _ K σ)) =
      Counts.recode q a <$> m.labelledCounts sequence := by
  rw [labelledCounts, labelledCounts]
  split
  · rfl
  · simp only [q.stateCodes_eq, a.symbolCodes_eq, bind_map_left, map_bind]
    refine bind_congr fun states => bind_congr fun symbols => ?_
    rw [forbiddenStep?_recode]
    cases m.forbiddenStep? states with
    | some step =>
      simp only [Option.map_some, Prod.map, q.symbol_code]
      rfl
    | none =>
      simp only [Option.map_none, List.zip_map, pathCounts_recode]
      rfl

end Counting

/-! ### Estimates -/

section Estimate

variable (options : Estimation) (counts : Counts (.ofModel Q.size A.size) K σ)

theorem transitionWeights_recode (t : Table Q.size Q.size K) :
    (m.recode q a).transitionWeights options (t.recode q.code q.code) =
      (m.transitionWeights options t).recode q.code q.code :=
  Table.eq_recode fun k l => by simp [transitionWeights, toParameters_recode]

theorem emissionWeights_recode (t : Table Q.size A.size K) :
    (m.recode q a).emissionWeights options (t.recode q.code a.code) =
      (m.emissionWeights options t).recode q.code a.code :=
  Table.eq_recode fun k x => by simp [emissionWeights, toParameters_recode]

theorem estimatedInitial_recode (starts : Vector K Q.size) :
    (m.recode q a).estimatedInitial options (Row.recode q.code starts) =
      Row.recode q.code (m.estimatedInitial options starts) := by
  simp only [estimatedInitial, Row.rowTotal_recode]
  split
  · exact Row.map_recode q.code _ starts
  · rfl

theorem reweighted_recode :
    (m.recode q a).reweighted options (counts.recode q a) =
      (m.reweighted options counts).recode q a := by
  refine Builder.ext ?_ (congrArg some (m.estimatedInitial_recode q a options counts.initial))
  simp only [reweighted, Counts.recode, transitionWeights_recode, emissionWeights_recode,
    Table.relativeRows_recode]
  exact m.toParameters.reweigh_recode q a _ _

variable {options counts} in
theorem estimate_recode {r : Model Q A K} (estimated : m.estimate options counts = .ok r) :
    (m.recode q a).estimate options (counts.recode q a) = .ok (r.recode q a) := by
  rw [estimate, reweighted_recode]
  rcases (m.reweighted options counts).build_recode q a with
    ⟨_, built, built'⟩ | ⟨_, _, _, _, -, -, failed, -⟩
  · cases built.symm.trans estimated
    exact built'
  · cases failed.symm.trans estimated

end Estimate

end Model

/-! ### Steps -/

/-- The same estimate by other codes. -/
def Estimate.recode (q : Recoding Q Q') (a : Recoding A A') (estimate : Estimate Q A K σ) :
    Estimate Q' A' K σ :=
  ⟨estimate.model.recode q a, estimate.logLikelihood⟩

namespace Model

section Steps

variable [IsStrictOrderedRing K] [DecidableEq E] [Score σ] [Logarithm K σ] (q : Recoding Q Q')
  (a : Recoding A A') {m : Model Q A K} (options : Estimation) (sequence : Sequence S E)

/-- **A step of Baum-Welch** by other codes: its model by these codes, or the same error. -/
theorem WellFormed.baumWelchStep_recode (sound : m.WellFormed) :
    ((m.recode q a).baumWelchStep options sequence : Except _ (Estimate Q' A' K σ)) =
      Estimate.recode q a <$> m.baumWelchStep options sequence := by
  simp only [baumWelchStep, observe_recode, bind_map_left, map_bind]
  refine bind_congr fun xs => ?_
  rw [expectedCounts_recode, bind_map_left]
  cases counted : (m.expectedCounts xs : Except (Error S E K) (Counts _ K σ)) with
  | error e => rfl
  | ok counts =>
    have estimated : m.estimate options counts = .ok _ :=
      sound.estimate_eq_ok (sound.nonneg_expectedCounts counted)
    simp only [bind, Except.bind, estimated, estimate_recode q a m estimated]
    rfl

/-- **A step over a labelled sequence** by other codes. Its labels are names, so the sequence
stays as it is. -/
theorem WellFormed.labelledStep_recode [DecidableEq S] (sound : m.WellFormed) :
    ((m.recode q a).labelledStep options sequence : Except _ (Estimate Q' A' K σ)) =
      Estimate.recode q a <$> m.labelledStep options sequence := by
  rw [labelledStep, labelledStep, labelledCounts_recode, bind_map_left, map_bind]
  cases counted : (m.labelledCounts sequence : Except (Error S E K) (Counts _ K σ)) with
  | error e => rfl
  | ok counts =>
    have estimated : m.estimate options counts = .ok _ :=
      sound.estimate_eq_ok (nonneg_labelledCounts counted)
    simp only [bind, Except.bind, estimated, estimate_recode q a m estimated]
    rfl

end Steps

end Model

end Trellis
