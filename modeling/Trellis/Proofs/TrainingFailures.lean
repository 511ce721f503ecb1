import Trellis.Proofs.Agreement
import Trellis.Proofs.Encoding
import Trellis.Proofs.Structure
import Trellis.Proofs.Training

/-!
# Failures of training

For each training step there is a list of reasons to refuse it, in the order in
which they are looked for (`trainingFault?`). There is no other: what a step counts
can always be estimated from, so its model is never refused
(`WellFormed.train_cases`). A model that was trained keeps its arcs and pseudocounts
(`Keeps`), so that training goes on for the same reasons (`trainAll_fails_iff`).
-/

namespace Trellis

variable {S E K σ : Type} {Q : Alphabet S} {A : Alphabet E}

/-- A training step: a sequence, and whether to go by its states or by the
symbols alone. -/
structure TrainingStep (S E : Type) where
  labelled : Bool
  options : Estimation
  sequence : Sequence S E

/-- A step leaves the initial distribution alone if that is not to be
reestimated or there is nothing to reestimate it from. -/
def TrainingStep.KeepsInitial (step : TrainingStep S E) : Prop :=
  step.options.reestimateInitial = false ∨ step.sequence.isEmpty = true

namespace Model

section Train

variable [Arithmetic K] [Score σ] [Logarithm K σ] [DecidableEq S] [DecidableEq E]

/-- One step of training, as it is asked for: by the states of its sequence, or by the symbols
alone. -/
def train (m : Model Q A K) (step : TrainingStep S E) :
    Except (Error S E K) (Estimate Q A K σ) :=
  if step.labelled then m.labelledStep step.options step.sequence
  else m.baumWelchStep step.options step.sequence

/-- The model after steps that all succeed, in order. -/
def trainAll (σ : Type) [Score σ] [Logarithm K σ] (m : Model Q A K) :
    List (TrainingStep S E) → Except (Error S E K) (Model Q A K)
  | [] => .ok m
  | step :: rest => do
    let estimate ← m.train (σ := σ) step
    estimate.model.trainAll σ rest

end Train

/-! ### Reasons -/

section Reasons

variable [Field K] [LinearOrder K] [DecidableEq S] [DecidableEq E]

/-- The end of the first prefix that is impossible. -/
def firstImpossible? (m : Model Q A K) (xs : List A.Code) : Option Nat :=
  (List.range xs.length).find? fun t => m.probability (xs.take (t + 1)) = 0

/-- Why a step by symbols alone is refused: one of them is unknown, or else a
prefix is impossible. -/
def observationFault? (m : Model Q A K) (sequence : Sequence S E) : Option (Error S E K) :=
  ((A.firstUnknown? sequence.emissions).map (.unknownSymbol .observe)).or
    ((m.firstImpossible? (sequence.emissions.filterMap A.codeOf?)).map
      (.numerical · (.scale 0)))

/-- Why a step by the states of a sequence is refused: it has none, or else one
of them is unknown, or else a symbol is, or else the path takes an arc that is
forbidden. -/
def labellingFault? (m : Model Q A K) (sequence : Sequence S E) : Option (Error S E K) :=
  if sequence.isLabelled then
    ((Q.firstUnknown? sequence.states).map (.unknownState .countKnownStates)).or
      (((A.firstUnknown? sequence.emissions).map (.unknownSymbol .countKnownStates)).or
        (((sequence.states.zip sequence.states.tail).find? fun step =>
          !m.isAllowed step.1 step.2).map fun step => .notAllowed step.1 step.2))
  else some .unlabelled

/-- Why a training step is refused. -/
def trainingFault? (m : Model Q A K) (step : TrainingStep S E) : Option (Error S E K) :=
  if step.labelled then m.labellingFault? step.sequence else m.observationFault? step.sequence

/-- That a model is not well formed is no reason. -/
theorem trainingFault?_ne_invalidProbability (m : Model Q A K) (step : TrainingStep S E)
    (operation : Operation) (value : K) (fault : ProbabilityFault S) :
    m.trainingFault? step ≠ some (.invalidProbability operation value fault) := by
  unfold trainingFault? labellingFault? observationFault?
  split
  · split
    · simp [Option.or_eq_some_iff]
    · simp
  · simp [Option.or_eq_some_iff]

omit [Field K] [LinearOrder K] [DecidableEq E] in
/-- The steps of a path that is known are named by its symbols. -/
theorem find?_isAllowed (m : Model Q A K) (states : List Q.Code) :
    ((states.map Q.symbol).zip (states.map Q.symbol).tail).find?
        (fun step => !m.isAllowed step.1 step.2) =
      (m.forbiddenStep? states).map (Prod.map Q.symbol Q.symbol) := by
  rw [forbiddenStep?_eq_find?, ← List.map_tail, List.zip_map, List.find?_map]
  simp only [Function.comp_def, isAllowed, Parameters.allows, Prod.map_fst, Prod.map_snd,
    Parameters.arc?_symbol]

omit [LinearOrder K] [DecidableEq E] in
theorem KeepsStructure.isAllowed_eq {m r : Model Q A K} (kept : m.KeepsStructure r)
    (source target : S) : r.isAllowed source target = m.isAllowed source target := by
  simp only [isAllowed, Parameters.arc?]
  cases Q.codeOf? source with
  | none => rfl
  | some k =>
    cases Q.codeOf? target with
    | none => rfl
    | some l => exact kept.allows k l

omit [LinearOrder K] in
/-- What speaks against the states of a sequence is the same for all models with
the same arcs. -/
theorem KeepsStructure.labellingFault?_eq {m r : Model Q A K} (kept : m.KeepsStructure r)
    (sequence : Sequence S E) : r.labellingFault? sequence = m.labellingFault? sequence := by
  simp only [labellingFault?, kept.isAllowed_eq]

end Reasons

/-! ### Counting -/

section Counting

variable [Field K] [LinearOrder K] {m : Model Q A K} [Score σ] [Logarithm K σ]

/-- Nothing is expected of a sequence without symbols. -/
theorem initial_expectedCounts_nil {counts : Counts (.ofModel Q.size A.size) K σ}
    (counted : m.expectedCounts [] = (.ok counts : Except (Error S E K) _)) (k : Q.Code) :
    counts.initial.get k = 0 := by
  cases counted
  rw [Row.get_ofFn]
  rfl

section Possible

variable [IsStrictOrderedRing K]

theorem WellFormed.firstImpossible?_eq_some_iff (sound : m.WellFormed) {xs : List A.Code}
    {t : Nat} : m.firstImpossible? xs = some t ↔ m.DiesAt xs t := by
  have possible : ∀ u, 0 < m.probability (xs.take u) ↔ ¬ m.probability (xs.take u) = 0 :=
    fun u => (sound.probability_nonneg _).lt_iff_ne'
  simp only [firstImpossible?, List.find?_range_eq_some, DiesAt, possible, decide_eq_true_eq,
    List.mem_range, Bool.not_eq_true', decide_eq_false_iff_not]
  exact and_left_comm

/-- Expected counts are refused exactly where the symbols become impossible. -/
theorem WellFormed.expectedCounts_cases (sound : m.WellFormed) (xs : List A.Code) :
    (∃ t, m.firstImpossible? xs = some t ∧ m.expectedCounts xs =
      (.error (.numerical t (.scale 0)) : Except (Error S E K) (Counts _ K σ))) ∨
    m.firstImpossible? xs = none ∧ ∃ counts : Counts (.ofModel Q.size A.size) K σ,
      m.expectedCounts xs = (.ok counts : Except (Error S E K) _) := by
  by_cases positive : 0 < m.probability xs
  · obtain ⟨-, -, counts, counted, -⟩ := sound.expectedCounts_eq_ok (σ := σ) positive
    refine .inr ⟨?_, counts, counted⟩
    exact Option.eq_none_iff_forall_ne_some.mpr fun t impossible =>
      sound.not_diesAt positive t (sound.firstImpossible?_eq_some_iff.mp impossible)
  · obtain ⟨t, bound, failed, dies⟩ := sound.forward_eq_error positive
    refine .inl ⟨t, sound.firstImpossible?_eq_some_iff.mpr ⟨bound, dies⟩, ?_⟩
    simp only [expectedCounts, smooth, failed, bind, Except.bind]

end Possible

variable [DecidableEq S] [DecidableEq E]

/-- A labelled sequence is refused for one of the reasons, or counted. -/
theorem labelledCounts_cases (m : Model Q A K) (sequence : Sequence S E) :
    (∃ e, m.labellingFault? sequence = some e ∧
      m.labelledCounts sequence = (.error e : Except _ (Counts _ K σ))) ∨
    m.labellingFault? sequence = none ∧ sequence.isLabelled = true ∧
      ∃ counts : Counts (.ofModel Q.size A.size) K σ,
        m.labelledCounts sequence = (.ok counts : Except (Error S E K) _) := by
  simp only [labelledCounts, labellingFault?]
  cases labelled : sequence.isLabelled with
  | false => exact .inl ⟨_, rfl, rfl⟩
  | true =>
    simp only [Bool.not_true, Bool.false_eq_true, if_false, if_true, Alphabet.stateCodes,
      Alphabet.symbolCodes]
    cases unknown : Q.firstUnknown? sequence.states with
    | some s =>
      rw [Alphabet.encode_eq_error_iff.mpr unknown]
      exact .inl ⟨_, rfl, rfl⟩
    | none =>
      obtain ⟨states, path⟩ : ∃ states, Q.encode sequence.states = .ok states :=
        ⟨_, Alphabet.encode_eq_ok unknown⟩
      cases unseen : A.firstUnknown? sequence.emissions with
      | some x =>
        rw [path, Alphabet.encode_eq_error_iff.mpr unseen]
        exact .inl ⟨_, rfl, rfl⟩
      | none =>
        rw [path, Alphabet.encode_eq_ok unseen, ← Alphabet.encode_eq_ok_iff.mp path,
          find?_isAllowed]
        simp only [Except.mapError, bind, Except.bind]
        cases m.forbiddenStep? states with
        | some step => exact .inl ⟨_, rfl, rfl⟩
        | none => exact .inr ⟨rfl, trivial, _, rfl⟩

end Counting

/-! ### One step -/

/-- What a step keeps of a model: its arcs and its pseudocounts, and the initial
distribution if that is not reestimated or there is nothing to do it from. -/
structure Keeps [Zero K] (m : Model Q A K) (step : TrainingStep S E) (r : Model Q A K) : Prop where
  structure_kept : m.KeepsStructure r
  initial : step.KeepsInitial → r.initial = m.initial

section Step

variable [Field K] [LinearOrder K] [IsStrictOrderedRing K] [DecidableEq S] [DecidableEq E]
  [Score σ] [Logarithm K σ] {m : Model Q A K}

omit [DecidableEq S] in
theorem WellFormed.baumWelchStep_cases (sound : m.WellFormed) (options : Estimation)
    (sequence : Sequence S E) :
    (∃ e, m.observationFault? sequence = some e ∧
      m.baumWelchStep options sequence = (.error e : Except _ (Estimate Q A K σ))) ∨
    m.observationFault? sequence = none ∧ ∃ estimate : Estimate Q A K σ,
      m.baumWelchStep options sequence = .ok estimate ∧
      m.Keeps ⟨false, options, sequence⟩ estimate.model := by
  simp only [baumWelchStep, observe, Alphabet.symbolCodes, observationFault?]
  cases unknown : A.firstUnknown? sequence.emissions with
  | some s =>
    rw [Alphabet.encode_eq_error_iff.mpr unknown]
    exact .inl ⟨_, rfl, rfl⟩
  | none =>
    rw [Alphabet.encode_eq_ok unknown]
    rcases sound.expectedCounts_cases (σ := σ) (sequence.emissions.filterMap A.codeOf?) with
      ⟨t, impossible, failed⟩ | ⟨possible, counts, counted⟩
    · refine .inl ⟨_, congrArg (Option.map _) impossible, ?_⟩
      simp only [Except.mapError, failed, bind, Except.bind]
    · have estimated : m.estimate options counts = .ok _ :=
        sound.estimate_eq_ok (sound.nonneg_expectedCounts counted)
      refine .inr ⟨congrArg (Option.map _) possible,
        ⟨(m.reweighted options counts).finished, counts.logLikelihood⟩, ?_,
        m.keepsStructure_estimate options counts, ?_⟩
      · simp only [Except.mapError, counted, estimated, bind, Except.bind]
      · rintro (kept | empty)
        · exact initial_estimate_eq_self kept
        · have nothing : sequence.emissions = [] := List.isEmpty_iff.mp empty
          rw [nothing, List.filterMap_nil] at counted
          exact initial_estimate_of_uncounted (initial_expectedCounts_nil counted)

theorem WellFormed.labelledStep_cases (sound : m.WellFormed) (options : Estimation)
    (sequence : Sequence S E) :
    (∃ e, m.labellingFault? sequence = some e ∧
      m.labelledStep options sequence = (.error e : Except _ (Estimate Q A K σ))) ∨
    m.labellingFault? sequence = none ∧ ∃ estimate : Estimate Q A K σ,
      m.labelledStep options sequence = .ok estimate ∧
      m.Keeps ⟨true, options, sequence⟩ estimate.model := by
  rcases m.labelledCounts_cases (σ := σ) sequence with
    ⟨e, fault, failed⟩ | ⟨sane, labelled, counts, counted⟩
  · refine .inl ⟨e, fault, ?_⟩
    simp only [labelledStep, failed, bind, Except.bind]
  · have estimated : m.estimate options counts = .ok _ :=
      sound.estimate_eq_ok (nonneg_labelledCounts counted)
    refine .inr ⟨sane, ⟨(m.reweighted options counts).finished, counts.logLikelihood⟩, ?_,
      m.keepsStructure_estimate options counts, ?_⟩
    · simp only [labelledStep, counted, estimated, bind, Except.bind]
    · rintro (kept | empty)
      · exact initial_estimate_eq_self kept
      · cases labelled.symm.trans (Sequence.isLabelled_eq_false_of_isEmpty empty)

/-- A step fails for a reason, with the error that states it; if there is none,
it succeeds. -/
theorem WellFormed.train_cases (sound : m.WellFormed) (step : TrainingStep S E) :
    (∃ e, m.trainingFault? step = some e ∧
      m.train step = (.error e : Except _ (Estimate Q A K σ))) ∨
    m.trainingFault? step = none ∧ ∃ estimate : Estimate Q A K σ,
      m.train step = .ok estimate ∧ m.Keeps step estimate.model := by
  obtain ⟨labelled, options, sequence⟩ := step
  cases labelled with
  | false => exact sound.baumWelchStep_cases options sequence
  | true => exact sound.labelledStep_cases options sequence

theorem WellFormed.train_eq_error_iff (sound : m.WellFormed) {step : TrainingStep S E}
    {e : Error S E K} :
    m.train step = (.error e : Except _ (Estimate Q A K σ)) ↔ m.trainingFault? step = some e := by
  rcases sound.train_cases (σ := σ) step with ⟨e', fault, failed⟩ | ⟨none, estimate, trained, -⟩
  · simp [fault, failed]
  · simp [none, trained]

theorem WellFormed.keeps_of_train (sound : m.WellFormed) {step : TrainingStep S E}
    {estimate : Estimate Q A K σ} (trained : m.train step = .ok estimate) :
    m.Keeps step estimate.model := by
  rcases sound.train_cases (σ := σ) step with ⟨e, -, failed⟩ | ⟨-, estimate', trained', kept⟩
  · cases failed.symm.trans trained
  · cases trained.symm.trans trained'
    exact kept

theorem Reachable.train (reach : m.Reachable) {step : TrainingStep S E}
    {estimate : Estimate Q A K σ} (trained : m.train step = .ok estimate) :
    estimate.model.Reachable := by
  unfold Model.train at trained
  split at trained
  · exact reach.labelledStep trained
  · exact reach.baumWelchStep trained

/-! ### Chains -/

/-- What holds of one step holds of a chain of them. -/
theorem Reachable.trainAll (reach : m.Reachable) {steps : List (TrainingStep S E)}
    {r : Model Q A K} (trained : m.trainAll σ steps = .ok r) :
    r.Reachable ∧ m.KeepsStructure r ∧
      ((∀ step ∈ steps, step.KeepsInitial) → r.initial = m.initial) := by
  induction steps generalizing m with
  | nil =>
    cases trained
    exact ⟨reach, .refl _, fun _ => rfl⟩
  | cons step rest ih =>
    obtain ⟨estimate, first, trained⟩ := bind_eq_ok.mp trained
    have kept := reach.wellFormed.keeps_of_train first
    obtain ⟨reach', keeps, initial⟩ := ih (reach.train first) trained
    refine ⟨reach', kept.structure_kept.trans keeps, fun all => ?_⟩
    rw [initial fun later mem => all later (List.mem_cons_of_mem _ mem),
      kept.initial (all step List.mem_cons_self)]

/-- **Training fails for the documented reasons only.** After any chain of steps
that succeeded, the arcs and the pseudocounts are those of the first model, and
so is the initial distribution if no step reestimated it. The next step fails
with an error exactly if that is the first reason to refuse it; that the
estimated model is not well formed is never one. -/
theorem trainAll_fails_iff (reach : m.Reachable) {steps : List (TrainingStep S E)}
    {r : Model Q A K} (trained : m.trainAll σ steps = .ok r) :
    m.KeepsStructure r ∧
    ((∀ step ∈ steps, step.KeepsInitial) → r.initial = m.initial) ∧
    ∀ step : TrainingStep S E,
      (∀ e, r.train step = (.error e : Except _ (Estimate Q A K σ)) ↔
        r.trainingFault? step = some e) ∧
      (∀ operation value fault, r.train step ≠
        (.error (.invalidProbability operation value fault) : Except _ (Estimate Q A K σ))) ∧
      ∀ estimate : Estimate Q A K σ, r.train step = .ok estimate →
        r.KeepsStructure estimate.model ∧
          (step.KeepsInitial → estimate.model.initial = r.initial) := by
  obtain ⟨reach', kept, initial⟩ := reach.trainAll trained
  have sound := reach'.wellFormed
  refine ⟨kept, initial, fun step => ⟨fun e => sound.train_eq_error_iff, ?_, ?_⟩⟩
  · intro operation value fault failed
    exact r.trainingFault?_ne_invalidProbability step operation value fault
      (sound.train_eq_error_iff.mp failed)
  · intro estimate trained
    have keeps := sound.keeps_of_train trained
    exact ⟨keeps.structure_kept, keeps.initial⟩

theorem trainAll_machine :
    ∃ r, Machine.model.trainAll EReal [⟨true, ⟨true, true⟩, ⟨[0, 1], [1, 2], .inr rfl⟩⟩] = .ok r ∧
      Machine.model.KeepsStructure r ∧
      r.train ⟨false, ⟨true, true⟩, .unlabelled [0, 7, 8]⟩ =
        (.error (.unknownSymbol .observe 7) : Except _ (Estimate _ _ ℚ EReal)) ∧
      r.train ⟨true, ⟨true, true⟩, ⟨[0, 1, 1], [1, 2, 1], .inr rfl⟩⟩ =
        (.error (.notAllowed 2 1) : Except _ (Estimate _ _ ℚ EReal)) := by
  obtain ⟨-, -, steps⟩ := trainAll_fails_iff Machine.model_reachable
    (rfl : Machine.model.trainAll EReal [] = .ok _)
  obtain ⟨fails, -⟩ := steps ⟨true, ⟨true, true⟩, ⟨[0, 1], [1, 2], .inr rfl⟩⟩
  obtain ⟨r, trained⟩ : ∃ r, Machine.model.trainAll EReal
      [⟨true, ⟨true, true⟩, ⟨[0, 1], [1, 2], .inr rfl⟩⟩] = .ok r := by
    cases stepped : (Machine.model.train ⟨true, ⟨true, true⟩, ⟨[0, 1], [1, 2], .inr rfl⟩⟩ :
        Except _ (Estimate _ _ ℚ EReal)) with
    | error e =>
      have sane : Machine.model.trainingFault?
          ⟨true, ⟨true, true⟩, ⟨[0, 1], [1, 2], .inr rfl⟩⟩ = none := by decide +kernel
      cases sane.symm.trans ((fails e).mp stepped)
    | ok estimate => exact ⟨estimate.model, by simp only [trainAll, stepped, bind, Except.bind]⟩
  obtain ⟨kept, -, steps⟩ := trainAll_fails_iff Machine.model_reachable trained
  refine ⟨r, trained, kept, ?_, ?_⟩
  · refine ((steps _).1 _).mpr rfl
  · refine ((steps _).1 _).mpr ?_
    exact (kept.labellingFault?_eq ⟨[0, 1, 1], [1, 2, 1], .inr rfl⟩).trans (by decide +kernel)

end Step

end Model

end Trellis
