import Trellis.Proofs.Pseudocounts

/-!
# Estimates by weight

What an estimate is, cell by cell, for counts that are not negative
(`EstimatedAs`). Every group of the model is shared out by weight among its members:
the targets that a state may go to, or all symbols (`transition_estimate_eq_portion`,
`emission_estimate_eq_portion`). So it does not show that the weights of forbidden
arcs are dropped first (`SameWhereAllowed.reweighted_eq`), that rows are then divided
by their totals, and that rows without a total are left to be filled at the end. What
is estimated has the arcs and pseudocounts that it was estimated with, and estimating
again gives it back (`reweighted_estimate`). `estimate_portions` states all of this.
-/

namespace Trellis.Model

variable {S E K σ : Type} {Q : Alphabet S} {A : Alphabet E} [Field K] [LinearOrder K]

/-- What was counted for a cell, with its pseudocount if those are used. -/
def weight (m : Model Q A K) (options : Estimation)
    (counts : Counts (.ofModel Q.size A.size) K σ) (c : Cell Q A) : K :=
  counts.cell c + m.added options c

/-- The second model has the structure of the first; its groups are shared out by
weight, and so are its starts if they are to be reestimated and one was counted. -/
structure EstimatedAs (m : Model Q A K) (options : Estimation)
    (counts : Counts (.ofModel Q.size A.size) K σ) (r : Model Q A K) : Prop where
  structure_kept : m.KeepsStructure r
  initial : ∀ k, r.initial.get k =
    if options.reestimateInitial = true ∧ 0 < ∑ j, counts.initial.get j then
      counts.initial.get k / ∑ j, counts.initial.get j
    else m.initial.get k
  transition : ∀ k l, r.transition k l =
    if m.allows k l = true then
      portion {j | m.allows k j = true} (fun j => m.weight options counts (.inr (.inl (k, j)))) l
    else 0
  emission : ∀ k x, r.emission k x =
    portion .univ (fun y => m.weight options counts (.inr (.inr (k, y)))) x

/-- The counts differ at most in what was counted for forbidden arcs. -/
structure SameWhereAllowed (m : Model Q A K)
    (counts other : Counts (.ofModel Q.size A.size) K σ) : Prop where
  initial : other.initial = counts.initial
  transitions : ∀ k l, m.allows k l = true →
    other.transitions.get k l = counts.transitions.get k l
  emissions : other.emissions = counts.emissions

variable {m r : Model Q A K} {options : Estimation}
  {counts other : Counts (.ofModel Q.size A.size) K σ}

/-! ### Weights -/

theorem get_transitionWeights {k l : Q.Code} (allowed : m.allows k l = true) :
    (m.transitionWeights options counts.transitions).get k l =
      m.weight options counts (.inr (.inl (k, l))) := by
  obtain ⟨e, arc⟩ := Option.isSome_iff_exists.mp allowed
  simp only [transitionWeights, Table.get_ofFn, arc, Option.elim_some, Estimation.weight, weight,
    Counts.cell, added, pseudocount, Parameters.transitionPseudocount]
  split
  · rfl
  · rw [add_zero]

theorem get_transitionWeights_of_forbidden {k l : Q.Code} (forbidden : m.allows k l = false) :
    (m.transitionWeights options counts.transitions).get k l = 0 :=
  admits_weighed k l forbidden

/-- The weights of arcs, for the same arcs and equal weights where these are allowed. -/
theorem transitionWeights_congr (allows : ∀ k l, r.allows k l = m.allows k l)
    (same : ∀ k l, m.allows k l = true →
      r.weight options other (.inr (.inl (k, l))) = m.weight options counts (.inr (.inl (k, l)))) :
    r.transitionWeights options other.transitions =
      m.transitionWeights options counts.transitions := by
  ext k l
  cases allowed : m.allows k l with
  | true =>
    rw [get_transitionWeights allowed, get_transitionWeights ((allows k l).trans allowed),
      same k l allowed]
  | false =>
    rw [get_transitionWeights_of_forbidden allowed,
      get_transitionWeights_of_forbidden ((allows k l).trans allowed)]

theorem sum_transitionWeights (k : Q.Code) :
    ∑ l, (m.transitionWeights options counts.transitions).get k l =
      ∑ l with m.allows k l = true, m.weight options counts (.inr (.inl (k, l))) := by
  rw [Finset.sum_filter]
  refine Finset.sum_congr rfl fun l _ => ?_
  split
  · rename_i allowed
    exact get_transitionWeights allowed
  · rename_i forbidden
    exact get_transitionWeights_of_forbidden (Bool.eq_false_iff.mpr forbidden)

theorem get_emissionWeights (k : Q.Code) (x : A.Code) :
    (m.emissionWeights options counts.emissions).get k x =
      m.weight options counts (.inr (.inr (k, x))) := by
  simp only [emissionWeights, Table.get_ofFn, Estimation.weight, weight, Counts.cell, added,
    pseudocount, Parameters.emissionPseudocount]
  split
  · rfl
  · rw [add_zero]

/-! ### Cells -/

theorem get_initial_estimate (k : Q.Code) :
    (m.reweighted options counts).finished.initial.get k =
      if options.reestimateInitial = true ∧ 0 < ∑ j, counts.initial.get j then
        counts.initial.get k / ∑ j, counts.initial.get j
      else m.initial.get k := by
  rw [initial_estimate, estimatedInitial, rowTotal_toList]
  dsimp only
  split
  · rw [Row.get_map]
  · rfl

namespace WellFormed

variable [IsStrictOrderedRing K] (sound : m.WellFormed) (nonneg : counts.Nonneg)
include sound nonneg

/-- The probability of an arc is the portion of its weight among the arcs of its source. -/
theorem transition_estimate_eq_portion {k l : Q.Code} (allowed : m.allows k l = true) :
    (m.reweighted options counts).finished.transition k l =
      portion {j | m.allows k j = true}
        (fun j => m.weight options counts (.inr (.inl (k, j)))) l := by
  have arc := (m.allows_reweighted options counts k l).trans allowed
  have members : ((m.reweighted options counts).transitionGroup k).length =
      Finset.card {j | m.allows k j = true} := by
    rw [Parameters.length_transitionGroup, ← Parameters.card_targets]
    simp only [allows_reweighted]
  have weights : ∀ j, 0 ≤ ((m.transitionWeights options counts.transitions).row k).get j :=
    sound.transitionWeights_nonneg options nonneg k
  have filled := filled_relativeRow weights
  simp only [Builder.transition_finished _ arc, transition_reweighted, filled, members,
    Table.get_row, sum_transitionWeights, get_transitionWeights allowed]
  rfl

/-- The probability of an emission is the portion of its weight among all symbols. -/
theorem emission_estimate_eq_portion (k : Q.Code) (x : A.Code) :
    (m.reweighted options counts).finished.emission k x =
      portion .univ (fun y => m.weight options counts (.inr (.inr (k, y)))) x := by
  have weights : ∀ y, 0 ≤ ((m.emissionWeights options counts.emissions).row k).get y :=
    sound.emissionWeights_nonneg options nonneg k
  have filled := filled_relativeRow weights
  simp only [Builder.emission_finished, emission_reweighted, filled, Table.get_row,
    get_emissionWeights, portion, Finset.card_univ, Fintype.card_fin]

theorem estimatedAs_estimate :
    m.EstimatedAs options counts (m.reweighted options counts).finished where
  structure_kept := m.keepsStructure_estimate options counts
  initial := get_initial_estimate
  transition k l := by
    split
    · rename_i allowed
      exact sound.transition_estimate_eq_portion nonneg allowed
    · rename_i forbidden
      refine Parameters.transition_eq_zero ?_
      rw [Builder.allows_finished, allows_reweighted]
      exact Bool.eq_false_iff.mpr forbidden
  emission := sound.emission_estimate_eq_portion nonneg

end WellFormed

/-! ### Counts without influence -/

/-- What is counted for a forbidden arc does not matter. -/
theorem SameWhereAllowed.reweighted_eq (same : m.SameWhereAllowed counts other) :
    m.reweighted options other = m.reweighted options counts := by
  have transitions : m.transitionWeights options other.transitions =
      m.transitionWeights options counts.transitions := by
    refine transitionWeights_congr (fun _ _ => rfl) fun k l allowed => ?_
    rw [weight, weight, Counts.cell, Counts.cell, same.transitions k l allowed]
  rw [reweighted, reweighted, transitions, same.emissions, same.initial]

/-! ### Estimating again -/

namespace KeepsStructure

variable (kept : m.KeepsStructure r)
include kept

omit [LinearOrder K] in
theorem map_pseudocount (k l : Q.Code) :
    (r.transitions.get k l).map Entry.pseudocount =
      (m.transitions.get k l).map Entry.pseudocount := by
  have allows := kept.allows k l
  have pseudocount := kept.transitionPseudocount k l
  rw [Parameters.allows, Parameters.allows] at allows
  rw [Parameters.transitionPseudocount, Parameters.transitionPseudocount] at pseudocount
  cases before : m.transitions.get k l with
  | none =>
    rw [before, Option.isSome_none, Option.isSome_eq_false_iff,
      Option.isNone_iff_eq_none] at allows
    rw [allows]
  | some e =>
    rw [before, Option.isSome_some] at allows
    obtain ⟨d, after⟩ := Option.isSome_iff_exists.mp allows
    rw [before, after] at pseudocount
    rw [after]
    exact congrArg some pseudocount

omit [LinearOrder K] in
theorem weight_eq : r.weight options counts = m.weight options counts := by
  funext c
  rw [weight, weight, added, added, kept.pseudocount_eq]

/-- Of its model an estimate uses the arcs, the pseudocounts and the initial distribution. -/
theorem reweighted_eq
    (initial : r.estimatedInitial options counts.initial =
      m.estimatedInitial options counts.initial) :
    r.reweighted options counts = m.reweighted options counts := by
  have transitions : r.transitionWeights options counts.transitions =
      m.transitionWeights options counts.transitions :=
    transitionWeights_congr kept.allows fun k l _ => by rw [kept.weight_eq]
  have emissions : r.emissionWeights options counts.emissions =
      m.emissionWeights options counts.emissions := by
    ext k x
    rw [get_emissionWeights, get_emissionWeights, kept.weight_eq]
  refine Builder.ext (Parameters.ext (fun k l => ?_) fun k x => ?_) (congrArg some initial)
  · -- What is left of an entry when it is weighed anew is its pseudocount.
    have keeps := congrArg (Option.map (Entry.mk
      ((m.transitionWeights options counts.transitions).relativeRows.get k l)))
      (kept.map_pseudocount k l)
    rw [Option.map_map, Option.map_map] at keeps
    rw [reweighted, reweighted, Parameters.transitions_reweigh, Parameters.transitions_reweigh,
      transitions]
    exact keeps
  · rw [reweighted, reweighted, Parameters.emissions_reweigh, Parameters.emissions_reweigh,
      emissions]
    exact congrArg (Entry.mk _) (kept.emissionPseudocount k x)

end KeepsStructure

/-- The estimated initial distribution is estimated, or kept, once more. -/
theorem estimatedInitial_estimate :
    (m.reweighted options counts).finished.estimatedInitial options counts.initial =
      m.estimatedInitial options counts.initial := by
  simp only [estimatedInitial, initial_estimate]
  split
  · rfl
  · rfl

/-- Estimating again from the same counts changes nothing. -/
theorem reweighted_estimate :
    (m.reweighted options counts).finished.reweighted options counts =
      m.reweighted options counts :=
  (m.keepsStructure_estimate options counts).reweighted_eq estimatedInitial_estimate

variable [IsStrictOrderedRing K] [DecidableEq S] [DecidableEq E]

/-- **Estimates are portions.** From counts that are not negative an estimate always
succeeds. Its arcs share out one by what was counted for them and their
pseudocounts, if those are used, and equally if that is nothing; so do its
emissions. Its starts are shares of what was counted, or those of the model. What
was counted for forbidden arcs has no influence, and the same estimate from the
new model gives that model again. -/
theorem estimate_portions (reach : m.Reachable) (options : Estimation)
    (nonneg : counts.Nonneg) :
    ∃ r, m.estimate options counts = .ok r ∧ m.EstimatedAs options counts r ∧
      (∀ other, m.SameWhereAllowed counts other → m.estimate options other = .ok r) ∧
      r.estimate options counts = .ok r := by
  have sound := reach.wellFormed
  have estimated : m.estimate options counts = .ok (m.reweighted options counts).finished :=
    sound.estimate_eq_ok nonneg
  refine ⟨_, estimated, sound.estimatedAs_estimate nonneg, ?_, ?_⟩
  · intro other same
    rw [estimate, same.reweighted_eq]
    exact estimated
  · rw [estimate, reweighted_estimate]
    exact estimated

/-- Counts for the machine, with a number for the arc that it does not have. -/
def countsBeside (misplaced : ℚ) :
    Counts (.ofModel Machine.states.size Machine.symbols.size) ℚ ℚ where
  initial := #v[0, 3]
  transitions := ⟨#v[#v[5, 0], #v[misplaced, 0]]⟩
  emissions := ⟨#v[.replicate _ 0, #v[0, 4]]⟩
  logLikelihood := 0

/-- Seven returns from the failed state do not count, not even less than none. -/
theorem estimate_portions_machine :
    ∃ r, Machine.model.estimate ⟨true, true⟩ (countsBeside 7) = .ok r ∧
      r.transition Machine.working Machine.working = 6 / 7 ∧
      r.transition Machine.failed Machine.working = 0 ∧
      (∀ x, r.emission Machine.working x = 1 / 2) ∧
      r.initial.get Machine.failed = 1 ∧
      Machine.model.estimate ⟨true, true⟩ (countsBeside (-7)) = .ok r ∧
      r.estimate ⟨true, true⟩ (countsBeside 7) = .ok r := by
  have nonneg : (countsBeside 7).Nonneg := ⟨by decide +kernel, by decide +kernel, by decide +kernel⟩
  obtain ⟨r, estimated, cells, uninfluenced, again⟩ :=
    estimate_portions Machine.model_reachable ⟨true, true⟩ nonneg
  refine ⟨r, estimated, ?_, ?_, fun x => ?_, ?_, ?_, again⟩
  · rw [cells.transition]
    decide +kernel
  · rw [cells.transition]
    decide +kernel
  · rw [cells.emission]
    revert x
    decide +kernel
  · rw [cells.initial]
    decide +kernel
  · exact uninfluenced _ ⟨rfl, by decide +kernel, rfl⟩

end Trellis.Model
