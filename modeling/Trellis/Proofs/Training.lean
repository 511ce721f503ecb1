import Trellis.Estimate
import Trellis.Proofs.ExpectedCounts

/-!
# Training steps are runs

Both training steps estimate a model from counts that they make themselves, and
neither ever counts less than nothing (`WellFormed.nonneg_expectedCounts`,
`nonneg_labelledCounts`). So the model of a step can be reached from where the step
began (`Reachable.baumWelchStep`, `Reachable.labelledStep`), and what holds of all
runs holds of training.
-/

namespace Trellis.Model

variable {S E K σ : Type} {Q : Alphabet S} {A : Alphabet E} [Field K] [LinearOrder K]
  [IsStrictOrderedRing K] [Score σ] [Logarithm K σ] {m : Model Q A K}

theorem nonneg_pathCounts (m : Model Q A K) (path : List (Q.Code × A.Code)) :
    (m.pathCounts path : Counts _ K σ).Nonneg where
  initial k := by
    rw [pathCounts, Row.get_ofFn]
    exact Nat.cast_nonneg _
  transitions k l := by
    rw [pathCounts, Table.get_ofFn]
    exact Nat.cast_nonneg _
  emissions k x := by
    rw [pathCounts, Table.get_ofFn]
    exact Nat.cast_nonneg _

/-- Expected counts are averages of counts, so none is negative. -/
theorem WellFormed.nonneg_expectedCounts (sound : m.WellFormed) {xs : List A.Code}
    {counts : Counts (.ofModel Q.size A.size) K σ}
    (computed : m.expectedCounts xs = (.ok counts : Except (Error S E K) _)) :
    counts.Nonneg := by
  obtain ⟨positive, expects⟩ := sound.expects_of_expectedCounts computed
  exact expects.nonneg sound positive

variable [DecidableEq S] [DecidableEq E] {options : Estimation} {sequence : Sequence S E}
  {estimate : Estimate Q A K σ}

omit [IsStrictOrderedRing K] in
/-- The counts of a labelled sequence are those of a path of its length over
allowed arcs. -/
theorem path_of_labelledCounts {counts : Counts (.ofModel Q.size A.size) K σ}
    (counted : m.labelledCounts sequence = (.ok counts : Except (Error S E K) _)) :
    ∃ states xs, A.encode sequence.emissions = .ok xs ∧ states.length = xs.length ∧
      m.forbiddenStep? states = none ∧ counts = m.pathCounts (states.zip xs) := by
  unfold labelledCounts at counted
  split at counted
  · cases counted
  · rename_i labelled
    obtain ⟨states, path, counted⟩ := bind_eq_ok.mp counted
    obtain ⟨xs, known, counted⟩ := bind_eq_ok.mp counted
    have labels : sequence.states ≠ [] := by
      intro unlabelled
      simp [Sequence.isLabelled, unlabelled] at labelled
    have encoded := mapError_eq_ok.mp known
    have aligned : states.length = xs.length := by
      rw [Alphabet.length_of_encode (mapError_eq_ok.mp path), Alphabet.length_of_encode encoded]
      exact sequence.aligned.resolve_left labels
    split at counted
    · cases counted
    · rename_i follows
      cases counted
      exact ⟨states, xs, encoded, aligned, follows, rfl⟩

/-- The counts of a known path are natural numbers. -/
theorem nonneg_labelledCounts {counts : Counts (.ofModel Q.size A.size) K σ}
    (counted : m.labelledCounts sequence = (.ok counts : Except (Error S E K) _)) :
    counts.Nonneg := by
  obtain ⟨states, xs, -, -, -, rfl⟩ := path_of_labelledCounts counted
  exact m.nonneg_pathCounts _

/-- A step of Baum-Welch is an estimate from counts that are not negative. -/
theorem Reachable.baumWelchStep (reach : m.Reachable)
    (stepped : m.baumWelchStep options sequence = .ok estimate) : estimate.model.Reachable := by
  obtain ⟨xs, -, stepped⟩ := bind_eq_ok.mp stepped
  obtain ⟨counts, counted, stepped⟩ := bind_eq_ok.mp stepped
  obtain ⟨model, estimated, stepped⟩ := bind_eq_ok.mp stepped
  cases stepped
  exact reach.estimate options counts (reach.wellFormed.nonneg_expectedCounts counted) estimated

/-- A step over a labelled sequence is an estimate from counts that are not negative. -/
theorem Reachable.labelledStep (reach : m.Reachable)
    (stepped : m.labelledStep options sequence = .ok estimate) : estimate.model.Reachable := by
  obtain ⟨counts, counted, stepped⟩ := bind_eq_ok.mp stepped
  obtain ⟨model, estimated, stepped⟩ := bind_eq_ok.mp stepped
  cases stepped
  exact reach.estimate options counts (nonneg_labelledCounts counted) estimated

end Trellis.Model
