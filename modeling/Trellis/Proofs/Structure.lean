import Trellis.Proofs.Estimation

/-!
# What an estimate leaves alone

An estimate changes probabilities. The arcs there are and the pseudocounts are
those of the model it starts from, whatever was counted
(`keepsStructure_estimate`), and so is the initial distribution if it is not to be
reestimated (`initial_estimate_eq_self`) or no start was counted
(`initial_estimate_of_uncounted`).
-/

namespace Trellis.Model

variable {S E K σ : Type} {Q : Alphabet S} {A : Alphabet E}

/-- The second model has the arcs and the pseudocounts of the first. -/
structure KeepsStructure [Zero K] (m r : Model Q A K) : Prop where
  allows : ∀ k l, r.allows k l = m.allows k l
  transitionPseudocount : ∀ k l, r.transitionPseudocount k l = m.transitionPseudocount k l
  emissionPseudocount : ∀ k x, r.emissionPseudocount k x = m.emissionPseudocount k x

namespace KeepsStructure

variable [Zero K] {m r s : Model Q A K}

theorem refl (m : Model Q A K) : m.KeepsStructure m where
  allows _ _ := rfl
  transitionPseudocount _ _ := rfl
  emissionPseudocount _ _ := rfl

theorem trans (first : m.KeepsStructure r) (second : r.KeepsStructure s) :
    m.KeepsStructure s where
  allows k l := (second.allows k l).trans (first.allows k l)
  transitionPseudocount k l :=
    (second.transitionPseudocount k l).trans (first.transitionPseudocount k l)
  emissionPseudocount k x :=
    (second.emissionPseudocount k x).trans (first.emissionPseudocount k x)

end KeepsStructure

section Estimate

variable [Field K] [LinearOrder K] {m : Model Q A K} {options : Estimation}
  {counts : Counts (.ofModel Q.size A.size) K σ}

/-- Whatever was counted, an estimate has the arcs and the pseudocounts of its model. -/
theorem keepsStructure_estimate (m : Model Q A K) (options : Estimation)
    (counts : Counts (.ofModel Q.size A.size) K σ) :
    m.KeepsStructure (m.reweighted options counts).finished where
  allows k l := by rw [Builder.allows_finished, allows_reweighted]
  transitionPseudocount k l := by
    rw [Builder.transitionPseudocount_finished]
    simp only [reweighted, Parameters.transitionPseudocount, Parameters.transitions_reweigh]
    cases m.transitions.get k l with
    | none => rfl
    | some e => rfl
  emissionPseudocount k x := by
    rw [Builder.emissionPseudocount_finished]
    simp only [reweighted, Parameters.emissionPseudocount, Parameters.emissions_reweigh,
      Entry.pseudocount_withProbability]

theorem initial_estimate :
    (m.reweighted options counts).finished.initial =
      m.estimatedInitial options counts.initial := rfl

theorem initial_estimate_eq_self (kept : options.reestimateInitial = false) :
    (m.reweighted options counts).finished.initial = m.initial :=
  if_neg fun counted => absurd counted.1 (Bool.eq_false_iff.mp kept)

theorem initial_estimate_of_uncounted (uncounted : ∀ k, counts.initial.get k = 0) :
    (m.reweighted options counts).finished.initial = m.initial := by
  rcases m.estimatedInitial_cases options counts with kept | ⟨positive, -⟩
  · exact kept
  · simp [uncounted] at positive

end Estimate

end Trellis.Model
