import Trellis.Proofs.Likelihood
import Trellis.Proofs.Structure

/-!
# Relative frequencies

Without pseudocounts an estimate divides every row of counts by its total. So
its groups add up to exactly one (`Normalized.estimate`), and no competing model,
with the same arcs and groups that add up to one (`Competes`), has a greater
logarithm of its cells when it is weighted with the counts
(`gain_estimate_nonneg`). Rows without counts become uniform, and nothing that
was counted depends on them (`estimate_cell_ne_zero`).
-/

namespace Trellis.Model

variable {S E K σ : Type} {Q : Alphabet S} {A : Alphabet E} [Field K] [LinearOrder K]

/-! ### What is asked of models and counts -/

/-- Every group that is not empty adds up to exactly one. -/
structure Normalized (m : Model Q A K) : Prop where
  initial : ∑ k, m.initial.get k = 1
  transition : ∀ k l, m.allows k l = true → ∑ j, m.transition k j = 1
  emission : ∀ k, ∑ x, m.emission k x = 1

/-- A model that an estimate is compared with. It has the same arcs, and its
groups are probabilities that add up to exactly one. What is not reestimated, it
has in common with the model of the estimate. -/
structure Competes (m : Model Q A K) (options : Estimation) (r : Model Q A K) : Prop where
  allows : ∀ k l, r.allows k l = m.allows k l
  nonneg : ∀ cell, 0 ≤ r.cell cell
  initial : if options.reestimateInitial then ∑ k, r.initial.get k = 1 else r.initial = m.initial
  transition : ∀ k l, m.allows k l = true → ∑ j, r.transition k j = 1
  emission : ∀ k, ∑ x, r.emission k x = 1

/-- Nothing is counted for an arc that is forbidden. -/
def Admits (m : Model Q A K) (counts : Counts (.ofModel Q.size A.size) K σ) : Prop :=
  ∀ k l, m.allows k l = false → counts.transitions.get k l = 0

/-- Nothing is counted that the model holds impossible. -/
def Supports (m : Model Q A K) (counts : Counts (.ofModel Q.size A.size) K σ) : Prop :=
  ∀ cell : Cell Q A, counts.cell cell ≠ 0 → m.cell cell ≠ 0

variable {m r : Model Q A K} {counts : Counts (.ofModel Q.size A.size) K σ}
  {options : Estimation}

theorem Supports.admits (supports : m.Supports counts) : m.Admits counts := by
  intro k l forbidden
  by_contra counted
  exact supports (.inr (.inl (k, l))) counted (Parameters.transition_eq_zero forbidden)

theorem Normalized.competes (normalized : m.Normalized) (sound : m.WellFormed)
    (options : Estimation) : m.Competes options m where
  allows _ _ := rfl
  nonneg := sound.cell_nonneg
  initial := by
    split
    · exact normalized.initial
    · rfl
  transition := normalized.transition
  emission := normalized.emission

namespace Competes

variable (competes : m.Competes options r)
include competes

theorem admits (supports : r.Supports counts) : m.Admits counts := by
  intro k l forbidden
  exact supports.admits k l ((competes.allows k l).trans forbidden)

theorem sum_initial (chosen : options.reestimateInitial = true) : ∑ k, r.initial.get k = 1 := by
  have initial := competes.initial
  rwa [if_pos chosen] at initial

theorem initial_eq (kept : options.reestimateInitial = false) : r.initial = m.initial := by
  have initial := competes.initial
  rwa [if_neg (Bool.eq_false_iff.mp kept)] at initial

/-- A group of transitions never exceeds one; a state without arcs has none. -/
theorem sum_transition_le [IsStrictOrderedRing K] (k : Q.Code) : ∑ l, r.transition k l ≤ 1 := by
  by_cases arcs : ∃ l, m.allows k l = true
  · obtain ⟨l, allowed⟩ := arcs
    exact (competes.transition k l allowed).le
  · have zero : ∀ l, r.transition k l = 0 := fun l =>
      Parameters.transition_eq_zero (Bool.eq_false_iff.mpr fun allowed =>
        arcs ⟨l, (competes.allows k l).symm.trans allowed⟩)
    simp [zero]

end Competes

/-! ### Shares -/

theorem transitionWeights_eq (plain : options.usePseudocounts = false)
    (admits : m.Admits counts) :
    m.transitionWeights options counts.transitions = counts.transitions := by
  ext k l
  rw [transitionWeights, Table.get_ofFn]
  cases arc : m.transitions.get k l with
  | none => exact (admits k l (by simp [Parameters.allows, arc])).symm
  | some e => simp [Estimation.weight, plain]

theorem emissionWeights_eq (plain : options.usePseudocounts = false) :
    m.emissionWeights options counts.emissions = counts.emissions := by
  ext k x
  simp [emissionWeights, Estimation.weight, plain]

variable [IsStrictOrderedRing K]

theorem transition_reweighted_eq_share (plain : options.usePseudocounts = false)
    (admits : m.Admits counts) (nonneg : counts.Nonneg) (k l : Q.Code) :
    (m.reweighted options counts).transition k l =
      counts.transitions.get k l / ∑ j, counts.transitions.get k j := by
  rw [transition_reweighted, transitionWeights_eq plain admits]
  exact get_relativeRow (nonneg.transitions k) l

theorem emission_reweighted_eq_share (plain : options.usePseudocounts = false)
    (nonneg : counts.Nonneg) (k : Q.Code) (x : A.Code) :
    (m.reweighted options counts).emission k x =
      counts.emissions.get k x / ∑ y, counts.emissions.get k y := by
  rw [emission_reweighted, emissionWeights_eq plain]
  exact get_relativeRow (nonneg.emissions k) x

/-! ### The estimated model -/

/-- What was counted for a start becomes its share, if starts are reestimated. -/
theorem initial_estimate_eq_share (chosen : options.reestimateInitial = true)
    (nonneg : counts.Nonneg) {k : Q.Code} (counted : counts.initial.get k ≠ 0) (l : Q.Code) :
    (m.reweighted options counts).finished.initial.get l =
      counts.initial.get l / ∑ j, counts.initial.get j := by
  have positive : 0 < ∑ j, counts.initial.get j :=
    lt_of_le_of_ne (sum_get_nonneg nonneg.initial)
      (sum_ne_zero_of_nonneg nonneg.initial counted).symm
  have shared := And.intro chosen positive
  simp only [initial_estimate, estimatedInitial, rowTotal_toList, if_pos shared, Row.get_map]

omit [IsStrictOrderedRing K] in
theorem Normalized.sum_initial_estimate (normalized : m.Normalized) (options : Estimation)
    (counts : Counts (.ofModel Q.size A.size) K σ) :
    ∑ k, (m.reweighted options counts).finished.initial.get k = 1 := by
  rw [initial_estimate]
  rcases m.estimatedInitial_cases options counts with kept | ⟨positive, shares⟩
  · rw [kept, normalized.initial]
  · simp only [shares]
    exact sum_div_sum positive.ne'

theorem sum_transition_estimate (plain : options.usePseudocounts = false)
    (admits : m.Admits counts) (nonneg : counts.Nonneg) {k l : Q.Code}
    (allowed : m.allows k l = true) :
    ∑ j, (m.reweighted options counts).finished.transition k j = 1 := by
  have arc : (m.reweighted options counts).allows k l = true :=
    (m.allows_reweighted options counts k l).trans allowed
  rw [Builder.sum_transition_finished _ arc]
  split
  · rfl
  · rename_i occupied
    simp only [transition_reweighted_eq_share plain admits nonneg] at occupied ⊢
    exact (sum_div_sum_cases _).resolve_left occupied

theorem sum_emission_estimate (plain : options.usePseudocounts = false)
    (nonneg : counts.Nonneg) (k : Q.Code) :
    ∑ x, (m.reweighted options counts).finished.emission k x = 1 := by
  rw [Builder.sum_emission_finished]
  split
  · rfl
  · rename_i occupied
    simp only [emission_reweighted_eq_share plain nonneg] at occupied ⊢
    exact (sum_div_sum_cases _).resolve_left occupied

/-- What was counted for an arc becomes its share; no filling changes it. -/
theorem transition_estimate (plain : options.usePseudocounts = false)
    (admits : m.Admits counts) (nonneg : counts.Nonneg) {k l : Q.Code}
    (counted : counts.transitions.get k l ≠ 0) :
    (m.reweighted options counts).finished.transition k l =
      counts.transitions.get k l / ∑ j, counts.transitions.get k j := by
  have total := sum_ne_zero_of_nonneg (nonneg.transitions k) counted
  have occupied : ∑ j, (m.reweighted options counts).transition k j ≠ 0 := by
    simp only [transition_reweighted_eq_share plain admits nonneg, sum_div_sum total]
    exact one_ne_zero
  rw [Builder.transition_finished_of_sum_ne_zero _ occupied,
    transition_reweighted_eq_share plain admits nonneg]

theorem emission_estimate (plain : options.usePseudocounts = false) (nonneg : counts.Nonneg)
    {k : Q.Code} {x : A.Code} (counted : counts.emissions.get k x ≠ 0) :
    (m.reweighted options counts).finished.emission k x =
      counts.emissions.get k x / ∑ y, counts.emissions.get k y := by
  have total := sum_ne_zero_of_nonneg (nonneg.emissions k) counted
  rw [Builder.emission_finished, if_neg, emission_reweighted_eq_share plain nonneg]
  simp only [emission_reweighted_eq_share plain nonneg, sum_div_sum total]
  exact one_ne_zero

/-- The estimate of a normalized model is normalized. -/
theorem Normalized.estimate (normalized : m.Normalized)
    (plain : options.usePseudocounts = false) (admits : m.Admits counts)
    (nonneg : counts.Nonneg) : (m.reweighted options counts).finished.Normalized where
  initial := normalized.sum_initial_estimate options counts
  transition k l allowed := by
    rw [Builder.allows_finished, allows_reweighted] at allowed
    exact sum_transition_estimate plain admits nonneg allowed
  emission := sum_emission_estimate plain nonneg

/-- If a start was counted, the estimate is one of the models it is compared with. -/
theorem WellFormed.competes_estimate (sound : m.WellFormed)
    (plain : options.usePseudocounts = false) (admits : m.Admits counts)
    (nonneg : counts.Nonneg) {k : Q.Code} (counted : counts.initial.get k ≠ 0) :
    m.Competes options (m.reweighted options counts).finished where
  allows k l := by rw [Builder.allows_finished, allows_reweighted]
  nonneg := (sound.estimate nonneg (sound.estimate_eq_ok nonneg)).cell_nonneg
  initial := by
    split
    · rename_i chosen
      simp only [initial_estimate_eq_share chosen nonneg counted]
      exact sum_div_sum (sum_ne_zero_of_nonneg nonneg.initial counted)
    · rename_i kept
      exact initial_estimate_eq_self (Bool.eq_false_iff.mpr kept)
  transition _ _ allowed := sum_transition_estimate plain admits nonneg allowed
  emission := sum_emission_estimate plain nonneg

/-! ### The best choice -/

/-- What is counted is possible under the estimate. If the starts are not
reestimated, those that are counted have to be possible before. -/
theorem estimate_cell_ne_zero (plain : options.usePseudocounts = false) (admits : m.Admits counts)
    (nonneg : counts.Nonneg)
    (starts : options.reestimateInitial = false →
      ∀ k, counts.initial.get k ≠ 0 → m.initial.get k ≠ 0)
    (c : Cell Q A) (counted : counts.cell c ≠ 0) :
    (m.reweighted options counts).finished.cell c ≠ 0 := by
  match c with
  | .inl k =>
    rw [cell]
    cases chosen : options.reestimateInitial with
    | false =>
      rw [initial_estimate_eq_self chosen]
      exact starts chosen k counted
    | true =>
      rw [initial_estimate_eq_share chosen nonneg counted]
      exact div_ne_zero counted (sum_ne_zero_of_nonneg nonneg.initial counted)
  | .inr (.inl (k, l)) =>
    rw [cell, transition_estimate plain admits nonneg counted]
    exact div_ne_zero counted (sum_ne_zero_of_nonneg (nonneg.transitions k) counted)
  | .inr (.inr (k, x)) =>
    rw [cell, emission_estimate plain nonneg counted]
    exact div_ne_zero counted (sum_ne_zero_of_nonneg (nonneg.emissions k) counted)

namespace Competes

variable (competes : m.Competes options r) (plain : options.usePseudocounts = false)
  (supports : r.Supports counts) (nonneg : counts.Nonneg)
include competes plain supports nonneg

theorem estimate_ne_zero (c : Cell Q A) (counted : counts.cell c ≠ 0) :
    (m.reweighted options counts).finished.cell c ≠ 0 := by
  refine estimate_cell_ne_zero plain (competes.admits supports) nonneg ?_ c counted
  intro kept k started
  rw [← competes.initial_eq kept]
  exact supports (.inl k) started

/-- The estimate gains on its competitors in every group of cells. -/
theorem gain_estimate_nonneg [Archimedean K] :
    0 ≤ gain counts.cell r.cell (m.reweighted options counts).finished.cell := by
  have admits := competes.admits supports
  rw [gain_cells]
  refine add_nonneg ?_ (add_nonneg (Finset.sum_nonneg fun k _ => ?_)
    (Finset.sum_nonneg fun k _ => ?_))
  · cases chosen : options.reestimateInitial with
    | false =>
      have same : ∀ k, (m.reweighted options counts).finished.cell (.inl k) = r.cell (.inl k) :=
        fun k => by rw [cell, initial_estimate_eq_self chosen, ← competes.initial_eq chosen, cell]
      simp only [same, gain_self, le_refl]
    | true =>
      exact gain_nonneg nonneg.initial (fun k => competes.nonneg (.inl k))
        (competes.sum_initial chosen).le (fun k => supports (.inl k))
        fun k counted => initial_estimate_eq_share chosen nonneg counted k
  · exact gain_nonneg (nonneg.transitions k) (fun l => competes.nonneg (.inr (.inl (k, l))))
      (competes.sum_transition_le k) (fun l => supports (.inr (.inl (k, l))))
      fun l counted => transition_estimate plain admits nonneg counted
  · exact gain_nonneg (nonneg.emissions k) (fun x => competes.nonneg (.inr (.inr (k, x))))
      (competes.emission k).le (fun x => supports (.inr (.inr (k, x))))
      fun x counted => emission_estimate plain nonneg counted

end Competes

end Trellis.Model
