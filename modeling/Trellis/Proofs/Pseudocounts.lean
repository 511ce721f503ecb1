import Trellis.Proofs.RelativeFrequencies

/-!
# Pseudocounts

An estimate with pseudocounts is an estimate without them from other counts, to
which the pseudocounts have been added before (`reweighted_weighed`). So relative
frequencies are all there is to estimation. What is added for an arc that is
forbidden is dropped, and it never had a pseudocount (`cell_weighed`).
-/

namespace Trellis

variable {S E K σ : Type} {Q : Alphabet S} {A : Alphabet E} [Field K] [LinearOrder K]

/-- The same options, but without the pseudocounts. -/
def Estimation.plain (options : Estimation) : Estimation :=
  { options with usePseudocounts := false }

namespace Model

/-- The pseudocount of a cell; a start has none. -/
def pseudocount (m : Model Q A K) : Cell Q A → K
  | .inl _ => 0
  | .inr (.inl (k, l)) => m.transitionPseudocount k l
  | .inr (.inr (k, x)) => m.emissionPseudocount k x

/-- What an estimate adds to the count of a cell. -/
def added (m : Model Q A K) (options : Estimation) (cell : Cell Q A) : K :=
  if options.usePseudocounts then m.pseudocount cell else 0

/-- The counts with what an estimate adds to them. -/
def weighed (m : Model Q A K) (options : Estimation)
    (counts : Counts (.ofModel Q.size A.size) K σ) : Counts (.ofModel Q.size A.size) K σ :=
  { counts with
    transitions := m.transitionWeights options counts.transitions
    emissions := m.emissionWeights options counts.emissions }

variable {m : Model Q A K} {options : Estimation}
  {counts : Counts (.ofModel Q.size A.size) K σ}

omit [LinearOrder K] in
theorem KeepsStructure.pseudocount_eq {r : Model Q A K} (kept : m.KeepsStructure r) :
    r.pseudocount = m.pseudocount := by
  funext cell
  match cell with
  | .inl k => rfl
  | .inr (.inl (k, l)) => exact kept.transitionPseudocount k l
  | .inr (.inr (k, x)) => exact kept.emissionPseudocount k x

theorem admits_weighed : m.Admits (m.weighed options counts) := by
  intro k l forbidden
  rw [Parameters.allows, Option.isSome_eq_false_iff, Option.isNone_iff_eq_none] at forbidden
  rw [weighed, transitionWeights, Table.get_ofFn, forbidden, Option.elim_none]

/-- **Pseudocounts are counts.** -/
theorem reweighted_weighed :
    m.reweighted options.plain (m.weighed options counts) = m.reweighted options counts := by
  have transitions : m.transitionWeights options.plain (m.weighed options counts).transitions =
      (m.weighed options counts).transitions := transitionWeights_eq rfl admits_weighed
  have emissions : m.emissionWeights options.plain (m.weighed options counts).emissions =
      (m.weighed options counts).emissions := emissionWeights_eq rfl
  simp only [reweighted, transitions, emissions]
  rfl

/-- Counts that nothing was counted in for a forbidden arc have the pseudocounts added to
them. -/
theorem cell_weighed (admits : m.Admits counts) (c : Cell Q A) :
    (m.weighed options counts).cell c = counts.cell c + m.added options c := by
  match c with
  | .inl k => simp [weighed, Counts.cell, added, pseudocount]
  | .inr (.inl (k, l)) =>
    simp only [weighed, Counts.cell, added, pseudocount, transitionWeights, Table.get_ofFn,
      Parameters.transitionPseudocount]
    cases arc : m.transitions.get k l with
    | none => simp [admits k l (by simp [Parameters.allows, arc])]
    | some e =>
      simp only [Option.elim_some, Estimation.weight]
      split
      · rfl
      · rw [add_zero]
  | .inr (.inr (k, x)) =>
    simp only [weighed, Counts.cell, added, pseudocount, emissionWeights, Table.get_ofFn,
      Parameters.emissionPseudocount, Estimation.weight]
    split
    · rfl
    · rw [add_zero]

namespace WellFormed

variable (sound : m.WellFormed)
include sound

theorem added_nonneg (options : Estimation) (c : Cell Q A) : 0 ≤ m.added options c := by
  rw [added]
  split
  · match c with
    | .inl k => exact le_rfl
    | .inr (.inl (k, l)) => exact sound.parameters.transitionPseudocount_nonneg k l
    | .inr (.inr (k, x)) => exact (sound.parameters.emission k x).pseudocount_nonneg
  · exact le_rfl

variable [IsStrictOrderedRing K]

theorem nonneg_weighed (options : Estimation) (nonneg : counts.Nonneg) :
    (m.weighed options counts).Nonneg where
  initial := nonneg.initial
  transitions := sound.transitionWeights_nonneg options nonneg
  emissions := sound.emissionWeights_nonneg options nonneg

end WellFormed

end Model

end Trellis
