import Trellis.Proofs.Soundness

/-!
# Reopened models

A builder that starts from the tables of a finished model answers as the model
does (`AnswersOf`), and finishing it gives the model back (`rebuild_eq_self`).
Finishing refuses totals that are not near one and fills the groups that total
zero; a model that was finished has neither, so nothing is refused and nothing is
filled (`Balanced.build_ofModel`). No more than balance is used of the model.
-/

namespace Trellis

variable {S E K : Type} {Q : Alphabet S} {A : Alphabet E}

/-- A lookup that tells what it does not have, by one that answers everything. -/
theorem map_eq_ite_isSome {β γ : Type} (o : Option β) (f : β → γ) (default : γ) :
    o.map f = if o.isSome then some (o.elim default f) else none := by
  cases o with
  | none => rfl
  | some b => rfl

namespace Model

/-! ### Answers -/

section Answers

variable [Zero K] [DecidableEq S] [DecidableEq E] (m : Model Q A K)

/-- A builder that starts from a model has an answer for its arcs and for known
symbols, and it is the model's. -/
structure AnswersOf (b : Builder Q A K) : Prop where
  initial : ∀ state, b.initialProbability? state =
    if state ∈ Q.symbols then some (m.initialProbability state) else none
  transition : ∀ source target, b.transitionProbability? source target =
    if m.isAllowed source target then some (m.transitionProbability source target) else none
  transitionPseudocount : ∀ source target, b.transitionPseudocount? source target =
    if m.isAllowed source target then some (m.pseudocountOfTransition source target) else none
  emission : ∀ state symbol, b.emissionProbability? state symbol =
    if state ∈ Q.symbols ∧ symbol ∈ A.symbols then some (m.emissionProbability state symbol)
    else none
  emissionPseudocount : ∀ state symbol, b.emissionPseudocount? state symbol =
    if state ∈ Q.symbols ∧ symbol ∈ A.symbols then some (m.pseudocountOfEmission state symbol)
    else none
  arcs : b.arcs = m.arcs

theorem answersOf_ofModel : m.AnswersOf (.ofModel m) where
  initial state := by
    have answer : (Builder.ofModel m).initialProbability? state =
        (Q.codeOf? state).map m.initial.get := Option.map_eq_bind.symm
    simp only [answer, ← Q.isSome_codeOf?]
    exact map_eq_ite_isSome (Q.codeOf? state) m.initial.get 0
  transition source target := map_eq_ite_isSome (m.arc? source target) Entry.probability 0
  transitionPseudocount source target :=
    map_eq_ite_isSome (m.arc? source target) Entry.pseudocount 0
  emission state symbol := by
    simp only [← m.isSome_emission?]
    exact map_eq_ite_isSome (m.emission? state symbol) Entry.probability 0
  emissionPseudocount state symbol := by
    simp only [← m.isSome_emission?]
    exact map_eq_ite_isSome (m.emission? state symbol) Entry.pseudocount 0
  arcs := rfl

end Answers

/-! ### Finishing again -/

variable [Field K] [LinearOrder K] {m : Model Q A K}

theorem Balanced.fault?_ofModel (balanced : m.Balanced) : (Builder.ofModel m).fault? = none := by
  refine Builder.fault?_eq_none_iff.mpr ⟨balanced.initial_total, fun k => ?_, fun k =>
    .inr (balanced.emission_total k)⟩
  by_cases arcs : ∃ l, m.allows k l = true
  · obtain ⟨l, allowed⟩ := arcs
    exact .inr (balanced.transition_total k l allowed)
  · -- A state without arcs has no group, and its row adds up to zero.
    refine .inl (Finset.sum_eq_zero fun l _ => Parameters.transition_eq_zero ?_)
    exact Bool.eq_false_iff.mpr fun allowed => arcs ⟨l, allowed⟩

variable [IsStrictOrderedRing K]

/-- No group of a balanced model totals zero, so nothing is filled. -/
theorem Balanced.fill_eq_self (balanced : m.Balanced) :
    (m.mapGroups fun g => g.fill g.mass) = m.toParameters := by
  refine Parameters.ext (fun k l => ?_) fun k x => ?_
  · rw [Parameters.transitions_mapGroups]
    cases arc : m.transitions.get k l with
    | none => rfl
    | some e =>
      have allowed : m.allows k l = true := by rw [Parameters.allows, arc, Option.isSome_some]
      have occupied : (m.transitionGroup k).mass ≠ 0 := by
        rw [Parameters.mass_transitionGroup]
        exact (balanced.transition_total k l allowed).pos.ne'
      rw [Option.map_some, Group.fill_of_mass_ne_zero occupied]
  · rw [Parameters.emissions_mapGroups]
    have occupied : (m.emissionGroup k).mass ≠ 0 := by
      rw [Parameters.mass_emissionGroup]
      exact (balanced.emission_total k).pos.ne'
    exact Group.fill_of_mass_ne_zero occupied _

/-- Whatever is balanced is finished again as it is. -/
theorem Balanced.build_ofModel (balanced : m.Balanced) : (Builder.ofModel m).build = .ok m :=
  Builder.build_eq_ok_iff.mpr
    ⟨balanced.fault?_ofModel, ext_parameters balanced.fill_eq_self rfl⟩

variable [DecidableEq S] [DecidableEq E]

/-- **Building from a model gives the model back.** The builder that starts from
a model answers as the model does, and has no answer where the model has no arc;
finishing it succeeds, with the same tables, arcs and lists of arcs. -/
theorem rebuild_eq_self (reach : m.Reachable) :
    m.AnswersOf (.ofModel m) ∧ (Builder.ofModel m).build = .ok m :=
  ⟨m.answersOf_ofModel, reach.wellFormed.stochastic.build_ofModel⟩

/-- The machine has a state without arcs, and a symbol that one of its states
never shows. -/
theorem rebuild_machine :
    (Builder.ofModel Machine.model).build = .ok Machine.model ∧
      (Builder.ofModel Machine.model).transitionProbability? 1 2 = some (1 / 2) ∧
      (Builder.ofModel Machine.model).transitionProbability? 2 1 = none ∧
      (Builder.ofModel Machine.model).emissionProbability? 2 0 = some 0 := by
  obtain ⟨answers, rebuilt⟩ := rebuild_eq_self Machine.model_reachable
  refine ⟨rebuilt, ?_, ?_, ?_⟩
  · rw [answers.transition]
    decide +kernel
  · rw [answers.transition]
    decide +kernel
  · rw [answers.emission]
    decide +kernel

end Model

end Trellis
