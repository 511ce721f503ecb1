import Trellis.Builder.Build
import Trellis.Proofs.Groups

/-!
# Finished builders

A builder can be finished exactly if its initial distribution, and each of its
groups that is not vacant, adds up to one within the tolerance
(`fault?_eq_none_iff`, `build_cases`). In the model every group does
(`balanced_of_build`), and only the vacant groups have changed
(`transition_finished`, `emission_finished`).
-/

namespace Trellis

variable {S E K : Type} {Q : Alphabet S} {A : Alphabet E} [Field K] [LinearOrder K]

/-- Every group that is not empty adds up to one within the tolerance. -/
structure Model.Balanced (m : Model Q A K) : Prop where
  initial_total : NearOne (∑ k, m.initial.get k)
  transition_total : ∀ k l, m.allows k l = true → NearOne (∑ l, m.transition k l)
  emission_total : ∀ k, NearOne (∑ x, m.emission k x)

namespace Builder

/-! ### Success -/

theorem groupFault?_eq_none_iff {sum : K} {fault : ProbabilityFault S} :
    groupFault? sum fault = none ↔ sum = 0 ∨ NearOne sum := by
  unfold groupFault?
  split
  · rename_i faulty
    obtain ⟨occupied, far⟩ := isFaulty_iff.mp faulty
    simp [occupied, far]
  · rename_i sound
    simpa [or_iff_not_imp_left, isFaulty_iff] using sound

/-- There is no fault if the initial distribution totals one, and so does each group that
has a total. -/
theorem fault?_eq_none_iff {b : Builder Q A K} :
    b.fault? = none ↔
      NearOne (∑ k, b.initialOrUniform.get k) ∧
        (∀ k, (∑ l, b.transition k l) = 0 ∨ NearOne (∑ l, b.transition k l)) ∧
        ∀ k, (∑ x, b.emission k x) = 0 ∨ NearOne (∑ x, b.emission k x) := by
  simp only [fault?, rowTotal_toList]
  split
  · rename_i faulty
    simp [faulty]
  · rename_i near
    simp [Alphabet.codes, not_not.mp near, groupFault?_eq_none_iff,
      Parameters.mass_transitionGroup, Parameters.rowMass_emissionGroup]

theorem build_eq_ok_iff {b : Builder Q A K} {m : Model Q A K} :
    b.build = .ok m ↔ b.fault? = none ∧ b.finished = m := by
  unfold build
  cases b.fault? with
  | none => simp
  | some fault => simp

/-! ### Faults -/

/-- A total that the builder cannot be finished with, beside what it is the total of. -/
inductive HasFault (b : Builder Q A K) : K → ProbabilityFault S → Prop where
  | initial : ¬ NearOne (∑ k, b.initialOrUniform.get k) →
      HasFault b (∑ k, b.initialOrUniform.get k) .initialTotal
  | transitions (k : Q.Code) : ∑ l, b.transition k l ≠ 0 → ¬ NearOne (∑ l, b.transition k l) →
      HasFault b (∑ l, b.transition k l) (.transitionTotal (Q.symbol k))
  | emissions (k : Q.Code) : ∑ x, b.emission k x ≠ 0 → ¬ NearOne (∑ x, b.emission k x) →
      HasFault b (∑ x, b.emission k x) (.emissionTotal (Q.symbol k))

theorem groupFault?_eq_some {mass : K} {fault found : ProbabilityFault S} {sum : K}
    (faulty : groupFault? mass fault = some (sum, found)) :
    (mass ≠ 0 ∧ ¬ NearOne mass) ∧ sum = mass ∧ found = fault := by
  unfold groupFault? at faulty
  split at faulty
  · rename_i occupied
    cases faulty
    exact ⟨isFaulty_iff.mp occupied, rfl, rfl⟩
  · cases faulty

theorem hasFault_of_fault? {b : Builder Q A K} {sum : K} {fault : ProbabilityFault S}
    (faulty : b.fault? = some (sum, fault)) : b.HasFault sum fault := by
  simp only [fault?, rowTotal_toList] at faulty
  split at faulty
  · rename_i far
    cases faulty
    exact .initial far
  rw [Option.orElse_eq_orElse, Option.orElse_eq_or] at faulty
  rcases Option.or_eq_some_iff.mp faulty with found | ⟨-, found⟩
  · obtain ⟨k, -, at_k⟩ := List.exists_of_findSome?_eq_some found
    obtain ⟨⟨occupied, far⟩, rfl, rfl⟩ := groupFault?_eq_some at_k
    rw [Parameters.mass_transitionGroup] at occupied far ⊢
    exact .transitions k occupied far
  · obtain ⟨k, -, at_k⟩ := List.exists_of_findSome?_eq_some found
    obtain ⟨⟨occupied, far⟩, rfl, rfl⟩ := groupFault?_eq_some at_k
    rw [Parameters.rowMass_emissionGroup] at occupied far ⊢
    exact .emissions k occupied far

/-- A builder is finished, or refused for a fault that it has. -/
theorem build_cases (b : Builder Q A K) :
    b.fault? = none ∧ b.build = .ok b.finished ∨
      ∃ sum fault, b.build = .error (.invalidProbability .build sum fault) ∧
        b.HasFault sum fault := by
  unfold build
  cases found : b.fault? with
  | none => exact .inl ⟨rfl, rfl⟩
  | some faulty =>
    obtain ⟨sum, fault⟩ := faulty
    exact .inr ⟨sum, fault, rfl, hasFault_of_fault? found⟩

/-- A total that is near one is never reported of the initial distribution. -/
theorem build_ne_initialTotal {b : Builder Q A K} (near : NearOne (∑ k, b.initialOrUniform.get k))
    (operation : Operation) (value : K) :
    b.build ≠ .error (.invalidProbability operation value .initialTotal) := by
  intro refused
  rcases b.build_cases with ⟨-, built⟩ | ⟨sum, fault, failed, faulty⟩
  · cases built.symm.trans refused
  · cases failed.symm.trans refused
    cases faulty with
    | initial far => exact far near

/-! ### The finished model -/

section Finished

variable (b : Builder Q A K)

/-- Where totals are sums, the groups of a row are filled like all others. -/
theorem toParameters_finished :
    b.finished.toParameters = b.mapGroups fun g => g.fill g.mass := by
  rw [finished, Model.ofParameters]
  simp only [Group.rowMass_eq_mass]

@[simp] theorem initial_finished : b.finished.initial = b.initialOrUniform := rfl

@[simp] theorem allows_finished (k l : Q.Code) : b.finished.allows k l = b.allows k l := by
  rw [toParameters_finished, Parameters.allows_mapGroups]

theorem transitionPseudocount_finished (k l : Q.Code) :
    b.finished.transitionPseudocount k l = b.transitionPseudocount k l := by
  rw [toParameters_finished,
    Parameters.transitionPseudocount_mapGroups fun g => Group.pseudocount_fill g.mass g]

theorem emissionPseudocount_finished (k : Q.Code) (x : A.Code) :
    b.finished.emissionPseudocount k x = b.emissionPseudocount k x := by
  rw [toParameters_finished,
    Parameters.emissionPseudocount_mapGroups fun g => Group.pseudocount_fill g.mass g]

/-- An arc of a vacant group gets an equal share, any other keeps its probability. -/
theorem transition_finished {k l : Q.Code} (allowed : b.allows k l = true) :
    b.finished.transition k l =
      if ∑ j, b.transition k j = 0 then share (b.transitionGroup k).length
      else b.transition k l := by
  obtain ⟨e, arc⟩ := Option.isSome_iff_exists.mp allowed
  simp only [toParameters_finished, Parameters.transition, Parameters.transitions_mapGroups,
    arc, Option.map_some, Option.elim_some, Group.fill, isZero_iff,
    Parameters.mass_transitionGroup]
  split
  · rfl
  · rfl

/-- An emission of a vacant group gets an equal share, any other keeps its probability. -/
theorem emission_finished (k : Q.Code) (x : A.Code) :
    b.finished.emission k x =
      if ∑ y, b.emission k y = 0 then share A.size else b.emission k x := by
  have filled : b.finished.emission k x =
      (Group.fill (b.emissionGroup k).mass (b.emissionGroup k)
        (b.emissions.get k x)).probability := by
    rw [toParameters_finished, Parameters.emission, Parameters.emissions_mapGroups]
  simp only [filled, Group.fill, isZero_iff, Parameters.mass_emissionGroup]
  split
  · rw [Group.equalize, Parameters.length_emissionGroup]
    rfl
  · rfl

/-- Finishing changes nothing in a group that has a total. -/
theorem transition_finished_of_sum_ne_zero {k : Q.Code} (occupied : ∑ j, b.transition k j ≠ 0)
    (l : Q.Code) : b.finished.transition k l = b.transition k l := by
  cases allowed : b.allows k l with
  | true => rw [transition_finished b allowed, if_neg occupied]
  | false =>
    rw [Parameters.transition_eq_zero allowed]
    exact Parameters.transition_eq_zero ((allows_finished b k l).trans allowed)

variable [IsStrictOrderedRing K]

theorem sum_transition_finished {k l : Q.Code} (allowed : b.allows k l = true) :
    ∑ j, b.finished.transition k j =
      if ∑ j, b.transition k j = 0 then 1 else ∑ j, b.transition k j := by
  have members := Parameters.transitionGroup_length_pos allowed
  rw [← Parameters.mass_transitionGroup, toParameters_finished,
    Parameters.transitionGroup_mapGroups, Group.mass_map_fill members,
    Parameters.mass_transitionGroup]

theorem sum_emission_finished (k : Q.Code) :
    ∑ x, b.finished.emission k x =
      if ∑ x, b.emission k x = 0 then 1 else ∑ x, b.emission k x := by
  have members : 0 < (b.emissionGroup k).length := by
    rw [Parameters.length_emissionGroup]
    exact A.size_pos
  rw [← Parameters.mass_emissionGroup, toParameters_finished, Parameters.emissionGroup_mapGroups,
    Group.mass_map_fill members, Parameters.mass_emissionGroup]

end Finished

/-- Every model that is built is balanced, whatever its entries are. -/
theorem balanced_of_build [IsStrictOrderedRing K] {b : Builder Q A K} {m : Model Q A K}
    (built : b.build = .ok m) : m.Balanced := by
  obtain ⟨faultless, rfl⟩ := build_eq_ok_iff.mp built
  obtain ⟨initial, transitions, emissions⟩ := fault?_eq_none_iff.mp faultless
  refine ⟨initial, fun k l allowed => ?_, fun k => ?_⟩
  · rw [allows_finished] at allowed
    rw [sum_transition_finished b allowed]
    split
    · exact nearOne_one
    · rename_i occupied
      exact (transitions k).resolve_left occupied
  · rw [sum_emission_finished]
    split
    · exact nearOne_one
    · rename_i occupied
      exact (emissions k).resolve_left occupied

end Builder

end Trellis
