import Trellis.Parameters
import Trellis.Proofs.Exact

/-!
# Groups in exact arithmetic

The members of the groups of a table and their masses as sums over codes, in
which a forbidden arc counts zero (`mass_transitionGroup`, `mass_emissionGroup`);
and what the operations on whole groups do to those sums (`mass_map_equalize`,
`mass_map_fill`). They leave the arcs and the pseudocounts alone
(`allows_mapGroups`, `transitionPseudocount_mapGroups`).
-/

namespace Trellis

variable {S E K : Type} {Q : Alphabet S} {A : Alphabet E}

/-! ### Members -/

namespace Parameters

theorem mem_transitionGroup {p : Parameters Q A K} {k : Q.Code} {e : Entry K} :
    e ∈ p.transitionGroup k ↔ ∃ l, p.transitions.get k l = some e := by
  rw [transitionGroup, Row.toList_eq_ofFn, List.mem_filterMap]
  constructor
  · rintro ⟨o, mem, eq⟩
    obtain ⟨l, rfl⟩ := (List.mem_ofFn' _ _).mp mem
    exact ⟨l, eq⟩
  · rintro ⟨l, eq⟩
    exact ⟨some e, (List.mem_ofFn' _ _).mpr ⟨l, eq⟩, rfl⟩

theorem mem_emissionGroup {p : Parameters Q A K} {k : Q.Code} {e : Entry K} :
    e ∈ p.emissionGroup k ↔ ∃ x, p.emissions.get k x = e := by
  rw [emissionGroup, Row.toList_eq_ofFn, List.mem_ofFn']
  exact Iff.rfl

theorem transitionGroup_length_pos {p : Parameters Q A K} {k l : Q.Code}
    (allowed : p.allows k l = true) : 0 < (p.transitionGroup k).length := by
  obtain ⟨e, eq⟩ := Option.isSome_iff_exists.mp allowed
  exact List.length_pos_of_mem (mem_transitionGroup.mpr ⟨l, eq⟩)

/-- The group has one entry for each target. -/
theorem length_transitionGroup (p : Parameters Q A K) (k : Q.Code) :
    (p.transitionGroup k).length = (p.targets k).length := by
  rw [transitionGroup, List.length_filterMap_eq_countP, targets, ← List.countP_eq_length_filter,
    Row.toList_eq_ofFn, List.ofFn_eq_map, List.countP_map]
  rfl

theorem card_targets (p : Parameters Q A K) (k : Q.Code) :
    Finset.card {l | p.allows k l = true} = (p.targets k).length := by
  rw [← countP_finRange, targets, List.countP_eq_length_filter]
  rfl

theorem length_emissionGroup (p : Parameters Q A K) (k : Q.Code) :
    (p.emissionGroup k).length = A.size := by
  simp [emissionGroup]

/-- An arc that is forbidden has probability zero. -/
theorem transition_eq_zero [Zero K] {p : Parameters Q A K} {k l : Q.Code}
    (forbidden : p.allows k l = false) : p.transition k l = 0 := by
  rw [allows, Option.isSome_eq_false_iff, Option.isNone_iff_eq_none] at forbidden
  rw [transition, forbidden, Option.elim_none]

theorem transitionPseudocount_eq_zero [Zero K] {p : Parameters Q A K} {k l : Q.Code}
    (forbidden : p.allows k l = false) : p.transitionPseudocount k l = 0 := by
  rw [allows, Option.isSome_eq_false_iff, Option.isNone_iff_eq_none] at forbidden
  rw [transitionPseudocount, forbidden, Option.elim_none]

theorem allows_of_transition_ne_zero [Zero K] {p : Parameters Q A K} {k l : Q.Code}
    (ne : p.transition k l ≠ 0) : p.allows k l = true := by
  by_contra forbidden
  exact ne (transition_eq_zero (Bool.eq_false_iff.mpr forbidden))

/-- What is summed over the targets of a state is summed over all states. -/
theorem sum_transition_targets [AddCommMonoid K] (p : Parameters Q A K) (k : Q.Code) :
    ∑ l with p.allows k l, p.transition k l = ∑ l, p.transition k l :=
  Finset.sum_filter_of_ne fun _ _ ne => allows_of_transition_ne_zero ne

end Parameters

/-! ### Masses -/

/-- A sum over the entries there are counts zero for those there are not. -/
theorem sum_map_filterMap_id {β : Type} [AddCommMonoid K] (f : β → K) (xs : List (Option β)) :
    ((xs.filterMap id).map f).sum = (xs.map (·.elim 0 f)).sum := by
  induction xs with
  | nil => rfl
  | cons o rest ih =>
    cases o with
    | none => simpa using ih
    | some b =>
      rw [List.filterMap_cons_some (by rfl), List.map_cons, List.sum_cons, ih, List.map_cons,
        List.sum_cons, Option.elim_some]

section Mass

variable [Field K] [LinearOrder K]

theorem Group.mass_eq_sum (g : Group K) : g.mass = (g.map Entry.probability).sum :=
  total_eq_sum _

theorem Group.rowMass_eq_mass (g : Group K) : g.rowMass = g.mass := rfl

namespace Parameters

/-- The mass of the arcs that leave a state is the sum of their row. -/
theorem mass_transitionGroup (p : Parameters Q A K) (k : Q.Code) :
    (p.transitionGroup k).mass = ∑ l, p.transition k l := by
  rw [Group.mass_eq_sum, transitionGroup, sum_map_filterMap_id, Row.toList_eq_ofFn,
    List.map_ofFn, List.sum_ofFn]
  rfl

/-- The mass of the emissions of a state is the sum of their row. -/
theorem mass_emissionGroup (p : Parameters Q A K) (k : Q.Code) :
    (p.emissionGroup k).mass = ∑ x, p.emission k x := by
  rw [Group.mass_eq_sum, emissionGroup, Row.toList_eq_ofFn, List.map_ofFn, List.sum_ofFn]
  rfl

theorem rowMass_emissionGroup (p : Parameters Q A K) (k : Q.Code) :
    (p.emissionGroup k).rowMass = ∑ x, p.emission k x := by
  rw [Group.rowMass_eq_mass, mass_emissionGroup]

end Parameters

/-! ### Shares -/

namespace Group

variable [IsStrictOrderedRing K] {g : Group K}

theorem mass_map_equalize (members : 0 < g.length) : mass (g.map (equalize g)) = 1 := by
  rw [mass_eq_sum, List.map_map]
  have shares : Entry.probability ∘ equalize g = fun _ => share g.length := rfl
  rw [shares, List.map_const', List.sum_replicate, nsmul_eq_mul, mul_share members]

omit [IsStrictOrderedRing K] in
theorem map_fill_of_vacant (vacant : g.mass = 0) : g.map (g.fill g.mass) = g.map (equalize g) :=
  List.map_congr_left fun _ _ => if_pos (isZero_iff.mpr vacant)

omit [IsStrictOrderedRing K] in
theorem fill_of_mass_ne_zero (occupied : g.mass ≠ 0) (e : Entry K) : g.fill g.mass e = e :=
  if_neg (mt isZero_iff.mp occupied)

omit [IsStrictOrderedRing K] in
theorem map_fill_of_mass_ne_zero (occupied : g.mass ≠ 0) : g.map (g.fill g.mass) = g := by
  have same : ∀ e ∈ g, g.fill g.mass e = e := fun e _ => fill_of_mass_ne_zero occupied e
  rw [List.map_congr_left same, List.map_id']

/-- Filling leaves no group vacant, and no other total changes. -/
theorem mass_map_fill (members : 0 < g.length) :
    mass (g.map (g.fill g.mass)) = if g.mass = 0 then 1 else g.mass := by
  split
  · rename_i vacant
    rw [map_fill_of_vacant vacant, mass_map_equalize members]
  · rename_i occupied
    rw [map_fill_of_mass_ne_zero occupied]

end Group

end Mass

/-! ### Changes to whole groups -/

namespace Parameters

@[simp] theorem allows_mapGroups (f : Group K → Entry K → Entry K) (p : Parameters Q A K)
    (k l : Q.Code) : (p.mapGroups f).allows k l = p.allows k l := by
  rw [allows, transitions_mapGroups, Option.isSome_map]
  rfl

section Pseudocounts

variable {f : Group K → Entry K → Entry K} (keeps : ∀ g e, (f g e).pseudocount = e.pseudocount)
include keeps

theorem transitionPseudocount_mapGroups [Zero K] (p : Parameters Q A K) (k l : Q.Code) :
    (p.mapGroups f).transitionPseudocount k l = p.transitionPseudocount k l := by
  rw [transitionPseudocount, transitionPseudocount, transitions_mapGroups]
  cases p.transitions.get k l with
  | none => rfl
  | some e => exact keeps _ e

theorem emissionPseudocount_mapGroups (p : Parameters Q A K) (k : Q.Code) (x : A.Code) :
    (p.mapGroups f).emissionPseudocount k x = p.emissionPseudocount k x := by
  rw [emissionPseudocount, emissions_mapGroups, keeps]
  rfl

end Pseudocounts

theorem transitionGroup_mapGroups (p : Parameters Q A K)
    (f : Group K → Entry K → Entry K) (k : Q.Code) :
    (p.mapGroups f).transitionGroup k = (p.transitionGroup k).map (f (p.transitionGroup k)) := by
  simp only [transitionGroup, mapGroups, Table.row_mapRows, Vector.toList_map, List.filterMap_map,
    List.map_filterMap]
  rfl

theorem emissionGroup_mapGroups (p : Parameters Q A K)
    (f : Group K → Entry K → Entry K) (k : Q.Code) :
    (p.mapGroups f).emissionGroup k = (p.emissionGroup k).map (f (p.emissionGroup k)) := by
  simp only [emissionGroup, mapGroups, Table.row_mapRows, Vector.toList_map]

end Parameters

end Trellis
