import Trellis.Proofs.Finishing
import Trellis.Proofs.Runs

/-!
# Soundness of runs

Along every run the entries of the builder are probabilities in the unit
interval beside pseudocounts that are not negative (`Builder.Sound`), and every
model is well formed: its groups add up to one within the tolerance
(`Model.WellFormed`). One lemma for each operation says that it keeps the
invariant; `Stage.Step.sound` is the step and `Model.Reachable.wellFormed` the run.
-/

namespace Trellis

variable {S E K σ : Type} {Q : Alphabet S} {A : Alphabet E}

variable [Field K] [LinearOrder K]

/-! ### The invariants -/

/-- A probability in the unit interval beside a pseudocount that is not negative. -/
structure Entry.Sound (e : Entry K) : Prop where
  probability_nonneg : 0 ≤ e.probability
  probability_le_one : e.probability ≤ 1
  pseudocount_nonneg : 0 ≤ e.pseudocount

/-- Every arc that is allowed, and every emission, has a sound entry. -/
structure Parameters.Sound (p : Parameters Q A K) : Prop where
  arc : ∀ k l e, p.transitions.get k l = some e → e.Sound
  emission : ∀ k x, (p.emissions.get k x).Sound

/-- Sound entries, and an initial distribution of probabilities once it is set. Nothing is
said of totals, which an edit need not keep. -/
structure Builder.Sound (b : Builder Q A K) : Prop where
  parameters : b.toParameters.Sound
  initial : ∀ row, b.initial = some row → UnitRow row

/-- Sound entries, and groups that add up to one within the tolerance. A state
without arcs has no group of transitions. -/
structure Model.WellFormed (m : Model Q A K) : Prop where
  parameters : m.toParameters.Sound
  initial : UnitRow m.initial
  initial_total : NearOne (∑ k, m.initial.get k)
  transition_total : ∀ k l, m.allows k l = true → NearOne (∑ l, m.transition k l)
  emission_total : ∀ k, NearOne (∑ x, m.emission k x)

/-- Balanced, with every probability in the unit interval. -/
structure Model.Stochastic (m : Model Q A K) : Prop extends Model.Balanced m where
  initial_mem : UnitRow m.initial
  transition_mem : ∀ k l, 0 ≤ m.transition k l ∧ m.transition k l ≤ 1
  emission_mem : ∀ k x, 0 ≤ m.emission k x ∧ m.emission k x ≤ 1

/-- The invariant of a run: a builder is sound, and a model is well formed. -/
def Stage.Sound : Stage Q A K → Prop
  | .building b => b.Sound
  | .finished m => m.WellFormed

/-! ### Groups -/

namespace Entry.Sound

theorem withProbability {e : Entry K} (sound : e.Sound) {p : K} (nonneg : 0 ≤ p)
    (le_one : p ≤ 1) : (e.withProbability p).Sound :=
  ⟨nonneg, le_one, sound.pseudocount_nonneg⟩

variable [IsStrictOrderedRing K]

theorem equalize {e : Entry K} (sound : e.Sound) (g : Group K) : (Group.equalize g e).Sound :=
  sound.withProbability (share_nonneg _) (share_le_one _)

theorem fill {e : Entry K} (sound : e.Sound) (sum : K) (g : Group K) :
    (g.fill sum e).Sound := by
  unfold Group.fill
  split
  · exact sound.equalize g
  · exact sound

theorem proportion {e : Entry K} {g : Group K} (members : ∀ e ∈ g, e.Sound) (mem : e ∈ g) :
    (Group.proportion g e).Sound := by
  have sound := members e mem
  unfold Group.proportion
  split
  · rename_i positive
    refine sound.withProbability (div_nonneg sound.probability_nonneg positive.le) ?_
    rw [div_le_one positive, Group.mass_eq_sum]
    refine List.single_le_sum ?_ _ (List.mem_map_of_mem mem)
    intro p member
    obtain ⟨f, other, rfl⟩ := List.mem_map.mp member
    exact (members f other).probability_nonneg
  · exact sound.equalize g

end Entry.Sound

/-! ### Parameters -/

namespace Parameters.Sound

variable {p : Parameters Q A K}

theorem transition_nonneg (sound : p.Sound) (k l : Q.Code) : 0 ≤ p.transition k l := by
  unfold transition
  cases arc : p.transitions.get k l with
  | none => exact le_rfl
  | some e => exact (sound.arc k l e arc).probability_nonneg

theorem emission_nonneg (sound : p.Sound) (k : Q.Code) (x : A.Code) : 0 ≤ p.emission k x :=
  (sound.emission k x).probability_nonneg

theorem transitionPseudocount_nonneg (sound : p.Sound) (k l : Q.Code) :
    0 ≤ p.transitionPseudocount k l := by
  unfold transitionPseudocount
  cases arc : p.transitions.get k l with
  | none => exact le_rfl
  | some e => exact (sound.arc k l e arc).pseudocount_nonneg

theorem setArc (sound : p.Sound) (k l : Q.Code) {o : Option (Entry K)}
    (entry : ∀ e, o = some e → e.Sound) : (p.setArc k l o).Sound where
  arc i j e arc := by
    rw [Parameters.setArc, Table.get_set] at arc
    split at arc
    · exact entry e arc
    · exact sound.arc i j e arc
  emission := sound.emission

theorem setEmission (sound : p.Sound) (k : Q.Code) (x : A.Code) {e : Entry K}
    (entry : e.Sound) : (p.setEmission k x e).Sound where
  arc := sound.arc
  emission i y := by
    rw [Parameters.setEmission, Table.get_set]
    split
    · exact entry
    · exact sound.emission i y

/-- What keeps the entries of every sound group sound keeps the parameters sound. -/
theorem mapGroups (sound : p.Sound) {f : Group K → Entry K → Entry K}
    (keeps : ∀ g : Group K, (∀ e ∈ g, e.Sound) → ∀ e ∈ g, (f g e).Sound) :
    (p.mapGroups f).Sound where
  arc k l e arc := by
    rw [transitions_mapGroups] at arc
    obtain ⟨old, found, rfl⟩ := Option.map_eq_some_iff.mp arc
    refine keeps _ (fun d mem => ?_) old (mem_transitionGroup.mpr ⟨l, found⟩)
    obtain ⟨j, at_j⟩ := mem_transitionGroup.mp mem
    exact sound.arc k j d at_j
  emission k x := by
    rw [emissions_mapGroups]
    refine keeps _ (fun d mem => ?_) _ (mem_emissionGroup.mpr ⟨x, rfl⟩)
    obtain ⟨y, rfl⟩ := mem_emissionGroup.mp mem
    exact sound.emission k y

variable [IsStrictOrderedRing K]

theorem transition_le_one (sound : p.Sound) (k l : Q.Code) : p.transition k l ≤ 1 := by
  unfold transition
  cases arc : p.transitions.get k l with
  | none => exact zero_le_one
  | some e => exact (sound.arc k l e arc).probability_le_one

theorem equalize (sound : p.Sound) : (p.mapGroups Group.equalize).Sound :=
  sound.mapGroups fun g members e mem => (members e mem).equalize g

theorem fill (sound : p.Sound) : (p.mapGroups fun g => g.fill g.mass).Sound :=
  sound.mapGroups fun g members e mem => (members e mem).fill g.mass g

theorem proportion (sound : p.Sound) : (p.mapGroups Group.proportion).Sound :=
  sound.mapGroups fun _ members _ mem => Entry.Sound.proportion members mem

end Parameters.Sound

/-! ### Edits -/

theorem checkProbability_eq_ok {operation : Operation} {p : K} {u : Unit}
    (checked : checkProbability operation p = (.ok u : Except (Error S E K) Unit)) :
    0 ≤ p ∧ p ≤ 1 := by
  unfold checkProbability at checked
  split at checked
  · assumption
  · cases checked

theorem checkPseudocount_eq_ok {operation : Operation} {c : K} {u : Unit}
    (checked : checkPseudocount operation c = (.ok u : Except (Error S E K) Unit)) :
    0 ≤ c := by
  unfold checkPseudocount at checked
  split at checked
  · rename_i valid
    exact valid.2
  · cases checked

omit [Field K] [LinearOrder K] in
theorem Builder.knownArc_eq_ok [DecidableEq S] {b : Builder Q A K} {operation : Operation}
    {source target : S} {k l : Q.Code} {e : Entry K}
    (known : b.knownArc operation source target =
      (.ok (k, l, e) : Except (Error S E K) (Q.Code × Q.Code × Entry K))) :
    b.transitions.get k l = some e := by
  obtain ⟨i, -, known⟩ := bind_eq_ok.mp known
  obtain ⟨j, -, known⟩ := bind_eq_ok.mp known
  split at known
  · rename_i found
    cases known
    exact found
  · cases known

namespace Builder.Sound

variable {b c : Builder Q A K}

theorem setArc (sound : b.Sound) (k l : Q.Code) {o : Option (Entry K)}
    (entry : ∀ e, o = some e → e.Sound) : (b.setArc k l o).Sound :=
  ⟨sound.parameters.setArc k l entry, sound.initial⟩

theorem setEmissionEntry (sound : b.Sound) (k : Q.Code) (x : A.Code) {e : Entry K}
    (entry : e.Sound) : (b.setEmissionEntry k x e).Sound :=
  ⟨sound.parameters.setEmission k x entry, sound.initial⟩

section Arcs

variable [DecidableEq S]

theorem allow (sound : b.Sound) {source target : S} {p d : K}
    (applied : b.allow source target p d = (.ok c : Except (Error S E K) _)) : c.Sound := by
  obtain ⟨k, -, applied⟩ := bind_eq_ok.mp applied
  obtain ⟨l, -, applied⟩ := bind_eq_ok.mp applied
  obtain ⟨_, probability, applied⟩ := bind_eq_ok.mp applied
  obtain ⟨_, pseudocount, applied⟩ := bind_eq_ok.mp applied
  split at applied
  · cases applied
  · cases applied
    obtain ⟨nonneg, le_one⟩ := checkProbability_eq_ok probability
    refine sound.setArc k l fun e eq => ?_
    cases eq
    exact ⟨nonneg, le_one, checkPseudocount_eq_ok pseudocount⟩

theorem destroy (sound : b.Sound) {source target : S}
    (applied : b.destroy source target = (.ok c : Except (Error S E K) _)) : c.Sound := by
  obtain ⟨⟨k, l, _⟩, -, applied⟩ := bind_eq_ok.mp applied
  cases applied
  exact sound.setArc k l fun e eq => by cases eq

theorem setTransition (sound : b.Sound) {source target : S} {p : K}
    (applied : b.setTransition source target p = (.ok c : Except (Error S E K) _)) :
    c.Sound := by
  obtain ⟨⟨k, l, e⟩, known, applied⟩ := bind_eq_ok.mp applied
  obtain ⟨_, probability, applied⟩ := bind_eq_ok.mp applied
  cases applied
  obtain ⟨nonneg, le_one⟩ := checkProbability_eq_ok probability
  refine sound.setArc k l fun d eq => ?_
  cases eq
  exact (sound.parameters.arc k l e (knownArc_eq_ok known)).withProbability nonneg le_one

theorem setTransitionPseudocount (sound : b.Sound) {source target : S} {d : K}
    (applied : b.setTransitionPseudocount source target d = (.ok c : Except (Error S E K) _)) :
    c.Sound := by
  obtain ⟨⟨k, l, e⟩, known, applied⟩ := bind_eq_ok.mp applied
  obtain ⟨_, pseudocount, applied⟩ := bind_eq_ok.mp applied
  cases applied
  have old := sound.parameters.arc k l e (knownArc_eq_ok known)
  refine sound.setArc k l fun e' eq => ?_
  cases eq
  exact ⟨old.probability_nonneg, old.probability_le_one, checkPseudocount_eq_ok pseudocount⟩

end Arcs

section Emissions

variable [DecidableEq S] [DecidableEq E]

theorem setEmission (sound : b.Sound) {state : S} {symbol : E} {p : K}
    (applied : b.setEmission state symbol p = (.ok c : Except (Error S E K) _)) : c.Sound := by
  obtain ⟨k, -, applied⟩ := bind_eq_ok.mp applied
  obtain ⟨x, -, applied⟩ := bind_eq_ok.mp applied
  obtain ⟨_, probability, applied⟩ := bind_eq_ok.mp applied
  cases applied
  obtain ⟨nonneg, le_one⟩ := checkProbability_eq_ok probability
  exact sound.setEmissionEntry k x
    ((sound.parameters.emission k x).withProbability nonneg le_one)

theorem setEmissionPseudocount (sound : b.Sound) {state : S} {symbol : E} {d : K}
    (applied : b.setEmissionPseudocount state symbol d = (.ok c : Except (Error S E K) _)) :
    c.Sound := by
  obtain ⟨k, -, applied⟩ := bind_eq_ok.mp applied
  obtain ⟨x, -, applied⟩ := bind_eq_ok.mp applied
  obtain ⟨_, pseudocount, applied⟩ := bind_eq_ok.mp applied
  cases applied
  have old := sound.parameters.emission k x
  exact sound.setEmissionEntry k x
    ⟨old.probability_nonneg, old.probability_le_one, checkPseudocount_eq_ok pseudocount⟩

end Emissions

variable [IsStrictOrderedRing K]

theorem allowAll (sound : b.Sound) : b.allowAll.Sound where
  parameters := {
    arc := fun k l e arc => by
      rw [Builder.allowAll, Table.get_ofFn] at arc
      cases arc
      exact ⟨le_rfl, zero_le_one, zero_le_one⟩
    emission := sound.parameters.emission }
  initial := sound.initial

end Builder.Sound

/-! ### Initial distributions -/

namespace Builder

/-- Every given probability lies in the unit interval. -/
def UnitGiven (given : Given Q K) : Prop := ∀ i p, given.get i = some p → 0 ≤ p ∧ p ≤ 1

theorem unitGiven_readEntries [DecidableEq S] {entries : List (S × K)} {given result : Given Q K}
    (read : readEntries given entries = (.ok result : Except (Error S E K) _))
    (unit : UnitGiven given) : UnitGiven result := by
  induction entries generalizing given with
  | nil =>
    cases read
    exact unit
  | cons entry rest ih =>
    obtain ⟨state, p⟩ := entry
    obtain ⟨k, -, read⟩ := bind_eq_ok.mp read
    obtain ⟨_, probability, read⟩ := bind_eq_ok.mp read
    refine ih read fun i q eq => ?_
    rw [Row.get_set] at eq
    split at eq
    · cases eq
      exact checkProbability_eq_ok probability
    · exact unit i q eq

variable [IsStrictOrderedRing K]

theorem unitRow_uniformInitial : UnitRow (uniformInitial : Vector K Q.size) := by
  intro i
  rw [uniformInitial, Row.get_replicate]
  exact ⟨share_nonneg _, share_le_one _⟩

theorem givenTotal_nonneg {given : Given Q K} (unit : UnitGiven given) :
    0 ≤ givenTotal given := by
  rw [givenTotal, totalFromFirst_eq_total zero_add, total_eq_sum]
  refine List.sum_nonneg fun p mem => ?_
  obtain ⟨o, member, eq⟩ := List.mem_filterMap.mp mem
  rw [Row.toList_eq_ofFn] at member
  obtain ⟨i, rfl⟩ := (List.mem_ofFn' _ _).mp member
  exact (unit i p eq).1

theorem remainingShare_mem {given : Given Q K} (unit : UnitGiven given) :
    0 ≤ remainingShare given ∧ remainingShare given ≤ 1 := by
  have total := givenTotal_nonneg unit
  set rest := if 1 - givenTotal given ≤ 0 then 0 else 1 - givenTotal given with rest_eq
  have nonneg : 0 ≤ rest := by
    rw [rest_eq]
    split
    · exact le_rfl
    · rename_i positive
      exact (not_le.mp positive).le
  have le_one : rest ≤ 1 := by
    rw [rest_eq]
    split
    · exact zero_le_one
    · exact sub_le_self 1 total
  have share_eq : remainingShare given = rest / (missing given : K) := rfl
  rw [share_eq]
  refine ⟨div_nonneg nonneg (Nat.cast_nonneg _), ?_⟩
  cases missing given with
  | zero => simp
  | succ n => exact (div_le_self nonneg (by norm_cast; omega)).trans le_one

theorem unitRow_completed {given : Given Q K} (unit : UnitGiven given) :
    UnitRow (completed given) := by
  intro i
  rw [completed, Row.get_map]
  cases eq : given.get i with
  | none => exact remainingShare_mem unit
  | some p => exact unit i p eq

end Builder

namespace Builder.Sound

variable [IsStrictOrderedRing K] {b c : Builder Q A K}

theorem setInitial [DecidableEq S] (sound : b.Sound) {entries : List (S × K)}
    (applied : b.setInitial entries = (.ok c : Except (Error S E K) _)) : c.Sound := by
  obtain ⟨given, read, applied⟩ := bind_eq_ok.mp applied
  have unit : UnitGiven given := unitGiven_readEntries read fun i p eq => by
    rw [Row.get_replicate] at eq
    cases eq
  dsimp only at applied
  split at applied
  · cases applied
  split at applied
  · cases applied
  · cases applied
    refine ⟨sound.parameters, fun row eq => ?_⟩
    cases eq
    exact unitRow_completed unit

theorem setEqual (sound : b.Sound) : b.setEqual.Sound where
  parameters := sound.parameters.equalize
  initial row eq := by
    cases eq
    exact unitRow_uniformInitial

end Builder.Sound

/-! ### Random probabilities -/

section Random

variable [IsStrictOrderedRing K]

theorem draw_mem (word : UInt64) : 0 ≤ (draw word : K) ∧ (draw word : K) ≤ 1 := by
  have bound : (word >>> 11).toNat ≤ 9007199254740992 := by
    have shift : (11 : UInt64).toNat % 64 = 11 := rfl
    rw [UInt64.toNat_shiftRight, Nat.shiftRight_eq_div_pow, shift]
    have := word.toNat_lt
    omega
  unfold draw
  refine ⟨by positivity, ?_⟩
  rw [div_le_one (by norm_num)]
  exact_mod_cast bound

variable {p : Parameters Q A K}

theorem Parameters.Sound.drawState (sound : p.Sound) (words : Nat → UInt64) (position : Nat)
    (k : Q.Code) : (Builder.drawState words position p k).Sound where
  arc i j e arc := by
    simp only [Builder.drawState, Table.get_setRow] at arc
    split at arc
    · rw [Row.get_ofFn] at arc
      obtain ⟨old, found, rfl⟩ := Option.map_eq_some_iff.mp arc
      exact (sound.arc k j old found).withProbability (draw_mem _).1 (draw_mem _).2
    · exact sound.arc i j e arc
  emission i x := by
    simp only [Builder.drawState, Table.get_setRow]
    split
    · rw [Row.get_ofFn]
      exact (sound.emission k x).withProbability (draw_mem _).1 (draw_mem _).2
    · exact sound.emission i x

theorem Parameters.Sound.drawStates (sound : p.Sound) (words : Nat → UInt64) (position : Nat)
    (states : List Q.Code) : (Builder.drawStates words position p states).1.Sound := by
  induction states generalizing position p with
  | nil => exact sound
  | cons k rest ih => exact ih (sound.drawState words position k) _

theorem Builder.unitRow_drawInitial (words : Nat → UInt64) :
    UnitRow (drawInitial words : Vector K Q.size) := by
  simp only [drawInitial, total_toList]
  split
  · refine unitRow_div_sum fun i => ?_
    rw [Row.get_ofFn]
    exact (draw_mem _).1
  · exact unitRow_uniformInitial

theorem Builder.Sound.randomize {b : Builder Q A K} (sound : b.Sound) (words : Nat → UInt64) :
    (b.randomize words).Sound where
  parameters := (sound.parameters.drawStates words Q.size Q.codes).proportion
  initial row eq := by
    cases eq
    exact unitRow_drawInitial words

end Random

/-! ### Steps -/

variable [IsStrictOrderedRing K]

theorem Builder.Sound.empty : (Builder.empty : Builder Q A K).Sound where
  parameters := {
    arc := fun k l e arc => by
      rw [Builder.empty, Table.get_ofFn] at arc
      cases arc
    emission := fun k x => by
      rw [Builder.empty, Table.get_ofFn]
      exact ⟨le_rfl, zero_le_one, zero_le_one⟩ }
  initial row eq := by cases eq

theorem Builder.Sound.apply [DecidableEq S] [DecidableEq E] {b c : Builder Q A K}
    (sound : b.Sound) {e : Edit S E K} (applied : b.apply e = .ok c) : c.Sound := by
  cases e with
  | allow => exact sound.allow applied
  | allowAll =>
    cases applied
    exact sound.allowAll
  | destroy => exact sound.destroy applied
  | setTransition => exact sound.setTransition applied
  | setTransitionPseudocount => exact sound.setTransitionPseudocount applied
  | setEmission => exact sound.setEmission applied
  | setEmissionPseudocount => exact sound.setEmissionPseudocount applied
  | setInitial => exact sound.setInitial applied
  | setEqual =>
    cases applied
    exact sound.setEqual
  | randomize words =>
    cases applied
    exact sound.randomize words

theorem Builder.Sound.build {b : Builder Q A K} {m : Model Q A K} (sound : b.Sound)
    (built : b.build = .ok m) : m.WellFormed := by
  obtain ⟨initial_total, transition_total, emission_total⟩ := balanced_of_build built
  obtain ⟨-, rfl⟩ := build_eq_ok_iff.mp built
  refine ⟨sound.parameters.fill, ?_, initial_total, transition_total, emission_total⟩
  rw [initial_finished, initialOrUniform]
  cases set : b.initial with
  | none => exact unitRow_uniformInitial
  | some row => exact sound.initial row set

namespace Model.WellFormed

variable {m r : Model Q A K}

omit [IsStrictOrderedRing K] in
theorem reopen (sound : m.WellFormed) : (Builder.ofModel m).Sound where
  parameters := sound.parameters
  initial row eq := by
    cases eq
    exact sound.initial

theorem stochastic (sound : m.WellFormed) : m.Stochastic where
  initial_total := sound.initial_total
  transition_total := sound.transition_total
  emission_total := sound.emission_total
  initial_mem := sound.initial
  transition_mem k l :=
    ⟨sound.parameters.transition_nonneg k l, sound.parameters.transition_le_one k l⟩
  emission_mem k x :=
    ⟨(sound.parameters.emission k x).probability_nonneg,
      (sound.parameters.emission k x).probability_le_one⟩

theorem weight_nonneg (options : Estimation) {count : K} (nonneg : 0 ≤ count) {e : Entry K}
    (sound : e.Sound) : 0 ≤ options.weight count e := by
  unfold Estimation.weight
  split
  · exact add_nonneg nonneg sound.pseudocount_nonneg
  · exact nonneg

variable {counts : Counts (.ofModel Q.size A.size) K σ}

theorem transitionWeights_nonneg (sound : m.WellFormed) (options : Estimation)
    (nonneg : counts.Nonneg) (k l : Q.Code) :
    0 ≤ (m.transitionWeights options counts.transitions).get k l := by
  rw [transitionWeights, Table.get_ofFn]
  cases arc : m.transitions.get k l with
  | none => exact le_rfl
  | some e =>
    exact weight_nonneg options (nonneg.transitions k l) (sound.parameters.arc k l e arc)

theorem emissionWeights_nonneg (sound : m.WellFormed) (options : Estimation)
    (nonneg : counts.Nonneg) (k : Q.Code) (x : A.Code) :
    0 ≤ (m.emissionWeights options counts.emissions).get k x := by
  rw [emissionWeights, Table.get_ofFn]
  exact weight_nonneg options (nonneg.emissions k x) (sound.parameters.emission k x)

theorem reweighted (sound : m.WellFormed) (options : Estimation) (nonneg : counts.Nonneg) :
    (m.reweighted options counts).Sound where
  parameters := {
    arc := fun k l e arc => by
      rw [Model.reweighted, Parameters.transitions_reweigh] at arc
      obtain ⟨old, found, rfl⟩ := Option.map_eq_some_iff.mp arc
      have weights := sound.transitionWeights_nonneg options nonneg
      rw [get_relativeRows weights]
      obtain ⟨lower, upper⟩ := get_div_sum_mem (weights k) l
      exact (sound.parameters.arc k l old found).withProbability lower upper
    emission := fun k x => by
      rw [Model.reweighted, Parameters.emissions_reweigh]
      have weights := sound.emissionWeights_nonneg options nonneg
      rw [get_relativeRows weights]
      obtain ⟨lower, upper⟩ := get_div_sum_mem (weights k) x
      exact (sound.parameters.emission k x).withProbability lower upper }
  initial row eq := by
    cases eq
    simp only [estimatedInitial, rowTotal_toList]
    split
    · exact unitRow_div_sum nonneg.initial
    · exact sound.initial

theorem estimate (sound : m.WellFormed) {options : Estimation} (nonneg : counts.Nonneg)
    (estimated : m.estimate options counts = .ok r) : r.WellFormed :=
  (sound.reweighted options nonneg).build estimated

end Model.WellFormed

variable [DecidableEq S] [DecidableEq E]

/-- Every operation keeps what is in hand sound. -/
theorem Stage.Step.sound {s t : Stage Q A K} (step : Stage.Step s t) (sound : s.Sound) :
    t.Sound := by
  cases step with
  | edit _ applied => exact Builder.Sound.apply sound applied
  | build built => exact Builder.Sound.build sound built
  | reopen m => exact Model.WellFormed.reopen sound
  | estimate _ _ nonneg estimated => exact Model.WellFormed.estimate sound nonneg estimated

/-- The invariant holds wherever a run arrives. -/
theorem Stage.Reachable.sound {s : Stage Q A K} (reach : s.Reachable) : s.Sound := by
  induction reach with
  | refl => exact Builder.Sound.empty
  | tail _ step ih => exact step.sound ih

/-- Every model that a run arrives at is well formed. -/
theorem Model.Reachable.wellFormed {m : Model Q A K} (reach : m.Reachable) : m.WellFormed :=
  Stage.Reachable.sound reach

end Trellis
