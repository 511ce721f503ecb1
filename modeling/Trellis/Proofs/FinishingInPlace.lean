import Trellis.Estimate
import Trellis.Proofs.DrawingInPlace
import Trellis.Proofs.Finishing

/-!
# Finishing in place

A builder that is kept in tables is finished in three passes, each of which checks
totals and fills what is vacant before it goes on: the initial distribution, the
arcs by source, the emissions by state. The builder itself looks for its first
fault before anything is filled. What one pass fills is not read by a later check
(`Checks.forM`), so both find the same fault, and without one the tables are those of
the finished model (`checks_finish`, `builder_filled`, `finish_cases`). Estimation
replaces all probabilities at once and then finishes (`builder_reestimate`).
-/

namespace Trellis

variable {S E α K σ : Type} {Q : Alphabet S} {A : Alphabet E}

namespace Tables

/-! ### The passes -/

section Passes

variable [Arithmetic α]

/-- The total of the arcs that leave a state. -/
def arcTotal (t : Tables Q A α) (k : Q.Code) : α :=
  total ((t.targets k).map (t.probabilities.get k))

/-- The total of the emissions of a state, which are a stored row. -/
def emissionTotal (t : Tables Q A α) (k : Q.Code) : α :=
  rowTotal (t.emissionProbabilities.row k).toList

/-- Fills in a missing initial distribution, and checks its total. -/
def finishInitial : Editing Q A α Unit := do
  let initial := (← get).initial.getD Builder.uniformInitial
  let sum := rowTotal initial.toList
  if NearOne sum then
    modify fun t => { t with initial := some initial }
  else
    throw (.invalidProbability .build sum .initialTotal)

/-- Finishes the arcs that leave a state, if there are any. -/
def finishArcs (k : Q.Code) : Editing Q A α Unit := do
  let t ← get
  let targets := t.targets k
  let sum := t.arcTotal k
  if targets = [] then
    return
  else if IsZero sum then
    targets.forM fun l => modify fun t =>
      { t with probabilities := t.probabilities.set k l (share targets.length) }
  else if NearOne sum then
    return
  else
    throw (.invalidProbability .build sum (.transitionTotal (Q.symbol k)))

/-- Finishes the emissions of a state. -/
def finishEmissions (k : Q.Code) : Editing Q A α Unit := do
  let sum := (← get).emissionTotal k
  if IsZero sum then
    modify fun t => { t with
      emissionProbabilities := t.emissionProbabilities.setRow k (.replicate A.size (share A.size)) }
  else if NearOne sum then
    return
  else
    throw (.invalidProbability .build sum (.emissionTotal (Q.symbol k)))

/-- The three passes, in this order. The first fault stops them. -/
def finish : Editing Q A α Unit := do
  finishInitial
  Q.codes.forM finishArcs
  Q.codes.forM finishEmissions

/-! ### What the passes leave -/

def withInitial (t : Tables Q A α) : Tables Q A α :=
  { t with initial := some (t.initial.getD Builder.uniformInitial) }

/-- The tables after the arcs of some states have been finished. -/
def fillArcs (t : Tables Q A α) (done : List Q.Code) : Tables Q A α :=
  { t with probabilities := .ofFn fun k l =>
      if done.contains k ∧ t.allowed.get k l ∧ IsZero (t.arcTotal k) then
        share (t.targets k).length
      else t.probabilities.get k l }

/-- The tables after the emissions of some states have been finished. -/
def fillEmissions (t : Tables Q A α) (done : List Q.Code) : Tables Q A α :=
  { t with emissionProbabilities := .ofFn fun k x =>
      if done.contains k ∧ IsZero (t.emissionTotal k) then share A.size
      else t.emissionProbabilities.get k x }

/-- The tables after all passes without a fault. -/
def filled (t : Tables Q A α) : Tables Q A α :=
  (t.withInitial.fillArcs Q.codes).fillEmissions Q.codes

end Passes

/-! ### Checking -/

section Checks

/-- From these tables, an operation reports a fault, if there is one, and otherwise
leaves the tables `s`. -/
def Checks (t : Tables Q A α) (operation : Editing Q A α Unit)
    (fault? : Option (α × ProbabilityFault S)) (s : Tables Q A α) : Prop :=
  match fault? with
  | some (sum, fault) =>
    ∃ r, operation.run t = .error (.invalidProbability .build sum fault) r
  | none => operation.run t = .ok () s

theorem Checks.bind {t s r : Tables Q A α} {x y : Editing Q A α Unit}
    {first second : Option (α × ProbabilityFault S)} (here : t.Checks x first s)
    (next : s.Checks y second r) : t.Checks (x >>= fun _ => y) (first <|> second) r := by
  cases first with
  | some found =>
    obtain ⟨left, failed⟩ := here
    refine ⟨left, ?_⟩
    rw [EStateM.run_bind, failed]
  | none =>
    have moved : (x >>= fun _ => y).run t = y.run s := run_bind here
    cases second with
    | some found =>
      obtain ⟨left, failed⟩ := next
      exact ⟨left, moved.trans failed⟩
    | none => exact moved.trans next

theorem Checks.read {t s : Tables Q A α} {f : Tables Q A α → Editing Q A α Unit}
    {fault? : Option (α × ProbabilityFault S)} (next : t.Checks (f t) fault? s) :
    t.Checks (get >>= f) fault? s := by
  cases fault? with
  | some found => exact next
  | none => exact next

/-- A group is filled if it is vacant, and has to have total one otherwise. -/
theorem Checks.group [Arithmetic α] {t s : Tables Q A α} {sum : α}
    {fault : ProbabilityFault S} {filling : Editing Q A α Unit}
    (vacant : IsZero sum → filling.run t = .ok () s) (occupied : ¬ IsZero sum → s = t) :
    t.Checks
      (if IsZero sum then filling
        else if NearOne sum then pure ()
        else throw (.invalidProbability .build sum fault))
      (Builder.groupFault? sum fault) s := by
  rw [Builder.groupFault?]
  by_cases zero : IsZero sum
  · rw [if_pos zero, if_neg fun faulty => faulty.1 zero]
    exact vacant zero
  · rw [if_neg zero, occupied zero]
    by_cases near : NearOne sum
    · rw [if_pos near, if_neg fun faulty => faulty.2 near]
      rfl
    · rw [if_neg near, if_pos ⟨zero, near⟩]
      exact ⟨t, rfl⟩

/-- **A pass** over states, each of which is finished once, reports the first fault. -/
theorem Checks.forM {body : Q.Code → Editing Q A α Unit}
    {fault? : Q.Code → Option (α × ProbabilityFault S)} {after : List Q.Code → Tables Q A α}
    (step : ∀ done k, k ∉ done → (after done).Checks (body k) (fault? k) (after (done ++ [k])))
    {states done : List Q.Code} (nodup : (done ++ states).Nodup) :
    (after done).Checks (states.forM body) (states.findSome? fault?) (after (done ++ states)) := by
  induction states generalizing done with
  | nil =>
    rw [List.append_nil]
    exact Eq.refl (EStateM.Result.ok () (after done))
  | cons k rest ih =>
    -- Each state is fresh when its turn comes, since no state is listed twice.
    have fresh : k ∉ done := fun old =>
      (List.nodup_append.mp nodup).2.2 k old k List.mem_cons_self rfl
    rw [List.append_cons] at nodup
    have first : (k :: rest).findSome? fault? = (fault? k <|> rest.findSome? fault?) := by
      rw [List.findSome?_cons]
      cases fault? k with
      | none => rfl
      | some found => rfl
    rw [first, List.append_cons]
    exact (step done k fresh).bind (ih nodup)

end Checks

/-! ### One state -/

section Fields

variable [Arithmetic α] (t : Tables Q A α) (k : Q.Code)

omit [Arithmetic α] in
/-- A forbidden arc is not among those that an operation on targets writes. -/
theorem notMem_targets {l : Q.Code} (forbidden : t.allowed.get k l = false) : l ∉ t.targets k :=
  fun target => Bool.eq_false_iff.mp forbidden (List.of_mem_filter target)

omit [Arithmetic α] in
theorem map_probability_transitionGroup :
    (t.builder.transitionGroup k).map Entry.probability =
      (t.targets k).map (t.probabilities.get k) := by
  rw [Parameters.transitionGroup, Row.toList_eq_ofFn, List.ofFn_eq_map, List.filterMap_map,
    List.map_filterMap, targets, ← List.filterMap_eq_map, List.filterMap_filter]
  refine List.filterMap_congr fun l _ => ?_
  have arc := t.transitions_builder k l
  cases allowed : t.allowed.get k l with
  | true => simp [arc, allowed]
  | false => simp [arc, allowed]

omit [Arithmetic α] in
theorem emissions_builder_congr {t s : Tables Q A α}
    (probabilities : s.emissionProbabilities = t.emissionProbabilities)
    (pseudocounts : s.emissionPseudocounts = t.emissionPseudocounts) :
    s.builder.emissions = t.builder.emissions := by
  rw [builder, builder, probabilities, pseudocounts]

theorem mass_transitionGroup : (t.builder.transitionGroup k).mass = t.arcTotal k :=
  congrArg total (t.map_probability_transitionGroup k)

theorem rowMass_emissionGroup : (t.builder.emissionGroup k).rowMass = t.emissionTotal k := by
  rw [Group.rowMass, emissionTotal, Parameters.emissionGroup, Row.toList_eq_ofFn,
    Row.toList_eq_ofFn, List.map_ofFn]
  congr 2
  funext x
  exact congrArg Entry.probability (t.emissions_builder k x)

variable (done : List Q.Code)

theorem get_fillArcs (l : Q.Code) : (t.fillArcs done).probabilities.get k l =
    if k ∈ done ∧ l ∈ t.targets k ∧ IsZero (t.arcTotal k) then share (t.targets k).length
    else t.probabilities.get k l := by
  refine (Table.get_ofFn _ k l).trans (if_congr ?_ rfl rfl)
  simp [targets, Alphabet.codes]

theorem get_fillEmissions (x : A.Code) : (t.fillEmissions done).emissionProbabilities.get k x =
    if k ∈ done ∧ IsZero (t.emissionTotal k) then share A.size
    else t.emissionProbabilities.get k x := by
  refine (Table.get_ofFn _ k x).trans (if_congr ?_ rfl rfl)
  simp

variable {t k done}

/-- Tables with these cells are those in which some states have been finished. -/
theorem eq_fillArcs {cells : Table Q.size Q.size α} (filled : ∀ i l, cells.get i l =
      if i ∈ done ∧ l ∈ t.targets i ∧ IsZero (t.arcTotal i) then share (t.targets i).length
      else t.probabilities.get i l) :
    { t with probabilities := cells } = t.fillArcs done := by
  have same : cells = (t.fillArcs done).probabilities :=
    Table.ext fun i l => (filled i l).trans (t.get_fillArcs i done l).symm
  rw [same]
  rfl

theorem eq_fillEmissions {cells : Table Q.size A.size α} (filled : ∀ i x, cells.get i x =
      if i ∈ done ∧ IsZero (t.emissionTotal i) then share A.size
      else t.emissionProbabilities.get i x) :
    { t with emissionProbabilities := cells } = t.fillEmissions done := by
  have same : cells = (t.fillEmissions done).emissionProbabilities :=
    Table.ext fun i x => (filled i x).trans (t.get_fillEmissions i done x).symm
  rw [same]
  rfl

theorem fillArcs_nil : t.fillArcs [] = t :=
  (eq_fillArcs fun _ _ => (if_neg fun filled => List.not_mem_nil filled.1).symm).symm

theorem fillEmissions_nil : t.fillEmissions [] = t :=
  (eq_fillEmissions fun _ _ => (if_neg fun filled => List.not_mem_nil filled.1).symm).symm

theorem arcTotal_fillArcs (fresh : k ∉ done) : (t.fillArcs done).arcTotal k = t.arcTotal k :=
  congrArg total (List.map_congr_left fun l _ =>
    (t.get_fillArcs k done l).trans (if_neg fun filled => fresh filled.1))

theorem emissionTotal_fillEmissions (fresh : k ∉ done) :
    (t.fillEmissions done).emissionTotal k = t.emissionTotal k := by
  rw [emissionTotal, emissionTotal, Row.toList_eq_ofFn, Row.toList_eq_ofFn]
  congr 2
  funext x
  exact (t.get_fillEmissions k done x).trans (if_neg fun filled => fresh filled.1)

end Fields

section Exact

variable [Field K] [LinearOrder K] {t : Tables Q A K}

theorem checks_finishInitial : t.Checks finishInitial
    (if ¬ NearOne (rowTotal t.builder.initialOrUniform.toList) then
      some (rowTotal t.builder.initialOrUniform.toList, .initialTotal) else none)
    t.withInitial := by
  have initial : t.builder.initialOrUniform = t.initial.getD Builder.uniformInitial := rfl
  refine .read ?_
  rw [initial]
  dsimp only
  split
  · exact run_modify _
  · exact ⟨t, rfl⟩

variable {k : Q.Code} {done : List Q.Code}

/-- Finishing the arcs of a state without arcs, or with a total, writes nothing. -/
theorem fillArcs_concat_of_not (occupied : ¬ (t.targets k ≠ [] ∧ IsZero (t.arcTotal k))) :
    t.fillArcs (done ++ [k]) = t.fillArcs done := by
  refine eq_fillArcs fun i l => (t.get_fillArcs i (done ++ [k]) l).trans (if_congr ?_ rfl rfl)
  rw [List.mem_append, List.mem_singleton]
  refine ⟨?_, fun filled => ⟨.inl filled.1, filled.2⟩⟩
  rintro ⟨old | rfl, target, vacant⟩
  · exact ⟨old, target, vacant⟩
  · exact absurd ⟨List.ne_nil_of_mem target, vacant⟩ occupied

theorem fillEmissions_concat_of_not (occupied : ¬ IsZero (t.emissionTotal k)) :
    t.fillEmissions (done ++ [k]) = t.fillEmissions done := by
  refine eq_fillEmissions fun i x =>
    (t.get_fillEmissions i (done ++ [k]) x).trans (if_congr ?_ rfl rfl)
  rw [List.mem_append, List.mem_singleton]
  refine ⟨?_, fun filled => ⟨.inl filled.1, filled.2⟩⟩
  rintro ⟨old | rfl, vacant⟩
  · exact ⟨old, vacant⟩
  · exact absurd vacant occupied

theorem checks_finishArcs (fresh : k ∉ done) : (t.fillArcs done).Checks (finishArcs k)
    (Builder.groupFault? (t.builder.transitionGroup k).mass (.transitionTotal (Q.symbol k)))
    (t.fillArcs (done ++ [k])) := by
  have targets_eq : (t.fillArcs done).targets k = t.targets k := rfl
  have mass_eq := t.mass_transitionGroup k
  refine .read ?_
  simp only [targets_eq, arcTotal_fillArcs fresh]
  split
  · -- A state without arcs has total zero, so its group has no fault.
    rename_i none_left
    have vacant : IsZero (t.builder.transitionGroup k).mass := by
      rw [mass_eq, arcTotal, none_left]
      exact isZero_iff.mpr rfl
    rw [Builder.groupFault?, if_neg fun faulty => faulty.1 vacant,
      fillArcs_concat_of_not fun occupied => occupied.1 none_left]
    rfl
  · rw [← mass_eq]
    refine .group (fun vacant => (run_forM_set _ k _ _).trans ?_) fun occupied => ?_
    · rw [mass_eq] at vacant
      refine congrArg (EStateM.Result.ok ()) (eq_fillArcs (t := t) fun i l => ?_)
      simp only [Table.get_ofFn, get_fillArcs, List.mem_append, List.mem_singleton]
      grind
    · rw [mass_eq] at occupied
      exact fillArcs_concat_of_not fun vacant => occupied vacant.2

theorem checks_finishEmissions (fresh : k ∉ done) :
    (t.fillEmissions done).Checks (finishEmissions k)
      (Builder.groupFault? (t.builder.emissionGroup k).rowMass (.emissionTotal (Q.symbol k)))
      (t.fillEmissions (done ++ [k])) := by
  have mass_eq := t.rowMass_emissionGroup k
  refine .read ?_
  simp only [emissionTotal_fillEmissions fresh]
  rw [← mass_eq]
  refine .group (fun vacant => (run_modify _).trans ?_) fun occupied => ?_
  · rw [mass_eq] at vacant
    refine congrArg (EStateM.Result.ok ()) (eq_fillEmissions (t := t) fun i x => ?_)
    simp only [Table.get_setRow, Row.get_replicate, get_fillEmissions, List.mem_append,
      List.mem_singleton]
    grind
  · rw [mass_eq] at occupied
    exact fillEmissions_concat_of_not occupied

/-! ### All states -/

/-- **Finishing in place** reports the first fault of the builder, or fills what is
vacant. -/
theorem checks_finish (t : Tables Q A K) : t.Checks finish t.builder.fault? t.filled := by
  have nodup : ([] ++ Q.codes).Nodup := List.nodup_finRange Q.size
  -- The groups that a pass checks are those of the tables before the first pass.
  have arcGroup (k : Q.Code) : t.withInitial.builder.transitionGroup k =
      t.builder.transitionGroup k := rfl
  have kept : (t.withInitial.fillArcs Q.codes).builder.emissions = t.builder.emissions :=
    emissions_builder_congr rfl rfl
  have emissionGroup (k : Q.Code) : (t.withInitial.fillArcs Q.codes).builder.emissionGroup k =
      t.builder.emissionGroup k := by
    rw [Parameters.emissionGroup, Parameters.emissionGroup, kept]
  have arcs := Checks.forM (fun done k => checks_finishArcs (t := t.withInitial)) nodup
  have emissions := Checks.forM
    (fun done k => checks_finishEmissions (t := t.withInitial.fillArcs Q.codes)) nodup
  simp only [arcGroup, fillArcs_nil, List.nil_append] at arcs
  simp only [emissionGroup, fillEmissions_nil, List.nil_append] at emissions
  have passes := checks_finishInitial.bind (arcs.bind emissions)
  have faults : t.builder.fault? =
      ((if ¬ NearOne (rowTotal t.builder.initialOrUniform.toList) then
        some (rowTotal t.builder.initialOrUniform.toList, .initialTotal) else none) <|>
      ((Q.codes.findSome? fun k =>
        Builder.groupFault? (t.builder.transitionGroup k).mass (.transitionTotal (Q.symbol k))) <|>
      (Q.codes.findSome? fun k =>
        Builder.groupFault? (t.builder.emissionGroup k).rowMass
          (.emissionTotal (Q.symbol k))))) := by
    rw [Builder.fault?]
    split
    · rfl
    · rfl
  rw [faults]
  exact passes

/-- The tables that are left are those of the finished model. -/
theorem builder_filled (t : Tables Q A K) : t.filled.builder = .ofModel t.builder.finished := by
  refine Builder.ext (Parameters.ext (fun k l => ?_) fun k x => ?_) rfl
  · have filled : (Builder.ofModel t.builder.finished).transitions.get k l =
        (t.builder.transitions.get k l).map
          (Group.fill (t.builder.transitionGroup k).mass (t.builder.transitionGroup k)) := by
      rw [Builder.ofModel, Builder.toParameters_finished, Parameters.transitions_mapGroups]
    have cell : t.filled.probabilities.get k l =
        if k ∈ Q.codes ∧ l ∈ t.targets k ∧ IsZero (t.arcTotal k) then share (t.targets k).length
        else t.probabilities.get k l := get_fillArcs t.withInitial k Q.codes l
    have kept : t.filled.allowed = t.allowed := rfl
    have pseudocounts : t.filled.pseudocounts = t.pseudocounts := rfl
    rw [filled, transitions_builder, transitions_builder, kept, pseudocounts, cell]
    cases allowed : t.allowed.get k l with
    | true =>
      have known : k ∈ Q.codes := List.mem_finRange k
      have target : l ∈ t.targets k := List.mem_filter.mpr ⟨List.mem_finRange l, allowed⟩
      simp only [known, target, true_and, if_true, Option.map_some, Group.fill,
        mass_transitionGroup, Group.equalize, Parameters.length_transitionGroup, targets_builder]
      split
      · rfl
      · rfl
    | false => rfl
  · have filled : (Builder.ofModel t.builder.finished).emissions.get k x =
        Group.fill (t.builder.emissionGroup k).rowMass (t.builder.emissionGroup k)
          (t.builder.emissions.get k x) := by
      rw [Builder.ofModel, Builder.toParameters_finished, Parameters.emissions_mapGroups,
        Group.rowMass_eq_mass]
    have cell : t.filled.emissionProbabilities.get k x =
        if k ∈ Q.codes ∧ IsZero (t.emissionTotal k) then share A.size
        else t.emissionProbabilities.get k x :=
      get_fillEmissions (t.withInitial.fillArcs Q.codes) k Q.codes x
    have pseudocounts : t.filled.emissionPseudocounts = t.emissionPseudocounts := rfl
    have known : k ∈ Q.codes := List.mem_finRange k
    rw [filled, emissions_builder, emissions_builder, pseudocounts, cell]
    simp only [known, true_and, Group.fill, rowMass_emissionGroup, Group.equalize,
      Parameters.length_emissionGroup]
    split
    · rfl
    · rfl

theorem unwritten_filled (t : Tables Q A K) : Unwritten t t.filled where
  allowed := rfl
  pseudocounts := rfl
  emissionPseudocounts := rfl
  forbidden k l forbidden := (get_fillArcs t.withInitial k Q.codes l).trans
    (if_neg fun filled => t.notMem_targets k forbidden filled.2.1)

/-- Tables are finished exactly if their builder is, and alike. -/
theorem finish_cases (t : Tables Q A K) :
    (∃ e s, t.builder.build = .error e ∧ finish.run t = .error e s) ∨
      (t.builder.build = .ok t.builder.finished ∧ finish.run t = .ok () t.filled) := by
  have checks := t.checks_finish
  rw [Builder.build]
  cases faults : t.builder.fault? with
  | some found =>
    rw [faults] at checks
    obtain ⟨s, failed⟩ := checks
    exact .inl ⟨_, s, rfl, failed⟩
  | none =>
    rw [faults] at checks
    exact .inr ⟨rfl, checks⟩

theorem finish_of_build {t : Tables Q A K} {m : Model Q A K} (built : t.builder.build = .ok m) :
    finish.run t = .ok () t.filled ∧ t.filled.builder = .ofModel m := by
  rcases t.finish_cases with ⟨e, s, refused, -⟩ | ⟨succeeded, finished⟩
  · cases refused.symm.trans built
  · cases succeeded.symm.trans built
    exact ⟨finished, t.builder_filled⟩

end Exact

/-! ### The tables of a model -/

section Held

variable {t : Tables Q A α} {m : Model Q A α} (held : t.builder = .ofModel m)
include held

theorem initial_of_held : t.initial = some m.initial := congrArg Builder.initial held

theorem transitions_of_held (k l : Q.Code) : m.transitions.get k l =
    if t.allowed.get k l then some ⟨t.probabilities.get k l, t.pseudocounts.get k l⟩
    else none := by
  have parameters : m.toParameters = t.builder.toParameters :=
    congrArg Builder.toParameters held.symm
  rw [parameters, transitions_builder]

theorem allows_of_held (k l : Q.Code) : m.allows k l = t.allowed.get k l := by
  rw [Parameters.allows, transitions_of_held held]
  cases t.allowed.get k l with
  | true => rfl
  | false => rfl

theorem emissions_of_held (k : Q.Code) (x : A.Code) : m.emissions.get k x =
    ⟨t.emissionProbabilities.get k x, t.emissionPseudocounts.get k x⟩ := by
  have parameters : m.toParameters = t.builder.toParameters :=
    congrArg Builder.toParameters held.symm
  rw [parameters, emissions_builder]

end Held

/-! ### Estimation -/

section Estimation

variable [Arithmetic α]

/-- The tables with other probabilities. Those of forbidden arcs are dropped. -/
def replace (t : Tables Q A α) (initial : Option (Vector α Q.size))
    (arcs : Table Q.size Q.size α) (emissions : Table Q.size A.size α) : Tables Q A α :=
  { t with
    initial := initial.or t.initial
    probabilities := .ofFn fun k l => if t.allowed.get k l then arcs.get k l else 0
    emissionProbabilities := emissions }

/-- The weights of the arcs, with those of forbidden arcs set to zero. -/
def arcWeights (t : Tables Q A α) (options : Estimation) (counts : Table Q.size Q.size α) :
    Table Q.size Q.size α :=
  .ofFn fun k l =>
    if t.allowed.get k l then
      options.weight (counts.get k l) ⟨t.probabilities.get k l, t.pseudocounts.get k l⟩
    else 0

def emissionWeights (t : Tables Q A α) (options : Estimation) (counts : Table Q.size A.size α) :
    Table Q.size A.size α :=
  .ofFn fun k x => options.weight (counts.get k x)
    ⟨t.emissionProbabilities.get k x, t.emissionPseudocounts.get k x⟩

/-- The tables with the probabilities that are estimated from counts. -/
def reestimate (t : Tables Q A α) (options : Estimation)
    (counts : Counts (.ofModel Q.size A.size) α σ) : Tables Q A α :=
  let sum := rowTotal counts.initial.toList
  t.replace
    (if options.reestimateInitial ∧ 0 < sum then some (counts.initial.map (· / sum)) else none)
    (t.arcWeights options counts.transitions).relativeRows
    (t.emissionWeights options counts.emissions).relativeRows

/-- **Estimation in place** follows the estimation from the model in the tables. -/
theorem builder_reestimate {t : Tables Q A α} {m : Model Q A α} (held : t.builder = .ofModel m)
    (options : Estimation) (counts : Counts (.ofModel Q.size A.size) α σ) :
    (t.reestimate options counts).builder = m.reweighted options counts := by
  have arcs : t.arcWeights options counts.transitions =
      m.transitionWeights options counts.transitions := by
    ext k l
    rw [arcWeights, Model.transitionWeights, Table.get_ofFn, Table.get_ofFn,
      transitions_of_held held]
    split
    · rfl
    · rfl
  have emissions : t.emissionWeights options counts.emissions =
      m.emissionWeights options counts.emissions := by
    ext k x
    rw [emissionWeights, Model.emissionWeights, Table.get_ofFn, Table.get_ofFn,
      emissions_of_held held]
  refine Builder.ext (Parameters.ext (fun k l => ?_) fun k x => ?_) ?_
  · rw [Model.reweighted, Parameters.transitions_reweigh, transitions_builder,
      transitions_of_held held, ← arcs]
    simp only [reestimate, replace, Table.get_ofFn]
    cases t.allowed.get k l with
    | true => rfl
    | false => rfl
  · rw [Model.reweighted, Parameters.emissions_reweigh, emissions_builder,
      emissions_of_held held, ← emissions]
    rfl
  · simp only [builder, reestimate, replace, Model.reweighted, Model.estimatedInitial,
      initial_of_held held]
    split
    · rfl
    · rfl

end Estimation

end Tables

end Trellis
