import Trellis.Proofs.Soundness

/-!
# What can be finished

Finishing looks at totals only. Along a run no probability is negative, so a
group totals zero exactly if nothing has been set in it
(`sum_transition_eq_zero_iff`, `sum_emission_eq_zero_iff`). A builder is therefore
finished exactly if every distribution in which something has been set totals
one; those in which nothing has been set become uniform, and nothing else
changes (`CompletedAs`). The error names the first distribution that is set and
does not (`fault?_eq`). `build_completes` states both.
-/

namespace Trellis

variable {S E K : Type} {Q : Alphabet S} {A : Alphabet E}

/-- The distributions of a model. -/
inductive Distribution (Q : Alphabet S) where
  | initial
  | arcs (source : Q.Code)
  | emissions (state : Q.Code)
deriving DecidableEq

namespace Distribution

/-- The distributions in the order in which they are looked at. -/
def inOrder (Q : Alphabet S) : List (Distribution Q) :=
  .initial :: (Q.codes.map .arcs ++ Q.codes.map .emissions)

/-- What an error says of a distribution with a wrong total. -/
def fault : Distribution Q → ProbabilityFault S
  | .initial => .initialTotal
  | .arcs k => .transitionTotal (Q.symbol k)
  | .emissions k => .emissionTotal (Q.symbol k)

theorem mem_inOrder (d : Distribution Q) : d ∈ inOrder Q := by
  cases d with
  | initial => simp [inOrder]
  | arcs k => simp [inOrder, Alphabet.codes]
  | emissions k => simp [inOrder, Alphabet.codes]

end Distribution

namespace Builder

variable [Field K] [LinearOrder K]

/-! ### Distributions under construction -/

/-- The total of a distribution: over the states, the targets of a state or the symbols. -/
def sum (b : Builder Q A K) : Distribution Q → K
  | .initial => b.initial.elim 0 fun row => ∑ k, row.get k
  | .arcs k => ∑ l with b.allows k l, b.transition k l
  | .emissions k => ∑ x, b.emission k x

/-- Something has been set: the initial distribution, or a cell that is not zero. -/
def IsSet (b : Builder Q A K) : Distribution Q → Prop
  | .initial => b.initial.isSome
  | .arcs k => ∃ l, b.allows k l = true ∧ b.transition k l ≠ 0
  | .emissions k => ∃ x, b.emission k x ≠ 0

instance (b : Builder Q A K) : DecidablePred b.IsSet
  | .initial => inferInstanceAs (Decidable (b.initial.isSome = true))
  | .arcs k => inferInstanceAs (Decidable (∃ l, b.allows k l = true ∧ b.transition k l ≠ 0))
  | .emissions k => inferInstanceAs (Decidable (∃ x, b.emission k x ≠ 0))

/-- No model can be finished with the distribution: it is set, and does not total one. -/
def Offends (b : Builder Q A K) (d : Distribution Q) : Prop := b.IsSet d ∧ ¬ NearOne (b.sum d)

instance (b : Builder Q A K) : DecidablePred b.Offends :=
  fun _ => inferInstanceAs (Decidable (_ ∧ _))

/-- The first distribution that no model can be finished with. -/
def offender? (b : Builder Q A K) : Option (Distribution Q) :=
  (Distribution.inOrder Q).find? b.Offends

/-- The model has the cells of the builder, except that distributions in which
nothing is set have become uniform. -/
structure CompletedAs (b : Builder Q A K) (m : Model Q A K) : Prop where
  initial : ∀ k, m.initial.get k = b.initial.elim (share Q.size) fun row => row.get k
  allows : ∀ k l, m.allows k l = b.allows k l
  transition : ∀ k l, m.transition k l =
    if b.allows k l = true ∧ ¬ b.IsSet (.arcs k) then share (b.targets k).length
    else b.transition k l
  emission : ∀ k x, m.emission k x =
    if b.IsSet (.emissions k) then b.emission k x else share A.size
  transitionPseudocount : ∀ k l, m.transitionPseudocount k l = b.transitionPseudocount k l
  emissionPseudocount : ∀ k x, m.emissionPseudocount k x = b.emissionPseudocount k x

variable {b : Builder Q A K}

/-! ### Totals of what is set -/

omit [LinearOrder K] in
theorem sum_arcs (b : Builder Q A K) (k : Q.Code) : b.sum (.arcs k) = ∑ l, b.transition k l :=
  b.sum_transition_targets k

omit [LinearOrder K] in
theorem exists_transition_ne_zero_iff {k : Q.Code} :
    (∃ l, b.transition k l ≠ 0) ↔ b.IsSet (.arcs k) :=
  exists_congr fun _ =>
    ⟨fun ne => ⟨Parameters.allows_of_transition_ne_zero ne, ne⟩, fun set => set.2⟩

/-- The first fault of a list of groups is that of the first faulty group. -/
theorem findSome?_groupFault? {β : Type} (sum : β → K) (fault : β → ProbabilityFault S)
    (xs : List β) :
    (xs.findSome? fun x => groupFault? (sum x) (fault x)) =
      (xs.find? fun x => IsFaulty (sum x)).map fun x => (sum x, fault x) := by
  induction xs with
  | nil => rfl
  | cons x rest ih =>
    rw [List.findSome?_cons, List.find?_cons, groupFault?, ih]
    by_cases faulty : IsFaulty (sum x)
    · simp [faulty]
    · simp [faulty]

variable [IsStrictOrderedRing K]

/-- The uniform distribution adds up to one. -/
theorem sum_uniformInitial : ∑ k, (uniformInitial : Vector K Q.size).get k = 1 := by
  simp only [uniformInitial, Row.get_replicate, Finset.sum_const, Finset.card_univ,
    Fintype.card_fin, nsmul_eq_mul]
  exact mul_share Q.size_pos

omit [IsStrictOrderedRing K] in
theorem sum_initial (set : b.IsSet .initial) :
    b.sum .initial = ∑ k, b.initialOrUniform.get k := by
  obtain ⟨row, set⟩ := Option.isSome_iff_exists.mp set
  rw [sum, initialOrUniform, set]
  rfl

/-- A missing initial distribution becomes uniform, so only one that is set offends. -/
theorem offends_initial_iff :
    b.Offends .initial ↔ ¬ NearOne (∑ k, b.initialOrUniform.get k) := by
  rw [Offends, IsSet, sum, initialOrUniform]
  cases b.initial with
  | none => simp [sum_uniformInitial, nearOne_one]
  | some row => simp

namespace Sound

variable (sound : b.Sound)
include sound

/-- Where nothing is negative, arcs that total zero are all zero. -/
theorem sum_transition_eq_zero_iff (k : Q.Code) :
    ∑ l, b.transition k l = 0 ↔ ¬ b.IsSet (.arcs k) := by
  rw [Finset.sum_eq_zero_iff_of_nonneg fun l _ => sound.parameters.transition_nonneg k l,
    ← exists_transition_ne_zero_iff]
  simp

theorem sum_emission_eq_zero_iff (k : Q.Code) :
    ∑ x, b.emission k x = 0 ↔ ¬ b.IsSet (.emissions k) := by
  rw [Finset.sum_eq_zero_iff_of_nonneg fun x _ => sound.parameters.emission_nonneg k x]
  simp [IsSet]

/-! ### Faults -/

theorem offends_arcs_iff (k : Q.Code) :
    b.Offends (.arcs k) ↔ IsFaulty (b.transitionGroup k).mass := by
  rw [isFaulty_iff, Parameters.mass_transitionGroup, Offends, sum_arcs, ne_eq,
    sound.sum_transition_eq_zero_iff, not_not]

theorem offends_emissions_iff (k : Q.Code) :
    b.Offends (.emissions k) ↔ IsFaulty (b.emissionGroup k).rowMass := by
  rw [isFaulty_iff, Parameters.rowMass_emissionGroup, Offends, sum, ne_eq,
    sound.sum_emission_eq_zero_iff, not_not]

/-- What finishing reports is the first distribution that offends. -/
theorem fault?_eq : b.fault? = b.offender?.map fun d => (b.sum d, d.fault) := by
  simp only [fault?, rowTotal_toList, offender?, Distribution.inOrder]
  by_cases near : NearOne (∑ k, b.initialOrUniform.get k)
  · have initial : ¬ b.Offends .initial := fun offends => offends_initial_iff.mp offends near
    have arcs : (fun k => decide (b.Offends (.arcs k))) =
        fun k => decide (IsFaulty (b.transitionGroup k).mass) :=
      funext fun k => decide_eq_decide.mpr (sound.offends_arcs_iff k)
    have emissions : (fun k => decide (b.Offends (.emissions k))) =
        fun k => decide (IsFaulty (b.emissionGroup k).rowMass) :=
      funext fun k => decide_eq_decide.mpr (sound.offends_emissions_iff k)
    rw [if_neg (not_not.mpr near), List.find?_cons_of_neg (by simpa using initial),
      List.find?_append, List.find?_map, List.find?_map, Option.orElse_eq_orElse,
      Option.orElse_eq_or, findSome?_groupFault?, findSome?_groupFault?]
    simp only [Function.comp_def, arcs, emissions, Option.map_or, Option.map_map, sum_arcs,
      Parameters.mass_transitionGroup, Parameters.rowMass_emissionGroup]
    rfl
  · have initial : b.Offends .initial := offends_initial_iff.mpr near
    rw [if_pos near, List.find?_cons_of_pos (by simpa using initial), Option.map_some,
      sum_initial initial.1]
    rfl

theorem fault?_eq_none_iff_sum : b.fault? = none ↔ ∀ d, ¬ b.IsSet d ∨ NearOne (b.sum d) := by
  rw [sound.fault?_eq, Option.map_eq_none_iff, offender?, List.find?_eq_none]
  simp only [Distribution.mem_inOrder, forall_const, decide_eq_true_eq]
  exact forall_congr' fun d => by rw [Offends, not_and_or, not_not]

/-! ### The finished model -/

theorem completedAs_finished : b.CompletedAs b.finished where
  initial k := by
    rw [initial_finished, initialOrUniform]
    cases b.initial with
    | none => simp [uniformInitial]
    | some row => rfl
  allows := b.allows_finished
  transition k l := by
    cases allowed : b.allows k l with
    | true =>
      rw [transition_finished b allowed, Parameters.length_transitionGroup]
      simp only [sound.sum_transition_eq_zero_iff, true_and]
    | false =>
      rw [Parameters.transition_eq_zero allowed,
        Parameters.transition_eq_zero ((b.allows_finished k l).trans allowed)]
      simp
  emission k x := by
    rw [emission_finished]
    simp only [sound.sum_emission_eq_zero_iff, ite_not]
  transitionPseudocount := b.transitionPseudocount_finished
  emissionPseudocount := b.emissionPseudocount_finished

end Sound

variable [DecidableEq S] [DecidableEq E]

/-- **What can be finished.** A builder at the end of a run is finished exactly if
each of its distributions is not set or totals one within the tolerance. In the
model those that are not set are uniform, and all else is as in the builder.
Otherwise the error has the total of the first distribution that is set and does
not total one: the initial one, then the arcs by source, then the emissions by
state. -/
theorem build_completes (reach : b.Reachable) :
    ((∃ m, b.build = .ok m) ↔ ∀ d, ¬ b.IsSet d ∨ NearOne (b.sum d)) ∧
    (∀ m, b.build = .ok m → b.CompletedAs m) ∧
    ∀ e, b.build = .error e ↔
      ∃ d, b.offender? = some d ∧ e = .invalidProbability .build (b.sum d) d.fault := by
  have sound : b.Sound := Stage.Reachable.sound reach
  refine ⟨?_, ?_, fun e => ?_⟩
  · rw [← sound.fault?_eq_none_iff_sum]
    constructor
    · rintro ⟨m, built⟩
      exact (build_eq_ok_iff.mp built).1
    · intro faultless
      exact ⟨b.finished, build_eq_ok_iff.mpr ⟨faultless, rfl⟩⟩
  · intro m built
    obtain ⟨-, rfl⟩ := build_eq_ok_iff.mp built
    exact sound.completedAs_finished
  · rw [build, sound.fault?_eq]
    cases b.offender? with
    | none => simp
    | some d => simp [eq_comm]

/-- The machine with half of its arcs and three quarters of its emissions set. -/
def begun : Builder Machine.states Machine.symbols ℚ where
  transitions := ⟨#v[#v[some ⟨1 / 2, 1⟩, some ⟨0, 1⟩], .replicate _ none]⟩
  emissions := ⟨#v[#v[⟨3 / 4, 1⟩, ⟨0, 1⟩], .replicate _ ⟨0, 1⟩]⟩
  initial := none

theorem begun_reachable : begun.Reachable :=
  Builder.Reachable.empty.applyAll
    (show Builder.empty.applyAll [.allow 1 1 (1 / 2) 1, .allow 1 2 0 1, .setEmission 1 0 (3 / 4)] =
      .ok begun by decide +kernel)

/-- Of two wrong totals the first is reported; a builder in which nothing is set
has none. -/
theorem build_begun :
    begun.build = .error (.invalidProbability .build (1 / 2) (.transitionTotal 1)) ∧
      ∃ m, (empty : Builder Machine.states Machine.symbols ℚ).build = .ok m ∧
        m.initial.get Machine.working = 1 / 2 ∧
        m.transition Machine.working Machine.failed = 0 ∧
        ∀ x, m.emission Machine.failed x = 1 / 2 := by
  obtain ⟨-, -, refused_iff⟩ := build_completes begun_reachable
  obtain ⟨accepted_iff, completed, -⟩ := build_completes
    (Reachable.empty : (empty : Builder Machine.states Machine.symbols ℚ).Reachable)
  refine ⟨(refused_iff _).mpr ⟨.arcs Machine.working, by decide +kernel, by decide +kernel⟩, ?_⟩
  obtain ⟨m, built⟩ := accepted_iff.mpr fun d => .inl (by
    cases d with
    | initial => decide
    | arcs k => revert k; decide +kernel
    | emissions k => revert k; decide +kernel)
  refine ⟨m, built, ?_, ?_, fun x => ?_⟩
  · rw [(completed m built).initial]
    decide +kernel
  · rw [(completed m built).transition]
    decide +kernel
  · rw [(completed m built).emission]
    revert x
    decide +kernel

end Builder

end Trellis
