import Trellis.Proofs.DrawingInPlace
import Trellis.Proofs.RelativeFrequencies
import Trellis.Proofs.Reopening

/-!
# Random models

What random probabilities make of a builder, cell by cell in exact arithmetic
(`DrawnAs`). A draw is not negative, so the total of a distribution is zero only if
all its draws are, and then it becomes uniform (`dealt_eq_portion`). Whatever the
builder held before, every group that is not empty adds up to exactly one
(`DrawnAs.normalized`). So nothing is left for finishing to refuse or to fill:
`randomize_by_words` gives the words of each draw, and the model.
-/

namespace Trellis

variable {S E K : Type} {Q : Alphabet S} {A : Alphabet E} [Field K] [LinearOrder K]

/-- What a member of a distribution gets for its draw: its part of the total, or an equal
part if all draws are zero. -/
def dealt {ι : Type} (members : Finset ι) (draws : ι → K) (i : ι) : K :=
  if ∀ j ∈ members, draws j = 0 then share members.card
  else draws i / ∑ j ∈ members, draws j

/-- The second builder is the first with probabilities drawn from the words: the initial
distribution from the first ones, the arcs of a state from its own words on, and its
emissions from the words after those. -/
structure Builder.DrawnAs (b : Builder Q A K) (words : Stream' UInt64) (c : Builder Q A K) :
    Prop where
  initial : c.initial = some (.ofFn (dealt .univ fun k : Q.Code => draw (words.get k)))
  allows : ∀ k l, c.allows k l = b.allows k l
  transition : ∀ k l, c.transition k l =
    if b.allows k l = true then
      dealt {j | b.allows k j = true}
        (fun j => draw (words.get (b.firstWord k + (b.targets k).idxOf j))) l
    else b.transition k l
  emission : ∀ k x, c.emission k x =
    dealt .univ (fun y : A.Code => draw (words.get (b.firstWord k + (b.targets k).length + y))) x
  transitionPseudocount : ∀ k l, c.transitionPseudocount k l = b.transitionPseudocount k l
  emissionPseudocount : ∀ k x, c.emissionPseudocount k x = b.emissionPseudocount k x

/-! ### Groups that are divided -/

namespace Parameters

variable (p : Parameters Q A K)

/-- Dividing a group by its total shares one out among its members. -/
theorem transition_proportion {k l : Q.Code} (allowed : p.allows k l = true) :
    (p.mapGroups Group.proportion).transition k l =
      portion {j | p.allows k j = true} (p.transition k) l := by
  obtain ⟨e, arc⟩ := Option.isSome_iff_exists.mp allowed
  rw [transition, transitions_mapGroups, arc, Option.map_some, Option.elim_some, Group.proportion,
    portion, mass_transitionGroup, sum_transition_targets, card_targets]
  split
  · rw [transition, arc]
    rfl
  · rw [Group.equalize, length_transitionGroup]
    rfl

theorem emission_proportion (k : Q.Code) (x : A.Code) :
    (p.mapGroups Group.proportion).emission k x = portion .univ (p.emission k) x := by
  rw [emission, emissions_mapGroups, Group.proportion, portion, mass_emissionGroup]
  split
  · rfl
  · rw [Group.equalize, length_emissionGroup, Finset.card_univ, Fintype.card_fin]
    rfl

end Parameters

theorem Model.Normalized.balanced [IsStrictOrderedRing K] {m : Model Q A K}
    (normalized : m.Normalized) : m.Balanced where
  initial_total := normalized.initial ▸ nearOne_one
  transition_total k l allowed := normalized.transition k l allowed ▸ nearOne_one
  emission_total k := normalized.emission k ▸ nearOne_one

namespace Builder

variable {b : Builder Q A K} {words : Stream' UInt64}

/-! ### Groups that are drawn -/

theorem allows_drawn (k l : Q.Code) : (b.drawn words.get).allows k l = b.allows k l := by
  rw [Parameters.allows, transitions_drawn, Option.isSome_map]
  rfl

theorem transition_drawn {k l : Q.Code} (allowed : b.allows k l = true) :
    (b.drawn words.get).transition k l =
      draw (words.get (b.firstWord k + (b.targets k).idxOf l)) := by
  obtain ⟨e, arc⟩ := Option.isSome_iff_exists.mp allowed
  rw [Parameters.transition, transitions_drawn, arc]
  rfl

theorem emission_drawn (k : Q.Code) (x : A.Code) :
    (b.drawn words.get).emission k x =
      draw (words.get (b.firstWord k + (b.targets k).length + x)) := by
  rw [Parameters.emission, emissions_drawn]
  rfl

theorem transitionPseudocount_drawn (k l : Q.Code) :
    (b.drawn words.get).transitionPseudocount k l = b.transitionPseudocount k l := by
  rw [Parameters.transitionPseudocount, transitions_drawn, Option.elim_map]
  rfl

theorem emissionPseudocount_drawn (k : Q.Code) (x : A.Code) :
    (b.drawn words.get).emissionPseudocount k x = b.emissionPseudocount k x := by
  rw [Parameters.emissionPseudocount, emissions_drawn]
  rfl

theorem toParameters_randomize :
    (b.randomize words.get).toParameters = (b.drawn words.get).mapGroups Group.proportion := rfl

/-! ### What is dealt -/

variable [IsStrictOrderedRing K]

/-- No draw is negative, so there is a total unless all draws are zero. -/
theorem dealt_eq_portion {ι : Type} (members : Finset ι) (words : ι → UInt64) (i : ι) :
    dealt members (fun j => (draw (words j) : K)) i =
      portion members (fun j => draw (words j)) i := by
  have nonneg : ∀ j ∈ members, 0 ≤ (draw (words j) : K) := fun j _ => (draw_mem _).1
  have vacant := Finset.sum_eq_zero_iff_of_nonneg nonneg
  unfold dealt portion
  by_cases zero : ∀ j ∈ members, (draw (words j) : K) = 0
  · rw [if_pos zero, if_neg (vacant.mpr zero).le.not_gt]
  · rw [if_neg zero, if_pos ((Finset.sum_nonneg nonneg).lt_of_ne' (mt vacant.mp zero))]

theorem sum_dealt {ι : Type} {members : Finset ι} (occupied : members.Nonempty)
    (words : ι → UInt64) :
    ∑ i ∈ members, dealt members (fun j => (draw (words j) : K)) i = 1 := by
  simp only [dealt_eq_portion]
  exact sum_portion _ occupied

theorem get_drawInitial (k : Q.Code) :
    (drawInitial words.get : Vector K Q.size).get k =
      dealt .univ (fun h : Q.Code => draw (words.get h)) k := by
  rw [dealt_eq_portion]
  simp only [drawInitial, total_toList, Row.get_ofFn, portion]
  split
  · rw [Row.get_map, Row.get_ofFn]
  · rw [uniformInitial, Row.get_replicate, Finset.card_univ, Fintype.card_fin]

theorem drawnAs_randomize (b : Builder Q A K) (words : Stream' UInt64) :
    b.DrawnAs words (b.randomize words.get) where
  initial := congrArg some (Row.ext fun k => by rw [get_drawInitial, Row.get_ofFn])
  allows k l := by rw [toParameters_randomize, Parameters.allows_mapGroups, allows_drawn]
  transition k l := by
    rw [toParameters_randomize]
    split
    · rename_i allowed
      have arc : (b.drawn words.get).allows k l = true := (allows_drawn k l).trans allowed
      rw [Parameters.transition_proportion _ arc, dealt_eq_portion]
      simp only [allows_drawn]
      refine portion_congr (Finset.mem_filter.mpr ⟨Finset.mem_univ l, allowed⟩) fun j member => ?_
      exact transition_drawn (Finset.mem_filter.mp member).2
    · rename_i forbidden
      rw [Bool.not_eq_true] at forbidden
      rw [Parameters.transition_eq_zero forbidden]
      refine Parameters.transition_eq_zero ?_
      rw [Parameters.allows_mapGroups, allows_drawn, forbidden]
  emission k x := by
    rw [toParameters_randomize, Parameters.emission_proportion, dealt_eq_portion]
    exact portion_congr (Finset.mem_univ x) fun y _ => emission_drawn k y
  transitionPseudocount k l := by
    rw [toParameters_randomize,
      Parameters.transitionPseudocount_mapGroups Group.pseudocount_proportion,
      transitionPseudocount_drawn]
  emissionPseudocount k x := by
    rw [toParameters_randomize,
      Parameters.emissionPseudocount_mapGroups Group.pseudocount_proportion,
      emissionPseudocount_drawn]

/-! ### Finishing -/

/-- Every group of a model that is drawn adds up to exactly one. -/
theorem DrawnAs.normalized {m : Model Q A K} (drawn : b.DrawnAs words (.ofModel m)) :
    m.Normalized where
  initial := by
    have initial : m.initial = .ofFn (dealt .univ fun k : Q.Code => draw (words.get k)) :=
      Option.some.inj drawn.initial
    simp only [initial, Row.get_ofFn]
    exact sum_dealt ⟨⟨0, Q.size_pos⟩, Finset.mem_univ _⟩ _
  transition k l allowed := by
    have allows : ∀ j, m.allows k j = b.allows k j := drawn.allows k
    rw [allows] at allowed
    calc ∑ j, m.transition k j
        = ∑ j with b.allows k j = true, m.transition k j := by
          simp only [← m.sum_transition_targets k, allows]
      _ = ∑ j with b.allows k j = true, dealt {j | b.allows k j = true}
            (fun j => draw (words.get (b.firstWord k + (b.targets k).idxOf j))) j :=
          Finset.sum_congr rfl fun j member =>
            (drawn.transition k j).trans (if_pos (Finset.mem_filter.mp member).2)
      _ = 1 := sum_dealt ⟨l, Finset.mem_filter.mpr ⟨Finset.mem_univ l, allowed⟩⟩ _
  emission k := by
    have emission : m.emission k = dealt .univ fun y : A.Code =>
        draw (words.get (b.firstWord k + (b.targets k).length + y)) := funext (drawn.emission k)
    rw [emission]
    exact sum_dealt ⟨⟨0, A.size_pos⟩, Finset.mem_univ _⟩ _

/-- **Random models.** Whatever a builder holds and whatever the words are, it becomes a
model with random probabilities: each distribution is drawn from its own words and divided
by its total, every group that is not empty adds up to exactly one, and finishing returns
the model as it is. Tables that are edited in place take exactly the words that are
counted, and neither arcs nor pseudocounts nor the cells of forbidden arcs are written. -/
theorem randomize_by_words (b : Builder Q A K) (words : Stream' UInt64) :
    ∃ m : Model Q A K,
      b.randomizeCounting words.get = (.ofModel m, b.wordCount) ∧
      b.DrawnAs words (.ofModel m) ∧
      m.Normalized ∧
      (Builder.ofModel m).build = .ok m ∧
      ∀ t : Tables Q A K, t.builder = b →
        ∃ s, Drawing.randomize.run (t, words) = ((), s, words.drop b.wordCount) ∧
          s.builder = .ofModel m ∧ Unwritten t s := by
  have drawn : b.DrawnAs words (.ofModel (.ofParameters
    ((b.drawn words.get).mapGroups Group.proportion) (drawInitial words.get))) :=
      b.drawnAs_randomize words
  have normalized := drawn.normalized
  refine ⟨_, Prod.ext rfl b.snd_randomizeCounting, drawn, normalized,
    normalized.balanced.build_ofModel, ?_⟩
  rintro t rfl
  exact Drawing.run_randomize t words

/-- The first two words are zero, every later one stands for its position. -/
def risingWords : Stream' UInt64 := fun i => if i < 2 then 0 else i.toUInt64 <<< 11

/-- The machine takes eight words: two for its states, two for the arcs of the first state
and two for the emissions of each. Its start becomes uniform, since both draws are zero.
Without arcs six words are taken. -/
theorem randomize_machine :
    (Machine.builder.randomizeCounting risingWords.get).2 = 8 ∧
      (∃ m, (Machine.builder.randomize risingWords.get).build = .ok m ∧
        m.initial.get Machine.working = 1 / 2 ∧
        m.transition Machine.working Machine.failed = 3 / 5 ∧
        m.transition Machine.failed Machine.working = 0 ∧
        m.emission Machine.failed ⟨0, by decide⟩ = 6 / 13) ∧
      ∃ s, Drawing.randomize.run ((.empty : Tables Machine.states Machine.symbols ℚ), risingWords) =
        ((), s, risingWords.drop 6) := by
  obtain ⟨m, counted, drawn, -, built, -⟩ := randomize_by_words Machine.builder risingWords
  have model : Machine.builder.randomize risingWords.get = .ofModel m := congrArg Prod.fst counted
  have eight : Machine.builder.wordCount = 8 := by decide +kernel
  refine ⟨(congrArg Prod.snd counted).trans eight, ⟨m, model ▸ built, ?_, ?_, ?_, ?_⟩, ?_⟩
  · have initial : m.initial = _ := Option.some.inj drawn.initial
    rw [initial]
    decide +kernel
  · exact (drawn.transition _ _).trans (by decide +kernel)
  · exact (drawn.transition _ _).trans (by decide +kernel)
  · exact (drawn.emission _ _).trans (by decide +kernel)
  · obtain ⟨_, -, -, -, -, inPlace⟩ :=
      randomize_by_words (empty : Builder Machine.states Machine.symbols ℚ) risingWords
    obtain ⟨s, run, -⟩ := inPlace .empty Tables.builder_empty
    have six : (empty : Builder Machine.states Machine.symbols ℚ).wordCount = 6 := by
      decide +kernel
    exact ⟨s, six ▸ run⟩

end Builder

end Trellis
