import Mathlib.Algebra.BigOperators.Fin
import Mathlib.Data.List.FinRange
import Trellis.Builder.Randomize

/-!
# Words in order

From which words of a stream the random probabilities of a builder are drawn
(`transitions_drawn`, `emissions_drawn`). The initial distribution has the first
words, one for each state. Then the states follow in code order, each with one word
for each of its targets and one for each symbol, so where the words of a state begin
depends on the arcs of all states before it (`firstWord`). Drawing does not change
which arcs there are (`targets_drawState`), which carries the count from one state to
the next (`snd_drawStates`). Nothing is assumed of the numbers.
-/

namespace Trellis

variable {S E α : Type} {Q : Alphabet S} {A : Alphabet E}

/-- The codes around a code; those before it are the lesser ones. -/
theorem Alphabet.exists_codes_eq_append (Q : Alphabet S) (k : Q.Code) :
    ∃ before after, Q.codes = before ++ k :: after ∧ k ∉ before ∧ k ∉ after ∧
      ∀ f : Q.Code → Nat, (before.map f).sum = ∑ h with h < k, f h := by
  obtain ⟨before, after, codes⟩ := List.append_of_mem (List.mem_finRange k)
  have sorted := List.pairwise_lt_finRange Q.size
  have nodup := List.nodup_finRange Q.size
  rw [codes] at sorted nodup
  obtain ⟨-, later, lesser⟩ := List.pairwise_append.mp sorted
  obtain ⟨unique, nodup_rest, apart⟩ := List.nodup_append.mp nodup
  refine ⟨before, after, codes, fun mem => apart k mem k List.mem_cons_self rfl,
    (List.nodup_cons.mp nodup_rest).1, fun f => ?_⟩
  rw [← List.sum_toFinset f unique]
  refine Finset.sum_congr (Finset.ext fun h => ?_) fun _ _ => rfl
  have mem : h ∈ before ++ k :: after := codes ▸ List.mem_finRange h
  simp only [List.mem_toFinset, Finset.mem_filter, Finset.mem_univ, true_and]
  constructor
  · intro first
    exact lesser h first k List.mem_cons_self
  · intro less
    rcases List.mem_append.mp mem with first | rest
    · exact first
    · rcases List.mem_cons.mp rest with rfl | last
      · exact absurd less (lt_irrefl _)
      · exact absurd less (lt_asymm ((List.pairwise_cons.mp later).1 h last))

namespace Parameters

/-- How many words are drawn for a state: one for each target and each symbol. -/
def demand (p : Parameters Q A α) (k : Q.Code) : Nat := (p.targets k).length + A.size

/-- The parameters have the same entries for a state. -/
structure AgreeAt (p r : Parameters Q A α) (k : Q.Code) : Prop where
  arcs : p.transitions.row k = r.transitions.row k
  emissions : p.emissions.row k = r.emissions.row k

namespace AgreeAt

variable {p q r : Parameters Q A α} {k : Q.Code}

theorem trans (first : p.AgreeAt q k) (second : q.AgreeAt r k) : p.AgreeAt r k :=
  ⟨first.arcs.trans second.arcs, first.emissions.trans second.emissions⟩

theorem symm (agree : p.AgreeAt r k) : r.AgreeAt p k := ⟨agree.arcs.symm, agree.emissions.symm⟩

theorem transitions_eq (agree : p.AgreeAt r k) (l : Q.Code) :
    p.transitions.get k l = r.transitions.get k l := by
  rw [← Table.get_row, agree.arcs, Table.get_row]

theorem emissions_eq (agree : p.AgreeAt r k) (x : A.Code) :
    p.emissions.get k x = r.emissions.get k x := by
  rw [← Table.get_row, agree.emissions, Table.get_row]

theorem of_get (transitions : ∀ l, p.transitions.get k l = r.transitions.get k l)
    (emissions : ∀ x, p.emissions.get k x = r.emissions.get k x) : p.AgreeAt r k :=
  ⟨Row.ext transitions, Row.ext emissions⟩

theorem targets_eq (agree : p.AgreeAt r k) : p.targets k = r.targets k := by
  refine List.filter_congr fun l _ => ?_
  rw [allows, agree.transitions_eq]
  rfl

/-- What a state has after a change to whole groups, depends on its entries only. -/
theorem mapGroups (agree : p.AgreeAt r k) (f : Group α → Entry α → Entry α) :
    (p.mapGroups f).AgreeAt (r.mapGroups f) k where
  arcs := by simp only [Parameters.mapGroups, Table.row_mapRows, agree.arcs]
  emissions := by simp only [Parameters.mapGroups, Table.row_mapRows, agree.emissions]

end AgreeAt

end Parameters

namespace Builder

/-- Where the words of a state begin. -/
def firstWord (b : Builder Q A α) (k : Q.Code) : Nat := Q.size + ∑ h with h < k, b.demand h

/-- How many words are drawn for a builder. -/
def wordCount (b : Builder Q A α) : Nat := Q.size + ∑ h, b.demand h

/-! ### One state -/

section Drawing

variable [Arithmetic α] (words : Nat → UInt64)

theorem targets_drawState (position : Nat) (p : Parameters Q A α) (h k : Q.Code) :
    (drawState words position p h).targets k = p.targets k := by
  refine List.filter_congr fun l _ => ?_
  simp only [Parameters.allows, drawState, Table.get_setRow]
  split
  · rename_i same
    subst same
    rw [Row.get_ofFn, Option.isSome_map]
  · rfl

variable {words}

/-- Drawing for a state leaves the others alone. -/
theorem agreeAt_drawState {h k : Q.Code} (ne : h ≠ k) (position : Nat) (p : Parameters Q A α) :
    (drawState words position p h).AgreeAt p k where
  arcs := by rw [drawState, Table.row_setRow, if_neg ne]
  emissions := by rw [drawState, Table.row_setRow, if_neg ne]

theorem transitions_drawState (position : Nat) (p : Parameters Q A α) (k l : Q.Code) :
    (drawState words position p k).transitions.get k l =
      (p.transitions.get k l).map
        (·.withProbability (draw (words (position + (p.targets k).idxOf l)))) := by
  rw [drawState, Table.get_setRow, if_pos rfl, Row.get_ofFn]

theorem emissions_drawState (position : Nat) (p : Parameters Q A α) (k : Q.Code) (x : A.Code) :
    (drawState words position p k).emissions.get k x =
      (p.emissions.get k x).withProbability
        (draw (words (position + (p.targets k).length + x))) := by
  rw [drawState, Table.get_setRow, if_pos rfl, Row.get_ofFn]

/-! ### Some states -/

theorem drawStates_append (position : Nat) (p : Parameters Q A α) (first second : List Q.Code) :
    drawStates words position p (first ++ second) =
      drawStates words (drawStates words position p first).2
        (drawStates words position p first).1 second := by
  induction first generalizing position p with
  | nil => rfl
  | cons k rest ih => exact ih _ _

theorem targets_drawStates (position : Nat) (p : Parameters Q A α) (states : List Q.Code)
    (k : Q.Code) : (drawStates words position p states).1.targets k = p.targets k := by
  induction states generalizing position p with
  | nil => rfl
  | cons h rest ih => rw [drawStates, ih, targets_drawState]

theorem snd_drawStates (position : Nat) (p : Parameters Q A α) (states : List Q.Code) :
    (drawStates words position p states).2 = position + (states.map p.demand).sum := by
  induction states generalizing position p with
  | nil => rfl
  | cons h rest ih =>
    have kept : (drawState words position p h).demand = p.demand := by
      funext k
      rw [Parameters.demand, Parameters.demand, targets_drawState]
    rw [drawStates, ih, kept, List.map_cons, List.sum_cons, Parameters.demand]
    omega

theorem agreeAt_drawStates {states : List Q.Code} {k : Q.Code} (absent : k ∉ states)
    (position : Nat) (p : Parameters Q A α) :
    (drawStates words position p states).1.AgreeAt p k := by
  induction states generalizing position p with
  | nil => exact ⟨rfl, rfl⟩
  | cons h rest ih =>
    obtain ⟨ne, absent⟩ := List.ne_and_not_mem_of_not_mem_cons absent
    exact (ih absent _ _).trans (agreeAt_drawState ne.symm position p)

/-! ### All states -/

/-- The parameters with every probability drawn, before groups are divided by their totals. -/
def drawn (b : Builder Q A α) (words : Nat → UInt64) : Parameters Q A α :=
  (drawStates words Q.size b.toParameters Q.codes).1

variable (b : Builder Q A α)

theorem snd_randomizeCounting : (b.randomizeCounting words).2 = b.wordCount := by
  have used : (b.randomizeCounting words).2 =
      Q.size + (Q.codes.map b.demand).sum := snd_drawStates _ _ _
  rw [used, wordCount, Alphabet.codes, ← List.ofFn_eq_map, List.sum_ofFn]

/-- The arcs of a state have the words from its first one on, in code order. -/
theorem transitions_drawn (k l : Q.Code) :
    (b.drawn words).transitions.get k l =
      (b.transitions.get k l).map
        (·.withProbability (draw (words (b.firstWord k + (b.targets k).idxOf l)))) := by
  -- The states before it take the words before its own, the states after it leave it alone.
  obtain ⟨before, after, codes, unseen, done, sum⟩ := Q.exists_codes_eq_append k
  rw [drawn, codes, drawStates_append, drawStates, (agreeAt_drawStates done _ _).transitions_eq,
    transitions_drawState, (agreeAt_drawStates unseen _ _).transitions_eq, targets_drawStates,
    snd_drawStates, sum, firstWord]

/-- The emissions of a state have the words after those of its arcs. -/
theorem emissions_drawn (k : Q.Code) (x : A.Code) :
    (b.drawn words).emissions.get k x =
      (b.emissions.get k x).withProbability
        (draw (words (b.firstWord k + (b.targets k).length + x))) := by
  obtain ⟨before, after, codes, unseen, done, sum⟩ := Q.exists_codes_eq_append k
  rw [drawn, codes, drawStates_append, drawStates, (agreeAt_drawStates done _ _).emissions_eq,
    emissions_drawState, (agreeAt_drawStates unseen _ _).emissions_eq, targets_drawStates,
    snd_drawStates, sum, firstWord]

end Drawing

end Builder

end Trellis
