import Trellis.Proofs.Accumulation
import Trellis.Proofs.Encoding
import Trellis.Proofs.MaximumLikelihood

/-!
# Conservation of counts

A path enters a state as often as it visits it, by starting there or by a step,
and leaves it as often as it visits it, except where it ends. So do the counts
of a path (`conserves_cellCount`). These laws are linear, so averages of counts
obey them as well (`conserves_average`), and sums of counts (`Conserves.add`): all
that is counted under a model (`Tallied`) conserves the flow through each state,
whether the paths were known or not (`tallied_conserves`).
-/

namespace Trellis

variable {S E K σ : Type} {Q : Alphabet S} {A : Alphabet E}

/-! ### Counts in lists -/

section Count

variable {ι κ : Type} [DecidableEq ι] [DecidableEq κ]

theorem sum_count_fst [Fintype κ] (ps : List (ι × κ)) (i : ι) :
    ∑ j, ps.count (i, j) = (ps.map Prod.fst).count i := by
  induction ps with
  | nil => simp
  | cons p rest ih =>
    have first : ∑ j, (if p == (i, j) then 1 else 0) = if p.1 == i then 1 else 0 := by
      by_cases here : p.1 = i
      · subst here
        simp [Prod.ext_iff]
      · simp [Prod.ext_iff, here]
    simp only [List.count_cons, List.map_cons, Finset.sum_add_distrib, ih, first]

theorem sum_count_snd [Fintype ι] (ps : List (ι × κ)) (j : κ) :
    ∑ i, ps.count (i, j) = (ps.map Prod.snd).count j := by
  have swapped : ∀ i, ps.count (i, j) = (ps.map Prod.swap).count (j, i) := fun i =>
    (List.count_map_of_injective ps Prod.swap Prod.swap_injective (i, j)).symm
  simp only [swapped, sum_count_fst, List.map_map]
  rfl

theorem sum_count [Fintype ι] (xs : List ι) : ∑ i, xs.count i = xs.length := by
  have counted := Multiset.sum_count_eq_card (m := (xs : Multiset ι)) fun i _ => Finset.mem_univ i
  simpa only [Multiset.coe_count, Multiset.coe_card] using counted

omit [DecidableEq ι] in
/-- The steps of a path leave all of its positions except the last. -/
theorem map_fst_zip_tail (xs : List ι) : (xs.zip xs.tail).map Prod.fst = xs.dropLast := by
  induction xs with
  | nil => rfl
  | cons i rest ih =>
    cases rest with
    | nil => rfl
    | cons j later =>
      rw [List.tail_cons, List.zip_cons_cons, List.map_cons, List.dropLast_cons_cons, ← ih,
        List.tail_cons]

end Count

/-! ### Cells of zeros and sums -/

namespace Counts

theorem cell_zeros [Zero K] [Zero σ] (cell : Cell Q A) :
    (zeros _ : Counts _ K σ).cell cell = 0 := by
  match cell with
  | .inl k => exact Row.get_replicate 0 k
  | .inr (.inl (k, l)) => exact Table.get_ofFn _ k l
  | .inr (.inr (k, x)) => exact Table.get_ofFn _ k x

theorem cell_of_accumulate [Add K] [Add σ] {c d r : Counts (.ofModel Q.size A.size) K σ}
    (added : c.accumulate d = (.ok r : Except (Error S E K) _)) (cell : Cell Q A) :
    r.cell cell = c.cell cell + d.cell cell := by
  obtain ⟨sum, ends, initial, transitions, emissions, -⟩ :=
    c.accumulate_of_same_shape (S := S) (E := E) d
  cases added.symm.trans ends.2
  match cell with
  | .inl k => exact initial k
  | .inr (.inl (k, l)) => exact transitions k l
  | .inr (.inr (k, x)) => exact emissions k x

end Counts

/-! ### Flow -/

/-- How many of the sequences have a symbol at all. -/
def nonemptyCount (sequences : List (List E)) : Nat :=
  sequences.countP fun symbols => !symbols.isEmpty

theorem nonemptyCount_append (sequences later : List (List E)) :
    nonemptyCount (sequences ++ later) = nonemptyCount sequences + nonemptyCount later :=
  List.countP_append

theorem nonemptyCount_singleton (symbols : List E) :
    nonemptyCount [symbols] = if symbols = [] then 0 else 1 := by
  cases symbols with
  | nil => rfl
  | cons x rest => rfl

section Flow

variable [AddCommMonoid K] (n : Cell Q A → K) (k : Q.Code)

/-- How often a state is entered: by a start or by a step from some state. -/
def arrivals : K := n (.inl k) + ∑ l, n (.inr (.inl (l, k)))

/-- How often a state is left by a step. -/
def departures : K := ∑ l, n (.inr (.inl (k, l)))

/-- How often a state is visited: each visit shows one symbol. -/
def stays : K := ∑ x, n (.inr (.inr (k, x)))

end Flow

section Path

variable {states : List Q.Code} {xs : List A.Code}

theorem arrivals_cellCount (states : List Q.Code) (xs : List A.Code) (k : Q.Code) :
    arrivals (cellCount states xs) k = states.count k := by
  have later : states.tail.length ≤ states.length := by simp
  simp only [arrivals, cellCount, sum_count_snd, List.map_snd_zip later]
  rw [← List.drop_one, ← List.count_append, List.take_append_drop]

theorem departures_cellCount (states : List Q.Code) (xs : List A.Code) (k : Q.Code) :
    departures (cellCount states xs) k = states.dropLast.count k := by
  simp only [departures, cellCount, sum_count_fst, map_fst_zip_tail]

theorem stays_cellCount (aligned : states.length = xs.length) (k : Q.Code) :
    stays (cellCount states xs) k = states.count k := by
  simp only [stays, cellCount, sum_count_fst, List.map_fst_zip aligned.le]

theorem sum_starts_cellCount (aligned : states.length = xs.length) :
    ∑ k, cellCount states xs (.inl k) = if xs = [] then 0 else 1 := by
  simp only [cellCount, sum_count, List.length_take, aligned]
  cases xs with
  | nil => rfl
  | cons x rest => simp

theorem sum_shown_cellCount (aligned : states.length = xs.length) (x : A.Code) :
    ∑ k, cellCount states xs (.inr (.inr (k, x))) = xs.count x := by
  simp only [cellCount, sum_count_snd, List.map_snd_zip aligned.ge]

end Path

namespace Model

/-- Cells that count these sequences under a model, each along one path or in
parts along several. A state is entered as often as it is visited, and left as
often but for the ends of the paths. -/
structure Conserves [DecidableEq E] [Field K] [LinearOrder K] (m : Model Q A K)
    (sequences : List (List E)) (n : Cell Q A → K) : Prop where
  nonneg : ∀ cell, 0 ≤ n cell
  forbidden : ∀ k l, m.allows k l = false → n (.inr (.inl (k, l))) = 0
  entered : ∀ k, arrivals n k = stays n k
  left : ∀ k, departures n k ≤ stays n k
  started : ∑ k, n (.inl k) = (nonemptyCount sequences : K)
  shown : ∀ x, ∑ k, n (.inr (.inr (k, x))) = (sequences.flatten.count (A.symbol x) : K)
  visited : ∑ k, stays n k = (sequences.flatten.length : K)

/-- The counts that can be made under a model, with the sequences that went into
them: those of nothing, of a labelled sequence, what is expected of a sequence,
and sums of such counts. -/
inductive Tallied [DecidableEq S] [DecidableEq E] [Field K] [LinearOrder K] [Score σ]
    [Logarithm K σ] (m : Model Q A K) :
    List (List E) → Counts (.ofModel Q.size A.size) K σ → Prop where
  | zeros : Tallied m [] (.zeros _)
  | labelled {sequence : Sequence S E} {c : Counts (.ofModel Q.size A.size) K σ} :
      m.labelledCounts sequence = (.ok c : Except (Error S E K) _) →
      Tallied m [sequence.emissions] c
  | expected {symbols : List E} {xs : List A.Code} {c : Counts (.ofModel Q.size A.size) K σ} :
      m.observe symbols = (.ok xs : Except (Error S E K) _) →
      m.expectedCounts xs = (.ok c : Except (Error S E K) _) → Tallied m [symbols] c
  | accumulate {sequences later : List (List E)}
      {c d r : Counts (.ofModel Q.size A.size) K σ} :
      Tallied m sequences c → Tallied m later d →
      c.accumulate d = (.ok r : Except (Error S E K) _) → Tallied m (sequences ++ later) r

variable [DecidableEq E] [Field K] [LinearOrder K] {m : Model Q A K}
  {sequences later : List (List E)}

/-! ### Totals -/

namespace Conserves

variable {n : Cell Q A → K}

/-- The visits that no step leaves add up to the starts: each path ends once. -/
theorem sum_stays_sub_departures (conserves : m.Conserves sequences n) :
    ∑ k, (stays n k - departures n k) = ∑ k, n (.inl k) := by
  -- Over all states the steps that leave are the steps that arrive.
  have steps : ∑ k, departures n k = ∑ k, ∑ l, n (.inr (.inl (l, k))) := Finset.sum_comm
  rw [Finset.sum_sub_distrib, steps, sub_eq_iff_eq_add, ← Finset.sum_add_distrib]
  exact Finset.sum_congr rfl fun k _ => (conserves.entered k).symm

/-- There is a step between any two symbols that follow each other. -/
theorem sum_departures (conserves : m.Conserves sequences n) :
    ∑ k, departures n k =
      (sequences.flatten.length : K) - (nonemptyCount sequences : K) := by
  have ends := conserves.sum_stays_sub_departures
  rw [Finset.sum_sub_distrib, conserves.visited, conserves.started] at ends
  rw [← ends, sub_sub_cancel]

end Conserves

/-! ### Linearity -/

variable [IsStrictOrderedRing K]

theorem conserves_zero (m : Model Q A K) : m.Conserves ([] : List (List E)) fun _ => 0 where
  nonneg _ := le_rfl
  forbidden _ _ _ := rfl
  entered k := by simp [arrivals, stays]
  left k := by simp [departures, stays]
  started := by simp [nonemptyCount]
  shown x := by simp
  visited := by simp [stays]

/-- What is counted in two families of sequences, taken together. -/
theorem Conserves.add {n n' : Cell Q A → K} (first : m.Conserves sequences n)
    (second : m.Conserves later n') :
    m.Conserves (sequences ++ later) fun cell => n cell + n' cell where
  nonneg cell := add_nonneg (first.nonneg cell) (second.nonneg cell)
  forbidden k l refused := by
    rw [first.forbidden k l refused, second.forbidden k l refused, add_zero]
  entered k := by
    have entered := congrArg₂ (· + ·) (first.entered k) (second.entered k)
    simp only [arrivals, stays, Finset.sum_add_distrib] at entered ⊢
    rw [← entered, add_add_add_comm]
  left k := by
    have left := add_le_add (first.left k) (second.left k)
    simpa only [departures, stays, Finset.sum_add_distrib] using left
  started := by
    rw [Finset.sum_add_distrib, first.started, second.started, nonemptyCount_append, Nat.cast_add]
  shown x := by
    rw [Finset.sum_add_distrib, first.shown, second.shown, List.flatten_append, List.count_append,
      Nat.cast_add]
  visited := by
    have visited := congrArg₂ (· + ·) first.visited second.visited
    simp only [stays, Finset.sum_add_distrib] at visited ⊢
    rw [visited, List.flatten_append, List.length_append, Nat.cast_add]

/-- What each possible path of a sequence conserves, the average conserves. -/
theorem conserves_average (sound : m.WellFormed) {xs : List A.Code}
    (positive : 0 < m.probability xs) {n : List Q.Code → Cell Q A → K}
    (each : ∀ states ∈ m.possiblePaths xs, m.Conserves sequences (n states)) :
    m.Conserves sequences fun cell => m.posteriorAverage xs fun states => n states cell := by
  -- A sum of averages is an average of sums, so both sides are compared path by path.
  constructor
  case nonneg =>
    intro cell
    have above := posteriorAverage_mono positive fun states possible =>
      (each states possible).nonneg cell
    rwa [sound.posteriorAverage_of_const positive fun _ _ => rfl] at above
  case forbidden =>
    intro k l refused
    exact sound.posteriorAverage_of_const positive fun states possible =>
      (each states possible).forbidden k l refused
  case entered =>
    intro k
    simp only [arrivals, stays, ← posteriorAverage_sum, ← posteriorAverage_add]
    exact posteriorAverage_congr fun states possible => (each states possible).entered k
  case left =>
    intro k
    simp only [departures, stays, ← posteriorAverage_sum]
    exact posteriorAverage_mono positive fun states possible => (each states possible).left k
  case started =>
    rw [← posteriorAverage_sum]
    exact sound.posteriorAverage_of_const positive fun states possible =>
      (each states possible).started
  case shown =>
    intro x
    rw [← posteriorAverage_sum]
    exact sound.posteriorAverage_of_const positive fun states possible =>
      (each states possible).shown x
  case visited =>
    simp only [stays, ← posteriorAverage_sum]
    exact sound.posteriorAverage_of_const positive fun states possible =>
      (each states possible).visited

/-! ### Counting -/

/-- A path over allowed arcs conserves its counts. -/
theorem conserves_cellCount {states : List Q.Code} {xs : List A.Code} {symbols : List E}
    (known : A.encode symbols = .ok xs) (aligned : states.length = xs.length)
    (follows : m.forbiddenStep? states = none) :
    m.Conserves [symbols] fun cell => (cellCount states xs cell : K) := by
  have named : xs.map A.symbol = symbols := Alphabet.encode_eq_ok_iff.mp known
  have stay := stays_cellCount (Q := Q) (A := A) aligned
  constructor
  case nonneg =>
    intro cell
    exact Nat.cast_nonneg _
  case forbidden =>
    intro k l refused
    rw [cellCount_of_forbidden (forbiddenStep?_eq_none_iff.mp follows) xs refused, Nat.cast_zero]
  case entered =>
    intro k
    have entered := arrivals_cellCount states xs k
    rw [← stay] at entered
    simp only [arrivals, stays] at entered ⊢
    exact_mod_cast entered
  case left =>
    intro k
    have left : departures (cellCount states xs) k ≤ stays (cellCount states xs) k := by
      rw [departures_cellCount, stay]
      exact states.dropLast_sublist.count_le k
    simp only [departures, stays] at left ⊢
    exact_mod_cast left
  case started =>
    rw [← Nat.cast_sum, sum_starts_cellCount aligned, nonemptyCount_singleton, ← named]
    simp only [List.map_eq_nil_iff]
  case shown =>
    intro x
    have renamed := List.count_map_of_injective xs A.symbol (fun _ _ => A.symbol_inj.mp) x
    rw [← Nat.cast_sum, sum_shown_cellCount aligned, List.flatten_singleton, ← named, renamed]
  case visited =>
    have visited : ∑ k, stays (cellCount states xs) k = xs.length := by
      simp only [stay, sum_count, aligned]
    rw [List.flatten_singleton, ← named, List.length_map, ← visited]
    simp only [stays, Nat.cast_sum]

section Tallied

variable [DecidableEq S] [Score σ] [Logarithm K σ] {c : Counts (.ofModel Q.size A.size) K σ}

theorem conserves_labelledCounts {sequence : Sequence S E}
    (counted : m.labelledCounts sequence = (.ok c : Except (Error S E K) _)) :
    m.Conserves [sequence.emissions] c.cell := by
  obtain ⟨states, xs, known, aligned, follows, rfl⟩ := path_of_labelledCounts counted
  rw [funext (m.cell_pathCounts aligned)]
  exact conserves_cellCount known aligned follows

omit [DecidableEq S] in
theorem WellFormed.conserves_expectedCounts (sound : m.WellFormed) {symbols : List E}
    {xs : List A.Code} (known : A.encode symbols = .ok xs)
    (computed : m.expectedCounts xs = (.ok c : Except (Error S E K) _)) :
    m.Conserves [symbols] c.cell := by
  obtain ⟨positive, expects⟩ := sound.expects_of_expectedCounts computed
  rw [funext (expects.cell_eq_average sound positive)]
  refine conserves_average sound positive fun states possible => ?_
  obtain ⟨path, joint⟩ := Finset.mem_filter.mp possible
  have aligned := Alphabet.mem_paths.mp path
  exact conserves_cellCount known aligned (forbiddenStep?_of_jointProbability aligned joint.ne')

/-- Whatever is counted under a model conserves the flow through each state. -/
theorem WellFormed.conserves_of_tallied (sound : m.WellFormed) (tallied : m.Tallied sequences c) :
    m.Conserves sequences c.cell := by
  induction tallied with
  | zeros =>
    rw [funext Counts.cell_zeros]
    exact m.conserves_zero
  | labelled counted => exact conserves_labelledCounts counted
  | expected known computed =>
    exact sound.conserves_expectedCounts (mapError_eq_ok.mp known) computed
  | accumulate _ _ added first second =>
    rw [funext (Counts.cell_of_accumulate added)]
    exact first.add second

/-- **What is counted flows through the states.** The tables are any that were
counted under a reachable model: from zeros, labelled sequences, expected counts
and sums. No cell is negative and no forbidden arc is counted. Each state is
visited as often as a sequence starts or a step ends in it, and no more steps
leave it; what is missing is, over all states, the number of sequences that are
not empty, which is the number of starts. One sequence of a positive length has
one start, a step less than symbols, and each symbol as often as it occurs. -/
theorem tallied_conserves (reach : m.Reachable) (tallied : m.Tallied sequences c) :
    (∀ cell : Cell Q A, 0 ≤ c.cell cell) ∧
    (∀ k l, m.allows k l = false → c.transitions.get k l = 0) ∧
    (∀ k, c.initial.get k + ∑ l, c.transitions.get l k = ∑ x, c.emissions.get k x) ∧
    (∀ k, ∑ l, c.transitions.get k l ≤ ∑ x, c.emissions.get k x) ∧
    ∑ k, (∑ x, c.emissions.get k x - ∑ l, c.transitions.get k l) = ∑ k, c.initial.get k ∧
    ∑ k, c.initial.get k = (nonemptyCount sequences : K) ∧
    ∀ symbols : List E, sequences = [symbols] → symbols ≠ [] →
      ∑ k, c.initial.get k = 1 ∧
      ∑ k, ∑ l, c.transitions.get k l = symbols.length - 1 ∧
      ∑ k, ∑ x, c.emissions.get k x = symbols.length ∧
      ∀ x, ∑ k, c.emissions.get k x = (symbols.count (A.symbol x) : K) := by
  have conserves := reach.wellFormed.conserves_of_tallied tallied
  refine ⟨conserves.nonneg, conserves.forbidden, conserves.entered, conserves.left,
    conserves.sum_stays_sub_departures, conserves.started, ?_⟩
  rintro symbols rfl observed
  have one : nonemptyCount [symbols] = 1 := by
    rw [nonemptyCount_singleton, if_neg observed]
  have started := conserves.started
  have steps := conserves.sum_departures
  have visited := conserves.visited
  have shown := conserves.shown
  simp only [one, List.flatten_singleton, Nat.cast_one] at started steps visited shown
  exact ⟨started, steps, visited, shown⟩

/-- A known path of the machine and what is expected of its symbols, pooled. -/
theorem tallied_machine :
    ∃ known expected pooled : Counts (.ofModel 2 2) ℚ EReal,
      Machine.model.labelledCounts failing = (.ok known : Except (Error Nat Nat ℚ) _) ∧
      Machine.model.expectedCounts Machine.shown = (.ok expected : Except (Error Nat Nat ℚ) _) ∧
      known.accumulate expected = (.ok pooled : Except (Error Nat Nat ℚ) _) ∧
      (∀ k, pooled.initial.get k + ∑ l, pooled.transitions.get l k =
        ∑ x, pooled.emissions.get k x) ∧
      ∑ k, pooled.initial.get k = 2 ∧ ∑ k, ∑ l, expected.transitions.get k l = 2 := by
  have sound := Machine.model_reachable.wellFormed
  have shown : Machine.symbols.encode [0, 0, 1] = .ok Machine.shown := by decide
  have path : Machine.states.encode failing.states =
      .ok [Machine.working, Machine.working, Machine.failed] := by decide
  have labelled : failing.isLabelled = true := rfl
  have counted := labelledCounts_of_codes (m := Machine.model) (σ := EReal) labelled path shown
    (by decide +kernel)
  have positive : 0 < Machine.model.probability Machine.shown := by decide +kernel
  obtain ⟨-, -, expected, computed, -⟩ :=
    sound.expectedCounts_eq_ok (S := Nat) (E := Nat) (σ := EReal) positive
  have observed : Machine.model.observe [0, 0, 1] =
      (.ok Machine.shown : Except (Error Nat Nat ℚ) _) := by decide
  have first := Tallied.labelled counted
  have second := Tallied.expected observed computed
  obtain ⟨pooled, ends, -⟩ := Counts.accumulate_of_same_shape (S := Nat) (E := Nat)
    (Machine.model.pathCounts _ : Counts _ ℚ EReal) expected
  obtain ⟨-, -, entered, -, -, started, -⟩ :=
    tallied_conserves Machine.model_reachable (first.accumulate second ends.2)
  obtain ⟨-, -, -, -, -, -, single⟩ := tallied_conserves Machine.model_reachable second
  obtain ⟨-, steps, -⟩ := single [0, 0, 1] rfl (by decide)
  refine ⟨_, expected, pooled, counted, computed, ends.2, entered, started.trans ?_,
    steps.trans ?_⟩
  · norm_num [failing, nonemptyCount]
  · norm_num

end Tallied

end Model

end Trellis
