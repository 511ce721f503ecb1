import Mathlib.Data.Finmap
import Mathlib.Data.List.ProdSigma
import Trellis.CountMap
import Trellis.Proofs.Exact

/-!
# Frequencies of count maps

Counts are divided by the totals of their groups in two passes over a map: the
first adds up a total for each group, the second divides
(`frequenciesInOrder?_eq`). A map may be passed over in any order, and the keys of
a group need not follow each other; in exact arithmetic neither can be seen in the
result. For the cells of a table it is that of the table, whose rows are divided
one by one (`get?_frequencies_ofTable`). `frequencies_agree` states what the result
is and what it does not depend on.
-/

namespace Trellis

variable {F T : Type} [DecidableEq F] [DecidableEq T]

/-! ### Two passes in any order -/

namespace CountMap

section Passes

variable {α : Type} [Arithmetic α]

/-- Adds a count to the total of its group. -/
def addToGroup (totals : Finmap fun _ : F => α) (entry : (F × T) × α) : Finmap fun _ : F => α :=
  totals.insert entry.1.1 ((totals.lookup entry.1.1).getD 0 + entry.2)

/-- The totals of the groups, from counts in some order. -/
def groupTotals (order : List ((F × T) × α)) : Finmap fun _ : F => α := order.foldl addToGroup ∅

/-- A count divided by a total, zero if that is not positive. -/
def frequency (sum count : α) : α := if 0 < sum then count / sum else 0

/-- Writes the frequency of a count, if the total of its group is known. -/
def writeFrequency? (totals : Finmap fun _ : F => α) (estimates : Finmap fun _ : F × T => α)
    (entry : (F × T) × α) : Option (Finmap fun _ : F × T => α) :=
  (totals.lookup entry.1.1).map fun sum => estimates.insert entry.1 (frequency sum entry.2)

/-- The frequencies of counts, of which the first pass meets the one list and the second
the other. -/
def frequenciesInOrder? (first second : List ((F × T) × α)) :
    Option (Finmap fun _ : F × T => α) :=
  second.foldlM (writeFrequency? (groupTotals first)) ∅

end Passes

/-! ### Lookup -/

section Lookup

variable {α : Type} {entries : List ((F × T) × α)}

theorem lookup_eq_some_iff (nodup : (entries.map Prod.fst).Nodup) {key : F × T} {count : α} :
    entries.lookup key = some count ↔ (key, count) ∈ entries := by
  induction entries with
  | nil => simp
  | cons entry rest ih =>
    obtain ⟨other, old⟩ := entry
    obtain ⟨fresh, nodup⟩ := List.nodup_cons.mp nodup
    by_cases same : key = other
    · subst same
      have absent : (key, count) ∉ rest := fun mem => fresh (List.mem_map.mpr ⟨_, mem, rfl⟩)
      simp [absent, eq_comm]
    · rw [List.lookup_cons, beq_false_of_ne same, List.mem_cons, ← ih nodup]
      simp [same]

/-- A key is looked up alike in every order. -/
theorem lookup_perm {order : List ((F × T) × α)} (nodup : (entries.map Prod.fst).Nodup)
    (perm : order.Perm entries) (key : F × T) : order.lookup key = entries.lookup key := by
  have order_nodup : (order.map Prod.fst).Nodup := (perm.map Prod.fst).nodup_iff.mpr nodup
  refine Option.ext fun count => ?_
  rw [lookup_eq_some_iff order_nodup, lookup_eq_some_iff nodup, perm.mem_iff]

theorem get?_eq_some_iff {c : CountMap F T α} {key : F × T} {count : α} :
    c.get? key = some count ↔ (key, count) ∈ c.entries :=
  lookup_eq_some_iff c.nodup

theorem get?_mapCounts (f : F × T → α → α) (c : CountMap F T α) (key : F × T) :
    (c.mapCounts f).get? key = (c.get? key).map (f key) := by
  refine Option.ext fun value => ?_
  rw [get?_eq_some_iff, Option.map_eq_some_iff, mapCounts, List.mem_map]
  constructor
  · rintro ⟨⟨other, count⟩, mem, same⟩
    cases same
    exact ⟨count, get?_eq_some_iff.mpr mem, rfl⟩
  · rintro ⟨count, found, rfl⟩
    exact ⟨(key, count), get?_eq_some_iff.mp found, rfl⟩

end Lookup

/-! ### The first pass -/

section Passes

variable {α : Type} [Arithmetic α]

/-- The counts of a group, in the order in which they are met. -/
def groupCounts (order : List ((F × T) × α)) (source : F) : List α :=
  (order.filter (·.1.1 = source)).map Prod.snd

omit [DecidableEq T] [Arithmetic α] in
theorem groupCounts_eq_nil {order : List ((F × T) × α)} {source : F}
    (absent : source ∉ order.map (·.1.1)) : groupCounts order source = [] := by
  rw [groupCounts, List.map_eq_nil_iff, List.filter_eq_nil_iff]
  intro entry mem same
  exact absent (List.mem_map.mpr ⟨entry, mem, of_decide_eq_true same⟩)

omit [DecidableEq T] in
/-- The first pass adds up the counts of each group that it meets. -/
theorem lookup_groupTotals (order : List ((F × T) × α)) (source : F) :
    (groupTotals order).lookup source =
      if source ∈ order.map (·.1.1) then some (total (groupCounts order source)) else none := by
  induction order using List.reverseRecOn with
  | nil => simp [groupTotals]
  | append_singleton before entry ih =>
    have step : groupTotals (before ++ [entry]) = addToGroup (groupTotals before) entry := by
      rw [groupTotals, List.foldl_append]
      rfl
    rw [step, addToGroup]
    by_cases same : source = entry.1.1
    · subst same
      have met : total (groupCounts (before ++ [entry]) entry.1.1) =
          total (groupCounts before entry.1.1) + entry.2 := by
        simp [groupCounts, total]
      have so_far : ((groupTotals before).lookup entry.1.1).getD 0 =
          total (groupCounts before entry.1.1) := by
        rw [ih]
        split
        · rfl
        · rename_i absent
          rw [groupCounts_eq_nil absent]
          rfl
      rw [Finmap.lookup_insert, so_far, met, if_pos (by simp)]
    · have counts : groupCounts (before ++ [entry]) source = groupCounts before source := by
        simp [groupCounts, Ne.symm same]
      have groups : source ∈ (before ++ [entry]).map (·.1.1) ↔ source ∈ before.map (·.1.1) := by
        simp [same]
      simp only [Finmap.lookup_insert_of_ne _ same, ih, counts, groups]

/-! ### The second pass -/

omit [DecidableEq T] in
/-- If all totals are known, the second pass writes the frequency of every count that it
meets. -/
theorem foldlM_writeFrequency? [DecidableEq T] {totals : Finmap fun _ : F => α} {sum : F → α}
    {order : List ((F × T) × α)}
    (known : ∀ entry ∈ order, totals.lookup entry.1.1 = some (sum entry.1.1))
    (nodup : (order.map Prod.fst).Nodup) (estimates : Finmap fun _ : F × T => α) :
    ∃ r, order.foldlM (writeFrequency? totals) estimates = some r ∧ ∀ key, r.lookup key =
      ((order.lookup key).map (frequency (sum key.1))).or (estimates.lookup key) := by
  induction order generalizing estimates with
  | nil => exact ⟨estimates, rfl, fun key => by simp⟩
  | cons entry rest ih =>
    obtain ⟨other, count⟩ := entry
    obtain ⟨fresh, nodup⟩ := List.nodup_cons.mp nodup
    obtain ⟨r, written, lookups⟩ := ih (fun e mem => known e (List.mem_cons_of_mem _ mem)) nodup
      (estimates.insert other (frequency (sum other.1) count))
    refine ⟨r, ?_, fun key => ?_⟩
    · rw [List.foldlM_cons, writeFrequency?, known _ List.mem_cons_self]
      exact written
    · rw [lookups, List.lookup_cons]
      by_cases same : key = other
      · subst same
        have absent : rest.lookup key = none := List.lookup_eq_none_iff.mpr fun e mem => by
          have differ : key ≠ e.1 := fun same => fresh (List.mem_map.mpr ⟨e, mem, same.symm⟩)
          simpa using differ
        simp [absent, Finmap.lookup_insert]
      · rw [beq_false_of_ne same, Finmap.lookup_insert_of_ne _ same]

end Passes

/-! ### Exact counts -/

variable {K : Type} [Field K] [LinearOrder K]

theorem get?_frequencies (c : CountMap F T K) (key : F × T) :
    c.frequencies.get? key = (c.get? key).map (frequency (c.groupTotal key.1)) :=
  get?_mapCounts _ c key

omit [DecidableEq T] [LinearOrder K] in
theorem total_groupCounts_perm {order entries : List ((F × T) × K)} (perm : order.Perm entries)
    (source : F) : total (groupCounts order source) = total (groupCounts entries source) := by
  rw [total_eq_sum, total_eq_sum]
  exact ((perm.filter _).map _).sum_eq

/-- **The order of a map is not seen.** Whatever orders the passes follow, both know what
they look up, and the result has the frequencies of the map. -/
theorem frequenciesInOrder?_eq (c : CountMap F T K) {first second : List ((F × T) × K)}
    (first_perm : first.Perm c.entries) (second_perm : second.Perm c.entries) :
    ∃ r, frequenciesInOrder? first second = some r ∧
      ∀ key, r.lookup key = c.frequencies.get? key := by
  have known : ∀ entry ∈ second,
      (groupTotals first).lookup entry.1.1 = some (c.groupTotal entry.1.1) := by
    intro entry mem
    have met : entry.1.1 ∈ first.map (·.1.1) :=
      List.mem_map_of_mem (first_perm.mem_iff.mpr (second_perm.mem_iff.mp mem))
    rw [lookup_groupTotals, if_pos met, total_groupCounts_perm first_perm]
    rfl
  have nodup : (second.map Prod.fst).Nodup := (second_perm.map Prod.fst).nodup_iff.mpr c.nodup
  obtain ⟨r, written, lookups⟩ := foldlM_writeFrequency? known nodup ∅
  refine ⟨r, written, fun key => ?_⟩
  rw [lookups, lookup_perm c.nodup second_perm, Finmap.lookup_empty, Option.or_none,
    get?_frequencies]
  rfl

/-- What estimates have to do with the counts they are made of: each has the key of a
count, those of a group add up to one if its counts are not all zero and are all zero
otherwise, and within a group they are to each other as the counts. -/
structure Divides (counts estimates : CountMap F T K) : Prop where
  keys : estimates.keys = counts.keys
  total : ∀ source, estimates.groupTotal source = if 0 < counts.groupTotal source then 1 else 0
  vacant : ∀ source target v, ¬ 0 < counts.groupTotal source →
    estimates.get? (source, target) = some v → v = 0
  ratio : ∀ source t u x y v w,
    counts.get? (source, t) = some x → counts.get? (source, u) = some y →
    estimates.get? (source, t) = some v → estimates.get? (source, u) = some w → v * y = w * x

omit [DecidableEq T] in
theorem groupCounts_frequencies (c : CountMap F T K) (source : F) :
    groupCounts c.frequencies.entries source =
      (groupCounts c.entries source).map (frequency (c.groupTotal source)) := by
  have entries : c.frequencies.entries =
      c.entries.map fun entry => (entry.1, frequency (c.groupTotal entry.1.1) entry.2) := rfl
  rw [groupCounts, groupCounts, entries, List.filter_map, List.map_map, List.map_map]
  refine List.map_congr_left fun entry mem => ?_
  have same : entry.1.1 = source := of_decide_eq_true (List.mem_filter.mp mem).2
  simp only [Function.comp_apply, same]

omit [DecidableEq T] in
theorem groupTotal_frequencies (c : CountMap F T K) (source : F) :
    c.frequencies.groupTotal source = if 0 < c.groupTotal source then 1 else 0 := by
  have sum : c.groupTotal source = (groupCounts c.entries source).sum := total_eq_sum _
  rw [show c.frequencies.groupTotal source = (groupCounts c.frequencies.entries source).sum from
    total_eq_sum _, groupCounts_frequencies]
  unfold frequency
  split
  · rename_i positive
    simp only [div_eq_mul_inv, List.sum_map_mul_right, List.map_id', ← sum]
    exact mul_inv_cancel₀ positive.ne'
  · simp

theorem divides_frequencies (c : CountMap F T K) : c.Divides c.frequencies where
  keys := keys_mapCounts _ c
  total := c.groupTotal_frequencies
  vacant source target v none_counted estimated := by
    rw [get?_frequencies] at estimated
    obtain ⟨count, -, rfl⟩ := Option.map_eq_some_iff.mp estimated
    exact if_neg none_counted
  ratio source t u x y v w counted_t counted_u estimated_t estimated_u := by
    rw [get?_frequencies, counted_t] at estimated_t
    rw [get?_frequencies, counted_u] at estimated_u
    cases estimated_t
    cases estimated_u
    unfold frequency
    split
    · ring
    · ring

/-! ### The cells of a table -/

section Table

variable {n m : Nat}

/-- The map of all cells of a table. -/
def ofTable (t : Table n m K) : CountMap (Fin n) (Fin m) K where
  entries := (List.finRange n ×ˢ List.finRange m).map fun cell => (cell, t.get cell.1 cell.2)
  nodup := by
    rw [List.map_map]
    have cells : Prod.fst ∘ (fun cell : Fin n × Fin m => (cell, t.get cell.1 cell.2)) = id := rfl
    rw [cells, List.map_id]
    exact (List.nodup_finRange n).product (List.nodup_finRange m)

omit [Field K] [LinearOrder K] in
theorem get?_ofTable (t : Table n m K) (i : Fin n) (j : Fin m) :
    (ofTable t).get? (i, j) = some (t.get i j) :=
  get?_eq_some_iff.mpr (List.mem_map.mpr ⟨(i, j), by simp, rfl⟩)

theorem groupTotal_ofTable (t : Table n m K) (i : Fin n) :
    (ofTable t).groupTotal i = ∑ j, t.get i j := by
  have nodup : (List.finRange n ×ˢ List.finRange m).Nodup :=
    (List.nodup_finRange n).product (List.nodup_finRange m)
  have cells : (List.finRange n ×ˢ List.finRange m).toFinset = Finset.univ := by
    refine Finset.eq_univ_of_forall fun cell => List.mem_toFinset.mpr ?_
    exact List.mem_product.mpr ⟨List.mem_finRange _, List.mem_finRange _⟩
  rw [groupTotal, total_map_filter, ofTable, List.map_map, ← List.sum_toFinset _ nodup, cells,
    Fintype.sum_prod_type]
  simp

/-- A cell of the table among the cells of its row, and a count among those of its group. -/
theorem get?_frequencies_ofTable [IsStrictOrderedRing K] {t : Table n m K}
    (nonneg : ∀ i j, 0 ≤ t.get i j) (i : Fin n) (j : Fin m) :
    (ofTable t).frequencies.get? (i, j) = some (t.relativeRows.get i j) := by
  rw [get?_frequencies, get?_ofTable, Option.map_some, groupTotal_ofTable, get_relativeRows nonneg,
    frequency]
  split
  · rfl
  · rename_i vacant
    have zero : ∑ l, t.get i l = 0 :=
      le_antisymm (not_lt.mp vacant) (Finset.sum_nonneg fun l _ => nonneg i l)
    rw [zero, div_zero]

end Table

end CountMap

variable {K : Type} [Field K] [LinearOrder K] [IsStrictOrderedRing K]

/-- **Frequencies of maps and of tables.** The frequencies of a count map have its keys; in
a group they add up to one and keep the ratios of the counts, or all are zero if nothing
was counted; and they are what two passes over the map make of it in any orders. For the
cells of a table without negative counts they are its relative rows. -/
theorem frequencies_agree :
    (∀ c : CountMap F T K, c.Divides c.frequencies ∧
      ∀ first second, first.Perm c.entries → second.Perm c.entries →
        ∃ r, CountMap.frequenciesInOrder? first second = some r ∧
          ∀ key, r.lookup key = c.frequencies.get? key) ∧
    ∀ (n m : Nat) (t : Table n m K), (∀ i j, 0 ≤ t.get i j) → ∀ i j,
      (CountMap.ofTable t).frequencies.get? (i, j) = some (t.relativeRows.get i j) :=
  ⟨fun c => ⟨c.divides_frequencies, fun _ _ first second => c.frequenciesInOrder?_eq first second⟩,
    fun _ _ _ nonneg => CountMap.get?_frequencies_ofTable nonneg⟩

/-- Counts of which those of group 1 do not follow each other; in group 2 nothing was
counted. -/
def CountMap.interleaved : CountMap Nat Nat ℚ := .ofList [((1, 1), 3), ((2, 2), 0), ((1, 2), 1)]

/-- The same counts as a table. -/
def Table.interleaved : Table 2 2 ℚ :=
  .ofFn fun i j => if i.val = 0 then (if j.val = 0 then 3 else 1) else 0

theorem frequencies_interleaved :
    (∃ r, CountMap.frequenciesInOrder? CountMap.interleaved.entries.reverse
        CountMap.interleaved.entries = some r ∧
      r.lookup (1, 1) = some (3 / 4) ∧ r.lookup (2, 2) = some 0 ∧ r.lookup (2, 1) = none) ∧
    (∀ i j, 0 ≤ Table.interleaved.get i j) ∧
    (CountMap.ofTable Table.interleaved).frequencies.get? (0, 1) = some (1 / 4) := by
  obtain ⟨maps, tables⟩ := frequencies_agree (F := Nat) (T := Nat) (K := ℚ)
  obtain ⟨-, inOrder⟩ := maps CountMap.interleaved
  obtain ⟨r, written, lookups⟩ := inOrder _ _ (List.reverse_perm _) (List.Perm.refl _)
  have nonneg : ∀ i j, 0 ≤ Table.interleaved.get i j := by decide +kernel
  refine ⟨⟨r, written, ?_, ?_, ?_⟩, nonneg, ?_⟩
  · rw [lookups]
    decide +kernel
  · rw [lookups]
    decide +kernel
  · rw [lookups]
    decide +kernel
  · rw [tables 2 2 Table.interleaved nonneg]
    decide +kernel

end Trellis
