import Mathlib.Algebra.BigOperators.Field
import Mathlib.Algebra.BigOperators.Fin
import Mathlib.Algebra.Order.BigOperators.Group.Finset
import Mathlib.Algebra.Order.Field.Basic
import Mathlib.Tactic.Linarith
import Mathlib.Tactic.Positivity
import Mathlib.Tactic.Ring
import Trellis.Frequency
import Trellis.Group

/-!
# Exact arithmetic

The numbers of a linearly ordered field, in which nothing is rounded. There a
total is the sum of a finite family, in any order (`total_toList`,
`rowTotal_toList`), every number is finite, and the tests on numbers say what
their names say (`isZero_iff`, `isFaulty_iff`, `isDivisor_iff`, `nearOne_iff`). A
row that is divided by its total adds up to one (`sum_relativeRow`), and with
uniform entries for a row without a total it is the row of the portions
(`filled_relativeRow`).
-/

namespace Trellis

/-- The arithmetic of an ordered field. -/
instance exactArithmetic {K : Type} [Field K] [LinearOrder K] : Arithmetic K where
  decidableLE := inferInstance
  decidableLT := inferInstance
  rowTotal := total

variable {K : Type} [Field K]

/-! ### Totals -/

theorem total_eq_sum (xs : List K) : total xs = xs.sum := List.sum_eq_foldl.symm

theorem Row.toList_eq_ofFn {α : Type} {n : Nat} (r : Vector α n) :
    r.toList = List.ofFn r.get := by
  apply List.ext_getElem
  · simp
  · intro i _ _
    simp [Row.get_eq]

/-- A sum from left to right is the sum of the family. -/
theorem total_toList {n : Nat} (r : Vector K n) : total r.toList = ∑ i, r.get i := by
  rw [total_eq_sum, Row.toList_eq_ofFn, List.sum_ofFn]

/-- A sum over what passes a test counts zero for the rest. -/
theorem total_map_filter {ι : Type} (p : ι → Bool) (f : ι → K) (xs : List ι) :
    total ((xs.filter p).map f) = (xs.map fun i => if p i then f i else 0).sum := by
  rw [total_eq_sum]
  induction xs with
  | nil => rfl
  | cons i rest ih =>
    by_cases passes : p i
    · simp [passes, ih]
    · simp [passes, ih]

/-- The total over the codes that pass a test. -/
theorem total_map_filter_finRange {n : Nat} (p : Fin n → Bool) (f : Fin n → K) :
    total (((List.finRange n).filter p).map f) = ∑ i, if p i then f i else 0 := by
  rw [total_map_filter, Fin.sum_univ_def]

theorem countP_finRange {n : Nat} (p : Fin n → Bool) :
    (List.finRange n).countP p = Finset.card {i | p i = true} := by
  rw [List.countP_eq_length_filter,
    ← List.toFinset_card_of_nodup ((List.nodup_finRange n).filter p)]
  congr 1
  ext i
  simp

variable [LinearOrder K]

/-- The total of a row is the sum over its codes, in whatever order it is taken. -/
theorem rowTotal_toList {n : Nat} (r : Vector K n) : rowTotal r.toList = ∑ i, r.get i :=
  total_toList r

/-! ### Tests on numbers -/

theorem isZero_iff {x : K} : IsZero x ↔ x = 0 :=
  ⟨fun h => le_antisymm h.1 h.2, fun h => ⟨h.le, h.ge⟩⟩

/-- Every exact number is finite. -/
theorem isFinite (x : K) : IsFinite x := isZero_iff.mpr (sub_self x)

theorem isFaulty_iff {x : K} : IsFaulty x ↔ x ≠ 0 ∧ ¬ NearOne x :=
  and_congr (not_congr isZero_iff) Iff.rfl

theorem isDivisor_iff {x : K} : IsDivisor x ↔ 0 < x := ⟨fun h => h.1, fun h => ⟨h, isFinite x⟩⟩

section Ordered

variable [IsStrictOrderedRing K]

theorem tolerance_pos : 0 < (tolerance : K) := by
  unfold tolerance
  positivity

theorem nearOne_one : NearOne (1 : K) := by
  have := (tolerance_pos (K := K)).le
  exact ⟨by simpa using this, by simpa using this⟩

theorem NearOne.pos {x : K} (near : NearOne x) : 0 < x := by
  have small : (tolerance : K) < 1 := by
    unfold tolerance
    norm_num
  exact sub_lt_self_iff 1 |>.mp (near.2.trans_lt small)

theorem nearOne_iff {x : K} : NearOne x ↔ |x - 1| ≤ tolerance := abs_sub_le_iff.symm

theorem share_nonneg (n : Nat) : 0 ≤ (share n : K) := by
  unfold share
  positivity

theorem share_le_one (n : Nat) : (share n : K) ≤ 1 := by
  unfold share
  cases n with
  | zero => simp
  | succ n => exact div_le_one_of_le₀ (by norm_cast; omega) (by positivity)

/-- Equal shares add up to one. -/
theorem mul_share {n : Nat} (pos : 0 < n) : (n : K) * share n = 1 := by
  have : (n : K) ≠ 0 := by exact_mod_cast pos.ne'
  exact mul_one_div_cancel this

end Ordered

omit [LinearOrder K] in
/-- The shares of a sum that is not zero add up to one. -/
theorem sum_div_sum {ι : Type} [Fintype ι] {f : ι → K} (occupied : ∑ j, f j ≠ 0) :
    ∑ i, f i / ∑ j, f j = 1 := by
  rw [← Finset.sum_div]
  exact div_self occupied

theorem sum_div_sum_cases {ι : Type} [Fintype ι] (f : ι → K) :
    ∑ i, f i / ∑ j, f j = 0 ∨ ∑ i, f i / ∑ j, f j = 1 := by
  by_cases vacant : ∑ j, f j = 0
  · left
    rw [← Finset.sum_div, vacant, zero_div]
  · exact .inr (sum_div_sum vacant)

/-- What is not negative and not all zero has a sum that is not zero. -/
theorem sum_ne_zero_of_nonneg [IsStrictOrderedRing K] {ι : Type} [Fintype ι] {f : ι → K}
    (nonneg : ∀ i, 0 ≤ f i) {i : ι} (occurs : f i ≠ 0) : ∑ j, f j ≠ 0 := fun vacant =>
  occurs ((Finset.sum_eq_zero_iff_of_nonneg fun j _ => nonneg j).mp vacant i (Finset.mem_univ i))

/-! ### Portions -/

section Portion

variable {ι : Type} (members : Finset ι) (weight : ι → K)

/-- What a member of a set gets of a whole that is shared out by weight; equal parts
if nothing has any weight. -/
def portion (i : ι) : K :=
  if 0 < ∑ j ∈ members, weight j then weight i / ∑ j ∈ members, weight j
  else share members.card

variable {members} {weight}

/-- Only the weights of members count. -/
theorem portion_congr {other : ι → K} {i : ι} (member : i ∈ members)
    (same : ∀ j ∈ members, weight j = other j) :
    portion members weight i = portion members other i := by
  rw [portion, portion, Finset.sum_congr rfl same, same i member]

variable (weight)

/-- The whole is shared out. -/
theorem sum_portion [IsStrictOrderedRing K] (occupied : members.Nonempty) :
    ∑ i ∈ members, portion members weight i = 1 := by
  unfold portion
  split
  · rename_i positive
    rw [← Finset.sum_div]
    exact div_self positive.ne'
  · rw [Finset.sum_const, nsmul_eq_mul]
    exact mul_share occupied.card_pos

end Portion

/-! ### Rows -/

/-- A row of probabilities, whatever they add up to. -/
def UnitRow {n : Nat} (row : Vector K n) : Prop := ∀ i, 0 ≤ row.get i ∧ row.get i ≤ 1

/-- A positive total is not reached by cancelling. -/
def SharesOut {n : Nat} (counts : Vector K n) : Prop :=
  0 < ∑ i, counts.get i → ∀ i, 0 ≤ counts.get i

variable {n m : Nat} {counts : Vector K n}

theorem relativeRow_of_sum_pos (positive : 0 < ∑ i, counts.get i) :
    relativeRow counts = counts.map (· / ∑ i, counts.get i) := by
  simp only [relativeRow, rowTotal_toList, if_pos positive]

theorem relativeRow_of_not_sum_pos (vacant : ¬ 0 < ∑ i, counts.get i) :
    relativeRow counts = counts := by
  simp only [relativeRow, rowTotal_toList, if_neg vacant]

theorem get_relativeRow_of_eq_zero {i : Fin n} (zero : counts.get i = 0) :
    (relativeRow counts).get i = 0 := by
  by_cases positive : 0 < ∑ i, counts.get i
  · rw [relativeRow_of_sum_pos positive, Row.get_map, zero, zero_div]
  · rw [relativeRow_of_not_sum_pos positive, zero]

/-- A total that is positive becomes one; no other total changes. -/
theorem sum_relativeRow (counts : Vector K n) :
    ∑ i, (relativeRow counts).get i =
      if 0 < ∑ i, counts.get i then 1 else ∑ i, counts.get i := by
  split
  · rename_i positive
    simp only [relativeRow_of_sum_pos positive, Row.get_map]
    exact sum_div_sum positive.ne'
  · rename_i vacant
    rw [relativeRow_of_not_sum_pos vacant]

section Ordered

variable [IsStrictOrderedRing K]

theorem sum_get_nonneg (nonneg : ∀ i, 0 ≤ counts.get i) : 0 ≤ ∑ i, counts.get i :=
  Finset.sum_nonneg fun i _ => nonneg i

/-- A member of a row that is not negative is a share of its sum. -/
theorem get_div_sum_mem (nonneg : ∀ i, 0 ≤ counts.get i) (i : Fin n) :
    0 ≤ counts.get i / ∑ j, counts.get j ∧ counts.get i / ∑ j, counts.get j ≤ 1 :=
  ⟨div_nonneg (nonneg i) (sum_get_nonneg nonneg),
    div_le_one_of_le₀ (Finset.single_le_sum (fun j _ => nonneg j) (Finset.mem_univ i))
      (sum_get_nonneg nonneg)⟩

theorem unitRow_div_sum (nonneg : ∀ i, 0 ≤ counts.get i) :
    UnitRow (counts.map (· / ∑ i, counts.get i)) := by
  intro i
  rw [Row.get_map]
  exact get_div_sum_mem nonneg i

/-- The total of relative frequencies that is neither zero nor near one is negative,
and then it is that of the counts. -/
theorem sum_relativeRow_refused_iff (counts : Vector K n) :
    ∑ i, (relativeRow counts).get i ≠ 0 ∧ ¬ NearOne (∑ i, (relativeRow counts).get i) ↔
      ∑ i, counts.get i < 0 := by
  rw [sum_relativeRow]
  split
  · rename_i positive
    simp [nearOne_one, positive.le]
  · rename_i vacant
    constructor
    · rintro ⟨occupied, -⟩
      exact lt_of_le_of_ne (not_lt.mp vacant) occupied
    · intro negative
      exact ⟨negative.ne, fun near => vacant near.pos⟩

/-- Divided by a positive total, a row is a row of probabilities exactly if none
of its members is negative. -/
theorem unitRow_div_sum_iff (positive : 0 < ∑ i, counts.get i) :
    UnitRow (counts.map (· / ∑ i, counts.get i)) ↔ ∀ i, 0 ≤ counts.get i := by
  constructor
  · intro unit i
    have share := (unit i).1
    rwa [Row.get_map, le_div_iff₀ positive, zero_mul] at share
  · exact unitRow_div_sum

/-- A row of counts becomes its shares of the total, and a row of zeros stays. -/
theorem get_relativeRow (nonneg : ∀ i, 0 ≤ counts.get i) (i : Fin n) :
    (relativeRow counts).get i = counts.get i / ∑ j, counts.get j := by
  by_cases positive : 0 < ∑ j, counts.get j
  · rw [relativeRow_of_sum_pos positive, Row.get_map]
  · have zero : ∑ j, counts.get j = 0 := le_antisymm (not_lt.mp positive) (sum_get_nonneg nonneg)
    rw [relativeRow_of_not_sum_pos positive, zero, div_zero,
      (Finset.sum_eq_zero_iff_of_nonneg fun j _ => nonneg j).mp zero i (Finset.mem_univ i)]

/-- Relative frequencies, with a number in the place of those that total zero. -/
theorem filled_relativeRow (nonneg : ∀ i, 0 ≤ counts.get i) (filling : K) (i : Fin n) :
    (if ∑ j, (relativeRow counts).get j = 0 then filling else (relativeRow counts).get i) =
      if 0 < ∑ j, counts.get j then counts.get i / ∑ j, counts.get j else filling := by
  rw [sum_relativeRow, get_relativeRow nonneg]
  by_cases positive : 0 < ∑ j, counts.get j
  · rw [if_pos positive, if_neg one_ne_zero, if_pos positive]
  · have zero : ∑ j, counts.get j = 0 := le_antisymm (not_lt.mp positive) (sum_get_nonneg nonneg)
    rw [if_neg positive, if_pos zero, if_neg positive]

theorem get_relativeRows {counts : Table n m K} (nonneg : ∀ i j, 0 ≤ counts.get i j) (i : Fin n)
    (j : Fin m) :
    counts.relativeRows.get i j = counts.get i j / ∑ l, counts.get i l := by
  rw [Table.relativeRows, Table.get_mapRows, get_relativeRow (nonneg i)]
  simp only [Table.get_row]

end Ordered

end Trellis
