import Trellis.Proofs.Smoothing

/-!
# Backward rows for any scales

The backward recursion may be given any scales, not only those of the forward
recursion over the same symbols. It asks for one scale for each symbol
(`backward_eq_error_iff`) and never reads the first. A backward row, multiplied with
the scales that come after it, is the sum over the paths of the later symbols
(`backward_eq_suffix_sums`).
-/

namespace Trellis.Model

variable {S E K : Type} {Q : Alphabet S} {A : Alphabet E} [Field K] [LinearOrder K]

/-- The row of a position is computed from what comes after it alone. -/
theorem getElem?_backwardRows (m : Model Q A K) {later : List (A.Code × K)} {t : Nat}
    (bound : t ≤ later.length) :
    ((m.backwardRows later).1 :: (m.backwardRows later).2)[t]? =
      some (m.backwardRows (later.drop t)).1 := by
  induction t generalizing later with
  | zero => rfl
  | succ t ih =>
    cases later with
    | nil => cases bound
    | cons p rest => exact ih (Nat.le_of_succ_le_succ bound)

theorem length_backwardRows (m : Model Q A K) (later : List (A.Code × K)) :
    (m.backwardRows later).2.length = later.length := by
  induction later with
  | nil => rfl
  | cons p rest ih => exact congrArg Nat.succ ih

/-- Wrong numbers of scales are refused, and no others. -/
theorem backward_eq_error_iff (m : Model Q A K) (xs : List A.Code) (scales : List K) :
    m.backward xs scales =
        (.error (.sizeMismatch .backward xs.length scales.length) : Except (Error S E K) _) ↔
      scales.length ≠ xs.length := by
  constructor
  · intro refused aligned
    rw [backward, if_pos aligned] at refused
    split at refused
    · cases refused
    · cases refused
  · intro differ
    exact if_neg differ

/-- With one scale for each symbol there is a row for each symbol, computed from
the later symbols and scales. -/
theorem backward_eq_ok (m : Model Q A K) {xs : List A.Code} {scales : List K}
    (aligned : scales.length = xs.length) :
    ∃ rows, m.backward xs scales = (.ok rows : Except (Error S E K) _) ∧
      rows.length = xs.length ∧
      ∀ t row, rows[t]? = some row →
        row = (m.backwardRows ((xs.zip scales).drop (t + 1))).1 := by
  cases xs with
  | nil =>
    rw [List.length_eq_zero_iff.mp aligned]
    exact ⟨[], rfl, rfl, by simp⟩
  | cons x xs =>
    obtain ⟨scale, scales, rfl⟩ := List.exists_cons_of_length_eq_add_one aligned
    have zipped : (xs.zip scales).length = xs.length := by
      rw [List.length_zip, Nat.succ.inj aligned, Nat.min_self]
    refine ⟨_, if_pos aligned, ?_, ?_⟩
    · exact congrArg Nat.succ ((m.length_backwardRows (xs.zip scales)).trans zipped)
    · intro t row at_t
      have bound := (List.getElem?_eq_some_iff.mp at_t).1
      rw [List.length_cons, length_backwardRows] at bound
      rw [getElem?_backwardRows m (Nat.le_of_lt_succ bound)] at at_t
      exact (Option.some.inj at_t).symm

/-- **The backward recursion computes suffix sums for any scales.** It fails
exactly if the number of scales is not that of the symbols. Otherwise there is a
row for each symbol, the last one of ones only; and if no scale after the first
is zero, the entry of a state in a row, multiplied with the scales of the later
positions, is the sum over all state paths through the later positions. -/
theorem backward_eq_suffix_sums (m : Model Q A K) (xs : List A.Code) (scales : List K) :
    (m.backward xs scales =
        (.error (.sizeMismatch .backward xs.length scales.length) : Except (Error S E K) _) ↔
      scales.length ≠ xs.length) ∧
    (scales.length = xs.length →
      ∃ rows, m.backward xs scales = (.ok rows : Except (Error S E K) _) ∧
        rows.length = xs.length ∧
        (∀ row, rows[xs.length - 1]? = some row → ∀ k, row.get k = 1) ∧
        ((∀ scale ∈ scales.drop 1, scale ≠ 0) → ∀ t row, rows[t]? = some row → ∀ k,
          row.get k * (scales.drop (t + 1)).prod =
            ∑ states ∈ Q.paths (xs.drop (t + 1)).length,
              m.laterProbability k states (xs.drop (t + 1)))) := by
  refine ⟨m.backward_eq_error_iff xs scales, ?_⟩
  intro aligned
  obtain ⟨rows, computed, length, row_eq⟩ := m.backward_eq_ok (S := S) (E := E) aligned
  refine ⟨rows, computed, length, ?_, ?_⟩
  · intro row last k
    have observed : 0 < xs.length := by
      rw [← length]
      exact Nat.zero_lt_of_lt (List.getElem?_eq_some_iff.mp last).1
    have none_later : (xs.zip scales).drop (xs.length - 1 + 1) = [] := by
      rw [List.drop_eq_nil_iff, List.length_zip]
      omega
    rw [row_eq _ row last, none_later, backwardRows, Row.get_replicate]
  · intro divisors t row at_t k
    have later_scales : ((xs.zip scales).drop (t + 1)).map Prod.snd = scales.drop (t + 1) := by
      rw [List.map_drop, List.map_snd_zip aligned.le]
    have later_symbols : ((xs.zip scales).drop (t + 1)).map Prod.fst = xs.drop (t + 1) := by
      rw [List.map_drop, List.map_fst_zip aligned.ge]
    have later_divisors : ∀ p ∈ (xs.zip scales).drop (t + 1), p.2 ≠ 0 := by
      intro p mem
      have scale_mem : p.2 ∈ scales.drop (t + 1) := by
        rw [← later_scales]
        exact List.mem_map_of_mem mem
      rw [Nat.add_comm, ← List.drop_drop] at scale_mem
      exact divisors p.2 (List.mem_of_mem_drop scale_mem)
    have sum := m.get_backwardRows_mul_prod later_divisors k
    rw [later_scales, later_symbols] at sum
    rw [row_eq t row at_t]
    exact sum

/-- The scales need not come from the forward recursion, and the first may be zero. -/
theorem backward_machine :
    [(0 : ℚ), 1 / 2, 3].length = Machine.shown.length ∧
    (∀ scale ∈ [(0 : ℚ), 1 / 2, 3].drop 1, scale ≠ 0) ∧
    ∃ rows, Machine.model.backward Machine.shown [0, 1 / 2, 3] =
        (.ok rows : Except (Error Nat Nat ℚ) _) ∧
      ∀ t row, rows[t]? = some row → ∀ k,
        row.get k * ([0, 1 / 2, 3].drop (t + 1)).prod =
          ∑ states ∈ Machine.states.paths (Machine.shown.drop (t + 1)).length,
            Machine.model.laterProbability k states (Machine.shown.drop (t + 1)) := by
  have divisors : ∀ scale ∈ [(0 : ℚ), 1 / 2, 3].drop 1, scale ≠ 0 := by norm_num
  obtain ⟨-, computed⟩ :=
    backward_eq_suffix_sums Machine.model Machine.shown [0, 1 / 2, 3]
  obtain ⟨rows, succeeded, -, -, sums⟩ := computed rfl
  exact ⟨rfl, divisors, rows, succeeded, sums divisors⟩

end Trellis.Model
