import Mathlib.Data.Rat.Defs
import Trellis.Counts.Basic

/-!
# Adding counts

Counts of any five sizes may be added, but only two of the sizes are compared
before the tables are changed. Where those two differ, the addition is refused
and nothing has changed (`ends_of_initial_ne`, `ends_of_symbols_ne`). Where they
agree, an axis of length one is repeated along the axis it is added to, so counts
of another shape can be taken in (`ends_of_takes`), a single row being added to
every row; and where that is not possible, the addition stops with the starts
already added (`ends_of_not_takes`). `accumulate_cases` puts the four together,
and `accumulate_singleRow` is a run in which a row is taken for a table. Counts of
one shape are always added cell by cell (`accumulate_of_same_shape`).
-/

namespace Trellis

/-- An axis of length `m` can be added to one of length `n`. -/
def Fits (n m : Nat) : Prop := n = m ∨ m = 1

/-- Each index reads the same index, or the only one of an axis of length one. -/
def Repeats {n m : Nat} (read : Fin n → Fin m) : Prop := ∀ i, (read i).val = i.val ∨ m = 1

/-- What is compared before counts are added, and what adding them needs beside. -/
structure CountShape.Takes (shape shape' : CountShape) : Prop where
  initial : shape.initial = shape'.initial
  symbols : shape.symbols = shape'.symbols
  sources : Fits shape.sources shape'.sources
  targets : Fits shape.targets shape'.targets
  emitters : Fits shape.emitters shape'.emitters

theorem CountShape.Takes.refl (shape : CountShape) : shape.Takes shape :=
  ⟨rfl, rfl, .inl rfl, .inl rfl, .inl rfl⟩

/-- On an axis of the same length every index reads itself. -/
theorem Repeats.eq_self {n : Nat} {read : Fin n → Fin n} (repeats : Repeats read) (i : Fin n) :
    read i = i := by
  rcases repeats i with same | rfl
  · exact Fin.ext same
  · exact Subsingleton.elim _ _

namespace Counts

variable {S E α σ : Type}

/-! ### Alignment -/

theorem alignAxis_cases (n m : Nat) :
    (Fits n m ∧ ∃ read, alignAxis n m = some read ∧ Repeats read) ∨
      ¬ Fits n m ∧ alignAxis n m = none := by
  unfold alignAxis
  split
  · rename_i same
    exact .inl ⟨.inl same, _, rfl, fun _ => .inl rfl⟩
  · rename_i differ
    split
    · rename_i single
      exact .inl ⟨.inr single, _, rfl, fun _ => .inr single⟩
    · rename_i several
      exact .inr ⟨fun fits => fits.elim differ several, rfl⟩

variable [Add α] [Add σ] {shape shape' : CountShape}

/-- Every cell is a cell plus the cell it meets in another table. -/
def IsTableSum {n m n' m' : Nat} (s : Table n m α) (t : Table n' m' α) (r : Table n m α) : Prop :=
  ∃ row column, Repeats row ∧ Repeats column ∧
    ∀ i j, r.get i j = s.get i j + t.get (row i) (column j)

theorem addTable_cases {n m n' m' : Nat} (s : Table n m α) (t : Table n' m' α) :
    (Fits n n' ∧ Fits m m' ∧ ∃ r, addTable s t = some r ∧ IsTableSum s t r) ∨
      ¬ (Fits n n' ∧ Fits m m') ∧ addTable s t = none := by
  rcases alignAxis_cases n n' with ⟨rows, row, at_row, row_repeats⟩ | ⟨differ, none_row⟩
  · rcases alignAxis_cases m m' with ⟨columns, column, at_column, column_repeats⟩ |
        ⟨differ, none_column⟩
    · refine .inl ⟨rows, columns, _, by simp only [addTable, at_row, at_column]; rfl,
        row, column, row_repeats, column_repeats, fun i j => ?_⟩
      rw [Table.get_ofFn]
    · exact .inr ⟨fun fits => differ fits.2, by simp only [addTable, at_row, none_column]; rfl⟩
  · exact .inr ⟨fun fits => differ fits.1, by simp only [addTable, none_row]; rfl⟩

/-! ### Adding in place -/

/-- The counts with the starts of others added. -/
def addInitial (c : Counts shape α σ) (d : Counts shape' α σ)
    (same : shape.initial = shape'.initial) : Counts shape α σ :=
  { c with initial := .ofFn fun i => c.initial.get i + d.initial.get (i.cast same) }

omit [Add σ] in
theorem get_addInitial (c : Counts shape α σ) (d : Counts shape' α σ)
    (same : shape.initial = shape'.initial) (i : Fin shape.initial) (j : Fin shape'.initial)
    (here : j.val = i.val) :
    (c.addInitial d same).initial.get i = c.initial.get i + d.initial.get j := by
  have read : i.cast same = j := Fin.ext here.symm
  rw [addInitial, Row.get_ofFn, read]

omit [Add σ] in
theorem initial_addInitial (c : Counts shape α σ) (d : Counts shape' α σ)
    (same : shape.initial = shape'.initial) :
    (c.addInitial d same).initial =
      c.initial.zipWith (· + ·) (d.initial.cast same.symm) := by
  refine Row.ext fun i => ?_
  rw [addInitial, Row.get_ofFn, Row.get_zipWith]
  rfl

/-- Adds other counts to these, one table after another: how it ends, beside what
has become of these counts by then. -/
def accumulateInPlace (c : Counts shape α σ) (d : Counts shape' α σ) :
    Except (Error S E α) Unit × Counts shape α σ :=
  if same : shape.initial = shape'.initial then
    if shape.symbols = shape'.symbols then
      let c := c.addInitial d same
      match addTable c.transitions d.transitions with
      | none => (.error .unalignedTables, c)
      | some transitions =>
        let c := { c with transitions }
        match addTable c.emissions d.emissions with
        | none => (.error .unalignedTables, c)
        | some emissions =>
          (.ok (), { c with emissions, logLikelihood := c.logLikelihood + d.logLikelihood })
    else (.error (.sizeMismatch .accumulate shape.symbols shape'.symbols), c)
  else (.error (.sizeMismatch .accumulate shape.initial shape'.initial), c)

/-- Adding is adding in place: the sum is what is left, if all went well. -/
theorem accumulate_eq (c : Counts shape α σ) (d : Counts shape' α σ) :
    c.accumulate d =
      match (c.accumulateInPlace d : Except (Error S E α) Unit × Counts shape α σ) with
      | (ending, left) => ending.map fun _ => left := by
  unfold accumulate accumulateInPlace
  split
  · rename_i same
    split
    · rw [← c.initial_addInitial d same]
      simp only [addInitial]
      cases addTable c.transitions d.transitions with
      | none => rfl
      | some transitions =>
        cases addTable c.emissions d.emissions with
        | none => rfl
        | some emissions => rfl
    · rfl
  · rfl

/-- An addition ends like this, with these counts left. -/
def Ends (c : Counts shape α σ) (d : Counts shape' α σ) (ending : Except (Error S E α) Unit)
    (left : Counts shape α σ) : Prop :=
  c.accumulateInPlace d = (ending, left) ∧ c.accumulate d = ending.map fun _ => left

theorem ends_of_inPlace {c : Counts shape α σ} {d : Counts shape' α σ}
    {ending : Except (Error S E α) Unit} {left : Counts shape α σ}
    (added : c.accumulateInPlace d = (ending, left)) : c.Ends d ending left :=
  ⟨added, by rw [accumulate_eq, added]⟩

/-- Counts in which every cell is the sum of the cells that meet there. -/
structure IsSum (c : Counts shape α σ) (d : Counts shape' α σ) (r : Counts shape α σ) : Prop where
  initial : ∀ i j, j.val = i.val → r.initial.get i = c.initial.get i + d.initial.get j
  transitions : IsTableSum c.transitions d.transitions r.transitions
  emissions : IsTableSum c.emissions d.emissions r.emissions
  logLikelihood : r.logLikelihood = c.logLikelihood + d.logLikelihood

section Ends

variable (c : Counts shape α σ) (d : Counts shape' α σ)

/-- Counts of another number of starts are refused, and nothing has changed. -/
theorem ends_of_initial_ne (differ : shape.initial ≠ shape'.initial) :
    c.Ends d (.error (.sizeMismatch .accumulate shape.initial shape'.initial) :
      Except (Error S E α) Unit) c :=
  ends_of_inPlace (dif_neg differ)

/-- Counts of another number of symbols are refused, and nothing has changed. -/
theorem ends_of_symbols_ne (initial : shape.initial = shape'.initial)
    (differ : shape.symbols ≠ shape'.symbols) :
    c.Ends d (.error (.sizeMismatch .accumulate shape.symbols shape'.symbols) :
      Except (Error S E α) Unit) c :=
  ends_of_inPlace (by rw [accumulateInPlace, dif_pos initial, if_neg differ])

/-- Where every axis fits, all three tables are added to, with axes of length one repeated. -/
theorem ends_of_takes (takes : shape.Takes shape') :
    ∃ r, c.Ends d (.ok () : Except (Error S E α) Unit) r ∧ c.IsSum d r := by
  rcases addTable_cases c.transitions d.transitions with
    ⟨-, -, transitions, steps, is_steps⟩ | ⟨misfit, -⟩
  · rcases addTable_cases c.emissions d.emissions with
      ⟨-, -, emissions, shown, is_shown⟩ | ⟨misfit, -⟩
    · refine ⟨⟨(c.addInitial d takes.initial).initial, transitions, emissions,
        c.logLikelihood + d.logLikelihood⟩, ends_of_inPlace ?_,
        c.get_addInitial d takes.initial, is_steps, is_shown, rfl⟩
      rw [accumulateInPlace, dif_pos takes.initial, if_pos takes.symbols]
      simp only [addInitial, steps, shown]
    · exact absurd ⟨takes.emitters, .inl takes.symbols⟩ misfit
  · exact absurd ⟨takes.sources, takes.targets⟩ misfit

/-- Where the compared sizes agree and tables cannot be aligned, the starts have
been added by the time this is found. -/
theorem ends_of_not_takes (initial : shape.initial = shape'.initial)
    (symbols : shape.symbols = shape'.symbols) (misfit : ¬ shape.Takes shape') :
    ∃ left, c.Ends d (.error .unalignedTables : Except (Error S E α) Unit) left ∧
      left.initial = (c.addInitial d initial).initial ∧
      left.logLikelihood = c.logLikelihood := by
  rcases addTable_cases c.transitions d.transitions with
    ⟨sources, targets, transitions, steps, -⟩ | ⟨-, stopped⟩
  · rcases addTable_cases c.emissions d.emissions with ⟨emitters, -⟩ | ⟨-, stopped⟩
    · exact absurd ⟨initial, symbols, sources, targets, emitters⟩ misfit
    · refine ⟨{ c.addInitial d initial with transitions }, ends_of_inPlace ?_, rfl, rfl⟩
      rw [accumulateInPlace, dif_pos initial, if_pos symbols]
      simp only [addInitial, steps, stopped]
  · refine ⟨c.addInitial d initial, ends_of_inPlace ?_, rfl, rfl⟩
    rw [accumulateInPlace, dif_pos initial, if_pos symbols]
    simp only [addInitial, stopped]

/-- **Two sizes of five are compared.** Counts whose starts or symbols differ in
number are refused and change nothing. Others are added cell by cell, also if
they have another shape, as long as an axis that differs has length one; it is
repeated then. If it has not, the addition stops with the starts added. -/
theorem accumulate_cases :
    (shape.initial ≠ shape'.initial ∧
      c.Ends d (.error (.sizeMismatch .accumulate shape.initial shape'.initial) :
        Except (Error S E α) Unit) c) ∨
    (shape.initial = shape'.initial ∧ shape.symbols ≠ shape'.symbols ∧
      c.Ends d (.error (.sizeMismatch .accumulate shape.symbols shape'.symbols) :
        Except (Error S E α) Unit) c) ∨
    (shape.Takes shape' ∧
      ∃ r, c.Ends d (.ok () : Except (Error S E α) Unit) r ∧ c.IsSum d r) ∨
    (¬ shape.Takes shape' ∧ shape.symbols = shape'.symbols ∧
      ∃ (initial : shape.initial = shape'.initial) (left : Counts shape α σ),
        c.Ends d (.error .unalignedTables : Except (Error S E α) Unit) left ∧
        left.initial = (c.addInitial d initial).initial ∧
        left.logLikelihood = c.logLikelihood) := by
  by_cases initial : shape.initial = shape'.initial
  · by_cases symbols : shape.symbols = shape'.symbols
    · by_cases takes : shape.Takes shape'
      · exact .inr (.inr (.inl ⟨takes, c.ends_of_takes d takes⟩))
      · exact .inr (.inr (.inr
          ⟨takes, symbols, initial, c.ends_of_not_takes d initial symbols takes⟩))
    · exact .inr (.inl ⟨initial, symbols, c.ends_of_symbols_ne d initial symbols⟩)
  · exact .inl ⟨initial, c.ends_of_initial_ne d initial⟩

end Ends

/-! ### Counts of models -/

/-- For counts of one shape no axis is repeated. -/
theorem IsTableSum.get {n m : Nat} {s t r : Table n m α} (sum : IsTableSum s t r) (i : Fin n)
    (j : Fin m) : r.get i j = s.get i j + t.get i j := by
  obtain ⟨row, column, rows, columns, cells⟩ := sum
  rw [cells, rows.eq_self, columns.eq_self]

/-- Counts of one shape are always added, cell by cell. -/
theorem accumulate_of_same_shape (c d : Counts shape α σ) :
    ∃ r, c.Ends d (.ok () : Except (Error S E α) Unit) r ∧
      (∀ k, r.initial.get k = c.initial.get k + d.initial.get k) ∧
      (∀ k l, r.transitions.get k l = c.transitions.get k l + d.transitions.get k l) ∧
      (∀ k x, r.emissions.get k x = c.emissions.get k x + d.emissions.get k x) ∧
      r.logLikelihood = c.logLikelihood + d.logLikelihood := by
  obtain ⟨r, ends, sum⟩ := c.ends_of_takes (S := S) (E := E) d (.refl shape)
  exact ⟨r, ends, fun k => sum.initial k k rfl, sum.transitions.get, sum.emissions.get,
    sum.logLikelihood⟩

/-! ### A row taken for a table -/

/-- Counts for two states and two symbols. -/
def square : Counts (.ofModel 2 2) ℚ ℚ where
  initial := #v[2, 0]
  transitions := ⟨#v[#v[3, 1], #v[0, 2]]⟩
  emissions := ⟨#v[#v[3, 2], #v[1, 2]]⟩
  logLikelihood := 0

/-- As many starts and symbols, but the steps out of one state only. -/
def singleRow : Counts ⟨2, 1, 2, 2, 2⟩ ℚ ℚ where
  initial := .replicate 2 0
  transitions := ⟨#v[#v[0, 5]]⟩
  emissions := .ofFn fun _ _ => 0
  logLikelihood := 0

/-- Counts of different shapes are added: the single row is added to both rows. -/
theorem accumulate_singleRow :
    CountShape.ofModel 2 2 ≠ ⟨2, 1, 2, 2, 2⟩ ∧
      (square.accumulate singleRow : Except (Error Nat Nat ℚ) _) =
        .ok { square with transitions := ⟨#v[#v[3, 6], #v[0, 7]]⟩ } := by
  decide +kernel

end Counts

end Trellis
