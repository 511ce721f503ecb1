import Mathlib.Logic.Equiv.Basic
import Mathlib.Data.List.FinRange
import Trellis.Alphabet.Lookup
import Trellis.Proofs.Exact

/-!
# Recoding

Two alphabets with the same symbols in different orders give them different
codes (`Recoding.exists_of_perm`). What is indexed by codes is carried over from
one alphabet to the other, cell by cell (`Row.recode`, `Table.recode`). Totals do
not change, since exact sums do not depend on their order (`total_perm`,
`Row.rowTotal_recode`).
-/

namespace Trellis

variable {τ α β : Type}

/-- All codes, in the order of other codes. -/
theorem finRange_perm {n n' : Nat} (e : Fin n ≃ Fin n') :
    (List.finRange n').Perm ((List.finRange n).map e) := by
  refine (List.perm_ext_iff_of_nodup (List.nodup_finRange _)
    ((List.nodup_finRange _).map e.injective)).mpr fun i' => ?_
  simp [e.surjective i']

/-- Which code of a second alphabet stands for which code of the first. -/
structure Recoding (Q Q' : Alphabet τ) where
  code : Q.Code ≃ Q'.Code
  symbol_code : ∀ k, Q'.symbol (code k) = Q.symbol k

namespace Recoding

variable {Q Q' : Alphabet τ}

/-- The codes of the same symbols in two orders. -/
theorem exists_of_perm (perm : Q.symbols.Perm Q'.symbols) : Nonempty (Recoding Q Q') := by
  have total : ∀ k, ∃ k', Q'.symbol k' = Q.symbol k := fun k =>
    Q'.mem_symbols_iff.mp (perm.mem_iff.mp (Q.symbol_mem k))
  choose code symbol_code using total
  have injective : Function.Injective code := by
    intro k l same
    rw [← Q.symbol_inj, ← symbol_code, ← symbol_code, same]
  have surjective : Function.Surjective code := by
    intro k'
    obtain ⟨k, symbol⟩ := Q.mem_symbols_iff.mp (perm.mem_iff.mpr (Q'.symbol_mem k'))
    exact ⟨k, Q'.symbol_inj.mp ((symbol_code k).trans symbol)⟩
  exact ⟨.ofBijective code ⟨injective, surjective⟩, symbol_code⟩

theorem size_eq (q : Recoding Q Q') : Q'.size = Q.size := by
  simpa using (Fintype.card_congr q.code).symm

variable (q : Recoding Q Q')

theorem codes_perm : Q'.codes.Perm (Q.codes.map q.code) := finRange_perm q.code

section DecidableEq

variable [DecidableEq τ]

theorem codeOf?_eq (s : τ) : Q'.codeOf? s = (Q.codeOf? s).map q.code := by
  cases code : Q.codeOf? s with
  | some k =>
    rw [Option.map_some, Q'.codeOf?_eq_some_iff, q.symbol_code, ← Q.codeOf?_eq_some_iff, code]
  | none =>
    rw [Option.map_none, Q'.codeOf?_eq_none_iff, Q'.mem_symbols_iff]
    rintro ⟨k', symbol⟩
    obtain ⟨k, rfl⟩ := q.code.surjective k'
    rw [q.symbol_code] at symbol
    exact Q.codeOf?_eq_none_iff.mp code (Q.mem_symbols_iff.mpr ⟨k, symbol⟩)

theorem encode_eq (symbols : List τ) :
    Q'.encode symbols = List.map q.code <$> Q.encode symbols := by
  induction symbols with
  | nil => rfl
  | cons s rest ih =>
    rw [Alphabet.encode, Alphabet.encode, q.codeOf?_eq, ih]
    cases Q.codeOf? s with
    | none => rfl
    | some k => cases Q.encode rest <;> rfl

end DecidableEq

end Recoding

/-! ### Rows -/

namespace Row

variable {n n' : Nat} (e : Fin n ≃ Fin n')

/-- The same row by other codes. -/
def recode (r : Vector α n) : Vector α n' := .ofFn fun i => r.get (e.symm i)

@[simp] theorem get_recode (r : Vector α n) (i : Fin n) : (recode e r).get (e i) = r.get i := by
  rw [recode, get_ofFn, e.symm_apply_apply]

variable {e}

/-- A row is told by its entries at the new codes. -/
theorem eq_recode {r : Vector α n} {s : Vector α n'} (entries : ∀ i, s.get (e i) = r.get i) :
    s = recode e r := by
  refine ext fun i' => ?_
  obtain ⟨i, rfl⟩ := e.surjective i'
  rw [entries, get_recode]

variable (e)

theorem map_recode (f : α → β) (r : Vector α n) : (recode e r).map f = recode e (r.map f) :=
  eq_recode fun i => by simp

theorem zipWith_recode {γ : Type} (f : α → β → γ) (r : Vector α n) (s : Vector β n) :
    (recode e r).zipWith f (recode e s) = recode e (r.zipWith f s) :=
  eq_recode fun i => by simp

theorem replicate_recode (a : α) : Vector.replicate n' a = recode e (Vector.replicate n a) :=
  eq_recode fun i => by simp

theorem set_recode (r : Vector α n) (i : Fin n) (a : α) :
    (recode e r).set (e i) a (e i).isLt = recode e (r.set i a i.isLt) :=
  eq_recode fun j => by simp [get_set, e.injective.eq_iff]

/-- Recoding only changes the order of the entries. -/
theorem toList_recode_perm (r : Vector α n) : (recode e r).toList.Perm r.toList := by
  have entries := (finRange_perm e).map (recode e r).get
  simpa [Row.toList_eq_ofFn, List.ofFn_eq_map, Function.comp_def] using entries

end Row

/-- The order of an exact sum cannot be seen. -/
theorem total_perm {K : Type} [Field K] {xs ys : List K} (perm : xs.Perm ys) :
    total xs = total ys := by
  rw [total_eq_sum, total_eq_sum, perm.sum_eq]

theorem Row.rowTotal_recode {K : Type} [Field K] [LinearOrder K] {n n' : Nat} (e : Fin n ≃ Fin n')
    (r : Vector K n) : rowTotal (recode e r).toList = rowTotal r.toList :=
  total_perm (toList_recode_perm e r)

/-! ### Tables -/

namespace Table

variable {n n' m m' : Nat} (e : Fin n ≃ Fin n') (f : Fin m ≃ Fin m')

/-- The same table by other codes. -/
def recode (t : Table n m α) : Table n' m' α := .ofFn fun i j => t.get (e.symm i) (f.symm j)

@[simp] theorem get_recode (t : Table n m α) (i : Fin n) (j : Fin m) :
    (t.recode e f).get (e i) (f j) = t.get i j := by
  rw [recode, get_ofFn, e.symm_apply_apply, f.symm_apply_apply]

variable {e f}

theorem eq_recode {t : Table n m α} {u : Table n' m' α}
    (entries : ∀ i j, u.get (e i) (f j) = t.get i j) : u = t.recode e f := by
  refine ext fun i' j' => ?_
  obtain ⟨i, rfl⟩ := e.surjective i'
  obtain ⟨j, rfl⟩ := f.surjective j'
  rw [entries, get_recode]

variable (e f)

theorem row_recode (t : Table n m α) (i : Fin n) :
    (t.recode e f).row (e i) = Row.recode f (t.row i) :=
  Row.eq_recode fun j => by simp

theorem set_recode (t : Table n m α) (i : Fin n) (j : Fin m) (a : α) :
    (t.recode e f).set (e i) (f j) a = (t.set i j a).recode e f :=
  eq_recode fun k l => by simp [get_set, e.injective.eq_iff, f.injective.eq_iff]

/-- What replaces rows, whatever the order of their entries, does so by other codes. -/
theorem mapRows_recode {g : Vector α m → Vector β m} {g' : Vector α m' → Vector β m'}
    (rows : ∀ r, g' (Row.recode f r) = Row.recode f (g r)) (t : Table n m α) :
    (t.recode e f).mapRows g' = (t.mapRows g).recode e f :=
  eq_recode fun i j => by rw [get_mapRows, get_mapRows, row_recode, rows, Row.get_recode]

end Table

/-! ### Frequencies -/

theorem relativeRow_recode {K : Type} [Field K] [LinearOrder K] {n n' : Nat}
    (e : Fin n ≃ Fin n') (r : Vector K n) :
    relativeRow (Row.recode e r) = Row.recode e (relativeRow r) := by
  rw [relativeRow, relativeRow, Row.rowTotal_recode]
  split
  · exact Row.map_recode e _ r
  · rfl

theorem Table.relativeRows_recode {K : Type} [Field K] [LinearOrder K] {n n' m m' : Nat}
    (e : Fin n ≃ Fin n') (f : Fin m ≃ Fin m') (t : Table n m K) :
    (t.recode e f).relativeRows = t.relativeRows.recode e f :=
  t.mapRows_recode e f (relativeRow_recode f)

end Trellis
