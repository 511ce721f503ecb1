/-!
# Rows and tables

A row is a vector read by its codes, a table a vector of rows of one length.
Every operation has an equation for the cells it leaves, and two tables with
the same cells are equal, so the layout is never unfolded outside this module.
-/

namespace Trellis

/-! ### Rows -/

namespace Row

variable {n : Nat} {α β γ : Type}

theorem get_eq (r : Vector α n) (i : Fin n) : r.get i = r[i.val] := rfl

theorem ext {r s : Vector α n} (h : ∀ i, r.get i = s.get i) : r = s :=
  Vector.ext fun i hi => h ⟨i, hi⟩

@[simp] theorem get_ofFn (f : Fin n → α) (i : Fin n) : (Vector.ofFn f).get i = f i := by
  simp [get_eq]

@[simp] theorem get_replicate (a : α) (i : Fin n) : (Vector.replicate n a).get i = a := by
  simp [get_eq]

@[simp] theorem get_map (f : α → β) (r : Vector α n) (i : Fin n) :
    (r.map f).get i = f (r.get i) := by
  simp [get_eq]

@[simp] theorem get_zipWith (f : α → β → γ) (r : Vector α n) (s : Vector β n) (i : Fin n) :
    (r.zipWith f s).get i = f (r.get i) (s.get i) := by
  simp [get_eq]

theorem get_set (r : Vector α n) (i k : Fin n) (a : α) :
    (r.set i a).get k = if i = k then a else r.get k := by
  simp only [get_eq, Vector.getElem_set, Fin.ext_iff]

end Row

/-! ### Tables -/

/-- A table of `n` rows and `m` columns. -/
structure Table (n m : Nat) (α : Type) where
  rows : Vector (Vector α m) n
deriving DecidableEq

namespace Table

variable {n m : Nat} {α β : Type}

def row (t : Table n m α) (i : Fin n) : Vector α m := t.rows.get i

def get (t : Table n m α) (i : Fin n) (j : Fin m) : α := (t.row i).get j

def ofFn (f : Fin n → Fin m → α) : Table n m α :=
  ⟨Vector.ofFn fun i => Vector.ofFn (f i)⟩

def setRow (t : Table n m α) (i : Fin n) (r : Vector α m) : Table n m α :=
  ⟨t.rows.set i r⟩

/-- Replaces one cell. -/
def set (t : Table n m α) (i : Fin n) (j : Fin m) (a : α) : Table n m α :=
  t.setRow i ((t.row i).set j a)

/-- Replaces each row as a whole. -/
def mapRows (f : Vector α m → Vector β m) (t : Table n m α) : Table n m β :=
  ⟨t.rows.map f⟩

def toLists (t : Table n m α) : List (List α) :=
  t.rows.toList.map Vector.toList

@[ext] theorem ext {s t : Table n m α} (h : ∀ i j, s.get i j = t.get i j) : s = t := by
  obtain ⟨s⟩ := s
  obtain ⟨t⟩ := t
  congr 1
  exact Row.ext fun i => Row.ext (h i)

@[simp] theorem get_row (t : Table n m α) (i : Fin n) (j : Fin m) :
    (t.row i).get j = t.get i j := rfl

@[simp] theorem row_ofFn (f : Fin n → Fin m → α) (i : Fin n) :
    (ofFn f).row i = Vector.ofFn (f i) := by
  simp [row, ofFn]

@[simp] theorem get_ofFn (f : Fin n → Fin m → α) (i : Fin n) (j : Fin m) :
    (ofFn f).get i j = f i j := by
  simp [get]

@[simp] theorem ofFn_get (t : Table n m α) : ofFn t.get = t :=
  ext fun i j => get_ofFn t.get i j

theorem row_setRow (t : Table n m α) (i k : Fin n) (r : Vector α m) :
    (t.setRow i r).row k = if i = k then r else t.row k :=
  Row.get_set t.rows i k r

theorem get_setRow (t : Table n m α) (i k : Fin n) (r : Vector α m) (j : Fin m) :
    (t.setRow i r).get k j = if i = k then r.get j else t.get k j := by
  simp only [get, row_setRow]
  split <;> rfl

theorem get_set (t : Table n m α) (i k : Fin n) (j l : Fin m) (a : α) :
    (t.set i j a).get k l = if i = k ∧ j = l then a else t.get k l := by
  rw [set, get_setRow, Row.get_set]
  by_cases hi : i = k
  · subst hi
    by_cases hj : j = l <;> simp [hj]
  · simp [hi]

@[simp] theorem row_mapRows (f : Vector α m → Vector β m) (t : Table n m α) (i : Fin n) :
    (t.mapRows f).row i = f (t.row i) := by
  simp [row, mapRows]

@[simp] theorem get_mapRows (f : Vector α m → Vector β m) (t : Table n m α) (i : Fin n)
    (j : Fin m) : (t.mapRows f).get i j = (f (t.row i)).get j := by
  rw [← get_row, row_mapRows]

end Table

end Trellis
