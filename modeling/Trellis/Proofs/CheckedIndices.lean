import Mathlib.Data.List.FinRange
import Trellis.Table

/-!
# Checked indices

Rows and tables are read and written at codes, which by their type lie on the axis.
Here an index is any number, and each access first looks whether it lies on the axis
(`inside`); if not, the whole computation has no result. That a computation stays in
bounds (`InBounds`) says that it always has one, and that of the computation over codes.
Sequences stay in bounds if their parts do (`InBounds.bind_map`, `InBounds.bind_ok`), and
so do loops over codes (`InBounds.foldlM`, `InBounds.forM`).
-/

namespace Trellis

/-- Computations that end without a result at an index that is out of bounds. -/
abbrev Checked (μ : Type → Type) : Type → Type := OptionT μ

section Access

variable {μ : Type → Type} [Monad μ] {n m : Nat} {α β : Type}

/-- The position of an index on an axis of length `n`. -/
def inside (n i : Nat) : Checked μ (Fin n) :=
  if h : i < n then pure ⟨i, h⟩ else failure

/-- The member of a list at an index. -/
def member (xs : List α) (i : Nat) : Checked μ α := do
  return xs.get (← inside xs.length i)

def Row.cell (r : Vector α n) (i : Nat) : Checked μ α := do
  return r.get (← inside n i)

def Table.cell (t : Table n m α) (i j : Nat) : Checked μ α := do
  let k ← inside n i
  let l ← inside m j
  return t.get k l

/-- The row of length `n` that has the listed entries. -/
def rowOf (n : Nat) (entries : List α) : Checked μ (Vector α n) :=
  if h : entries.length = n then pure ⟨entries.toArray, by simp [h]⟩ else failure

/-- A row of length `n`, from its entries at the first `size` indices. -/
def tabulate (n size : Nat) (entry : Nat → Checked μ α) : Checked μ (Vector α n) := do
  rowOf n (← (List.range size).mapM entry)

end Access

section Codes

variable {μ : Type → Type} [Monad μ] {n m : Nat} {α β γ : Type}

@[simp] theorem inside_val (k : Fin n) : (inside n k.val : Checked μ _) = pure k :=
  dif_pos k.isLt

@[simp] theorem rowOf_toList (r : Vector α n) : (rowOf n r.toList : Checked μ _) = pure r :=
  dif_pos r.length_toList

/-- The codes of an axis are the numbers below its length. -/
theorem range_eq_map_val (n : Nat) : List.range n = (List.finRange n).map Fin.val :=
  List.map_coe_finRange_eq_range.symm

variable [LawfulMonad μ]

@[simp] theorem Row.cell_val (r : Vector α n) (k : Fin n) :
    (Row.cell r k.val : Checked μ α) = pure (r.get k) := by
  rw [cell, inside_val, pure_bind]

@[simp] theorem Table.cell_val (t : Table n m α) (k : Fin n) (l : Fin m) :
    (t.cell k.val l.val : Checked μ α) = pure (t.get k l) := by
  rw [cell, inside_val, inside_val, pure_bind, pure_bind]

theorem member_eq {xs : List α} {i : Nat} {a : α} (here : xs[i]? = some a) :
    (member xs i : Checked μ α) = pure a := by
  obtain ⟨bound, rfl⟩ := List.getElem?_eq_some_iff.mp here
  have position : (inside xs.length i : Checked μ _) = pure ⟨i, bound⟩ := dif_pos bound
  rw [member, position, pure_bind]
  rfl

/-- What is read for each of some codes, where nothing else is done. -/
theorem mapM_map_eq_pure {v : γ → β} {f : β → Checked μ α} {g : γ → α}
    (reads : ∀ c, f (v c) = pure (g c)) (cs : List γ) :
    (cs.map v).mapM f = pure (cs.map g) := by
  have reading : f ∘ v = fun c => pure (g c) := funext reads
  rw [List.mapM_map, reading, List.mapM_pure]

/-- What is collected over some codes, where nothing else is done. -/
theorem foldlM_map_eq_pure {v : γ → β} {f : α → β → Checked μ α} {g : α → γ → α} {cs : List γ}
    (reads : ∀ a, ∀ c ∈ cs, f a (v c) = pure (g a c)) (a : α) :
    (cs.map v).foldlM f a = pure (cs.foldl g a) := by
  induction cs generalizing a with
  | nil => rfl
  | cons c rest ih =>
    rw [List.map_cons, List.foldlM_cons, reads a c List.mem_cons_self, pure_bind, List.foldl_cons]
    exact ih (fun a d mem => reads a d (List.mem_cons_of_mem c mem)) _

theorem tabulate_eq {f : Nat → Checked μ α} {g : Fin n → α}
    (reads : ∀ k : Fin n, f k.val = pure (g k)) : tabulate n n f = pure (Vector.ofFn g) := by
  rw [tabulate, range_eq_map_val, mapM_map_eq_pure reads, pure_bind, ← List.ofFn_eq_map,
    ← Vector.toList_ofFn, rowOf_toList]

end Codes

/-! ### Staying in bounds -/

section InBounds

variable {μ : Type → Type} [Monad μ] {α β γ δ : Type}

/-- No index is out of bounds in the one computation, and it does what the other does. -/
def InBounds (x : Checked μ α) (y : μ α) : Prop := x.run = some <$> y

namespace InBounds

variable [LawfulMonad μ]

theorem eq_lift_iff {x : Checked μ α} {y : μ α} : InBounds x y ↔ x = liftM y := by
  have lifted : (liftM y : Checked μ α).run = some <$> y := OptionT.run_monadLift y
  rw [InBounds, ← lifted]
  exact ⟨OptionT.ext, fun same => same ▸ rfl⟩

theorem lift (y : μ α) : InBounds (liftM y) y := eq_lift_iff.mpr rfl

theorem pure (a : α) : InBounds (Pure.pure a : Checked μ α) (Pure.pure a) :=
  eq_lift_iff.mpr (liftM_pure a).symm

theorem of_eq_pure {x : Checked μ α} {a : α} (reads : x = Pure.pure a) :
    InBounds x (Pure.pure a) :=
  reads ▸ pure a

/-- A sequence of two computations. What the first returns may be shown in another form,
as codes are by their numbers. -/
theorem bind_map {x : Checked μ β} {y : μ γ} {v : γ → β} {f : β → Checked μ α} {g : γ → μ α}
    (first : InBounds x (v <$> y)) (next : ∀ c, InBounds (f (v c)) (g c)) :
    InBounds (x >>= f) (y >>= g) := by
  have later : (fun c => f (v c)) = fun c => liftM (g c) := funext fun c => eq_lift_iff.mp (next c)
  rw [eq_lift_iff] at first ⊢
  rw [first, liftM_map, bind_map_left, later, liftM_bind]

/-- A second computation that is only run after a first one without error. -/
theorem bind_ok {ε : Type} {x : Checked (Except ε) β} {y : Except ε γ} {v : γ → β}
    {f : β → Checked (Except ε) α} {g : γ → Except ε α} (first : InBounds x (v <$> y))
    (next : ∀ c, y = .ok c → InBounds (f (v c)) (g c)) : InBounds (x >>= f) (y >>= g) := by
  rw [eq_lift_iff] at first
  rw [first]
  cases y with
  | error e => exact .lift (Except.error e)
  | ok c => exact next c rfl

theorem bind {x : Checked μ β} {y : μ β} {f : β → Checked μ α} {g : β → μ α}
    (first : InBounds x y) (next : ∀ b, InBounds (f b) (g b)) :
    InBounds (x >>= f) (y >>= g) :=
  bind_map (v := id) (by rwa [id_map]) next

theorem map {x : Checked μ β} {y : μ β} (f : β → α) (first : InBounds x y) :
    InBounds (f <$> x) (f <$> y) := by
  rw [eq_lift_iff] at first ⊢
  rw [first, liftM_map]

omit [LawfulMonad μ] in
theorem ite {condition : Prop} [Decidable condition] {x x' : Checked μ α} {y y' : μ α}
    (positive : condition → InBounds x y) (negative : ¬ condition → InBounds x' y') :
    InBounds (if condition then x else x') (if condition then y else y') := by
  split
  · rename_i holds
    exact positive holds
  · rename_i fails
    exact negative fails

/-- **A loop** over the numbers of some codes that hands a value on. -/
theorem foldlM {v : γ → β} {f : α → β → Checked μ α} {g : α → γ → μ α}
    (body : ∀ a c, InBounds (f a (v c)) (g a c)) (cs : List γ) (a : α) :
    InBounds ((cs.map v).foldlM f a) (cs.foldlM g a) := by
  induction cs generalizing a with
  | nil => exact .pure a
  | cons c rest ih =>
    rw [List.map_cons, List.foldlM_cons, List.foldlM_cons]
    exact (body a c).bind ih

/-- **A loop** over the numbers of some codes. -/
theorem forM {v : γ → β} {f : β → Checked μ Unit} {g : γ → μ Unit}
    (body : ∀ c, InBounds (f (v c)) (g c)) (cs : List γ) :
    InBounds ((cs.map v).forM f) (cs.forM g) := by
  induction cs with
  | nil => exact .pure ()
  | cons c rest ih => exact (body c).bind fun _ => ih

end InBounds

end InBounds

end Trellis
