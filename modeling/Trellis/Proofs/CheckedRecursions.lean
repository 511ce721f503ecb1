import Trellis.Posterior
import Trellis.Proofs.CheckedFinishing
import Trellis.Proofs.OnlineForward

/-!
# Recursions by number

The recursions over a sequence of symbol numbers, with every access to the tables of the
model and to their own rows looking whether its indices are in bounds. Given the numbers
of codes, each of them stays in bounds and comes to the rows of the recursion at codes
(`InBounds.forward`, `InBounds.scaleAt`, `InBounds.backward`, `InBounds.posteriors`).
-/

namespace Trellis

variable {S E α : Type} {Q : Alphabet S} {A : Alphabet E}

/-- The numbers of some names, which all have to be known. -/
def Checked.encode {τ ε : Type} [DecidableEq τ] [Hashable τ] (C : CodeMap τ) (unknown : τ → ε)
    (names : List τ) : Checked (Except ε) (List Nat) :=
  liftM (C.encode unknown names)

theorem InBounds.encode {τ ε : Type} [DecidableEq τ] [Hashable τ] (R : Alphabet τ)
    (unknown : τ → ε) (names : List τ) :
    InBounds (Checked.encode R.codeMap unknown names)
      (List.map Fin.val <$> (R.encode names).mapError unknown) := by
  rw [Checked.encode, R.encode_codeMap]
  exact .lift _

variable [Arithmetic α]

namespace Checked

variable {μ : Type → Type} [Monad μ] (m : Model Q A α)

/-! ### Rows -/

section Rows

def transition (i j : Nat) : Checked μ α := do
  return (← m.transitions.cell i j).elim 0 Entry.probability

def emission (i x : Nat) : Checked μ α := do
  return (← m.emissions.cell i x).probability

/-- The probability of arriving in a state, from the previous row or at the start. -/
def arrival (previous : Option (Vector α Q.size)) (j : Nat) : Checked μ α :=
  match previous with
  | none => Row.cell m.initial j
  | some row => do
    let terms ← (← predecessors m j).mapM fun i => do
      return (← Row.cell row i) * (← transition m i j)
    return total terms

variable [DecidableEq S] [Hashable S] (C : CodeMap S)

def rawRow (previous : Option (Vector α Q.size)) (x : Nat) : Checked μ (Vector α Q.size) :=
  tabulate Q.size C.size fun i => do return (← emission m i x) * (← arrival m previous i)

/-- The backward row before a symbol, given the scale and the row there. -/
def backwardRow (x : Nat) (scale : α) (next : Vector α Q.size) : Checked μ (Vector α Q.size) :=
  tabulate Q.size C.size fun i => do
    let terms ← (← successors m i).mapM fun j => do
      return (← transition m i j) * (← emission m j x) * (← Row.cell next j)
    return total terms / scale

def backwardRows :
    List (Nat × α) → Checked μ (Vector α Q.size × List (Vector α Q.size))
  | [] => return (.replicate Q.size 1, [])
  | (x, scale) :: later => do
    let (next, rows) ← backwardRows later
    return (← backwardRow m C x scale next, next :: rows)

end Rows

/-! ### Sequences -/

section Sequences

variable [DecidableEq S] [Hashable S] (C : CodeMap S)

/-- Computes the row of a position from the table and writes it there. -/
def fillPosition {T : Nat} (xs : List Nat) (table : ForwardTable T Q.size α) (position : Nat) :
    Checked (Except (Error S E α)) (ForwardTable T Q.size α) := do
  let above ← inside T (position - 1)
  let x ← member xs position
  let raw ← rawRow m C (if position = 0 then none else some (table.rows.row above)) x
  let scale ← liftM (Model.scaleOf position raw : Except (Error S E α) α)
  let t ← inside T position
  return table.record t ⟨raw.map (· / scale), scale⟩

/-- The forward recursion by number, as a loop over two tables that start with zeros. -/
def forward (xs : List Nat) : Checked (Except (Error S E α)) (List (ForwardStep Q.size α)) :=
  ForwardTable.steps <$>
    (List.range xs.length).foldlM (fillPosition m C (T := xs.length) xs) .zeros

/-- The scale of one position, given the row before it. -/
def scaleAt (xs : List Nat) (position : Nat) (previous : List α) :
    Checked (Except (Error S E α)) α :=
  if xs.length ≤ position then
    liftM (.error (.positionOutOfRange .scale position xs.length) : Except (Error S E α) α)
  else if previous.length = C.size then do
    let x ← member xs position
    let row ← rowOf Q.size previous
    let raw ← rawRow m C (if position = 0 then none else some row) x
    liftM (Model.scaleOf position raw : Except (Error S E α) α)
  else
    liftM (.error (.sizeMismatch .scale C.size previous.length) : Except (Error S E α) α)

/-- The backward recursion by number, with the scales it is to divide by. -/
def backward (xs : List Nat) (scales : List α) :
    Checked (Except (Error S E α)) (List (Vector α Q.size)) :=
  if scales.length = xs.length then
    match xs.zip scales with
    | [] => return []
    | _ :: later => do
      let (first, rows) ← backwardRows m C later
      return first :: rows
  else
    liftM (.error (.sizeMismatch .backward xs.length scales.length) : Except (Error S E α) _)

/-- Both recursions and the posteriors over a sequence, position by position. -/
def smooth (xs : List Nat) : Checked (Except (Error S E α)) (List (Model.Smoothed Q.size α)) := do
  let steps ← forward m C xs
  let rows ← backward m C xs (steps.map ForwardStep.scale)
  let posteriors ← liftM (Model.posteriorRows 0 ((steps.map ForwardStep.row).zip rows) :
    Except (Error S E α) (List (Vector α Q.size)))
  return ((steps.zip rows).zip posteriors).map fun ((f, b), p) => ⟨f, b, p⟩

/-- The posterior distributions by number. -/
def posteriors (xs : List Nat) : Checked (Except (Error S E α)) (List (Vector α Q.size)) :=
  List.map Model.Smoothed.posterior <$> smooth m C xs

end Sequences

/-! ### Rows at codes -/

section Codes

variable [LawfulMonad μ]

theorem transition_val (k l : Q.Code) :
    (transition m k.val l.val : Checked μ α) = pure (m.transition k l) := by
  rw [transition, Table.cell_val, pure_bind]
  rfl

omit [Arithmetic α] in
theorem emission_val (k : Q.Code) (x : A.Code) :
    (emission m k.val x.val : Checked μ α) = pure (m.emission k x) := by
  rw [emission, Table.cell_val, pure_bind]
  rfl

theorem arrival_val (previous : Option (Vector α Q.size)) (l : Q.Code) :
    (arrival m previous l.val : Checked μ α) = pure (m.arrival previous l) := by
  cases previous with
  | none => exact Row.cell_val m.initial l
  | some row =>
    rw [arrival, predecessors_val, pure_bind, mapM_map_eq_pure (g := fun k =>
      row.get k * m.transition k l), pure_bind]
    · rfl
    · intro k
      rw [Row.cell_val, transition_val, pure_bind, pure_bind]

variable [DecidableEq S] [Hashable S]

theorem rawRow_val (previous : Option (Vector α Q.size)) (x : A.Code) :
    (rawRow m Q.codeMap previous x.val : Checked μ _) = pure (m.rawRow previous x) := by
  refine tabulate_eq fun k => ?_
  rw [emission_val, arrival_val, pure_bind, pure_bind]

theorem backwardRow_val (x : A.Code) (scale : α) (next : Vector α Q.size) :
    (backwardRow m Q.codeMap x.val scale next : Checked μ _) =
      pure (m.backwardRow x scale next) := by
  refine tabulate_eq fun k => ?_
  rw [successors_val, pure_bind, mapM_map_eq_pure (g := fun l =>
    m.transition k l * m.emission l x * next.get l), pure_bind]
  intro l
  rw [transition_val, emission_val, Row.cell_val, pure_bind, pure_bind, pure_bind]

theorem backwardRows_val (later : List (A.Code × α)) :
    (backwardRows m Q.codeMap (later.map (Prod.map Fin.val id)) : Checked μ _) =
      pure (m.backwardRows later) := by
  induction later with
  | nil => rfl
  | cons position rest ih =>
    obtain ⟨x, scale⟩ := position
    rw [List.map_cons, Prod.map_apply, backwardRows, ih, pure_bind]
    simp only [backwardRow_val, pure_bind, id_eq]
    rfl

end Codes

end Checked

/-! ### Recursions in bounds -/

namespace InBounds

variable [DecidableEq S] [Hashable S] (m : Model Q A α)

theorem fillPosition {xs : List A.Code} (table : ForwardTable xs.length Q.size α)
    (t : Fin xs.length) :
    InBounds (Checked.fillPosition m Q.codeMap (xs.map Fin.val) table t.val)
      (m.fillPosition xs table t : Except (Error S E α) _) := by
  have above : (inside xs.length (t.val - 1) : Checked (Except (Error S E α)) _) =
      Pure.pure ⟨t - 1, by omega⟩ := inside_val ⟨t - 1, by omega⟩
  have here : (xs.map Fin.val)[t.val]? = some xs[t].val := by simp
  rw [Checked.fillPosition, above, pure_bind, member_eq here, pure_bind, Checked.rawRow_val,
    pure_bind]
  refine (lift _).bind fun scale => ?_
  rw [inside_val, pure_bind]
  exact .pure _

/-- **The forward recursion** by number. -/
theorem forward (xs : List A.Code) :
    InBounds (Checked.forward m Q.codeMap (xs.map Fin.val))
      (m.forward xs : Except (Error S E α) _) := by
  have filled : ForwardTable.steps <$> m.fillForward xs = (m.forward xs : Except (Error S E α) _) :=
    m.fillForward_eq xs
  rw [← filled, Checked.forward, List.length_map, range_eq_map_val]
  exact (foldlM (fillPosition m) _ _).map ForwardTable.steps

/-- **The scale of one position** by number. -/
theorem scaleAt (xs : List A.Code) (position : Nat) (previous : List α) :
    InBounds (Checked.scaleAt m Q.codeMap (xs.map Fin.val) position previous)
      (m.scaleAt xs position previous : Except (Error S E α) α) := by
  rw [Checked.scaleAt, List.length_map, Q.size_codeMap, Model.scaleAt]
  by_cases past : xs.length ≤ position
  · rw [if_pos past, List.getElem?_eq_none past]
    exact .lift _
  · have within : xs[position]? = some xs[position] :=
      List.getElem?_eq_getElem (Nat.lt_of_not_le past)
    have here : (xs.map Fin.val)[position]? = some xs[position].val := by
      rw [List.getElem?_map, within, Option.map_some]
    rw [if_neg past, within]
    dsimp only
    by_cases length : previous.length = Q.size
    · have row : (rowOf Q.size previous : Checked (Except (Error S E α)) _) = _ := dif_pos length
      rw [if_pos length, dif_pos length, member_eq here, pure_bind, row, pure_bind,
        Checked.rawRow_val, pure_bind]
      exact .lift _
    · rw [if_neg length, dif_neg length]
      exact .lift _

/-- **The backward recursion** by number. -/
theorem backward (xs : List A.Code) (scales : List α) :
    InBounds (Checked.backward m Q.codeMap (xs.map Fin.val) scales)
      (m.backward xs scales : Except (Error S E α) _) := by
  rw [Checked.backward, Model.backward, List.length_map, List.zip_map_left]
  refine ite (fun _ => ?_) fun _ => .lift _
  cases xs.zip scales with
  | nil => exact .pure []
  | cons position later =>
    rw [List.map_cons]
    dsimp only
    rw [Checked.backwardRows_val, pure_bind]
    exact .pure _

theorem smooth (xs : List A.Code) :
    InBounds (Checked.smooth m Q.codeMap (xs.map Fin.val))
      (m.smooth xs : Except (Error S E α) _) := by
  refine (forward m xs).bind fun steps => (backward m xs _).bind fun rows => ?_
  exact (lift _).bind fun posteriors => .pure _

/-- **The posteriors** by number. -/
theorem posteriors (xs : List A.Code) :
    InBounds (Checked.posteriors m Q.codeMap (xs.map Fin.val))
      (m.posteriors xs : Except (Error S E α) _) :=
  (smooth m xs).map _

end InBounds

end Trellis
