import Trellis.Forward
import Trellis.Proofs.Runs

/-!
# The forward recursion, online

The steps of the forward recursion over a sequence are those over any longer one,
as far as they go (`forward_of_append`), and so is its failure
(`forward_append_of_error`): a further symbol adds one step after the last row and
looks at nothing else (`forward_concat`). The scale of a single position is that of
the step (`scaleAt_of_forward`), and filling tables in place, row by row, leaves the
same steps (`foldlM_fillPosition`, `fillForward_eq`). `forward_online` puts this
together. No law of the arithmetic is used, and nothing is known of the total of a
row, so all of this holds where numbers are rounded and in whatever order a row is
summed.
-/

namespace Trellis

variable {S E α : Type} {Q : Alphabet S} {A : Alphabet E}

namespace ForwardStep

variable {n : Nat}

/-- The row of the last of some steps; before the first step, the row before all. -/
def lastRow (previous : Option (Vector α n)) : List (ForwardStep n α) → Option (Vector α n)
  | [] => previous
  | step :: rest => lastRow (some step.row) rest

theorem lastRow_concat (previous : Option (Vector α n)) (steps : List (ForwardStep n α))
    (step : ForwardStep n α) : lastRow previous (steps ++ [step]) = some step.row := by
  induction steps generalizing previous with
  | nil => rfl
  | cons first rest ih => exact ih _

/-- A row that can stand before a position: that of the step before it. Before the first
position any row can stand. -/
def Precedes (steps : List (ForwardStep n α)) (t : Nat) (row : Vector α n) : Prop :=
  ∀ u, t = u + 1 → steps[u]?.map ForwardStep.row = some row

/-- What the recursion has in hand at a position. -/
theorem Precedes.lastRow_take {steps : List (ForwardStep n α)} {t : Nat} {row : Vector α n}
    (before : Precedes steps t row) :
    lastRow none (steps.take t) = if t = 0 then none else some row := by
  cases t with
  | zero => rfl
  | succ u =>
    obtain ⟨step, here, rfl⟩ := Option.map_eq_some_iff.mp (before u rfl)
    rw [List.take_add_one, here, Option.toList_some, lastRow_concat, if_neg u.succ_ne_zero]

end ForwardStep

namespace Model

variable [Arithmetic α]

/-! ### One more symbol -/

/-- The step of a symbol, given the row before it. -/
def nextStep (m : Model Q A α) (position : Nat) (previous : Option (Vector α Q.size))
    (x : A.Code) : Except (Error S E α) (ForwardStep Q.size α) := do
  let raw := m.rawRow previous x
  let scale ← scaleOf position raw
  .ok ⟨raw.map (· / scale), scale⟩

theorem forwardFrom_cons_eq_nextStep (m : Model Q A α) (position : Nat)
    (previous : Option (Vector α Q.size)) (x : A.Code) (rest : List A.Code) :
    m.forwardFrom position previous (x :: rest) = (do
      let step ← m.nextStep position previous x
      let steps ← m.forwardFrom (position + 1) (some step.row) rest
      .ok (step :: steps)) := by
  rw [forwardFrom, nextStep]
  cases scaleOf (S := S) (E := E) position (m.rawRow previous x) with
  | error e => rfl
  | ok scale => rfl

theorem forwardFrom_concat (m : Model Q A α) (position : Nat)
    (previous : Option (Vector α Q.size)) (xs : List A.Code) (x : A.Code) :
    m.forwardFrom position previous (xs ++ [x]) = (do
      let steps ← m.forwardFrom position previous xs
      let step ← m.nextStep (position + xs.length) (ForwardStep.lastRow previous steps) x
      .ok (steps ++ [step])) := by
  induction xs generalizing position previous with
  | nil =>
    rw [List.nil_append, forwardFrom_cons_eq_nextStep]
    rfl
  | cons first rest ih =>
    rw [List.cons_append, forwardFrom_cons_eq_nextStep, forwardFrom_cons_eq_nextStep]
    cases m.nextStep position previous first with
    | error e => rfl
    | ok step =>
      have further : position + (first :: rest).length = position + 1 + rest.length := by
        rw [List.length_cons]
        omega
      simp only [bind, Except.bind, ih, further]
      cases m.forwardFrom (position + 1) (some step.row) rest with
      | error e => rfl
      | ok steps =>
        simp only [ForwardStep.lastRow]
        cases m.nextStep (position + 1 + rest.length)
            (ForwardStep.lastRow (some step.row) steps) x with
        | error e => rfl
        | ok last => rfl

/-- **One more symbol** adds one step, which depends on the last row only. -/
theorem forward_concat (m : Model Q A α) (xs : List A.Code) (x : A.Code) :
    m.forward (xs ++ [x]) = (do
      let steps ← m.forward xs
      let step ← m.nextStep xs.length (ForwardStep.lastRow none steps) x
      .ok (steps ++ [step])) := by
  rw [forward, forwardFrom_concat, Nat.zero_add]
  rfl

theorem forward_concat_ok {m : Model Q A α} {xs : List A.Code} {x : A.Code}
    {steps : List (ForwardStep Q.size α)} (ran : m.forward (xs ++ [x]) = .ok steps) :
    ∃ before step, m.forward xs = .ok before ∧
      m.nextStep xs.length (ForwardStep.lastRow none before) x = .ok step ∧
      steps = before ++ [step] := by
  rw [forward_concat] at ran
  obtain ⟨before, earlier, ran⟩ := bind_eq_ok.mp ran
  obtain ⟨step, stepped, ran⟩ := bind_eq_ok.mp ran
  cases ran
  exact ⟨before, step, earlier, stepped, rfl⟩

theorem length_of_forward {m : Model Q A α} {xs : List A.Code}
    {steps : List (ForwardStep Q.size α)} (ran : m.forward xs = .ok steps) :
    steps.length = xs.length := by
  induction xs using List.reverseRecOn generalizing steps with
  | nil =>
    cases ran
    rfl
  | append_singleton xs x ih =>
    obtain ⟨before, step, earlier, -, rfl⟩ := forward_concat_ok ran
    rw [List.length_append, List.length_append, ih earlier]
    rfl

/-! ### Prefixes -/

/-- **A prefix** of a sequence that has steps has the first of them. -/
theorem forward_of_append {m : Model Q A α} {xs ys : List A.Code}
    {steps : List (ForwardStep Q.size α)} (ran : m.forward (xs ++ ys) = .ok steps) :
    m.forward xs = .ok (steps.take xs.length) := by
  induction ys using List.reverseRecOn generalizing steps with
  | nil =>
    rw [List.append_nil] at ran
    rw [← length_of_forward ran, List.take_length, ran]
  | append_singleton ys y ih =>
    rw [← List.append_assoc] at ran
    obtain ⟨before, step, earlier, -, rfl⟩ := forward_concat_ok ran
    have inside : xs.length ≤ before.length := by
      rw [length_of_forward earlier, List.length_append]
      omega
    rw [List.take_append_of_le_length inside]
    exact ih earlier

theorem forward_take {m : Model Q A α} {xs : List A.Code} {steps : List (ForwardStep Q.size α)}
    (ran : m.forward xs = .ok steps) {t : Nat} (inside : t ≤ xs.length) :
    m.forward (xs.take t) = .ok (steps.take t) := by
  rw [← List.take_append_drop t xs] at ran
  have first := forward_of_append ran
  rwa [List.length_take_of_le inside] at first

/-- **A failure** is not mended by further symbols. -/
theorem forward_append_of_error {m : Model Q A α} {xs : List A.Code} {e : Error S E α}
    (failed : m.forward xs = .error e) (ys : List A.Code) :
    m.forward (xs ++ ys) = .error e := by
  induction ys using List.reverseRecOn with
  | nil => rwa [List.append_nil]
  | append_singleton ys y ih =>
    rw [← List.append_assoc, forward_concat, ih]
    rfl

/-- A failure is that of one position, given the steps up to it. -/
theorem exists_nextStep_of_error {m : Model Q A α} {xs : List A.Code} {e : Error S E α}
    (failed : m.forward xs = .error e) :
    ∃ p, ∃ inside : p < xs.length, ∃ steps, m.forward (xs.take p) = .ok steps ∧
      m.nextStep p (ForwardStep.lastRow none steps) xs[p] = .error e := by
  induction xs using List.reverseRecOn with
  | nil => cases failed
  | append_singleton xs x ih =>
    have longer : (xs ++ [x]).length = xs.length + 1 := List.length_append
    rw [forward_concat] at failed
    rcases bind_eq_error.mp failed with earlier | ⟨steps, ran, failed⟩
    · obtain ⟨p, inside, steps, before, stopped⟩ := ih earlier
      refine ⟨p, by omega, steps, ?_, ?_⟩
      · rwa [List.take_append_of_le_length inside.le]
      · rwa [List.getElem_append_left inside]
    · rcases bind_eq_error.mp failed with stopped | ⟨step, -, impossible⟩
      · refine ⟨xs.length, by omega, steps, ?_, ?_⟩
        · rwa [List.take_left]
        · rwa [List.getElem_concat_length rfl]
      · cases impossible

/-! ### The scale of a single position -/

/-- The scale of a position is that of its step, given the row before it. -/
theorem scaleAt_eq_nextStep (m : Model Q A α) {xs : List A.Code} {t : Nat}
    (inside : t < xs.length) {steps : List (ForwardStep Q.size α)} {row : Vector α Q.size}
    (before : ForwardStep.Precedes steps t row) :
    m.scaleAt xs t row.toList =
      (m.nextStep t (ForwardStep.lastRow none (steps.take t)) xs[t]).map ForwardStep.scale := by
  have same : (⟨row.toList.toArray, by simp⟩ : Vector α Q.size) = row :=
    Vector.toArray_inj.mp Array.toArray_toList
  rw [scaleAt, List.getElem?_eq_getElem inside, before.lastRow_take, nextStep]
  simp only [Vector.length_toList, ↓reduceDIte, same]
  cases scaleOf (S := S) (E := E) t (m.rawRow (if t = 0 then none else some row) xs[t]) with
  | error e => rfl
  | ok scale => rfl

/-- Given the row before a position of a run, the scale there is that of the run. -/
theorem scaleAt_of_forward {m : Model Q A α} {xs : List A.Code}
    {steps : List (ForwardStep Q.size α)} (ran : m.forward xs = .ok steps) {t : Nat}
    (inside : t < steps.length) {row : Vector α Q.size}
    (before : ForwardStep.Precedes steps t row) :
    m.scaleAt xs t row.toList = .ok steps[t].scale := by
  have position : t < xs.length := length_of_forward ran ▸ inside
  -- The step is the last one over the symbols up to its own.
  have upTo : m.forward (xs.take t ++ [xs[t]]) = .ok (steps.take t ++ [steps[t]]) := by
    rw [← List.take_succ_eq_append_getElem, ← List.take_succ_eq_append_getElem]
    exact forward_take ran position
  obtain ⟨_, step, earlier, stepped, same⟩ := forward_concat_ok upTo
  rw [forward_take ran position.le] at earlier
  cases earlier
  obtain rfl : steps[t] = step := List.singleton_inj.mp (List.append_cancel_left same)
  rw [List.length_take_of_le position.le] at stepped
  rw [m.scaleAt_eq_nextStep position before, stepped]
  rfl

/-- A step that fails does so for want of a scale. -/
theorem nextStep_eq_error {m : Model Q A α} {t : Nat} {previous : Option (Vector α Q.size)}
    {x : A.Code} {e : Error S E α} (failed : m.nextStep t previous x = .error e) :
    ∃ sum, e = .numerical t (.scale sum) := by
  rcases bind_eq_error.mp failed with unscaled | ⟨scale, -, impossible⟩
  · simp only [scaleOf] at unscaled
    split at unscaled
    · cases unscaled
    · cases unscaled
      exact ⟨_, rfl⟩
  · cases impossible

theorem scaleAt_of_forward_error {m : Model Q A α} {xs : List A.Code} {e : Error S E α}
    (failed : m.forward xs = .error e) :
    ∃ p sum steps, p < xs.length ∧ e = .numerical p (.scale sum) ∧
      m.forward (xs.take p) = .ok steps ∧
      ∀ row, ForwardStep.Precedes steps p row → m.scaleAt xs p row.toList = .error e := by
  obtain ⟨p, inside, steps, ran, stopped⟩ := exists_nextStep_of_error failed
  obtain ⟨sum, unscaled⟩ := nextStep_eq_error stopped
  refine ⟨p, sum, steps, inside, unscaled, ran, fun row before => ?_⟩
  have all : steps.take p = steps := by
    rw [List.take_of_length_le]
    rw [length_of_forward ran, List.length_take_of_le inside.le]
  rw [m.scaleAt_eq_nextStep inside before, all, stopped]
  rfl

end Model

/-! ### Filling tables -/

/-- The tables of the forward recursion: a row and a scale for each position. -/
structure ForwardTable (T n : Nat) (α : Type) where
  rows : Table T n α
  scales : Vector α T

namespace ForwardTable

variable {T n : Nat}

def zeros [Zero α] : ForwardTable T n α := ⟨.ofFn fun _ _ => 0, .replicate T 0⟩

def step (table : ForwardTable T n α) (t : Fin T) : ForwardStep n α :=
  ⟨table.rows.row t, table.scales.get t⟩

/-- Writes the row and the scale of a position. -/
def record (table : ForwardTable T n α) (t : Fin T) (step : ForwardStep n α) :
    ForwardTable T n α where
  rows := table.rows.setRow t step.row
  scales := table.scales.set t step.scale t.isLt

def steps (table : ForwardTable T n α) : List (ForwardStep n α) :=
  (List.finRange T).map table.step

/-- The row above a position; above the first there is none, and its own row is taken. -/
def rowAbove (table : ForwardTable T n α) (t : Fin T) : Vector α n :=
  table.rows.row ⟨t - 1, by omega⟩

@[simp] theorem length_steps (table : ForwardTable T n α) : table.steps.length = T := by
  simp [steps]

theorem getElem?_steps (table : ForwardTable T n α) (t : Fin T) :
    table.steps[t.val]? = some (table.step t) := by
  simp [steps]

theorem step_record (table : ForwardTable T n α) (t u : Fin T) (step : ForwardStep n α) :
    (table.record t step).step u = if t = u then step else table.step u := by
  rw [ForwardTable.step, record, Table.row_setRow, Row.get_set]
  split
  · rfl
  · rfl

theorem take_steps_record (table : ForwardTable T n α) (t : Fin T) (step : ForwardStep n α) :
    (table.record t step).steps.take (t + 1) = table.steps.take t ++ [step] := by
  have here := getElem?_steps (table.record t step) t
  rw [List.take_add_one, here, Option.toList_some, step_record, if_pos rfl]
  congr 1
  refine List.ext_getElem? fun u => ?_
  rw [List.getElem?_take, List.getElem?_take]
  split
  · rename_i above
    have inside : u < T := above.trans t.isLt
    rw [getElem?_steps _ ⟨u, inside⟩, getElem?_steps _ ⟨u, inside⟩, step_record,
      if_neg (Fin.ne_of_gt above)]
  · rfl

theorem precedes_rowAbove (table : ForwardTable T n α) (t : Fin T) :
    ForwardStep.Precedes table.steps t (table.rowAbove t) := by
  intro u last
  have inside : u < T := by omega
  have above : (⟨t - 1, by omega⟩ : Fin T) = ⟨u, inside⟩ := Fin.ext (show t - 1 = u by omega)
  rw [getElem?_steps table ⟨u, inside⟩, rowAbove, above]
  rfl

end ForwardTable

namespace Model

variable [Arithmetic α]

/-- Computes the row of a position from the table and writes it there. -/
def fillPosition (m : Model Q A α) (xs : List A.Code) (table : ForwardTable xs.length Q.size α)
    (t : Fin xs.length) : Except (Error S E α) (ForwardTable xs.length Q.size α) := do
  let raw := m.rawRow (if t.val = 0 then none else some (table.rowAbove t)) xs[t]
  let scale ← scaleOf t raw
  .ok (table.record t ⟨raw.map (· / scale), scale⟩)

/-- The forward recursion in tables, filled from the first position to the last. -/
def fillForward (m : Model Q A α) (xs : List A.Code) :
    Except (Error S E α) (ForwardTable xs.length Q.size α) :=
  (List.finRange xs.length).foldlM (m.fillPosition xs) .zeros

/-- The row that is written is that of the next step. -/
theorem fillPosition_eq (m : Model Q A α) (xs : List A.Code)
    (table : ForwardTable xs.length Q.size α) (t : Fin xs.length) :
    m.fillPosition xs table t =
      (m.nextStep t (ForwardStep.lastRow none (table.steps.take t)) xs[t]).map
        (table.record t) := by
  rw [fillPosition, (table.precedes_rowAbove t).lastRow_take, nextStep]
  cases scaleOf (S := S) (E := E) t
      (m.rawRow (if t.val = 0 then none else some (table.rowAbove t)) xs[t]) with
  | error e => rfl
  | ok scale => rfl

/-- **The invariant of the filling.** After some positions, the table has the steps of as
many symbols, or the recursion over these has failed. -/
theorem foldlM_fillPosition (m : Model Q A α) (xs : List A.Code) {p : Nat}
    (inside : p ≤ xs.length) :
    (((List.finRange xs.length).take p).foldlM (m.fillPosition xs) .zeros).map
      (fun table => table.steps.take p) = m.forward (xs.take p) := by
  induction p with
  | zero => rfl
  | succ p ih =>
    have here : p < xs.length := inside
    have filled := ih here.le
    have last : (List.finRange xs.length).take (p + 1) =
        (List.finRange xs.length).take p ++ [⟨p, here⟩] := by
      rw [List.take_succ_eq_append_getElem (by simpa using here), List.getElem_finRange]
      rfl
    rw [last, List.foldlM_append, List.take_succ_eq_append_getElem here, forward_concat, ← filled,
      List.length_take_of_le here.le]
    cases ((List.finRange xs.length).take p).foldlM (m.fillPosition xs) .zeros with
    | error e => rfl
    | ok table =>
      -- The row above is that of the last step so far, so the next step is written.
      have next := m.fillPosition_eq xs table ⟨p, here⟩
      simp only [bind, Except.bind, Except.map, List.foldlM_cons, List.foldlM_nil, next]
      cases stepped : m.nextStep p (ForwardStep.lastRow none (table.steps.take p)) xs[p] with
      | error e => rfl
      | ok step => exact congrArg Except.ok (table.take_steps_record ⟨p, here⟩ step)

/-- **Filling the tables** leaves the steps of the recursion. -/
theorem fillForward_eq (m : Model Q A α) (xs : List A.Code) :
    (m.fillForward xs).map ForwardTable.steps = m.forward xs := by
  have filled := m.foldlM_fillPosition xs (le_refl xs.length)
  rw [List.take_of_length_le (by simp), List.take_length] at filled
  rw [← filled, fillForward]
  congr 1
  funext table
  rw [List.take_of_length_le (by simp)]

/-- **Forward is online.** The steps over a prefix are the first of those over the whole,
and a prefix that has none fails as the whole does; the scale of each position, given the
row before it, is that of its step, and where the recursion fails that scale is refused
with the same error. The tables filled in place hold the same steps, or fail alike. -/
theorem forward_online (m : Model Q A α) :
    (∀ xs ys steps, m.forward (xs ++ ys) = .ok steps →
      m.forward xs = .ok (steps.take xs.length)) ∧
    (∀ xs ys e, m.forward xs = .error e → m.forward (xs ++ ys) = .error e) ∧
    (∀ xs steps, m.forward xs = .ok steps → steps.length = xs.length ∧
      ∀ t, ∀ inside : t < steps.length, ∀ row, ForwardStep.Precedes steps t row →
        m.scaleAt xs t row.toList = .ok steps[t].scale) ∧
    (∀ xs e, m.forward xs = .error e →
      ∃ p sum steps, p < xs.length ∧ e = .numerical p (.scale sum) ∧
        m.forward (xs.take p) = .ok steps ∧
        ∀ row, ForwardStep.Precedes steps p row → m.scaleAt xs p row.toList = .error e) ∧
    ∀ xs, (m.fillForward xs).map ForwardTable.steps = m.forward xs :=
  ⟨fun _ _ _ => forward_of_append,
    fun _ ys _ failed => forward_append_of_error failed ys,
    fun _ _ ran => ⟨length_of_forward ran, fun _ inside _ => scaleAt_of_forward ran inside⟩,
    fun _ _ => scaleAt_of_forward_error,
    m.fillForward_eq⟩

/-- The machine, when it has failed from the start. -/
def broken : Model Machine.states Machine.symbols ℚ :=
  .ofParameters Machine.model.toParameters #v[0, 1]

/-- The row in which the machine works with a probability. -/
def workingRow (p : ℚ) : Vector ℚ Machine.states.size :=
  .ofFn fun k => if k = Machine.working then p else 1 - p

/-- The steps of what the machine shows. -/
def shownSteps : List (ForwardStep Machine.states.size ℚ) :=
  [⟨workingRow 1, 3 / 4⟩, ⟨workingRow 1, 3 / 8⟩, ⟨workingRow (1 / 5), 5 / 8⟩]

theorem forward_online_machine :
    Machine.model.forward (Machine.shown.take 2 ++ Machine.shown.drop 2) = .ok shownSteps ∧
    Machine.model.forward (Machine.shown.take 2) = .ok (shownSteps.take 2) ∧
    Machine.model.scaleAt Machine.shown 2 (workingRow 1).toList = .ok (5 / 8) ∧
    broken.forward Machine.shown.reverse = .error (.numerical 1 (.scale 0)) ∧
    broken.forward (Machine.shown.reverse ++ Machine.shown) = .error (.numerical 1 (.scale 0)) ∧
    broken.scaleAt Machine.shown.reverse 1 (workingRow 0).toList =
      .error (.numerical 1 (.scale 0)) := by
  obtain ⟨ofPrefix, -, scales, -, -⟩ := Machine.model.forward_online
  obtain ⟨-, ofFailure, -, refused, -⟩ := broken.forward_online
  have ran : Machine.model.forward Machine.shown = .ok shownSteps := by decide +kernel
  have failed : broken.forward Machine.shown.reverse = .error (.numerical 1 (.scale 0)) := by
    decide +kernel
  refine ⟨ran, ofPrefix _ _ _ ran, ?_, failed, ofFailure _ _ _ failed, ?_⟩
  · have before : ForwardStep.Precedes shownSteps 2 (workingRow 1) := by
      intro u last
      obtain rfl : u = 1 := by omega
      rfl
    exact (scales _ _ ran).2 2 (by decide) (workingRow 1) before
  · obtain ⟨p, sum, steps, -, same, upTo, refused⟩ := refused _ _ failed
    cases same
    have first : broken.forward (Machine.shown.reverse.take 1) = .ok [⟨workingRow 0, 1⟩] := by
      decide +kernel
    cases first.symm.trans upTo
    refine refused (workingRow 0) fun u last => ?_
    obtain rfl : u = 0 := by omega
    rfl

end Model

end Trellis
