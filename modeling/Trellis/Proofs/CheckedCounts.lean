import Trellis.Counts.Expected
import Trellis.Counts.Labelled
import Trellis.Proofs.CheckedRecursions
import Trellis.Proofs.Decoding
import Trellis.Proofs.Encoding

/-!
# Counting by number

Counts are taken position by position: amounts are added to the cells of tables that
start with zeros. Here the cells are found by numbers, with every access looking whether
its indices are in bounds (`InBounds.expectedCounts`, `InBounds.labelledCounts`). A cell
ends with the sum of what was added to it, in the order in which it was met
(`Table.get_gather`), so no law of addition is needed to compare. What is counted along a
known path is added as ones; in a field these are the counts of the path
(`ones_eq_natCast`).
-/

namespace Trellis

variable {S E α σ : Type} {Q : Alphabet S} {A : Alphabet E} [Arithmetic α]

/-! ### Adding to cells -/

namespace Row

variable {n : Nat}

/-- Adds an amount to an entry. -/
def deposit (r : Vector α n) (i : Fin n) (amount : α) : Vector α n :=
  r.set i (r.get i + amount) i.isLt

theorem get_deposit (r : Vector α n) (i k : Fin n) (amount : α) :
    (deposit r i amount).get k = if i = k then r.get k + amount else r.get k := by
  rw [deposit, get_set]
  by_cases here : i = k
  · rw [if_pos here, if_pos here, here]
  · rw [if_neg here, if_neg here]

end Row

namespace Table

variable {n m : Nat} {π : Type}

/-- Adds an amount to a cell. -/
def deposit (t : Table n m α) (cell : Fin n × Fin m) (amount : α) : Table n m α :=
  t.set cell.1 cell.2 (t.get cell.1 cell.2 + amount)

theorem get_deposit (t : Table n m α) (cell : Fin n × Fin m) (amount : α) (k : Fin n)
    (l : Fin m) :
    (t.deposit cell amount).get k l =
      if (k, l) = cell then t.get k l + amount else t.get k l := by
  obtain ⟨i, j⟩ := cell
  rw [deposit, get_set]
  by_cases here : (k, l) = (i, j)
  · obtain ⟨rfl, rfl⟩ := Prod.mk.injEq .. ▸ here
    rw [if_pos ⟨rfl, rfl⟩, if_pos rfl]
  · rw [if_neg here, if_neg]
    rintro ⟨rfl, rfl⟩
    exact here rfl

/-- Starts with zeros, visits some places in turn and adds at each an amount to each of
its cells. -/
def gather (places : List π) (cells : π → List (Fin n × Fin m))
    (amount : π → Fin n × Fin m → α) : Table n m α :=
  places.foldl (fun t p => (cells p).foldl (fun t c => t.deposit c (amount p c)) t)
    (.ofFn fun _ _ => 0)

/-- One place. -/
theorem get_foldl_deposit {cells : List (Fin n × Fin m)} (nodup : cells.Nodup)
    (amount : Fin n × Fin m → α) (t : Table n m α) (k : Fin n) (l : Fin m) :
    (cells.foldl (fun t c => t.deposit c (amount c)) t).get k l =
      if (k, l) ∈ cells then t.get k l + amount (k, l) else t.get k l := by
  induction cells generalizing t with
  | nil => rfl
  | cons c rest ih =>
    obtain ⟨fresh, nodup⟩ := List.nodup_cons.mp nodup
    rw [List.foldl_cons, ih nodup, get_deposit]
    by_cases here : (k, l) = c
    · subst here
      simp [fresh]
    · simp [here]

/-- **What a cell ends with** is the sum of what the places added to it. -/
theorem get_gather {places : List π} {cells : π → List (Fin n × Fin m)}
    (nodup : ∀ p, (cells p).Nodup) (amount : π → Fin n × Fin m → α) (k : Fin n) (l : Fin m) :
    (gather places cells amount).get k l =
      total ((places.filter fun p => (k, l) ∈ cells p).map fun p => amount p (k, l)) := by
  -- the passes after the first start from a table that is not zero
  have from_table (t : Table n m α) :
      (places.foldl (fun t p => (cells p).foldl (fun t c => t.deposit c (amount p c)) t) t).get
        k l = ((places.filter fun p => (k, l) ∈ cells p).map fun p => amount p (k, l)).foldl
          (· + ·) (t.get k l) := by
    induction places generalizing t with
    | nil => rfl
    | cons p rest ih =>
      rw [List.foldl_cons, ih, get_foldl_deposit (nodup p)]
      by_cases here : (k, l) ∈ cells p
      · simp [here]
      · simp [here]
  rw [gather, from_table, get_ofFn, total]

end Table

/-- One, added up so many times. -/
def ones (n : Nat) : α := total (List.replicate n 1)

namespace Table

variable {n m : Nat}

/-- Counts what is met: each cell that is met has one added. -/
def tally (met : List (Fin n × Fin m)) : Table n m α := gather met (fun c => [c]) fun _ _ => 1

theorem get_tally (met : List (Fin n × Fin m)) (k : Fin n) (l : Fin m) :
    (tally met : Table n m α).get k l = ones (met.count (k, l)) := by
  have same : (met.filter fun c => (k, l) ∈ [c]) = met.filter (· == (k, l)) :=
    List.filter_congr fun c _ => by rw [beq_eq_decide]; simp [eq_comm]
  rw [tally, get_gather fun c => List.nodup_singleton c, List.map_const', same, ones, List.count,
    List.countP_eq_length_filter]

theorem tally_concat (met : List (Fin n × Fin m)) (cell : Fin n × Fin m) :
    (tally (met ++ [cell]) : Table n m α) = (tally met).deposit cell 1 :=
  List.foldl_append

end Table

/-! ### Expected counts -/

section ArcCells

omit [Arithmetic α]

variable (m : Model Q A α)

/-- The cells of the arcs of a model, by source and then by target. -/
def Model.arcCells : List (Q.Code × Q.Code) :=
  Q.codes.flatMap fun k => (m.successors k).map (Prod.mk k)

theorem Model.mem_arcCells (k l : Q.Code) : (k, l) ∈ m.arcCells ↔ m.allows k l = true := by
  simp [arcCells, successors_eq, Alphabet.codes]

theorem Model.nodup_arcCells : m.arcCells.Nodup := by
  refine List.nodup_flatMap.mpr ⟨fun k _ => ?_, ?_⟩
  · rw [successors_eq]
    exact ((List.nodup_finRange Q.size).filter _).map fun _ _ same => congrArg Prod.snd same
  · refine (List.nodup_finRange Q.size).imp fun {i j} differ c of_i of_j => differ ?_
    obtain ⟨_, -, rfl⟩ := List.mem_map.mp of_i
    obtain ⟨_, -, same⟩ := List.mem_map.mp of_j
    exact (congrArg Prod.fst same).symm

end ArcCells

namespace Model

/-- Expected emissions, position by position. -/
theorem expectedEmissions_eq_gather (positions : Positions Q A α) :
    (Table.ofFn (expectedEmissions positions) : Table Q.size A.size α) =
      .gather positions (fun p => Q.codes.map fun k => (k, p.1))
        fun p c => p.2.posterior.get c.1 := by
  refine Table.ext fun k x => ?_
  have nodup (p : A.Code × Smoothed Q.size α) : (Q.codes.map fun k => (k, p.1)).Nodup :=
    (List.nodup_finRange Q.size).map fun _ _ same => congrArg Prod.fst same
  rw [Table.get_ofFn, Table.get_gather nodup]
  simp [expectedEmissions, Alphabet.codes]

/-- Expected steps, from position to position. -/
theorem expectedSteps_eq_gather (m : Model Q A α) (positions : Positions Q A α) :
    Table.ofFn (m.expectedSteps positions) =
      .gather (positions.zip positions.tail) (fun _ => m.arcCells) fun step c =>
        step.1.2.forward.row.get c.1 * m.transition c.1 c.2 * m.emission c.2 step.2.1 *
          step.2.2.backward.get c.2 / step.2.2.forward.scale := by
  refine Table.ext fun k l => ?_
  rw [Table.get_ofFn, Table.get_gather fun _ => m.nodup_arcCells, expectedSteps]
  simp only [m.mem_arcCells]
  split
  · rename_i allowed
    simp [allowed]
  · rename_i forbidden
    simp [forbidden]

end Model

namespace Checked

section Expected

variable {μ : Type → Type} [Monad μ]

def addAt {n m : Nat} (t : Table n m α) (i j : Nat) (amount : α) : Checked μ (Table n m α) := do
  let k ← inside n i
  let l ← inside m j
  return t.deposit (k, l) amount

variable [DecidableEq S] [Hashable S] (C : CodeMap S)

def expectedEmissions (positions : List (Nat × Model.Smoothed Q.size α)) :
    Checked μ (Table Q.size A.size α) :=
  positions.foldlM (fun t (x, p) =>
    (List.range C.size).foldlM (fun t i => do addAt t i x (← Row.cell p.posterior i)) t)
    (.ofFn fun _ _ => 0)

def expectedSteps (m : Model Q A α) (positions : List (Nat × Model.Smoothed Q.size α)) :
    Checked μ (Table Q.size Q.size α) :=
  (positions.zip positions.tail).foldlM (fun t ((_, here), (x, next)) =>
    (List.range C.size).foldlM (fun t i => do
      let a ← Row.cell here.forward.row i
      (← successors m i).foldlM (fun t j => do
        addAt t i j (a * (← transition m i j) * (← emission m j x) * (← Row.cell next.backward j)
          / next.forward.scale)) t) t)
    (.ofFn fun _ _ => 0)

variable [LawfulMonad μ]

omit [DecidableEq S] [Hashable S] in
theorem addAt_val {n m : Nat} (t : Table n m α) (k : Fin n) (l : Fin m) (amount : α) :
    (addAt t k.val l.val amount : Checked μ _) = pure (t.deposit (k, l) amount) := by
  rw [addAt, inside_val, inside_val, pure_bind, pure_bind]

theorem expectedEmissions_eq (positions : Model.Positions Q A α) :
    (expectedEmissions Q.codeMap (positions.map (Prod.map Fin.val id)) : Checked μ _) =
      pure (.ofFn (Model.expectedEmissions positions)) := by
  rw [Model.expectedEmissions_eq_gather, expectedEmissions, Table.gather]
  refine foldlM_map_eq_pure (fun t position _ => ?_) _
  obtain ⟨x, p⟩ := position
  rw [Q.range_size_codeMap, List.foldl_map]
  refine foldlM_map_eq_pure (fun t k _ => ?_) _
  rw [Row.cell_val, pure_bind]
  exact addAt_val _ _ _ _

theorem expectedSteps_eq (m : Model Q A α) (positions : Model.Positions Q A α) :
    (expectedSteps Q.codeMap m (positions.map (Prod.map Fin.val id)) : Checked μ _) =
      pure (.ofFn (m.expectedSteps positions)) := by
  rw [m.expectedSteps_eq_gather, expectedSteps, Table.gather, ← List.map_tail, List.zip_map]
  refine foldlM_map_eq_pure (fun t step _ => ?_) _
  obtain ⟨⟨y, here⟩, x, next⟩ := step
  rw [Q.range_size_codeMap, Model.arcCells, List.foldl_flatMap]
  refine foldlM_map_eq_pure (fun t k _ => ?_) _
  rw [Row.cell_val, pure_bind, successors_val, pure_bind, List.foldl_map]
  refine foldlM_map_eq_pure (fun t l _ => ?_) _
  rw [transition_val, emission_val, Row.cell_val, pure_bind, pure_bind, pure_bind]
  exact addAt_val _ _ _ _

end Expected

section Counts

variable [Score σ] [Logarithm α σ] [DecidableEq S] [Hashable S] (m : Model Q A α) (C : CodeMap S)

/-- The expected counts by number: both recursions, the posteriors, and a pass over the
positions for each table. -/
def expectedCounts (xs : List Nat) :
    Checked (Except (Error S E α)) (Counts (.ofModel Q.size A.size) α σ) := do
  let smoothed ← smooth m C xs
  let positions := xs.zip smoothed
  let emissions ← expectedEmissions C positions
  let transitions ← expectedSteps C m positions
  return {
    initial := positions.head?.elim (.replicate _ 0) fun p => p.2.posterior
    transitions, emissions
    logLikelihood := ForwardStep.logLikelihood (smoothed.map Model.Smoothed.forward) }

end Counts

end Checked

/-- **The expected counts** by number are those over codes. -/
theorem InBounds.expectedCounts [Score σ] [Logarithm α σ] [DecidableEq S] [Hashable S]
    (m : Model Q A α) (xs : List A.Code) :
    InBounds (Checked.expectedCounts m Q.codeMap (xs.map Fin.val))
      (m.expectedCounts xs : Except (Error S E α) (Counts _ α σ)) := by
  refine (smooth m xs).bind fun smoothed => ?_
  dsimp only
  rw [List.zip_map_left, Checked.expectedEmissions_eq, pure_bind, Checked.expectedSteps_eq,
    pure_bind]
  have starts : .ofFn (Model.expectedStart (xs.zip smoothed)) =
      ((xs.zip smoothed).map (Prod.map Fin.val id)).head?.elim (.replicate _ 0)
        fun p => p.2.posterior := by
    refine Row.ext fun k => ?_
    rw [Row.get_ofFn]
    cases xs.zip smoothed with
    | nil => exact (Row.get_replicate _ k).symm
    | cons p rest => rfl
  rw [← starts]
  exact .pure _

/-! ### Counts of a known path -/

/-- What has been counted of a known path, and the factors that were met on it. -/
structure Tally (Q : Alphabet S) (A : Alphabet E) (α : Type) where
  transitions : Table Q.size Q.size α
  emissions : Table Q.size A.size α
  factors : List α

namespace Tally

variable (m : Model Q A α)

/-- What is counted of a whole path. -/
def ofPath (path : List (Q.Code × A.Code)) : Tally Q A α where
  transitions := .tally ((path.map Prod.fst).zip (path.map Prod.fst).tail)
  emissions := .tally path
  factors := m.factors path

/-- The counts of a path that starts in a state. -/
def counts [Score σ] [Logarithm α σ] (t : Tally Q A α) (start : Q.Code) :
    Counts (.ofModel Q.size A.size) α σ where
  initial := Row.deposit (.replicate Q.size 0) start 1
  transitions := t.transitions
  emissions := t.emissions
  logLikelihood := logLikelihood t.factors

def addStep (t : Tally Q A α) (k l : Q.Code) : Tally Q A α :=
  { t with
    transitions := t.transitions.deposit (k, l) 1
    factors := t.factors ++ [m.transition k l] }

def addEmission (t : Tally Q A α) (k : Q.Code) (x : A.Code) : Tally Q A α :=
  { t with emissions := t.emissions.deposit (k, x) 1, factors := t.factors ++ [m.emission k x] }

/-- Goes on over the arc to a state, if there is one. -/
def takeArc (k : Q.Code) (t : Tally Q A α) (l : Q.Code) : Except (Error S E α) (Tally Q A α) :=
  if m.allows k l then .ok (t.addStep m k l) else .error (.notAllowed (Q.symbol k) (Q.symbol l))

/-- Goes on counting from a state, up to the first forbidden arc. -/
def follow (k : Q.Code) (t : Tally Q A α) :
    List (Q.Code × A.Code) → Except (Error S E α) (Tally Q A α)
  | [] => .ok t
  | (l, x) :: rest => do
    let t ← t.takeArc m k l
    follow l (t.addEmission m l x) rest

theorem ofPath_concat (front : List (Q.Code × A.Code)) (k l : Q.Code) (y x : A.Code) :
    ofPath m (front ++ [(k, y)] ++ [(l, x)]) =
      ((ofPath m (front ++ [(k, y)])).addStep m k l).addEmission m l x := by
  have steps (before : List Q.Code) : (before ++ [k] ++ [l]).zip (before ++ [k] ++ [l]).tail =
      (before ++ [k]).zip (before ++ [k]).tail ++ [(k, l)] := by
    induction before with
    | nil => rfl
    | cons i rest ih =>
      cases rest with
      | nil => rfl
      | cons j rest => exact congrArg _ ih
  have before : (front ++ [(k, y)]).map Prod.fst = front.map Prod.fst ++ [k] := List.map_append
  have after : (front ++ [(k, y)] ++ [(l, x)]).map Prod.fst = front.map Prod.fst ++ [k] ++ [l] := by
    rw [List.map_append, before]
    rfl
  rw [ofPath, after, steps, Table.tally_concat, Table.tally_concat, m.factors_concat, ← before]
  simp [addStep, addEmission, ofPath]

/-- Following a path to its end counts all of it. -/
theorem follow_eq (front : List (Q.Code × A.Code)) (k : Q.Code) (y : A.Code)
    (rest : List (Q.Code × A.Code)) :
    follow m k (ofPath m (front ++ [(k, y)])) rest =
      match m.forbiddenStep? (k :: rest.map Prod.fst) with
      | some (i, j) => .error (.notAllowed (Q.symbol i) (Q.symbol j))
      | none => .ok (ofPath m (front ++ (k, y) :: rest)) := by
  induction rest generalizing front k y with
  | nil => rfl
  | cons p rest ih =>
    obtain ⟨l, x⟩ := p
    rw [follow, takeArc, List.map_cons, Model.forbiddenStep?]
    split
    · have counted := ih (front ++ [(k, y)]) l x
      rw [ofPath_concat] at counted
      refine Eq.trans counted ?_
      simp
    · rfl

end Tally

namespace Model

variable (m : Model Q A α) [Score σ] [Logarithm α σ]

/-- The counts of a path, with ones that are added up. -/
def tallies (path : List (Q.Code × A.Code)) : Counts (.ofModel Q.size A.size) α σ where
  initial := .ofFn fun k => ones (((path.map Prod.fst).take 1).count k)
  transitions := (Tally.ofPath m path).transitions
  emissions := (Tally.ofPath m path).emissions
  logLikelihood := logLikelihood (Tally.ofPath m path).factors

/-- Where adding ones counts, these are the counts of the path. -/
theorem tallies_eq (counts : ∀ n : Nat, ones n = (n : α)) (path : List (Q.Code × A.Code)) :
    m.tallies path = (m.pathCounts path : Counts _ α σ) := by
  have transitions (k l : Q.Code) := Table.get_tally (α := α)
    ((path.map Prod.fst).zip (path.map Prod.fst).tail) k l
  have emissions (k : Q.Code) (x : A.Code) := Table.get_tally (α := α) path k x
  rw [tallies, pathCounts]
  congr 1
  · simp only [counts]
  · refine Table.ext fun k l => ?_
    rw [Table.get_ofFn, ← counts, ← transitions]
    rfl
  · refine Table.ext fun k x => ?_
    rw [Table.get_ofFn, ← counts, ← emissions]
    rfl

theorem tallies_cons (k : Q.Code) (x : A.Code) (rest : List (Q.Code × A.Code)) :
    (m.tallies ((k, x) :: rest) : Counts _ α σ) = (Tally.ofPath m ((k, x) :: rest)).counts k := by
  rw [tallies, Tally.counts]
  congr 1
  refine Row.ext fun i => ?_
  rw [Row.get_ofFn, Row.get_deposit, Row.get_replicate]
  by_cases start : k = i
  · subst start
    simp [ones, total]
  · simp [ones, start]

/-- What is counted along a path that takes no forbidden arc are its counts. -/
theorem tallies_follow (k : Q.Code) (x : A.Code) (rest : List (Q.Code × A.Code)) :
    m.tallies <$> (match m.forbiddenStep? (k :: rest.map Prod.fst) with
      | some (i, j) => .error (.notAllowed (Q.symbol i) (Q.symbol j))
      | none => .ok ((k, x) :: rest) : Except (Error S E α) _) = (do
        let t ← Tally.follow m k (.ofPath m [(k, x)]) rest
        return t.counts k : Except (Error S E α) (Counts _ α σ)) := by
  have followed := Tally.follow_eq (S := S) (E := E) m [] k x rest
  rw [List.nil_append, List.nil_append] at followed
  rw [followed]
  cases m.forbiddenStep? (k :: rest.map Prod.fst) with
  | none => exact congrArg Except.ok (m.tallies_cons k x rest)
  | some step => rfl

variable [DecidableEq S] [DecidableEq E]

/-- The path of a labelled sequence, which has to follow the arcs. -/
def labelledPath (sequence : Sequence S E) : Except (Error S E α) (List (Q.Code × A.Code)) := do
  if !sequence.isLabelled then
    .error .unlabelled
  else
    let states ← Q.stateCodes .countKnownStates sequence.states
    let symbols ← A.symbolCodes .countKnownStates sequence.emissions
    match m.forbiddenStep? states with
    | some (k, l) => .error (.notAllowed (Q.symbol k) (Q.symbol l))
    | none => .ok (states.zip symbols)

theorem labelledCounts_eq (sequence : Sequence S E) :
    m.labelledCounts sequence =
      (m.pathCounts <$> m.labelledPath sequence : Except (Error S E α) (Counts _ α σ)) := by
  rw [labelledCounts, labelledPath]
  split
  · rfl
  · simp only [map_bind]
    congr 1
    funext states
    congr 1
    funext symbols
    cases m.forbiddenStep? states with
    | none => rfl
    | some step => rfl

end Model

namespace Checked

variable (m : Model Q A α)

/-- Counts a step to a state. The state before is looked up, and both names if there is
no arc. -/
def countStep (states : List Nat) (names : List S) (t : Tally Q A α) (position state : Nat) :
    Checked (Except (Error S E α)) (Tally Q A α) := do
  let previous ← member states (position - 1)
  if (← m.transitions.cell previous state).isSome then
    let transitions ← addAt t.transitions previous state 1
    return { t with transitions, factors := t.factors ++ [← transition m previous state] }
  else
    let source ← member names (position - 1)
    let target ← member names position
    liftM (.error (.notAllowed source target) : Except (Error S E α) (Tally Q A α))

def countEmission (t : Tally Q A α) (state x : Nat) :
    Checked (Except (Error S E α)) (Tally Q A α) := do
  let emissions ← addAt t.emissions state x 1
  return { t with emissions, factors := t.factors ++ [← emission m state x] }

def countPosition (states : List Nat) (names : List S) (t : Tally Q A α) :
    (Nat × Nat) × Nat → Checked (Except (Error S E α)) (Tally Q A α)
  | ((state, x), position) => do
    let t ← if 0 < position then countStep m states names t position state else pure t
    countEmission m t state x

variable [DecidableEq S] [Hashable S] [DecidableEq E] [Hashable E]

/-- The counts of a labelled sequence by number. States and symbols are looked up first;
then each position is counted, and each step is looked up in the mask. -/
def labelledCounts [Score σ] [Logarithm α σ] (C : CodeMap S) (D : CodeMap E)
    (sequence : Sequence S E) :
    Checked (Except (Error S E α)) (Counts (.ofModel Q.size A.size) α σ) := do
  if !sequence.isLabelled then
    liftM (.error .unlabelled : Except (Error S E α) _)
  else
    let states ← encode C (.unknownState .countKnownStates) sequence.states
    let symbols ← encode D (.unknownSymbol .countKnownStates) sequence.emissions
    let first ← inside Q.size (← member states 0)
    let t ← (states.zip symbols).zipIdx.foldlM (countPosition m states sequence.states)
      ⟨.tally [], .tally [], [m.initial.get first]⟩
    return t.counts first

end Checked

namespace InBounds

variable (m : Model Q A α)

theorem countEmission (t : Tally Q A α) (k : Q.Code) (x : A.Code) :
    InBounds (Checked.countEmission m t k.val x.val)
      (.ok (t.addEmission m k x) : Except (Error S E α) _) := by
  rw [Checked.countEmission, Checked.addAt_val, pure_bind, Checked.emission_val, pure_bind]
  exact .pure _

theorem countStep {states : List Nat} {names : List S} {position : Nat} {k l : Q.Code}
    (before : states[position - 1]? = some k.val)
    (nameBefore : names[position - 1]? = some (Q.symbol k))
    (nameHere : names[position]? = some (Q.symbol l)) (t : Tally Q A α) :
    InBounds (Checked.countStep m states names t position l.val)
      (t.takeArc m k l : Except (Error S E α) _) := by
  rw [Tally.takeArc, Checked.countStep, member_eq before, pure_bind, Table.cell_val, pure_bind,
    member_eq nameBefore, member_eq nameHere]
  simp only [pure_bind]
  refine ite (fun _ => ?_) fun _ => .lift _
  rw [Checked.addAt_val, pure_bind, Checked.transition_val, pure_bind]
  exact .pure _

/-- **Counting the positions** after some states stays in bounds: each position but the
first has one before it, and all are positions of names. -/
theorem countPositions {states : List Nat} {names : List S} (front : List Q.Code) (k : Q.Code)
    (t : Tally Q A α) {rest : List (Q.Code × A.Code)}
    (coded : states = (front ++ k :: rest.map Prod.fst).map Fin.val)
    (named : names = (front ++ k :: rest.map Prod.fst).map Q.symbol) :
    InBounds
      (((rest.map (Prod.map Fin.val Fin.val)).zipIdx (front.length + 1)).foldlM
        (Checked.countPosition m states names) t)
      (Tally.follow m k t rest : Except (Error S E α) _) := by
  induction rest generalizing front k t with
  | nil => exact .pure t
  | cons p rest ih =>
    obtain ⟨l, x⟩ := p
    have before : states[front.length + 1 - 1]? = some k.val := by simp [coded]
    have nameBefore : names[front.length + 1 - 1]? = some (Q.symbol k) := by simp [named]
    have nameHere : names[front.length + 1]? = some (Q.symbol l) := by simp [named]
    rw [List.map_cons, List.zipIdx_cons, List.foldlM_cons, Prod.map_apply, Checked.countPosition,
      if_pos (Nat.succ_pos _), bind_assoc, Tally.follow]
    refine (countStep m before nameBefore nameHere t).bind fun t => ?_
    change InBounds _ (Except.ok (t.addEmission m l x) >>= fun t => Tally.follow m l t rest)
    refine (countEmission m t l x).bind fun t => ?_
    simpa using ih (front ++ [k]) l t (by simpa using coded) (by simpa using named)

/-- **Counting all positions** starts with the initial state, which no step leads to. -/
theorem countPath {states : List Nat} {names : List S} (k : Q.Code) (x : A.Code)
    {rest : List (Q.Code × A.Code)}
    (coded : states = (k :: rest.map Prod.fst).map Fin.val)
    (named : names = (k :: rest.map Prod.fst).map Q.symbol) :
    InBounds
      ((((k, x) :: rest).map (Prod.map Fin.val Fin.val)).zipIdx.foldlM
        (Checked.countPosition m states names) ⟨.tally [], .tally [], [m.initial.get k]⟩)
      (Tally.follow m k (.ofPath m [(k, x)]) rest : Except (Error S E α) _) := by
  rw [List.map_cons, List.zipIdx_cons, List.foldlM_cons, Prod.map_apply, Checked.countPosition,
    if_neg (Nat.lt_irrefl 0), pure_bind]
  change InBounds _ (Except.ok (Tally.ofPath m [(k, x)]) >>= fun t => Tally.follow m k t rest)
  refine (countEmission m _ k x).bind fun t => ?_
  exact countPositions m [] k t coded named

variable [DecidableEq S] [Hashable S] [DecidableEq E] [Hashable E]

/-- **The counts of a labelled sequence** by number. -/
theorem labelledCounts [Score σ] [Logarithm α σ] (sequence : Sequence S E) :
    InBounds (Checked.labelledCounts m Q.codeMap A.codeMap sequence)
      (m.tallies <$> m.labelledPath sequence : Except (Error S E α) (Counts _ α σ)) := by
  rw [Checked.labelledCounts, Model.labelledPath, apply_ite (Functor.map _)]
  refine ite (fun _ => .lift _) fun labelled => ?_
  simp only [map_bind]
  refine (encode Q _ _).bind_ok fun states coded => (encode A _ _).bind_ok fun symbols seen => ?_
  have named := (Alphabet.encode_eq_ok_iff.mp (mapError_eq_ok.mp coded)).symm
  have observed := (Alphabet.encode_eq_ok_iff.mp (mapError_eq_ok.mp seen)).symm
  -- a labelled sequence has a first state, and a state for each symbol
  obtain ⟨k, ks, rfl⟩ : ∃ k ks, states = k :: ks := List.exists_cons_of_ne_nil fun none_left => by
    rw [Sequence.isLabelled, named, none_left] at labelled
    exact labelled rfl
  have aligned : symbols.length = ks.length + 1 := by
    have lengths := sequence.aligned
    rw [named, observed, List.length_map, List.length_map] at lengths
    exact (lengths.resolve_left (List.cons_ne_nil _ _)).symm
  obtain ⟨x, xs, rfl⟩ := List.exists_cons_of_length_eq_add_one aligned
  have path : (ks.zip xs).map Prod.fst = ks := List.map_fst_zip (Nat.succ.inj aligned).ge
  have first : (member ((k :: ks).map Fin.val) 0 : Checked (Except (Error S E α)) Nat) =
      Pure.pure k.val := member_eq rfl
  have counted := m.tallies_follow (S := S) (E := E) (σ := σ) k x (ks.zip xs)
  rw [path] at counted
  rw [first, pure_bind, inside_val, pure_bind, List.zip_map, List.zip_cons_cons]
  refine Eq.trans ?_ (congrArg (Functor.map some) counted.symm)
  refine bind (countPath m k x ?_ ?_) fun t => .pure (t.counts k)
  · rw [path]
  · rw [path]
    exact named

end InBounds

/-! ### Exact arithmetic -/

section Exact

variable {K : Type} [Field K] [LinearOrder K]

/-- In a field, adding ones counts. -/
theorem ones_eq_natCast (n : Nat) : (ones n : K) = n := by
  rw [ones, total_eq_sum, List.sum_replicate, nsmul_one]

end Exact

end Trellis
