import Trellis.Proofs.ArcLists
import Trellis.Proofs.CheckedEditing
import Trellis.Proofs.FinishingInPlace

/-!
# Drawing and finishing by number

Random probabilities (`InBounds.randomize`), the passes that finish a builder
(`InBounds.finish`) and the lists of arcs of the finished model (`Checked.scan_eq`), with
every access looking whether its indices are in bounds; and what the finished model
answers for names (`Checked.arc?_eq`, `Checked.emission?_eq`, `Checked.transitionsFrom_eq`,
`Checked.transitionsTo_eq`).
-/

namespace Trellis

variable {S E α : Type} {Q : Alphabet S} {A : Alphabet E}

namespace Checked

def randomizeArcs (draws : List (Nat × α)) (i : Nat) : Checked (Drawing Q A α) Unit :=
  draws.forM fun (j, p) => change Drawing.edit (Tables.writeArc · · p) i j

def randomizeEmissions (draws : List (Nat × α)) (i : Nat) : Checked (Drawing Q A α) Unit :=
  draws.forM fun (x, p) => change Drawing.edit (Tables.writeEmission · · p) i x

/-- Draws that are divided by their total. -/
def parts [Arithmetic α] (n : Nat) : Checked (Drawing Q A α) (List α) :=
  liftM (Vector.toList <$> Drawing.distribution n : Drawing Q A α (List α))

section Passes

variable [Arithmetic α] [DecidableEq S] [Hashable S] (C : CodeMap S)

/-- Finishes the arcs that leave a state, if there are any. -/
def finishArcs (i : Nat) : Checked (Editing Q A α) Unit := do
  let t ← get
  let targets ← targets C t i
  let sum := total (← targets.mapM (t.probabilities.cell i))
  if targets = [] then
    return
  else if IsZero sum then
    writeArcs i targets (share targets.length)
  else if NearOne sum then
    return
  else
    refuse (.invalidProbability .build sum (.transitionTotal (← member C.symbols i)))

variable [DecidableEq E] [Hashable E] (D : CodeMap E)

def finishEmissions (i : Nat) : Checked (Editing Q A α) Unit := do
  let k ← inside Q.size i
  let sum := (← get).emissionTotal k
  if IsZero sum then
    modify fun t => { t with
      emissionProbabilities := t.emissionProbabilities.setRow k (.replicate A.size (share D.size)) }
  else if NearOne sum then
    return
  else
    refuse (.invalidProbability .build sum (.emissionTotal (← member C.symbols i)))

/-- The three passes by number. -/
def finish : Checked (Editing Q A α) Unit := do
  liftM (Tables.finishInitial : Editing Q A α Unit)
  (List.range C.size).forM (finishArcs C)
  (List.range C.size).forM (finishEmissions C D)

/-- Writes the arcs that leave a state and then its emissions. -/
def randomizeState (i : Nat) : Checked (Drawing Q A α) Unit := do
  let targets ← targets C (← get).1 i
  randomizeArcs (targets.zip (← parts targets.length)) i
  randomizeEmissions ((List.range D.size).zip (← parts D.size)) i

/-- Random probabilities by number: the initial distribution, then each state. -/
def randomize : Checked (Drawing Q A α) Unit := do
  let initial ← rowOf Q.size (← parts C.size)
  liftM (Drawing.edit fun t => { t with initial := some initial } : Drawing Q A α Unit)
  (List.range C.size).forM (randomizeState C D)

end Passes

/-! ### Lists of arcs -/

section Arcs

variable {μ : Type → Type} [Monad μ] {n : Nat}

def push (a : Adjacency n) (i j : Nat) : Checked μ (Adjacency n) := do
  let k ← inside n i
  let l ← inside n j
  return a.push k l

/-- Lists the arcs of a mask in one pass over its cells. -/
def scan (size : Nat) (mask : Table n n Bool) : Checked μ (Adjacency n) :=
  (List.range size ×ˢ List.range size).foldlM
    (fun a (i, j) => do if ← mask.cell i j then push a i j else return a) .noArcs

theorem push_val [LawfulMonad μ] (a : Adjacency n) (k l : Fin n) :
    (push a k.val l.val : Checked μ _) = pure (a.push k l) := by
  rw [push, inside_val, inside_val, pure_bind, pure_bind]

/-- The numbers of the cells of a mask, row by row. -/
theorem product_range (n : Nat) : List.range n ×ˢ List.range n =
    (Adjacency.cells n).map (Prod.map Fin.val Fin.val) := by
  rw [range_eq_map_val]
  change List.flatMap _ _ = (List.flatMap _ _).map _
  rw [List.flatMap_map, List.map_flatMap]
  simp only [List.map_map]
  rfl

/-- Filling both lists of arcs by number stays in bounds. -/
theorem scan_eq [LawfulMonad μ] (mask : Table n n Bool) :
    (scan n mask : Checked μ _) = pure (.scan mask) := by
  rw [scan, product_range]
  refine foldlM_map_eq_pure (fun a c _ => ?_) _
  obtain ⟨k, l⟩ := c
  simp only [Prod.map_apply, Table.cell_val, pure_bind, push_val, Adjacency.visit]
  split
  · rfl
  · rfl

end Arcs

/-! ### Lookup by symbol -/

section Lookup

variable {μ : Type → Type} [Monad μ] (m : Model Q A α)

def successors (i : Nat) : Checked μ (List Nat) := do
  return (← Row.cell m.adjacency.successors i).map Fin.val

def predecessors (j : Nat) : Checked μ (List Nat) := do
  return (← Row.cell m.adjacency.predecessors j).map Fin.val

variable [DecidableEq S] [Hashable S] (C : CodeMap S)

/-- What is read at the number of a state, with a default for states without one. -/
def lookup {τ β : Type} [DecidableEq τ] [Hashable τ] (C : CodeMap τ) (s : τ) (unknown : β)
    (read : Nat → Checked μ β) : Checked μ β :=
  match C.codeOf? s with
  | some i => read i
  | none => return unknown

def initialProbability [Zero α] (state : S) : Checked μ α :=
  lookup C state 0 (Row.cell m.initial)

def arc? (source target : S) : Checked μ (Option (Entry α)) :=
  lookup C source none fun i => lookup C target none fun j => m.transitions.cell i j

def emission? [DecidableEq E] [Hashable E] (D : CodeMap E) (state : S) (symbol : E) :
    Checked μ (Option (Entry α)) :=
  lookup C state none fun i =>
    lookup D symbol none fun x => do return some (← m.emissions.cell i x)

/-- The states that can follow a state. -/
def transitionsFrom (state : S) : Checked μ (List S) :=
  lookup C state [] fun i => do (← successors m i).mapM (member C.symbols)

/-- The states that a state can follow. -/
def transitionsTo (state : S) : Checked μ (List S) :=
  lookup C state [] fun i => do (← predecessors m i).mapM (member C.symbols)

variable [LawfulMonad μ]

omit [DecidableEq S] [Hashable S] in
theorem successors_val (k : Q.Code) :
    (successors m k.val : Checked μ _) = pure ((m.successors k).map Fin.val) := by
  rw [successors, Row.cell_val, pure_bind]
  rfl

omit [DecidableEq S] [Hashable S] in
theorem predecessors_val (l : Q.Code) :
    (predecessors m l.val : Checked μ _) = pure ((m.predecessors l).map Fin.val) := by
  rw [predecessors, Row.cell_val, pure_bind]
  rfl

omit [LawfulMonad μ] in
theorem lookup_eq {β : Type} {f : Nat → Checked μ β} {g : Q.Code → β}
    (reads : ∀ k : Q.Code, f k.val = pure (g k)) (s : S) (unknown : β) :
    lookup Q.codeMap s unknown f = pure ((Q.codeOf? s).elim unknown g) := by
  rw [lookup, Q.codeOf?_codeMap]
  cases Q.codeOf? s with
  | none => rfl
  | some k => exact reads k

theorem mapM_member_symbols (ks : List Q.Code) :
    (ks.map Fin.val).mapM (member Q.codeMap.symbols) =
      (pure (ks.map Q.symbol) : Checked μ (List S)) :=
  mapM_map_eq_pure Q.member_symbols ks

theorem initialProbability_eq [Zero α] (state : S) :
    (initialProbability m Q.codeMap state : Checked μ α) = pure (m.initialProbability state) :=
  lookup_eq (Row.cell_val m.initial) state 0

theorem arc?_eq (source target : S) :
    (arc? m Q.codeMap source target : Checked μ _) = pure (m.arc? source target) := by
  have found : m.arc? source target = (Q.codeOf? source).elim none fun k =>
      (Q.codeOf? target).elim none (m.transitions.get k) := by
    rw [Parameters.arc?]
    cases Q.codeOf? source with
    | none => rfl
    | some k =>
      cases Q.codeOf? target with
      | none => rfl
      | some l => rfl
  rw [found]
  exact lookup_eq (fun k => lookup_eq (fun l => Table.cell_val _ k l) target none) source none

theorem emission?_eq [DecidableEq E] [Hashable E] (state : S) (symbol : E) :
    (emission? m Q.codeMap A.codeMap state symbol : Checked μ _) =
      pure (m.emission? state symbol) := by
  have found : m.emission? state symbol = (Q.codeOf? state).elim none fun k =>
      (A.codeOf? symbol).elim none fun x => some (m.emissions.get k x) := by
    rw [Parameters.emission?]
    cases Q.codeOf? state with
    | none => rfl
    | some k =>
      cases A.codeOf? symbol with
      | none => rfl
      | some x => rfl
  rw [found]
  refine lookup_eq (fun k => lookup_eq (fun x => ?_) symbol none) state none
  rw [Table.cell_val, pure_bind]

theorem transitionsFrom_eq (state : S) :
    (transitionsFrom m Q.codeMap state : Checked μ _) = pure (m.transitionsFrom state) := by
  refine lookup_eq (fun k => ?_) state []
  rw [successors_val, pure_bind, mapM_member_symbols]

theorem transitionsTo_eq (state : S) :
    (transitionsTo m Q.codeMap state : Checked μ _) = pure (m.transitionsTo state) := by
  refine lookup_eq (fun l => ?_) state []
  rw [predecessors_val, pure_bind, mapM_member_symbols]

end Lookup

end Checked

/-! ### Passes in bounds -/

namespace InBounds

section Draws

theorem randomizeArcs (draws : List (Q.Code × α)) (k : Q.Code) :
    InBounds (Checked.randomizeArcs (draws.map (Prod.map Fin.val id)) k.val)
      (draws.forM fun (l, p) => Drawing.edit (Tables.writeArc k l p) : Drawing Q A α Unit) :=
  forM (fun (l, _) => change _ _ k l) draws

theorem randomizeEmissions (draws : List (A.Code × α)) (k : Q.Code) :
    InBounds (Checked.randomizeEmissions (draws.map (Prod.map Fin.val id)) k.val)
      (draws.forM fun (x, p) => Drawing.edit (Tables.writeEmission k x p) : Drawing Q A α Unit) :=
  forM (fun (x, _) => change _ _ k x) draws

theorem parts [Arithmetic α] (n : Nat) :
    InBounds (Checked.parts n)
      (Vector.toList <$> Drawing.distribution n : Drawing Q A α (List α)) :=
  .lift _

end Draws

section Passes

variable [Arithmetic α] [DecidableEq S] [Hashable S]

theorem finishArcs (k : Q.Code) :
    InBounds (Checked.finishArcs Q.codeMap k.val) (Tables.finishArcs k : Editing Q A α Unit) := by
  refine (lift get).bind fun t => ?_
  have probabilities : ((t.targets k).map Fin.val).mapM (t.probabilities.cell k.val) =
      (Pure.pure ((t.targets k).map (t.probabilities.get k)) : Checked (Editing Q A α) _) :=
    mapM_map_eq_pure (fun l => Table.cell_val _ k l) _
  rw [Checked.targets_val, pure_bind, probabilities, pure_bind, Q.member_symbols, List.length_map]
  simp only [pure_bind, List.map_eq_nil_iff]
  refine ite (fun _ => .pure ()) fun _ => ite (fun _ => writeArcs k _ _) fun _ => ?_
  exact ite (fun _ => .pure ()) fun _ => .lift _

variable [DecidableEq E] [Hashable E]

theorem finishEmissions (k : Q.Code) :
    InBounds (Checked.finishEmissions Q.codeMap A.codeMap k.val)
      (Tables.finishEmissions k : Editing Q A α Unit) := by
  rw [Checked.finishEmissions, inside_val, pure_bind]
  refine (lift get).bind fun t => ?_
  rw [Q.member_symbols]
  simp only [pure_bind]
  exact ite (fun _ => .lift _) fun _ => ite (fun _ => .pure ()) fun _ => .lift _

/-- **Finishing** by number is finishing at codes, faults included. -/
theorem finish :
    InBounds (Checked.finish Q.codeMap A.codeMap) (Tables.finish : Editing Q A α Unit) := by
  rw [Checked.finish, Q.range_size_codeMap]
  refine (lift _).bind fun _ => ?_
  exact (forM finishArcs Q.codes).bind fun _ => forM finishEmissions Q.codes

theorem randomizeState (k : Q.Code) :
    InBounds (Checked.randomizeState Q.codeMap A.codeMap k.val)
      (Drawing.randomizeState k : Drawing Q A α Unit) := by
  -- what is drawn is a row at codes, and is written from a list by number
  have lists : (Drawing.randomizeState k : Drawing Q A α Unit) = (do
      let targets := (← get).1.targets k
      let arcs ← Vector.toList <$> Drawing.distribution targets.length
      (targets.zip arcs).forM fun (l, p) => Drawing.edit (Tables.writeArc k l p)
      let emissions ← Vector.toList <$> Drawing.distribution A.size
      (A.codes.zip emissions).forM fun (x, p) => Drawing.edit (Tables.writeEmission k x p)) := by
    simp only [bind_map_left]
    rfl
  rw [lists]
  refine (lift get).bind fun (t, _) => ?_
  rw [Checked.targets_val, pure_bind, List.length_map]
  refine (parts _).bind fun arcs => ?_
  rw [List.zip_map_left]
  refine (randomizeArcs _ k).bind fun _ => (parts A.size).bind fun emissions => ?_
  rw [A.range_size_codeMap, List.zip_map_left]
  exact randomizeEmissions _ k

/-- **Random probabilities** by number are those drawn at codes. -/
theorem randomize :
    InBounds (Checked.randomize Q.codeMap A.codeMap)
      (Drawing.randomize : Drawing Q A α Unit) := by
  refine (parts Q.size).bind_map fun initial => ?_
  rw [rowOf_toList, pure_bind, Q.range_size_codeMap]
  exact (lift _).bind fun _ => forM randomizeState Q.codes

end Passes

end InBounds

end Trellis
