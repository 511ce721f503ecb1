import Mathlib.Data.Stream.Init
import Trellis.Proofs.InPlace
import Trellis.Proofs.WordOrder

/-!
# Drawing in place

Random probabilities for a builder that is kept in tables. The words are taken off
the front of a stream, one for each draw, and every distribution is divided by its
total as soon as it is drawn. The builder itself is first filled with draws and
divided at the end. In between the tables hold a builder of which some states are
divided already (`DividedIn.withDrawn`, `DividedIn.run_forM`), so both come to the
same, and the stream goes on after the last word that is counted for the builder
(`Drawing.run_randomize`). The mask, all pseudocounts and the cells of forbidden arcs
are not written (`Unwritten`).
-/

namespace Trellis

variable {S E α : Type} {Q : Alphabet S} {A : Alphabet E}

/-- Operations that edit tables and take words off a stream. -/
abbrev Drawing (Q : Alphabet S) (A : Alphabet E) (α : Type) : Type → Type :=
  StateM (Tables Q A α × Stream' UInt64)

namespace Tables

def writeArc (k l : Q.Code) (p : α) (t : Tables Q A α) : Tables Q A α :=
  { t with probabilities := t.probabilities.set k l p }

def writeEmission (k : Q.Code) (x : A.Code) (p : α) (t : Tables Q A α) : Tables Q A α :=
  { t with emissionProbabilities := t.emissionProbabilities.set k x p }

end Tables

/-! ### Drawing -/

section Drawing

variable [Arithmetic α]

/-- What a draw becomes among others: its part of their total, or an equal part of one
if there is no total. -/
def partOf (draws : List α) (p : α) : α :=
  if 0 < total draws then p / total draws else share draws.length

/-- Divides draws by their total; draws without a total become equal. -/
def sharedOut {n : Nat} (draws : Vector α n) : Vector α n :=
  if 0 < total draws.toList then draws.map (· / total draws.toList) else .replicate n (share n)

namespace Drawing

/-- Takes the first word off the stream. -/
def nextWord : Drawing Q A α UInt64 := modifyGet fun (t, words) => (words.head, t, words.tail)

def edit (change : Tables Q A α → Tables Q A α) : Drawing Q A α Unit :=
  modify fun (t, words) => (change t, words)

/-- Draws one after another, from the words at the front of the stream. -/
def draws : (n : Nat) → Drawing Q A α (Vector α n)
  | 0 => return #v[]
  | n + 1 => do
    let before ← draws n
    let word ← nextWord
    return before.push (draw word)

/-- Draws, divided by their total at once. -/
def distribution (n : Nat) : Drawing Q A α (Vector α n) := do
  return sharedOut (← draws n)

/-- Writes the arcs that leave a state and then its emissions. -/
def randomizeState (k : Q.Code) : Drawing Q A α Unit := do
  let targets := (← get).1.targets k
  let arcs ← distribution targets.length
  (targets.zip arcs.toList).forM fun (l, p) => edit (Tables.writeArc k l p)
  let emissions ← distribution A.size
  (A.codes.zip emissions.toList).forM fun (x, p) => edit (Tables.writeEmission k x p)

/-- The initial distribution first, then each state in code order. -/
def randomize : Drawing Q A α Unit := do
  let initial ← distribution Q.size
  edit fun t => { t with initial := some initial }
  Q.codes.forM randomizeState

end Drawing

end Drawing

/-! ### Positions -/

/-- A list without repetitions, with every member replaced by what is at its position. -/
theorem map_idxOf_eq_ofFn {ι β : Type} [DecidableEq ι] {keys : List ι} (nodup : keys.Nodup)
    (f : Nat → β) :
    keys.map (fun key => f (keys.idxOf key)) = List.ofFn fun i : Fin keys.length => f i := by
  apply List.ext_getElem
  · simp
  · intro i _ _
    simp [nodup.idxOf_getElem]

theorem zip_ofFn {ι β : Type} [DecidableEq ι] {keys : List ι} (nodup : keys.Nodup) (f : Nat → β) :
    keys.zip (List.ofFn fun i : Fin keys.length => f i) =
      keys.map fun key => (key, f (keys.idxOf key)) := by
  rw [← map_idxOf_eq_ofFn nodup, List.map_prod_left_eq_zip]

theorem Alphabet.zip_codes_ofFn {β : Type} (f : Nat → β) :
    A.codes.zip (List.ofFn fun x : A.Code => f x) = A.codes.map fun x : A.Code => (x, f x) := by
  rw [List.map_prod_left_eq_zip, List.ofFn_eq_map]
  rfl

/-! ### Single steps -/

namespace Drawing

section Steps

variable {t : Tables Q A α} {words : Stream' UInt64}

theorem run_bind {β γ : Type} {x : Drawing Q A α β} {f : β → Drawing Q A α γ} {b : β}
    {before after : Tables Q A α × Stream' UInt64} (first : x.run before = (b, after)) :
    (x >>= f).run before = (f b).run after := by
  rw [StateT.run_bind, first]
  rfl

theorem run_get : (get : Drawing Q A α _).run (t, words) = ((t, words), t, words) := rfl

theorem run_nextWord :
    (nextWord : Drawing Q A α _).run (t, words) = (words.head, t, words.tail) := rfl

theorem run_edit (change : Tables Q A α → Tables Q A α) :
    (edit change : Drawing Q A α Unit).run (t, words) = ((), change t, words) := rfl

/-- Cells of one row are written one after another, where writing a cell sets it in a
table from which the tables are put together. -/
theorem run_forM_edit {n m : Nat} (place : Table n m α → Tables Q A α)
    {write : Fin n → Fin m → α → Tables Q A α → Tables Q A α}
    (writes : ∀ cells k l p, write k l p (place cells) = place (cells.set k l p)) (k : Fin n)
    (f : Fin m → α) (keys : List (Fin m)) (cells : Table n m α) :
    ((keys.map fun l => (l, f l)).forM fun (l, p) => edit (write k l p)).run
        (place cells, words) =
      ((), place (.ofFn fun i j => if k = i ∧ j ∈ keys then f j else cells.get i j), words) := by
  induction keys generalizing cells with
  | nil =>
    simp only [List.not_mem_nil, and_false, if_false, Table.ofFn_get]
    rfl
  | cons l rest ih =>
    refine (run_bind (run_edit _)).trans ?_
    rw [writes]
    refine (ih _).trans ?_
    congr 3
    ext i j
    simp only [Table.get_ofFn, Table.get_set, List.mem_cons]
    grind

end Steps

end Drawing

/-! ### Draws -/

section Runs

variable [Arithmetic α] (t : Tables Q A α) (words : Stream' UInt64)

theorem toList_sharedOut {n : Nat} (row : Vector α n) :
    (sharedOut row).toList = row.toList.map (partOf row.toList) := by
  unfold sharedOut partOf
  rw [Vector.length_toList]
  split
  · rw [Vector.toList_map]
  · rw [Vector.toList_replicate, List.map_const', Vector.length_toList]

/-- The numbers that the first words stand for. -/
def firstDraws (n : Nat) : Vector α n := .ofFn fun i => draw (words.get i)

/-- What the word at a position becomes among the first words. -/
def drawnPart (n i : Nat) : α := partOf (firstDraws words n).toList (draw (words.get i))

theorem toList_sharedOut_firstDraws (n : Nat) :
    (sharedOut (firstDraws words n : Vector α n)).toList =
      List.ofFn fun i : Fin n => drawnPart words n i := by
  rw [toList_sharedOut, firstDraws, Vector.toList_ofFn, List.map_ofFn]
  unfold drawnPart firstDraws
  rw [Vector.toList_ofFn]
  rfl

/-- The tables after the arcs and emissions of a state have been drawn. -/
def Tables.withDrawn (k : Q.Code) : Tables Q A α :=
  let targets := t.targets k
  { t with
    probabilities := .ofFn fun i j =>
      if k = i ∧ j ∈ targets then drawnPart words targets.length (targets.idxOf j)
      else t.probabilities.get i j
    emissionProbabilities := .ofFn fun i x =>
      if k = i then drawnPart (words.drop targets.length) A.size x
      else t.emissionProbabilities.get i x }

namespace Drawing

variable {words}

theorem run_draws (n : Nat) :
    (draws n : Drawing Q A α _).run (t, words) = (firstDraws words n, t, words.drop n) := by
  induction n with
  | zero => rfl
  | succ n ih =>
    have pushed : (firstDraws words n : Vector α n).push (draw (words.get n)) =
        firstDraws words (n + 1) := by
      rw [firstDraws, firstDraws, Vector.ofFn_succ]
      rfl
    rw [draws, run_bind ih, run_bind run_nextWord, Stream'.head_drop, Stream'.tail_drop',
      ← pushed]
    rfl

theorem run_distribution (n : Nat) :
    (distribution n : Drawing Q A α _).run (t, words) =
      (sharedOut (firstDraws words n), t, words.drop n) := by
  rw [distribution, run_bind (run_draws t n)]
  rfl

theorem run_randomizeState (k : Q.Code) :
    (randomizeState k).run (t, words) =
      ((), t.withDrawn words k, words.drop ((t.targets k).length + A.size)) := by
  have nodup : (t.targets k).Nodup := (List.nodup_finRange Q.size).filter _
  -- Targets are written in the order of their words, so each has the one at its position.
  refine (run_bind run_get).trans ?_
  refine (run_bind (run_distribution t _)).trans ?_
  rw [toList_sharedOut_firstDraws, zip_ofFn nodup]
  have arcs (cells : Table Q.size Q.size α) (i j : Q.Code) (p : α) :
      Tables.writeArc i j p { t with probabilities := cells } =
        { t with probabilities := cells.set i j p } := rfl
  refine (run_bind (run_forM_edit _ arcs k _ _ t.probabilities)).trans ?_
  refine (run_bind (run_distribution _ _)).trans ?_
  rw [toList_sharedOut_firstDraws, Alphabet.zip_codes_ofFn]
  have emissions (cells : Table Q.size A.size α) (i : Q.Code) (x : A.Code) (p : α) :
      Tables.writeEmission i x p { t.withDrawn words k with emissionProbabilities := cells } =
        { t.withDrawn words k with emissionProbabilities := cells.set i x p } := rfl
  refine (run_forM_edit _ emissions k _ _ t.emissionProbabilities).trans ?_
  rw [Stream'.drop_drop]
  simp only [Alphabet.codes, List.mem_finRange, and_true]
  rfl

end Drawing

/-! ### Against the builder -/

section Builder

variable {words} {t} {p : Parameters Q A α} {done : List Q.Code} {k : Q.Code}

open Builder (drawState drawStates)

theorem Group.proportion_eq (g : Group α) (e : Entry α) :
    g.proportion e = e.withProbability (partOf (g.map Entry.probability) e.probability) := by
  unfold proportion partOf equalize mass
  rw [List.length_map]
  split
  · rfl
  · rfl

theorem toList_firstDraws_drop (position n : Nat) :
    (firstDraws (words.drop position) n : Vector α n).toList =
      List.ofFn fun i : Fin n => draw (words.get (position + i)) := by
  simp only [firstDraws, Vector.toList_ofFn, Stream'.get_drop]

/-- The draws of a state are those of the words from its position on. -/
theorem map_probability_transitionGroup_drawState (position : Nat) :
    ((drawState words.get position p k).transitionGroup k).map Entry.probability =
      (firstDraws (words.drop position) (p.targets k).length).toList := by
  have nodup : (p.targets k).Nodup := (List.nodup_finRange Q.size).filter _
  rw [toList_firstDraws_drop, ← map_idxOf_eq_ofFn nodup fun i => draw (words.get (position + i)),
    Parameters.transitionGroup, drawState, Table.row_setRow, if_pos rfl, Vector.toList_ofFn,
    List.ofFn_eq_map, List.filterMap_map, List.map_filterMap, Parameters.targets,
    ← List.filterMap_eq_map, List.filterMap_filter]
  refine List.filterMap_congr fun l _ => ?_
  cases arc : p.transitions.get k l with
  | none => simp [arc, Parameters.allows]
  | some e => simp [arc, Parameters.allows]

theorem map_probability_emissionGroup_drawState (position : Nat) :
    ((drawState words.get position p k).emissionGroup k).map Entry.probability =
      (firstDraws (words.drop (position + (p.targets k).length)) A.size).toList := by
  rw [toList_firstDraws_drop, Parameters.emissionGroup, drawState, Table.row_setRow, if_pos rfl,
    Vector.toList_ofFn, List.map_ofFn]
  rfl

/-- Divided by its total, a state that has been drawn has the parts of its words. -/
theorem transitions_divided_drawState (position : Nat) (l : Q.Code) :
    ((drawState words.get position p k).mapGroups Group.proportion).transitions.get k l =
      (p.transitions.get k l).map (·.withProbability
        (drawnPart (words.drop position) (p.targets k).length ((p.targets k).idxOf l))) := by
  rw [Parameters.transitions_mapGroups, Builder.transitions_drawState, Option.map_map]
  refine congrArg (fun f => (p.transitions.get k l).map f) (funext fun e => ?_)
  rw [Function.comp_apply, Group.proportion_eq, map_probability_transitionGroup_drawState,
    drawnPart, Stream'.get_drop]
  rfl

theorem emissions_divided_drawState (position : Nat) (x : A.Code) :
    ((drawState words.get position p k).mapGroups Group.proportion).emissions.get k x =
      (p.emissions.get k x).withProbability
        (drawnPart (words.drop (position + (p.targets k).length)) A.size x) := by
  rw [Parameters.emissions_mapGroups, Builder.emissions_drawState, Group.proportion_eq,
    map_probability_emissionGroup_drawState, drawnPart, Stream'.get_drop]
  rfl

theorem transitions_withDrawn (l : Q.Code) :
    (t.withDrawn words k).builder.transitions.get k l =
      (t.builder.transitions.get k l).map (·.withProbability
        (drawnPart words (t.targets k).length ((t.targets k).idxOf l))) := by
  rw [Tables.transitions_builder, Tables.transitions_builder]
  cases allowed : t.allowed.get k l with
  | true =>
    have target : l ∈ t.targets k := by simp [Tables.targets, Alphabet.codes, allowed]
    simp [Tables.withDrawn, allowed, target, Entry.withProbability]
  | false => simp [Tables.withDrawn, allowed]

theorem emissions_withDrawn (x : A.Code) :
    (t.withDrawn words k).builder.emissions.get k x =
      (t.builder.emissions.get k x).withProbability
        (drawnPart (words.drop (t.targets k).length) A.size x) := by
  rw [Tables.emissions_builder, Tables.emissions_builder]
  simp [Tables.withDrawn, Entry.withProbability]

/-- What is drawn and divided in place, is what the builder has once it is divided. -/
theorem agreeAt_withDrawn (agree : t.builder.AgreeAt p k) (words : Stream' UInt64)
    (position : Nat) :
    (t.withDrawn (words.drop position) k).builder.AgreeAt
      ((drawState words.get position p k).mapGroups Group.proportion) k := by
  have targets : t.targets k = p.targets k := (t.targets_builder k).symm.trans agree.targets_eq
  refine .of_get (fun l => ?_) fun x => ?_
  · rw [transitions_divided_drawState, transitions_withDrawn, targets, agree.transitions_eq]
  · rw [emissions_divided_drawState, emissions_withDrawn, targets, agree.emissions_eq,
      Stream'.drop_drop]

theorem agreeAt_withDrawn_of_ne {i : Q.Code} (ne : k ≠ i) :
    (t.withDrawn words k).builder.AgreeAt t.builder.toParameters i := by
  refine .of_get (fun l => ?_) fun x => ?_
  · rw [Tables.transitions_builder, Tables.transitions_builder]
    simp [Tables.withDrawn, ne]
  · rw [Tables.emissions_builder, Tables.emissions_builder]
    simp [Tables.withDrawn, ne]

/-- The tables hold the parameters, except that the groups of some states are divided by
their totals already. -/
def DividedIn (done : List Q.Code) (p : Parameters Q A α) (t : Tables Q A α) : Prop :=
  ∀ k, t.builder.AgreeAt (if k ∈ done then p.mapGroups Group.proportion else p) k

/-- **One state.** Drawn and divided in place, it is what it becomes by drawing now and
dividing at the end. -/
theorem DividedIn.withDrawn (divided : DividedIn done p t) (fresh : k ∉ done)
    (words : Stream' UInt64) (position : Nat) :
    DividedIn (k :: done) (drawState words.get position p k)
      (t.withDrawn (words.drop position) k) := by
  intro i
  by_cases same : k = i
  · subst same
    have here := divided k
    rw [if_neg fresh] at here
    rw [if_pos List.mem_cons_self]
    exact agreeAt_withDrawn here words position
  · have apart : p.AgreeAt (drawState words.get position p k) i :=
      (Builder.agreeAt_drawState same position p).symm
    refine ((agreeAt_withDrawn_of_ne same).trans (divided i)).trans ?_
    by_cases old : i ∈ done
    · rw [if_pos old, if_pos (List.mem_cons_of_mem k old)]
      exact apart.mapGroups Group.proportion
    · rw [if_neg old, if_neg (List.not_mem_cons_of_ne_of_not_mem (Ne.symm same) old)]
      exact apart

/-- What drawing does not write: which arcs there are, all pseudocounts, and the cells of
arcs that are forbidden. -/
structure Unwritten (t s : Tables Q A α) : Prop where
  allowed : s.allowed = t.allowed
  pseudocounts : s.pseudocounts = t.pseudocounts
  emissionPseudocounts : s.emissionPseudocounts = t.emissionPseudocounts
  forbidden : ∀ k l, t.allowed.get k l = false → s.probabilities.get k l = t.probabilities.get k l

omit [Arithmetic α] in
theorem Unwritten.trans {r s : Tables Q A α} (first : Unwritten r s) (second : Unwritten s t) :
    Unwritten r t where
  allowed := second.allowed.trans first.allowed
  pseudocounts := second.pseudocounts.trans first.pseudocounts
  emissionPseudocounts := second.emissionPseudocounts.trans first.emissionPseudocounts
  forbidden k l forbidden := by
    rw [second.forbidden k l (first.allowed ▸ forbidden), first.forbidden k l forbidden]

theorem unwritten_withDrawn (t : Tables Q A α) (words : Stream' UInt64) (k : Q.Code) :
    Unwritten t (t.withDrawn words k) where
  allowed := rfl
  pseudocounts := rfl
  emissionPseudocounts := rfl
  forbidden i l forbidden := by
    have apart : ¬ (k = i ∧ l ∈ t.targets k) := by
      rintro ⟨rfl, target⟩
      exact Bool.eq_false_iff.mp forbidden (List.of_mem_filter target)
    rw [Tables.withDrawn, Table.get_ofFn, if_neg apart]

/-- **Some states**, one after another. The stream goes on where the builder stops. -/
theorem DividedIn.run_forM (divided : DividedIn done p t) {states : List Q.Code}
    (nodup : (states ++ done).Nodup) (words : Stream' UInt64) (position : Nat) :
    ∃ s, (states.forM Drawing.randomizeState).run (t, words.drop position) =
        ((), s, words.drop (drawStates words.get position p states).2) ∧
      DividedIn (states.reverse ++ done) (drawStates words.get position p states).1 s ∧
      Unwritten t s ∧ s.initial = t.initial := by
  induction states generalizing done p t position with
  | nil => exact ⟨t, rfl, divided, ⟨rfl, rfl, rfl, fun _ _ _ => rfl⟩, rfl⟩
  | cons k rest ih =>
    rw [List.cons_append] at nodup
    have fresh : k ∉ done := fun old =>
      (List.nodup_cons.mp nodup).1 (List.mem_append_right rest old)
    obtain ⟨s, run, reached, unwritten, initial⟩ := ih (divided.withDrawn fresh words position)
      (List.nodup_middle.mpr nodup) (position + (p.targets k).length + A.size)
    refine ⟨s, ?_, ?_, (unwritten_withDrawn _ _ _).trans unwritten, initial⟩
    · -- The state has not been written yet, so both count its targets alike.
      have here := divided k
      rw [if_neg fresh] at here
      refine (Drawing.run_bind (Drawing.run_randomizeState t k)).trans ?_
      rw [Stream'.drop_drop, ← t.targets_builder, here.targets_eq, ← Nat.add_assoc]
      exact run
    · rw [List.reverse_cons, List.append_assoc]
      exact reached

/-- **Drawing in place.** The tables become those of the builder with random
probabilities, the stream goes on after the words that are counted for it, and nothing
else is written. -/
theorem Drawing.run_randomize (t : Tables Q A α) (words : Stream' UInt64) :
    ∃ s, Drawing.randomize.run (t, words) = ((), s, words.drop t.builder.wordCount) ∧
      s.builder = t.builder.randomize words.get ∧ Unwritten t s := by
  have start : DividedIn [] t.builder.toParameters
      { t with initial := some (sharedOut (firstDraws words Q.size)) } := fun _ => ⟨rfl, rfl⟩
  have nodup : (Q.codes ++ []).Nodup := by
    rw [List.append_nil]
    exact List.nodup_finRange Q.size
  obtain ⟨s, run, divided, unwritten, initial⟩ := start.run_forM nodup words Q.size
  have finished : ∀ k, k ∈ Q.codes.reverse ++ [] := fun k => by simp [Alphabet.codes]
  refine ⟨s, ?_, ?_, unwritten.1, unwritten.2, unwritten.3, unwritten.4⟩
  · refine (run_bind (run_distribution t Q.size)).trans ((run_bind (run_edit _)).trans ?_)
    rw [← Builder.snd_randomizeCounting]
    exact run
  · have agree : ∀ k, s.builder.AgreeAt (t.builder.randomize words.get).toParameters k := by
      intro k
      have here := divided k
      rwa [if_pos (finished k)] at here
    exact Builder.ext (Parameters.ext (fun k => (agree k).transitions_eq) fun k =>
      (agree k).emissions_eq) initial

end Builder

end Runs

end Trellis
