import Trellis.Proofs.CheckedRecursions
import Trellis.Proofs.Decoding

/-!
# Decoding by number

The decoder searches a list of states, the columns. It keeps the score of each column at
the current position, and for each position before it the columns to come from; at the
end it follows these back. Every access looks whether its indices are in bounds, also
those that were stored as columns. The survivors of the decoder over codes say what the
rows hold (`Holds`): their scores, and the states that are met when a column is followed
back. One position keeps this (`Holds.extend`), and so a search ends with the path of
the best survivor (`InBounds.searchSymbols`): `InBounds.decode` and
`InBounds.decodeOver` find what the decoder over codes finds.
-/

namespace Trellis

variable {S E α σ β γ : Type} {Q : Alphabet S} {A : Alphabet E}

/-! ### The best column -/

theorem cons_tail_finRange {n : Nat} (pos : 0 < n) :
    ⟨0, pos⟩ :: (List.finRange n).tail = List.finRange n := by
  obtain ⟨n, rfl⟩ := Nat.exists_eq_succ_of_ne_zero pos.ne'
  rw [List.finRange_succ]
  rfl

namespace Columns

/-- The positions of the columns. -/
def positions (cs : Columns β) : Columns (Fin cs.toList.length) :=
  ⟨⟨0, Nat.succ_pos _⟩, (List.finRange cs.toList.length).tail⟩

theorem toList_positions (cs : Columns β) :
    cs.positions.toList = List.finRange cs.toList.length :=
  cons_tail_finRange _

theorem map_positions (cs : Columns β) : cs.positions.map cs.toList.get = cs := by
  have same : (cs.positions.map cs.toList.get).toList = cs.toList := by
    rw [toList_map, toList_positions, List.map_get_finRange]
  obtain ⟨first, rest⟩ := List.cons.inj same
  exact congrArg₂ Columns.mk first rest

theorem map_map {δ : Type} (f : β → γ) (g : γ → δ) (cs : Columns β) :
    (cs.map f).map g = cs.map fun b => g (f b) := by
  simp [map]

theorem map_eq_positions (f : β → γ) (cs : Columns β) :
    cs.map f = cs.positions.map fun c => f (cs.toList.get c) :=
  (congrArg (map f) cs.map_positions).symm.trans (map_map _ f _)

variable [Score σ]

theorem best_map (f : β → γ) (score : γ → σ) (cs : Columns β) :
    (cs.map f).best score = Prod.map id f (cs.best (score ∘ f)) := by
  rw [best, toList_map, List.foldl_map]
  change cs.toList.foldl _ (Prod.map id f (Score.bottom, cs.first)) = _
  refine List.foldl_hom (Prod.map id f) fun champion b => ?_
  simp only [better, Prod.map_fst, id_eq, Function.comp_apply]
  split
  · rfl
  · rfl

end Columns

variable [Score σ]

namespace Checked

section Best

variable {μ : Type → Type} [Monad μ]

/-- The best score of some columns and the first column that has it. -/
def bestColumn (n : Nat) (score : Nat → Checked μ σ) : Checked μ (σ × Nat) :=
  (List.range n).foldlM (fun champion column => do
    let s ← score column
    return if champion.1 < s then (s, column) else champion) (Score.bottom, 0)

theorem bestColumn_eq [LawfulMonad μ] (cs : Columns β) {score : Nat → Checked μ σ}
    {v : Fin cs.toList.length → σ} (reads : ∀ c, score c.val = pure (v c)) :
    bestColumn cs.toList.length score = pure (Prod.map id Fin.val (cs.positions.best v)) := by
  have champions : bestColumn cs.toList.length score =
      pure ((List.finRange cs.toList.length).foldl
        (fun champion c => if champion.1 < v c then (v c, c.val) else champion)
        (Score.bottom, 0)) := by
    rw [bestColumn, range_eq_map_val]
    refine foldlM_map_eq_pure (fun champion c _ => ?_) _
    rw [reads, pure_bind]
  rw [champions, Columns.best, cs.toList_positions]
  congr 1
  change (List.finRange _).foldl _ (Prod.map id Fin.val (Score.bottom, cs.positions.first)) = _
  refine List.foldl_hom (Prod.map id Fin.val) fun champion c => ?_
  simp only [Columns.better, Prod.map_fst, id_eq]
  split
  · rfl
  · rfl

end Best

/-! ### The decoder -/

section Rows

variable {μ : Type → Type} [Monad μ] (d : Decoder Q A σ)

/-- The score of each column at the first position. -/
def firstRow (search : List Nat) (x : Nat) : Checked μ (List σ) :=
  search.mapM fun i => do return (← Row.cell d.initial i) + (← d.emission.cell i x)

/-- The score of a state at the next position, and the column to come from. -/
def nextCell (search : List Nat) (scores : List σ) (x j : Nat) : Checked μ (σ × Nat) := do
  let emit ← d.emission.cell j x
  let (best, previous) ← bestColumn search.length fun column => do
    let i ← member search column
    return (← member scores column) + (← d.transition.cell i j)
  return (best + emit, previous)

/-- Follows a column of the last position back. The rows of columns to come from are
listed from the last position on. -/
def trace (column : Nat) : List (List Nat) → Checked μ (List Nat)
  | [] => return [column]
  | latest :: back => do
    let previous ← member latest column
    return (← trace previous back) ++ [column]

/-- The states that are met when a column is followed back. -/
def pathTo [DecidableEq S] [Hashable S] (C : CodeMap S) (search : List Nat)
    (back : List (List Nat)) (column : Nat) : Checked μ (List S) := do
  (← trace column back).mapM fun c => do member C.symbols (← member search c)

end Rows

variable (d : Decoder Q A σ) (search : List Nat)

/-- Fails if no path is left. -/
def ensureReachable (position : Nat) (scores : List σ) : Checked (Except (Error S E α)) Unit :=
  if ∀ s ∈ scores, s ≤ Score.bottom then
    liftM (.error (.numerical position .noPath) : Except (Error S E α) Unit)
  else
    return ()

/-- Goes on from the scores at a position. -/
def proceed (position : Nat) (scores : List σ) (back : List (List Nat)) :
    List Nat → Checked (Except (Error S E α)) (List σ × List (List Nat))
  | [] => do
    ensureReachable position scores
    return (scores, back)
  | x :: rest => do
    ensureReachable position scores
    let row ← search.mapM (nextCell d search scores x)
    proceed (position + 1) (row.map Prod.fst) (row.map Prod.snd :: back) rest

variable [DecidableEq S] [Hashable S] [DecidableEq E] [Hashable E] (C : CodeMap S) (D : CodeMap E)

/-- A search by number: the first row, a row of columns to come from for each later
position, and the walk back from the best column. -/
def searchSymbols (symbols : List E) : Checked (Except (Error S E α)) (Path S σ) := do
  match ← encode D (.unknownSymbol .decode) symbols with
  | [] => return ⟨[], 0⟩
  | x :: rest => do
    let (scores, back) ← proceed d search 0 (← firstRow d search x) [] rest
    let (score, column) ← bestColumn search.length (member scores)
    return ⟨← pathTo C search back column, score⟩

/-- The search over all states, by number. -/
def decode (symbols : List E) : Checked (Except (Error S E α)) (Path S σ) :=
  searchSymbols d (List.range C.size) C D symbols

/-- The search over listed states, by number; the list is looked up before the symbols. -/
def decodeOver (states : List S) (symbols : List E) :
    Checked (Except (Error S E α)) (Path S σ) := do
  if states = [] then
    liftM (.error .noStatesToSearch : Except (Error S E α) _)
  else
    searchSymbols d (← encode C (.unknownState .decode) states) C D symbols

end Checked

/-! ### What the rows hold -/

namespace Decoder

variable (d : Decoder Q A σ) {columns : Columns Q.Code}

/-- The best score with which a state is reached from the survivors, and the column it
is reached from. -/
def cameFrom (kept : Fin columns.toList.length → Survivor Q.Code σ) (k : Q.Code) :
    σ × Fin columns.toList.length :=
  columns.positions.best fun c => (kept c).score + d.transition.get (kept c).state k

theorem extend_positions (x : A.Code) (kept : Fin columns.toList.length → Survivor Q.Code σ)
    (k : Q.Code) :
    d.extend x (columns.positions.map kept) k =
      ⟨k, (d.cameFrom kept k).1 + d.emission.get k x,
        (kept (d.cameFrom kept k).2).state :: (kept (d.cameFrom kept k).2).earlier⟩ := by
  rw [extend, Columns.best_map]
  rfl

end Decoder

namespace Checked

/-- Rows hold the survivors of the columns: their scores, and for each column the states
that are met when it is followed back. -/
structure Holds (μ : Type → Type) [Monad μ] (columns : Columns Q.Code)
    (kept : Fin columns.toList.length → Survivor Q.Code σ) (scores : List σ)
    (back : List (List Nat)) : Prop where
  state : ∀ c, (kept c).state = columns.toList.get c
  scores_eq : scores = (List.finRange columns.toList.length).map fun c => (kept c).score
  traced : ∀ c, ∃ met : List (Fin columns.toList.length),
    trace c.val back = (pure (met.map Fin.val) : Checked μ _) ∧
      met.map columns.toList.get = (kept c).earlier.reverse ++ [(kept c).state]

section Rows

variable {μ : Type → Type} [Monad μ] [LawfulMonad μ] (d : Decoder Q A σ) {columns : Columns Q.Code}

omit [Score σ] [LawfulMonad μ] in
theorem map_val_columns (columns : Columns Q.Code) : columns.toList.map Fin.val =
    (List.finRange columns.toList.length).map fun c => (columns.toList.get c).val := by
  conv_lhs => rw [← List.map_get_finRange columns.toList, List.map_map]
  rfl

theorem firstRow_eq (x : A.Code) :
    firstRow d (columns.toList.map Fin.val) x.val =
      (pure ((List.finRange columns.toList.length).map fun c =>
        (d.start x (columns.toList.get c)).score) : Checked μ _) := by
  rw [map_val_columns]
  refine mapM_map_eq_pure (fun c => ?_) _
  rw [Row.cell_val, Table.cell_val, pure_bind, pure_bind]
  rfl

omit [LawfulMonad μ] in
theorem holds_start (columns : Columns Q.Code) (x : A.Code) :
    Holds μ columns (fun c => d.start x (columns.toList.get c))
      ((List.finRange columns.toList.length).map fun c =>
        (d.start x (columns.toList.get c)).score) [] where
  state _ := rfl
  scores_eq := rfl
  traced c := ⟨[c], rfl, rfl⟩

variable {kept : Fin columns.toList.length → Survivor Q.Code σ} {scores : List σ}
  {back : List (List Nat)}

omit [Score σ] in
theorem Holds.score (holds : Holds μ columns kept scores back)
    (c : Fin columns.toList.length) :
    (member scores c.val : Checked μ σ) = pure (kept c).score :=
  member_eq (by simp [holds.scores_eq])

omit [Score σ] in
theorem Holds.pathTo_eq [DecidableEq S] [Hashable S] (holds : Holds μ columns kept scores back)
    (c : Fin columns.toList.length) :
    pathTo Q.codeMap (columns.toList.map Fin.val) back c.val =
      (pure (((kept c).earlier.reverse ++ [(kept c).state]).map Q.symbol) : Checked μ _) := by
  obtain ⟨met, traced, states⟩ := holds.traced c
  rw [pathTo, traced, pure_bind, ← states, List.map_map]
  refine mapM_map_eq_pure (fun i => ?_) met
  rw [member_eq (a := (columns.toList.get i).val) (by simp), pure_bind, Q.member_symbols]
  rfl

theorem Holds.nextCell_eq (holds : Holds μ columns kept scores back) (x : A.Code) (k : Q.Code) :
    nextCell d (columns.toList.map Fin.val) scores x.val k.val =
      (pure ((d.cameFrom kept k).1 + d.emission.get k x, (d.cameFrom kept k).2.val) :
        Checked μ _) := by
  rw [nextCell, Table.cell_val, pure_bind, List.length_map,
    bestColumn_eq (v := fun c => (kept c).score + d.transition.get (kept c).state k), pure_bind]
  · rfl
  · intro c
    have here : (columns.toList.map Fin.val)[c.val]? = some (kept c).state.val := by
      simp [holds.state]
    rw [member_eq here, pure_bind, holds.score, pure_bind, Table.cell_val, pure_bind]

/-- **One position.** The next row of scores and columns holds the next survivors. -/
theorem Holds.extend (holds : Holds μ columns kept scores back) (x : A.Code) :
    ∃ row, (columns.toList.map Fin.val).mapM
        (nextCell d (columns.toList.map Fin.val) scores x.val) = (pure row : Checked μ _) ∧
      Holds μ columns
        (fun c => d.extend x (columns.positions.map kept) (columns.toList.get c))
        (row.map Prod.fst) (row.map Prod.snd :: back) := by
  have row : (columns.toList.map Fin.val).mapM
      (nextCell d (columns.toList.map Fin.val) scores x.val) =
      (pure ((List.finRange columns.toList.length).map fun c =>
        ((d.cameFrom kept (columns.toList.get c)).1 + d.emission.get (columns.toList.get c) x,
          (d.cameFrom kept (columns.toList.get c)).2.val)) : Checked μ _) :=
    (congrArg (List.mapM _) (map_val_columns columns)).trans
      (mapM_map_eq_pure (fun c => holds.nextCell_eq d x (columns.toList.get c)) _)
  refine ⟨_, row, ?_, ?_, fun c => ?_⟩
  · intro c
    rw [d.extend_positions]
  · simp [d.extend_positions]
  · -- from the new row a column is followed to where it came from, and on from there
    obtain ⟨met, traced, states⟩ := holds.traced (d.cameFrom kept (columns.toList.get c)).2
    refine ⟨met ++ [c], ?_, ?_⟩
    · rw [trace, member_eq (a := (d.cameFrom kept (columns.toList.get c)).2.val) (by simp),
        pure_bind, traced, pure_bind, List.map_append]
      rfl
    · rw [List.map_append, states, d.extend_positions]
      simp

end Rows

section Sequences

variable (d : Decoder Q A σ) {columns : Columns Q.Code}
  {kept : Fin columns.toList.length → Survivor Q.Code σ} {scores : List σ} {back : List (List Nat)}

theorem Holds.dead_iff {μ : Type → Type} [Monad μ] (holds : Holds μ columns kept scores back) :
    (columns.positions.map kept).Dead Survivor.score ↔ ∀ s ∈ scores, s ≤ Score.bottom := by
  simp [Columns.Dead, holds.scores_eq, columns.toList_positions]

/-- **Some positions.** Both decoders fail at the same position, or end with rows that
hold the survivors. -/
theorem proceed_cases (holds : Holds (Except (Error S E α)) columns kept scores back)
    (position : Nat) (xs : List A.Code) :
    (∃ p, d.proceed columns position (columns.positions.map kept) xs = .error p ∧
      (proceed d (columns.toList.map Fin.val) position scores back (xs.map Fin.val) :
        Checked (Except (Error S E α)) _) =
        liftM (.error (.numerical p .noPath) : Except (Error S E α) _)) ∨
    ∃ final scores' back',
      d.proceed columns position (columns.positions.map kept) xs =
        .ok (columns.positions.map final) ∧
      Holds (Except (Error S E α)) columns final scores' back' ∧
      proceed d (columns.toList.map Fin.val) position scores back (xs.map Fin.val) =
        (pure (scores', back') : Checked (Except (Error S E α)) _) := by
  induction xs generalizing kept scores back position with
  | nil =>
    rw [Decoder.proceed, List.map_nil, proceed, ensureReachable]
    by_cases unreachable : ∀ s ∈ scores, s ≤ Score.bottom
    · rw [if_pos unreachable, if_pos (holds.dead_iff.mpr unreachable)]
      exact .inl ⟨position, rfl, rfl⟩
    · rw [if_neg unreachable, if_neg fun dead => unreachable (holds.dead_iff.mp dead)]
      exact .inr ⟨kept, scores, back, rfl, holds, rfl⟩
  | cons x rest ih =>
    rw [Decoder.proceed, List.map_cons, proceed, ensureReachable]
    by_cases unreachable : ∀ s ∈ scores, s ≤ Score.bottom
    · rw [if_pos unreachable, if_pos (holds.dead_iff.mpr unreachable)]
      exact .inl ⟨position, rfl, rfl⟩
    · rw [if_neg unreachable, if_neg fun dead => unreachable (holds.dead_iff.mp dead)]
      obtain ⟨row, computed, next⟩ := holds.extend d x
      rw [pure_bind, computed, pure_bind, columns.map_eq_positions]
      exact ih next (position + 1)

end Sequences

end Checked

/-! ### Decoding in bounds -/

namespace InBounds

variable [DecidableEq S] [Hashable S] [DecidableEq E] [Hashable E] (d : Decoder Q A σ)

/-- **Searching columns** by number finds the path that the survivors lead to. -/
theorem searchSymbols (columns : Columns Q.Code) (symbols : List E) :
    InBounds (Checked.searchSymbols d (columns.toList.map Fin.val) Q.codeMap A.codeMap symbols)
      (d.searchSymbols columns symbols : Except (Error S E α) (Path S σ)) := by
  refine (encode A _ symbols).bind_map fun xs => ?_
  cases xs with
  | nil => exact .pure (⟨[], 0⟩ : Path S σ)
  | cons x rest =>
    have started := Checked.holds_start (μ := Except (Error S E α)) d columns x
    rw [List.map_cons]
    dsimp only
    rw [Checked.firstRow_eq, pure_bind, Decoder.search, columns.map_eq_positions]
    rcases Checked.proceed_cases d started 0 rest with
      ⟨p, stopped, refused⟩ | ⟨final, scores, back, ended, holds, computed⟩
    · rw [stopped, refused]
      exact InBounds.lift (Except.error (Error.numerical p .noPath))
    · have best := columns.positions.best_map final Survivor.score
      rw [ended, computed, pure_bind]
      dsimp only
      rw [List.length_map, Checked.bestColumn_eq columns holds.score, pure_bind]
      dsimp only [Prod.map_snd]
      rw [holds.pathTo_eq, pure_bind]
      change InBounds _ (Except.ok (Path.map Q.symbol ⟨_, _⟩))
      rw [best]
      exact .pure _

/-- **Decoding** by number finds the path and the error of the decoder over codes. -/
theorem decode (symbols : List E) :
    InBounds (Checked.decode d Q.codeMap A.codeMap symbols)
      (d.decode symbols : Except (Error S E α) (Path S σ)) := by
  rw [Checked.decode, Q.range_size_codeMap, ← Decoder.toList_wholeAlphabet]
  exact searchSymbols d _ symbols

/-- **Decoding over listed states** by number, rows of columns and walk back included, finds
the path and the error of the decoder over codes. -/
theorem decodeOver (states : List S) (symbols : List E) :
    InBounds (Checked.decodeOver d Q.codeMap A.codeMap states symbols)
      (d.decodeOver states symbols : Except (Error S E α) (Path S σ)) := by
  rw [Checked.decodeOver]
  cases states with
  | nil => exact .lift (Except.error Error.noStatesToSearch)
  | cons s rest =>
    rw [if_neg (List.cons_ne_nil s rest)]
    refine (encode Q _ (s :: rest)).bind_ok fun ks listed => ?_
    have searched : ks ≠ [] := by
      rintro rfl
      have names := Alphabet.encode_eq_ok_iff.mp (mapError_eq_ok.mp listed)
      exact List.cons_ne_nil s rest names.symm
    obtain ⟨columns, made, rfl⟩ := Columns.ofList?_of_ne_nil searched
    rw [made]
    exact searchSymbols d columns symbols

end InBounds

end Trellis
