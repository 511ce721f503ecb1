import Trellis.Proofs.CheckedIndices
import Trellis.Proofs.CodeMaps
import Trellis.Proofs.DrawingInPlace

/-!
# Editing by number

The tables of a builder, edited and asked at the numbers that code maps give for states
and symbols. Every access looks whether its indices are in bounds. With the code maps
of the alphabets they always are, and an edit does what it does at codes, also where it
is refused (`InBounds.perform`); the same holds of what a builder is asked by name
(`InBounds.arcCell?`, `InBounds.emissionCell?`, `InBounds.initialCell?`).
-/

namespace Trellis

variable {S E α : Type} {Q : Alphabet S} {A : Alphabet E}

/-! ### Numbers for names -/

section States

variable {μ : Type → Type} [Monad μ] [DecidableEq S] [Hashable S]

def CodeMap.stateCode (C : CodeMap S) (operation : Operation) (state : S) :
    Except (Error S E α) Nat :=
  C.codeOr (.unknownState operation) state

namespace Alphabet

theorem stateCode_codeMap (operation : Operation) (state : S) :
    (Q.codeMap.stateCode operation state : Except (Error S E α) Nat) =
      Fin.val <$> Q.stateCode operation state := by
  rw [CodeMap.stateCode, codeOr_codeMap, stateCode]
  cases Q.codeOf? state with
  | none => rfl
  | some k => rfl

theorem range_size_codeMap (Q : Alphabet S) : List.range Q.codeMap.size = Q.codes.map Fin.val :=
  range_eq_map_val Q.size

theorem member_symbols [LawfulMonad μ] (Q : Alphabet S) (k : Q.Code) :
    (member Q.codeMap.symbols k.val : Checked μ S) = pure (Q.symbol k) :=
  member_eq (Q.symbol?_val k)

end Alphabet

end States

section Symbols

variable [DecidableEq E] [Hashable E]

def CodeMap.symbolCode (D : CodeMap E) (operation : Operation) (symbol : E) :
    Except (Error S E α) Nat :=
  D.codeOr (.unknownSymbol operation) symbol

theorem Alphabet.symbolCode_codeMap (operation : Operation) (symbol : E) :
    (A.codeMap.symbolCode operation symbol : Except (Error S E α) Nat) =
      Fin.val <$> A.symbolCode operation symbol := by
  rw [CodeMap.symbolCode, codeOr_codeMap, symbolCode]
  cases A.codeOf? symbol with
  | none => rfl
  | some x => rfl

end Symbols

/-! ### Operations -/

namespace Checked

section Operations

variable {μ : Type → Type} [Monad μ]

/-- A test that reads and writes no table. -/
def test {β : Type} (result : Except (Error S E α) β) : Checked (Editing Q A α) β :=
  liftM (Tables.check result : Editing Q A α β)

def refuse {β : Type} (e : Error S E α) : Checked (Editing Q A α) β :=
  liftM (throw e : Editing Q A α β)

/-- Changes the tables at two indices, given how tables are changed at all. -/
def change {n m : Nat} (edit : (Tables Q A α → Tables Q A α) → μ Unit)
    (write : Fin n → Fin m → Tables Q A α → Tables Q A α) (i j : Nat) : Checked μ Unit := do
  let k ← inside n i
  let l ← inside m j
  liftM (edit (write k l))

/-- Writes one probability for the arcs to some states. -/
def writeArcs (i : Nat) (targets : List Nat) (p : α) : Checked (Editing Q A α) Unit :=
  targets.forM fun j => change modify (Tables.writeArc · · p) i j

variable [DecidableEq S] [Hashable S] (C : CodeMap S)

/-- The states that a state may go to, looked up one by one. -/
def targets (t : Tables Q A α) (i : Nat) : Checked μ (List Nat) := do
  let marks ← (List.range C.size).mapM fun j => do return (j, ← t.allowed.cell i j)
  return (marks.filter Prod.snd).map Prod.fst

variable [Arithmetic α]

def allow (source target : S) (p c : α) : Checked (Editing Q A α) Unit := do
  let i ← test (C.stateCode .allowTransition source)
  let j ← test (C.stateCode .allowTransition target)
  test (checkProbability .allowTransition p)
  test (checkPseudocount .allowTransition c)
  if ← (← get).allowed.cell i j then
    refuse (.alreadyAllowed source target)
  else
    change modify (fun k l t => { t with allowed := t.allowed.set k l true }) i j
    change modify (Tables.writeArc · · p) i j
    change modify (fun k l t => { t with pseudocounts := t.pseudocounts.set k l c }) i j

/-- The numbers of an arc, which has to be allowed. -/
def allowedArc (operation : Operation) (source target : S) :
    Checked (Editing Q A α) (Nat × Nat) := do
  let i ← test (C.stateCode operation source)
  let j ← test (C.stateCode operation target)
  if ← (← get).allowed.cell i j then
    return (i, j)
  else
    refuse (.notAllowed source target)

def destroy (source target : S) : Checked (Editing Q A α) Unit := do
  let (i, j) ← allowedArc C .destroyTransition source target
  change modify (fun k l t => { t with allowed := t.allowed.set k l false }) i j
  change modify (Tables.writeArc · · 0) i j
  change modify (fun k l t => { t with pseudocounts := t.pseudocounts.set k l 0 }) i j

def setTransition (source target : S) (p : α) : Checked (Editing Q A α) Unit := do
  let (i, j) ← allowedArc C .setTransition source target
  test (checkProbability .setTransition p)
  change modify (Tables.writeArc · · p) i j

def setTransitionPseudocount (source target : S) (c : α) : Checked (Editing Q A α) Unit := do
  let (i, j) ← allowedArc C .setTransitionPseudocount source target
  test (checkPseudocount .setTransitionPseudocount c)
  change modify (fun k l t => { t with pseudocounts := t.pseudocounts.set k l c }) i j

/-- Reads the entries in order; what is given to a state is written at its number. -/
def readEntries (given : Builder.Given Q α) :
    List (S × α) → Checked (Editing Q A α) (Builder.Given Q α)
  | [] => return given
  | (state, p) :: rest => do
    let i ← test (C.stateCode .setInitial state)
    test (checkProbability .setInitial p)
    let k ← inside Q.size i
    readEntries (given.set k (some p)) rest

def setInitial (entries : List (S × α)) : Checked (Editing Q A α) Unit := do
  let given ← readEntries C (.replicate Q.size none) entries
  let sum := Builder.givenTotal given
  if 1 + tolerance < sum then
    refuse (.invalidProbability .setInitial sum .initialAboveOne)
  else if Builder.missing given = 0 ∧ ¬ NearOne sum then
    refuse (.invalidProbability .setInitial sum .initialIncomplete)
  else
    modify fun t => { t with initial := some (Builder.completed given) }

def equalizeFrom (i : Nat) : Checked (Editing Q A α) Unit := do
  let targets ← targets C (← get) i
  writeArcs i targets (share targets.length)

variable [DecidableEq E] [Hashable E] (D : CodeMap E)

def setEmission (state : S) (symbol : E) (p : α) : Checked (Editing Q A α) Unit := do
  let i ← test (C.stateCode .setEmission state)
  let x ← test (D.symbolCode .setEmission symbol)
  test (checkProbability .setEmission p)
  change modify (Tables.writeEmission · · p) i x

def setEmissionPseudocount (state : S) (symbol : E) (c : α) : Checked (Editing Q A α) Unit := do
  let i ← test (C.stateCode .setEmissionPseudocount state)
  let x ← test (D.symbolCode .setEmissionPseudocount symbol)
  test (checkPseudocount .setEmissionPseudocount c)
  change modify
    (fun k y t => { t with emissionPseudocounts := t.emissionPseudocounts.set k y c }) i x

def setEqual : Checked (Editing Q A α) Unit := do
  modify fun t => { t with initial := some Builder.uniformInitial }
  (List.range C.size).forM (equalizeFrom C)
  modify fun t => { t with emissionProbabilities := .ofFn fun _ _ => share D.size }

/-- An edit at the numbers that code maps give for its names. -/
def perform : DefiniteEdit S E α → Checked (Editing Q A α) Unit
  | ⟨.allow source target p c, _⟩ => allow C source target p c
  | ⟨.allowAll, _⟩ => liftM (Tables.allowAll : Editing Q A α Unit)
  | ⟨.destroy source target, _⟩ => destroy C source target
  | ⟨.setTransition source target p, _⟩ => setTransition C source target p
  | ⟨.setTransitionPseudocount source target c, _⟩ => setTransitionPseudocount C source target c
  | ⟨.setEmission state symbol p, _⟩ => setEmission C D state symbol p
  | ⟨.setEmissionPseudocount state symbol c, _⟩ => setEmissionPseudocount C D state symbol c
  | ⟨.setInitial entries, _⟩ => setInitial C entries
  | ⟨.setEqual, _⟩ => setEqual C D
  | ⟨.randomize _, definite⟩ => definite.elim

end Operations

/-! ### Answers -/

section Answers

variable [DecidableEq S] [Hashable S] (C : CodeMap S)

/-- The cell of an arc in a table of numbers, told if the arc is allowed. -/
def arcCell? (t : Tables Q A α) (cells : Table Q.size Q.size α) (source target : S) :
    Checked Option α := do
  let i ← liftM (C.codeOf? source)
  let j ← liftM (C.codeOf? target)
  if ← t.allowed.cell i j then cells.cell i j else liftM (none : Option α)

def initialCell? (t : Tables Q A α) (state : S) : Checked Option α := do
  let i ← liftM (C.codeOf? state)
  let row ← liftM t.initial
  Row.cell row i

/-- The arcs there are, by source and then by target. -/
def arcs {μ : Type → Type} [Monad μ] (t : Tables Q A α) : Checked μ (List (S × S)) := do
  let rows ← (List.range C.size).mapM fun i => do
    (← targets C t i).mapM fun j => do return (← member C.symbols i, ← member C.symbols j)
  return rows.flatten

def emissionCell? [DecidableEq E] [Hashable E] (D : CodeMap E) (cells : Table Q.size A.size α)
    (state : S) (symbol : E) : Checked Option α := do
  let i ← liftM (C.codeOf? state)
  let x ← liftM (D.codeOf? symbol)
  cells.cell i x

end Answers

end Checked

/-! ### Operations in bounds -/

theorem Tables.check_bind {β γ : Type} (first : Except (Error S E α) β)
    (next : β → Except (Error S E α) γ) :
    (check (first >>= next) : Editing Q A α γ) = check first >>= fun b => check (next b) := by
  cases first with
  | error e => rfl
  | ok b => rfl

section Codes

variable {μ : Type → Type} [Monad μ] [LawfulMonad μ]

theorem Checked.targets_val [DecidableEq S] [Hashable S] (t : Tables Q A α) (k : Q.Code) :
    (targets Q.codeMap t k.val : Checked μ _) = pure ((t.targets k).map Fin.val) := by
  have marks : (List.range Q.codeMap.size).mapM (fun j => do
      return (j, ← t.allowed.cell k.val j)) =
      (pure (Q.codes.map fun l => (l.val, t.allowed.get k l)) : Checked μ _) := by
    rw [Q.range_size_codeMap]
    refine mapM_map_eq_pure (fun l => ?_) Q.codes
    rw [Table.cell_val, pure_bind]
  rw [targets, marks, pure_bind, List.filter_map, List.map_map]
  rfl

end Codes

namespace InBounds

section Steps

theorem test {β : Type} (result : Except (Error S E α) β) :
    InBounds (Checked.test result : Checked (Editing Q A α) β) (Tables.check result) :=
  .lift _

theorem change {μ : Type → Type} [Monad μ] [LawfulMonad μ] {n m : Nat}
    (edit : (Tables Q A α → Tables Q A α) → μ Unit)
    (write : Fin n → Fin m → Tables Q A α → Tables Q A α) (k : Fin n) (l : Fin m) :
    InBounds (Checked.change edit write k.val l.val) (edit (write k l)) := by
  rw [Checked.change, inside_val, inside_val, pure_bind, pure_bind]
  exact .lift _

theorem writeArcs (k : Q.Code) (targets : List Q.Code) (p : α) :
    InBounds (Checked.writeArcs k.val (targets.map Fin.val) p)
      (targets.forM fun l => modify (Tables.writeArc k l p) : Editing Q A α Unit) :=
  forM (fun l => change _ _ k l) targets

end Steps

section States

variable [DecidableEq S] [Hashable S]

theorem stateCode (operation : Operation) (state : S) :
    InBounds (Checked.test (Q.codeMap.stateCode operation state))
      (Fin.val <$> (Tables.check (Q.stateCode operation state) : Editing Q A α Q.Code)) := by
  rw [Alphabet.stateCode_codeMap]
  cases (Q.stateCode operation state : Except (Error S E α) Q.Code) with
  | error e => exact .lift _
  | ok k => exact .lift _

theorem codeOf? (state : S) :
    InBounds (liftM (Q.codeMap.codeOf? state)) (Fin.val <$> Q.codeOf? state) := by
  rw [Alphabet.codeOf?_codeMap]
  exact .lift _

end States

section Edits

variable [Arithmetic α] [DecidableEq S] [Hashable S]

theorem allow (source target : S) (p c : α) :
    InBounds (Checked.allow Q.codeMap source target p c)
      (Tables.allow source target p c : Editing Q A α Unit) := by
  refine (stateCode _ _).bind_map fun k => (stateCode _ _).bind_map fun l => ?_
  refine (test _).bind fun _ => (test _).bind fun _ => (lift get).bind fun t => ?_
  rw [Table.cell_val, pure_bind]
  refine ite (fun _ => .lift _) fun _ => ?_
  exact (change _ _ k l).bind fun _ => (change _ _ k l).bind fun _ => change _ _ k l

omit [Arithmetic α] in
theorem allowedArc (operation : Operation) (source target : S) :
    InBounds (Checked.allowedArc Q.codeMap operation source target)
      (Prod.map Fin.val Fin.val <$>
        (Tables.allowedArc operation source target : Editing Q A α (Q.Code × Q.Code))) := by
  simp only [Tables.allowedArc, map_bind]
  refine (stateCode _ _).bind_map fun k => (stateCode _ _).bind_map fun l => ?_
  refine (lift get).bind fun t => ?_
  rw [Table.cell_val, pure_bind, apply_ite (Functor.map _), map_pure]
  exact ite (fun _ => .pure _) fun _ => .lift _

theorem destroy (source target : S) :
    InBounds (Checked.destroy Q.codeMap source target)
      (Tables.destroy source target : Editing Q A α Unit) := by
  refine (allowedArc _ _ _).bind_map fun (k, l) => ?_
  exact (change _ _ k l).bind fun _ => (change _ _ k l).bind fun _ => change _ _ k l

theorem setTransition (source target : S) (p : α) :
    InBounds (Checked.setTransition Q.codeMap source target p)
      (Tables.setTransition source target p : Editing Q A α Unit) := by
  refine (allowedArc _ _ _).bind_map fun (k, l) => ?_
  exact (test _).bind fun _ => change _ _ k l

theorem setTransitionPseudocount (source target : S) (c : α) :
    InBounds (Checked.setTransitionPseudocount Q.codeMap source target c)
      (Tables.setTransitionPseudocount source target c : Editing Q A α Unit) := by
  refine (allowedArc _ _ _).bind_map fun (k, l) => ?_
  exact (test _).bind fun _ => change _ _ k l

theorem readEntries (given : Builder.Given Q α) (entries : List (S × α)) :
    InBounds (Checked.readEntries Q.codeMap given entries)
      (Tables.check (Builder.readEntries given entries) : Editing Q A α (Builder.Given Q α)) := by
  induction entries generalizing given with
  | nil => exact .pure given
  | cons entry rest ih =>
    obtain ⟨state, p⟩ := entry
    rw [Builder.readEntries]
    simp only [Tables.check_bind]
    refine (stateCode _ _).bind_map fun k => (test _).bind fun _ => ?_
    rw [inside_val, pure_bind]
    exact ih _

theorem setInitial (entries : List (S × α)) :
    InBounds (Checked.setInitial Q.codeMap entries)
      (Tables.setInitial entries : Editing Q A α Unit) := by
  refine (readEntries _ _).bind fun given => ?_
  exact ite (fun _ => .lift _) fun _ => ite (fun _ => .lift _) fun _ => .lift _

theorem equalizeFrom (k : Q.Code) :
    InBounds (Checked.equalizeFrom Q.codeMap k.val)
      (Tables.equalizeFrom k : Editing Q A α Unit) := by
  refine (lift get).bind fun t => ?_
  rw [Checked.targets_val, pure_bind, List.length_map]
  exact writeArcs k _ _

variable [DecidableEq E] [Hashable E]

omit [Arithmetic α] [DecidableEq S] [Hashable S] in
theorem symbolCode (operation : Operation) (symbol : E) :
    InBounds (Checked.test (A.codeMap.symbolCode operation symbol))
      (Fin.val <$> (Tables.check (A.symbolCode operation symbol) : Editing Q A α A.Code)) := by
  rw [Alphabet.symbolCode_codeMap]
  cases (A.symbolCode operation symbol : Except (Error S E α) A.Code) with
  | error e => exact .lift _
  | ok x => exact .lift _

theorem setEmission (state : S) (symbol : E) (p : α) :
    InBounds (Checked.setEmission Q.codeMap A.codeMap state symbol p)
      (Tables.setEmission state symbol p : Editing Q A α Unit) := by
  refine (stateCode _ _).bind_map fun k => (symbolCode _ _).bind_map fun x => ?_
  exact (test _).bind fun _ => change _ _ k x

theorem setEmissionPseudocount (state : S) (symbol : E) (c : α) :
    InBounds (Checked.setEmissionPseudocount Q.codeMap A.codeMap state symbol c)
      (Tables.setEmissionPseudocount state symbol c : Editing Q A α Unit) := by
  refine (stateCode _ _).bind_map fun k => (symbolCode _ _).bind_map fun x => ?_
  exact (test _).bind fun _ => change _ _ k x

theorem setEqual :
    InBounds (Checked.setEqual Q.codeMap A.codeMap) (Tables.setEqual : Editing Q A α Unit) := by
  refine (lift _).bind fun _ => ?_
  rw [Q.range_size_codeMap]
  exact (forM equalizeFrom Q.codes).bind fun _ => .lift _

/-- **One edit** by number is the edit at codes. -/
theorem perform (edit : DefiniteEdit S E α) :
    InBounds (Checked.perform Q.codeMap A.codeMap edit)
      (Tables.perform edit : Editing Q A α Unit) := by
  obtain ⟨edit, definite⟩ := edit
  cases edit with
  | allow source target p c => exact allow source target p c
  | allowAll => exact .lift _
  | destroy source target => exact destroy source target
  | setTransition source target p => exact setTransition source target p
  | setTransitionPseudocount source target c => exact setTransitionPseudocount source target c
  | setEmission state symbol p => exact setEmission state symbol p
  | setEmissionPseudocount state symbol c => exact setEmissionPseudocount state symbol c
  | setInitial entries => exact setInitial entries
  | setEqual => exact setEqual
  | randomize words => exact definite.elim

end Edits

section Answers

variable [DecidableEq S] [Hashable S] (t : Tables Q A α)

/-- A number of an arc, asked for by name. -/
theorem arcCell? (cells : Table Q.size Q.size α) (source target : S) :
    InBounds (Checked.arcCell? Q.codeMap t cells source target)
      (t.arcCell? cells source target) := by
  refine (codeOf? _).bind_map fun k => (codeOf? _).bind_map fun l => ?_
  rw [Table.cell_val, pure_bind, Table.cell_val]
  exact ite (fun _ => .pure _) fun _ => .lift _

/-- An initial probability, asked for by name. -/
theorem initialCell? [DecidableEq E] (state : S) :
    InBounds (Checked.initialCell? Q.codeMap t state) (t.answers.initialProbability state) := by
  refine (codeOf? _).bind_map fun k => (lift _).bind fun row => ?_
  rw [Row.cell_val]
  exact .pure _

/-- A number of an emission, asked for by name. -/
theorem emissionCell? [DecidableEq E] [Hashable E] (cells : Table Q.size A.size α) (state : S)
    (symbol : E) :
    InBounds (Checked.emissionCell? Q.codeMap A.codeMap cells state symbol)
      (Tables.emissionCell? cells state symbol) := by
  refine (codeOf? _).bind_map fun k => (codeOf? _).bind_map fun x => ?_
  rw [Table.cell_val]
  exact .pure _

end Answers

end InBounds

theorem Checked.arcs_eq [DecidableEq S] [Hashable S] [DecidableEq E] {μ : Type → Type} [Monad μ]
    [LawfulMonad μ] (t : Tables Q A α) :
    (arcs Q.codeMap t : Checked μ _) = pure t.answers.arcs := by
  have row (k : Q.Code) : (do
      (← targets Q.codeMap t k.val).mapM fun j => do
        return (← member Q.codeMap.symbols k.val, ← member Q.codeMap.symbols j)) =
      (pure ((t.targets k).map fun l => (Q.symbol k, Q.symbol l)) : Checked μ (List (S × S))) := by
    rw [targets_val, pure_bind]
    refine mapM_map_eq_pure (fun l => ?_) _
    simp only [Q.member_symbols, pure_bind]
  rw [arcs, Q.range_size_codeMap, mapM_map_eq_pure row, pure_bind]
  rfl

end Trellis
