import Trellis.Proofs.Groups
import Trellis.Proofs.Transcripts

/-!
# Editing in place

A builder that is kept in six tables which an edit changes one after another. The
numbers of an arc stay in their cells whether the arc is allowed or not, so a
cell may hold what nobody can ask for; and an edit that is refused has to leave
all tables as they were. Read together, the tables are a builder
(`Tables.builder`), and every edit in place follows the edit of that builder
(`Follows`, `follows_perform`): both are refused alike, and a refused edit changes
no table (`step_eq_self`). The tables tell what the builder tells
(`answers_builder`).
-/

namespace Trellis

variable {S E α : Type}

/-- Which arcs are allowed, and a number for every cell. -/
structure Tables (Q : Alphabet S) (A : Alphabet E) (α : Type) where
  allowed : Table Q.size Q.size Bool
  probabilities : Table Q.size Q.size α
  pseudocounts : Table Q.size Q.size α
  emissionProbabilities : Table Q.size A.size α
  emissionPseudocounts : Table Q.size A.size α
  initial : Option (Vector α Q.size)

/-- Operations on the tables. An error keeps what was written before it. -/
abbrev Editing (Q : Alphabet S) (A : Alphabet E) (α : Type) : Type → Type :=
  EStateM (Error S E α) (Tables Q A α)

namespace Tables

variable {Q : Alphabet S} {A : Alphabet E}

/-- All cells are zero, except the pseudocounts of emissions. -/
def empty [Arithmetic α] : Tables Q A α where
  allowed := .ofFn fun _ _ => false
  probabilities := .ofFn fun _ _ => 0
  pseudocounts := .ofFn fun _ _ => 0
  emissionProbabilities := .ofFn fun _ _ => 0
  emissionPseudocounts := .ofFn fun _ _ => defaultPseudocount
  initial := none

/-- The builder that is kept in the tables. -/
def builder (t : Tables Q A α) : Builder Q A α where
  transitions := .ofFn fun k l =>
    if t.allowed.get k l then some ⟨t.probabilities.get k l, t.pseudocounts.get k l⟩ else none
  emissions := .ofFn fun k x =>
    ⟨t.emissionProbabilities.get k x, t.emissionPseudocounts.get k x⟩
  initial := t.initial

/-- The states that a state may go to, in code order. -/
def targets (t : Tables Q A α) (k : Q.Code) : List Q.Code := Q.codes.filter (t.allowed.get k)

/-! ### Edits -/

section Edits

/-- A test that reads and writes no table. -/
def check {β : Type} (test : Except (Error S E α) β) : Editing Q A α β :=
  MonadExcept.ofExcept test

variable [Arithmetic α]

/-- Three tables are filled as a whole. -/
def allowAll : Editing Q A α Unit := do
  modify fun t => { t with allowed := .ofFn fun _ _ => true }
  modify fun t => { t with probabilities := .ofFn fun _ _ => 0 }
  modify fun t => { t with pseudocounts := .ofFn fun _ _ => defaultPseudocount }

/-- Gives the arcs that leave a state equal probabilities. -/
def equalizeFrom (k : Q.Code) : Editing Q A α Unit := do
  let targets := (← get).targets k
  targets.forM fun l => modify fun t =>
    { t with probabilities := t.probabilities.set k l (share targets.length) }

def setEqual : Editing Q A α Unit := do
  modify fun t => { t with initial := some Builder.uniformInitial }
  Q.codes.forM equalizeFrom
  modify fun t => { t with emissionProbabilities := .ofFn fun _ _ => share A.size }

variable [DecidableEq S]

/-- Allows an arc, which overwrites what its cells still hold. -/
def allow (source target : S) (p c : α) : Editing Q A α Unit := do
  let k ← check (Q.stateCode .allowTransition source)
  let l ← check (Q.stateCode .allowTransition target)
  check (checkProbability .allowTransition p)
  check (checkPseudocount .allowTransition c)
  if (← get).allowed.get k l then
    throw (.alreadyAllowed source target)
  else
    modify fun t => { t with allowed := t.allowed.set k l true }
    modify fun t => { t with probabilities := t.probabilities.set k l p }
    modify fun t => { t with pseudocounts := t.pseudocounts.set k l c }

/-- The codes of an arc, which has to be allowed. -/
def allowedArc (operation : Operation) (source target : S) : Editing Q A α (Q.Code × Q.Code) := do
  let k ← check (Q.stateCode operation source)
  let l ← check (Q.stateCode operation target)
  if (← get).allowed.get k l then
    return (k, l)
  else
    throw (.notAllowed source target)

/-- Forbids an arc, and clears both of its cells. -/
def destroy (source target : S) : Editing Q A α Unit := do
  let (k, l) ← allowedArc .destroyTransition source target
  modify fun t => { t with allowed := t.allowed.set k l false }
  modify fun t => { t with probabilities := t.probabilities.set k l 0 }
  modify fun t => { t with pseudocounts := t.pseudocounts.set k l 0 }

def setTransition (source target : S) (p : α) : Editing Q A α Unit := do
  let (k, l) ← allowedArc .setTransition source target
  check (checkProbability .setTransition p)
  modify fun t => { t with probabilities := t.probabilities.set k l p }

def setTransitionPseudocount (source target : S) (c : α) : Editing Q A α Unit := do
  let (k, l) ← allowedArc .setTransitionPseudocount source target
  check (checkPseudocount .setTransitionPseudocount c)
  modify fun t => { t with pseudocounts := t.pseudocounts.set k l c }

def setInitial (entries : List (S × α)) : Editing Q A α Unit := do
  let given ← check (Builder.readEntries (.replicate Q.size none) entries)
  let sum := Builder.givenTotal given
  if 1 + tolerance < sum then
    throw (.invalidProbability .setInitial sum .initialAboveOne)
  else if Builder.missing given = 0 ∧ ¬ NearOne sum then
    throw (.invalidProbability .setInitial sum .initialIncomplete)
  else
    modify fun t => { t with initial := some (Builder.completed given) }

variable [DecidableEq E]

def setEmission (state : S) (symbol : E) (p : α) : Editing Q A α Unit := do
  let k ← check (Q.stateCode .setEmission state)
  let x ← check (A.symbolCode .setEmission symbol)
  check (checkProbability .setEmission p)
  modify fun t => { t with emissionProbabilities := t.emissionProbabilities.set k x p }

def setEmissionPseudocount (state : S) (symbol : E) (c : α) : Editing Q A α Unit := do
  let k ← check (Q.stateCode .setEmissionPseudocount state)
  let x ← check (A.symbolCode .setEmissionPseudocount symbol)
  check (checkPseudocount .setEmissionPseudocount c)
  modify fun t => { t with emissionPseudocounts := t.emissionPseudocounts.set k x c }

/-- An edit in place. One that is refused stops where it is, with what it has written. -/
def perform : DefiniteEdit S E α → Editing Q A α Unit
  | ⟨.allow source target p c, _⟩ => allow source target p c
  | ⟨.allowAll, _⟩ => allowAll
  | ⟨.destroy source target, _⟩ => destroy source target
  | ⟨.setTransition source target p, _⟩ => setTransition source target p
  | ⟨.setTransitionPseudocount source target c, _⟩ => setTransitionPseudocount source target c
  | ⟨.setEmission state symbol p, _⟩ => setEmission state symbol p
  | ⟨.setEmissionPseudocount state symbol c, _⟩ => setEmissionPseudocount state symbol c
  | ⟨.setInitial entries, _⟩ => setInitial entries
  | ⟨.setEqual, _⟩ => setEqual
  | ⟨.randomize _, definite⟩ => definite.elim

/-- How an edit in place ends, and the tables it leaves. -/
def step (t : Tables Q A α) (edit : DefiniteEdit S E α) : Option (Error S E α) × Tables Q A α :=
  match (perform edit).run t with
  | .ok _ s => (none, s)
  | .error refusal s => (some refusal, s)

end Edits

/-! ### Answers -/

section Answers

variable [DecidableEq S]

/-- The cell of an arc in a table of numbers, told if the arc is allowed. -/
def arcCell? (t : Tables Q A α) (cells : Table Q.size Q.size α) (source target : S) :
    Option α := do
  let k ← Q.codeOf? source
  let l ← Q.codeOf? target
  if t.allowed.get k l then some (cells.get k l) else none

variable [DecidableEq E]

/-- The cell of an emission, if both names are known. -/
def emissionCell? (cells : Table Q.size A.size α) (state : S) (symbol : E) : Option α := do
  let k ← Q.codeOf? state
  let x ← A.codeOf? symbol
  return cells.get k x

/-- Tables answer from the cell itself; the mask decides which arcs have a cell to tell. -/
def answers (t : Tables Q A α) : Answers S E α where
  transitionProbability := t.arcCell? t.probabilities
  transitionPseudocount := t.arcCell? t.pseudocounts
  emissionProbability := emissionCell? t.emissionProbabilities
  emissionPseudocount := emissionCell? t.emissionPseudocounts
  initialProbability state := do
    let k ← Q.codeOf? state
    let row ← t.initial
    return row.get k
  arcs := Q.codes.flatMap fun k => (t.targets k).map fun l => (Q.symbol k, Q.symbol l)

end Answers

/-! ### Writing -/

section Writing

variable {t s : Tables Q A α}

theorem run_bind {β γ : Type} {x : Editing Q A α β} {f : β → Editing Q A α γ} {b : β}
    (first : x.run t = .ok b s) : (x >>= f).run t = (f b).run s := by
  rw [EStateM.run_bind, first]

theorem run_get : (get : Editing Q A α _).run t = .ok t t := rfl

theorem run_modify (change : Tables Q A α → Tables Q A α) :
    (modify change : Editing Q A α Unit).run t = .ok () (change t) := rfl

/-- Three tables are written one after another. -/
theorem run_modify_three (first second third : Tables Q A α → Tables Q A α) :
    (do modify first; modify second; modify third : Editing Q A α Unit).run t =
      .ok () (third (second (first t))) := by
  rw [run_bind (run_modify first), run_bind (run_modify second), run_modify]

end Writing

/-! ### Following a builder -/

/-- From these tables, an operation is refused like that of a builder and leaves
the tables alone, or it leaves the tables of the builder that is returned. -/
def Follows (t : Tables Q A α) (operation : Editing Q A α Unit) :
    Except (Error S E α) (Builder Q A α) → Prop
  | .error e => operation.run t = .error e t
  | .ok c => ∃ s, operation.run t = .ok () s ∧ s.builder = c

namespace Follows

variable {t : Tables Q A α}

theorem check {β : Type} {test : Except (Error S E α) β} {f : β → Editing Q A α Unit}
    {g : β → Except (Error S E α) (Builder Q A α)} (next : ∀ b, t.Follows (f b) (g b)) :
    t.Follows (Tables.check test >>= f) (test >>= g) := by
  cases test with
  | error e => rfl
  | ok b => exact next b

theorem read {f : Tables Q A α → Editing Q A α Unit}
    {result : Except (Error S E α) (Builder Q A α)} (next : t.Follows (f t) result) :
    t.Follows (get >>= f) result := by
  cases result with
  | error e => exact next
  | ok c => exact next

/-- An operation that refuses leaves the tables alone. -/
theorem refused (e : Error S E α) : t.Follows (throw e) (.error e) := rfl

theorem written {operation : Editing Q A α Unit} {s : Tables Q A α} {c : Builder Q A α}
    (writes : operation.run t = .ok () s) (kept : s.builder = c) :
    t.Follows operation (.ok c) :=
  ⟨s, writes, kept⟩

/-- What is refused in place is refused by the builder, and no table has changed. -/
theorem eq_of_error {operation : Editing Q A α Unit} {s : Tables Q A α} {e : Error S E α}
    {result : Except (Error S E α) (Builder Q A α)} (follows : t.Follows operation result)
    (failed : operation.run t = .error e s) : s = t ∧ result = .error e := by
  cases result with
  | error e' =>
    have unmoved : operation.run t = .error e' t := follows
    cases unmoved.symm.trans failed
    exact ⟨rfl, rfl⟩
  | ok c =>
    obtain ⟨s', writes, -⟩ := follows
    cases writes.symm.trans failed

end Follows

section Arcs

variable (t : Tables Q A α) (k l : Q.Code)

theorem transitions_builder :
    t.builder.transitions.get k l =
      if t.allowed.get k l then some ⟨t.probabilities.get k l, t.pseudocounts.get k l⟩ else none :=
  Table.get_ofFn _ _ _

theorem allows_builder : t.builder.allows k l = t.allowed.get k l := by
  rw [Parameters.allows, transitions_builder]
  cases t.allowed.get k l with
  | true => rfl
  | false => rfl

theorem targets_builder : t.builder.targets k = t.targets k :=
  List.filter_congr fun l _ => t.allows_builder k l

theorem emissions_builder (x : A.Code) :
    t.builder.emissions.get k x =
      ⟨t.emissionProbabilities.get k x, t.emissionPseudocounts.get k x⟩ :=
  Table.get_ofFn _ _ _

variable {t k l}

/-- Tables that differ in the cells of one arc are the builder with this arc set. -/
theorem builder_eq_setArc {s : Tables Q A α} {o : Option (Entry α)}
    (here : s.builder.transitions.get k l = o)
    (elsewhere : ∀ i j, ¬ (k = i ∧ l = j) →
      s.builder.transitions.get i j = t.builder.transitions.get i j)
    (probabilities : s.emissionProbabilities = t.emissionProbabilities)
    (pseudocounts : s.emissionPseudocounts = t.emissionPseudocounts)
    (initial : s.initial = t.initial) : s.builder = t.builder.setArc k l o := by
  refine Builder.ext (Parameters.ext (fun i j => ?_) fun i x => ?_) initial
  · rw [Builder.setArc, Parameters.setArc, Table.get_set]
    split
    · rename_i same
      rw [← same.1, ← same.2, here]
    · rename_i differ
      exact elsewhere i j differ
  · rw [Builder.setArc, Parameters.setArc, emissions_builder, emissions_builder, probabilities,
      pseudocounts]

theorem builder_setArc (allowed : Bool) (p c : α) :
    builder { t with
      allowed := t.allowed.set k l allowed
      probabilities := t.probabilities.set k l p
      pseudocounts := t.pseudocounts.set k l c } =
    t.builder.setArc k l (if allowed then some ⟨p, c⟩ else none) := by
  refine builder_eq_setArc ?_ (fun i j differ => ?_) rfl rfl rfl
  · simp [transitions_builder, Table.get_set]
  · simp only [transitions_builder, Table.get_set, if_neg differ]

theorem builder_setProbability (allowed : t.allowed.get k l = true) (p : α) :
    builder { t with probabilities := t.probabilities.set k l p } =
      t.builder.setArc k l (some ⟨p, t.pseudocounts.get k l⟩) := by
  refine builder_eq_setArc ?_ (fun i j differ => ?_) rfl rfl rfl
  · simp [transitions_builder, Table.get_set, allowed]
  · simp only [transitions_builder, Table.get_set, if_neg differ]

theorem builder_setPseudocount (allowed : t.allowed.get k l = true) (c : α) :
    builder { t with pseudocounts := t.pseudocounts.set k l c } =
      t.builder.setArc k l (some ⟨t.probabilities.get k l, c⟩) := by
  refine builder_eq_setArc ?_ (fun i j differ => ?_) rfl rfl rfl
  · simp [transitions_builder, Table.get_set, allowed]
  · simp only [transitions_builder, Table.get_set, if_neg differ]

end Arcs

section Emissions

variable {t : Tables Q A α} {k : Q.Code} {x : A.Code}

/-- Tables that differ in the cells of one emission are the builder with this entry set. -/
theorem builder_eq_setEmissionEntry {s : Tables Q A α} {e : Entry α}
    (here : s.builder.emissions.get k x = e)
    (elsewhere : ∀ i y, ¬ (k = i ∧ x = y) →
      s.builder.emissions.get i y = t.builder.emissions.get i y)
    (allowed : s.allowed = t.allowed) (probabilities : s.probabilities = t.probabilities)
    (pseudocounts : s.pseudocounts = t.pseudocounts) (initial : s.initial = t.initial) :
    s.builder = t.builder.setEmissionEntry k x e := by
  refine Builder.ext (Parameters.ext (fun i j => ?_) fun i y => ?_) initial
  · rw [Builder.setEmissionEntry, Parameters.setEmission, transitions_builder,
      transitions_builder, allowed, probabilities, pseudocounts]
  · rw [Builder.setEmissionEntry, Parameters.setEmission, Table.get_set]
    split
    · rename_i same
      rw [← same.1, ← same.2, here]
    · rename_i differ
      exact elsewhere i y differ

theorem builder_setEmission (p : α) :
    builder { t with emissionProbabilities := t.emissionProbabilities.set k x p } =
      t.builder.setEmissionEntry k x { t.builder.emissions.get k x with probability := p } := by
  refine builder_eq_setEmissionEntry ?_ (fun i y differ => ?_) rfl rfl rfl rfl
  · simp [emissions_builder, Table.get_set]
  · simp only [emissions_builder, Table.get_set, if_neg differ]

theorem builder_setEmissionPseudocount (c : α) :
    builder { t with emissionPseudocounts := t.emissionPseudocounts.set k x c } =
      t.builder.setEmissionEntry k x { t.builder.emissions.get k x with pseudocount := c } := by
  refine builder_eq_setEmissionEntry ?_ (fun i y differ => ?_) rfl rfl rfl rfl
  · simp [emissions_builder, Table.get_set]
  · simp only [emissions_builder, Table.get_set, if_neg differ]

end Emissions

/-! ### Single entries -/

section Follow

variable [Arithmetic α] [DecidableEq S] (t : Tables Q A α)

theorem follows_allow (source target : S) (p c : α) :
    t.Follows (allow source target p c) (t.builder.allow source target p c) := by
  refine .check fun k => .check fun l => .check fun _ => .check fun _ => .read ?_
  rw [allows_builder]
  split
  · exact .refused _
  · exact .written (run_modify_three _ _ _) (builder_setArc true p c)

omit [Arithmetic α] in
/-- What follows the lookup of an arc, follows its lookup in the builder. -/
theorem follows_allowedArc {operation : Operation} {source target : S}
    {f : Q.Code × Q.Code → Editing Q A α Unit}
    {g : Q.Code × Q.Code × Entry α → Except (Error S E α) (Builder Q A α)}
    (next : ∀ k l, t.allowed.get k l = true →
      t.Follows (f (k, l)) (g (k, l, ⟨t.probabilities.get k l, t.pseudocounts.get k l⟩))) :
    t.Follows (allowedArc operation source target >>= f)
      (t.builder.knownArc operation source target >>= g) := by
  unfold allowedArc Builder.knownArc
  simp only [bind_assoc]
  refine .check fun k => .check fun l => .read ?_
  rw [transitions_builder]
  cases allowed : t.allowed.get k l with
  | true => exact next k l allowed
  | false => exact .refused _

theorem follows_destroy (source target : S) :
    t.Follows (destroy source target) (t.builder.destroy source target) := by
  refine t.follows_allowedArc fun k l _ => ?_
  exact .written (run_modify_three _ _ _) (builder_setArc false 0 0)

theorem follows_setTransition (source target : S) (p : α) :
    t.Follows (setTransition source target p) (t.builder.setTransition source target p) := by
  refine t.follows_allowedArc fun k l allowed => .check fun _ => ?_
  exact .written (run_modify _) (builder_setProbability allowed p)

theorem follows_setTransitionPseudocount (source target : S) (c : α) :
    t.Follows (setTransitionPseudocount source target c)
      (t.builder.setTransitionPseudocount source target c) := by
  refine t.follows_allowedArc fun k l allowed => .check fun _ => ?_
  exact .written (run_modify _) (builder_setPseudocount allowed c)

theorem follows_setInitial (entries : List (S × α)) :
    t.Follows (setInitial entries) (t.builder.setInitial entries) := by
  refine .check fun given => ?_
  dsimp only
  split
  · exact .refused _
  · split
    · exact .refused _
    · exact .written (run_modify _) rfl

variable [DecidableEq E]

theorem follows_setEmission (state : S) (symbol : E) (p : α) :
    t.Follows (setEmission state symbol p) (t.builder.setEmission state symbol p) := by
  refine .check fun k => .check fun x => .check fun _ => ?_
  exact .written (run_modify _) (builder_setEmission p)

theorem follows_setEmissionPseudocount (state : S) (symbol : E) (c : α) :
    t.Follows (setEmissionPseudocount state symbol c)
      (t.builder.setEmissionPseudocount state symbol c) := by
  refine .check fun k => .check fun x => .check fun _ => ?_
  exact .written (run_modify _) (builder_setEmissionPseudocount c)

end Follow

/-! ### Whole tables -/

section Whole

variable [Arithmetic α] (t : Tables Q A α)

omit t in
theorem emissions_allowAll (b : Builder Q A α) : b.allowAll.emissions = b.emissions := rfl

theorem follows_allowAll : t.Follows allowAll (.ok t.builder.allowAll) := by
  refine .written (run_modify_three _ _ _)
    (Builder.ext (Parameters.ext (fun k l => ?_) fun k x => ?_) (Eq.refl t.initial))
  · simp only [transitions_builder, Builder.allowAll, Table.get_ofFn, if_true]
  · rw [emissions_allowAll, emissions_builder, emissions_builder]

omit [Arithmetic α] in
/-- Equal probabilities for some of the arcs that leave a state, one after another. -/
theorem run_forM_set (k : Q.Code) (p : α) (targets : List Q.Code) :
    (targets.forM fun l => modify fun s =>
      { s with probabilities := s.probabilities.set k l p } : Editing Q A α Unit).run t =
      .ok () { t with probabilities := .ofFn fun i j =>
        if k = i ∧ j ∈ targets then p else t.probabilities.get i j } := by
  induction targets generalizing t with
  | nil =>
    have cells : (Table.ofFn fun i j => if k = i ∧ j ∈ ([] : List Q.Code) then p
        else t.probabilities.get i j) = t.probabilities := by
      simp only [List.not_mem_nil, and_false, if_false, Table.ofFn_get]
    rw [cells]
    rfl
  | cons l rest ih =>
    refine (run_bind (run_modify _)).trans ((ih _).trans ?_)
    congr 2
    ext i j
    simp only [Table.get_ofFn, Table.get_set, List.mem_cons]
    grind

theorem run_equalizeFrom (k : Q.Code) :
    (equalizeFrom k).run t =
      .ok () { t with probabilities := .ofFn fun i j =>
        if k = i ∧ j ∈ t.targets k then share (t.targets k).length
        else t.probabilities.get i j } := by
  rw [equalizeFrom, run_bind run_get]
  exact t.run_forM_set k (share (t.targets k).length) (t.targets k)

/-- Equal probabilities for the arcs that leave some of the states. -/
theorem run_forM_equalizeFrom (states : List Q.Code) :
    (states.forM equalizeFrom : Editing Q A α Unit).run t =
      .ok () { t with probabilities := .ofFn fun i j =>
        if i ∈ states ∧ j ∈ t.targets i then share (t.targets i).length
        else t.probabilities.get i j } := by
  induction states generalizing t with
  | nil =>
    simp only [List.not_mem_nil, false_and, if_false, Table.ofFn_get]
    rfl
  | cons k rest ih =>
    refine (run_bind (t.run_equalizeFrom k)).trans ((ih _).trans ?_)
    congr 2
    ext i j
    simp only [targets, Table.get_ofFn, List.mem_cons]
    grind

theorem follows_setEqual : t.Follows setEqual (.ok t.builder.setEqual) := by
  have loop := run_forM_equalizeFrom { t with initial := some Builder.uniformInitial } Q.codes
  refine .written ((run_bind (run_modify _)).trans ((run_bind loop).trans (run_modify _))) ?_
  refine Builder.ext (Parameters.ext (fun k l => ?_) fun k x => ?_) rfl
  · rw [transitions_builder, Builder.setEqual, Parameters.transitions_mapGroups,
      transitions_builder, Table.get_ofFn]
    cases allowed : t.allowed.get k l with
    | true =>
      have target : k ∈ Q.codes ∧ l ∈ t.targets k := by
        simp [Alphabet.codes, targets, allowed]
      rw [if_pos rfl, if_pos rfl, Option.map_some, Group.equalize,
        Parameters.length_transitionGroup, targets_builder]
      exact congrArg (fun p => some (Entry.mk p _)) (if_pos target)
    | false => rfl
  · rw [emissions_builder, Builder.setEqual, Parameters.emissions_mapGroups, emissions_builder,
      Group.equalize, Parameters.emissionGroup, Vector.length_toList, Table.get_ofFn]
    rfl

/-- **One edit.** From any tables, an edit in place follows the edit of their builder. -/
theorem follows_perform [DecidableEq S] [DecidableEq E] (edit : DefiniteEdit S E α) :
    t.Follows (perform edit) (t.builder.apply edit.val) := by
  obtain ⟨edit, definite⟩ := edit
  cases edit with
  | allow source target p c => exact t.follows_allow source target p c
  | allowAll => exact t.follows_allowAll
  | destroy source target => exact t.follows_destroy source target
  | setTransition source target p => exact t.follows_setTransition source target p
  | setTransitionPseudocount source target c =>
    exact t.follows_setTransitionPseudocount source target c
  | setEmission state symbol p => exact t.follows_setEmission state symbol p
  | setEmissionPseudocount state symbol c => exact t.follows_setEmissionPseudocount state symbol c
  | setInitial entries => exact t.follows_setInitial entries
  | setEqual => exact t.follows_setEqual
  | randomize words => exact definite.elim

end Whole

/-! ### Runs -/

section Runs

variable [DecidableEq S] [DecidableEq E] (t : Tables Q A α)

omit [DecidableEq E] in
/-- A number of an arc is told by the builder and by its table alike. -/
theorem arcCell?_eq {number : Entry α → α} {cells : Table Q.size Q.size α}
    (values : ∀ k l, cells.get k l = number ⟨t.probabilities.get k l, t.pseudocounts.get k l⟩)
    (source target : S) :
    t.arcCell? cells source target = (t.builder.arc? source target).map number := by
  unfold arcCell? Parameters.arc?
  cases Q.codeOf? source with
  | none => rfl
  | some k =>
    cases Q.codeOf? target with
    | none => rfl
    | some l =>
      simp only [Option.bind_eq_bind, Option.bind_some, transitions_builder, values]
      split
      · rfl
      · rfl

theorem emissionCell?_eq {number : Entry α → α} {cells : Table Q.size A.size α}
    (values : ∀ k x, cells.get k x =
      number ⟨t.emissionProbabilities.get k x, t.emissionPseudocounts.get k x⟩)
    (state : S) (symbol : E) :
    emissionCell? cells state symbol = (t.builder.emission? state symbol).map number := by
  unfold emissionCell? Parameters.emission?
  cases Q.codeOf? state with
  | none => rfl
  | some k =>
    cases A.codeOf? symbol with
    | none => rfl
    | some x => simp [emissions_builder, values]

/-- Tables tell what their builder tells. -/
theorem answers_builder : t.answers = t.builder.answers := by
  ext1
  · exact funext fun source => funext (t.arcCell?_eq (fun _ _ => rfl) source)
  · exact funext fun source => funext (t.arcCell?_eq (fun _ _ => rfl) source)
  · exact funext fun state => funext (t.emissionCell?_eq (fun _ _ => rfl) state)
  · exact funext fun state => funext (t.emissionCell?_eq (fun _ _ => rfl) state)
  · rfl
  · simp only [answers, Builder.answers, Parameters.arcs, targets_builder]

variable {t}

/-- An edit in place is refused like that of the builder and changes no table, or
it leaves the tables of the builder after the edit. -/
theorem step_cases [Arithmetic α] (edit : DefiniteEdit S E α) :
    (∃ e, t.builder.apply edit.val = .error e ∧ t.step edit = (some e, t)) ∨
      ∃ s, t.builder.apply edit.val = .ok s.builder ∧ t.step edit = (none, s) := by
  have follows := t.follows_perform edit
  cases result : t.builder.apply edit.val with
  | error e =>
    rw [result] at follows
    have unmoved : (perform edit).run t = .error e t := follows
    exact .inl ⟨e, rfl, by rw [step, unmoved]⟩
  | ok c =>
    rw [result] at follows
    obtain ⟨s, writes, rfl⟩ := follows
    exact .inr ⟨s, rfl, by rw [step, writes]⟩

theorem step_builder [Arithmetic α] (edit : DefiniteEdit S E α) :
    (t.step edit).1 = (t.builder.step edit).1 ∧
      (t.step edit).2.builder = (t.builder.step edit).2 := by
  rw [Builder.step]
  obtain ⟨e, refused, left⟩ | ⟨s, applied, left⟩ := t.step_cases edit
  · rw [left, refused]
    exact ⟨rfl, rfl⟩
  · rw [left, applied]
    exact ⟨rfl, rfl⟩

/-- An edit that is refused leaves all tables alone. -/
theorem step_eq_self [Arithmetic α] {edit : DefiniteEdit S E α}
    (refused : (t.step edit).1 ≠ none) : (t.step edit).2 = t := by
  obtain ⟨e, -, left⟩ | ⟨s, -, left⟩ := t.step_cases edit
  · rw [left]
  · rw [left] at refused
    exact absurd rfl refused

omit [DecidableEq S] [DecidableEq E] in
theorem builder_empty [Arithmetic α] : (empty : Tables Q A α).builder = Builder.empty := by
  refine Builder.ext (Parameters.ext (fun k l => ?_) fun k x => ?_) rfl
  · rw [transitions_builder, Builder.empty]
    simp [empty]
  · rw [emissions_builder, Builder.empty]
    simp [empty]

end Runs

end Tables

end Trellis
