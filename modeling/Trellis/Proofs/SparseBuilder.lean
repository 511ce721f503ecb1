import Mathlib.Data.Finmap
import Trellis.Proofs.Transcripts

/-!
# Sparse builders

What the edits of a builder mean, told without codes and tables: a finite map of
the arcs there are, and numbers by name (`SparseBuilder`). An edit states what it
requires, in the order in which it is refused, and then what it changes
(`SparseBuilder.apply`).
-/

namespace Trellis

variable {S E α ε : Type}

/-- Refuses with an error unless a condition holds. -/
def require (condition : Prop) [Decidable condition] (error : ε) : Except ε Unit :=
  if condition then .ok () else .error error

/-- A builder as what has been set in it. Emissions and initial probabilities are
only told for states and symbols of the alphabets. -/
structure SparseBuilder (Q : Alphabet S) (A : Alphabet E) (α : Type) where
  arcs : Finmap fun _ : S × S => Entry α
  emissions : S → E → Entry α
  initial : Option (S → α)

namespace SparseBuilder

variable {Q : Alphabet S} {A : Alphabet E}

def empty [Arithmetic α] : SparseBuilder Q A α where
  arcs := ∅
  emissions _ _ := ⟨0, defaultPseudocount⟩
  initial := none

variable [DecidableEq S] [DecidableEq E]

/-! ### Answers -/

/-- The entry of an emission of a known state and symbol. -/
def emission? (b : SparseBuilder Q A α) (state : S) (symbol : E) : Option (Entry α) :=
  if state ∈ Q.symbols ∧ symbol ∈ A.symbols then some (b.emissions state symbol) else none

/-- What a sparse builder tells: an arc if the map has it, an emission or a start if the names
are known. -/
def answers (b : SparseBuilder Q A α) : Answers S E α where
  transitionProbability source target := (b.arcs.lookup (source, target)).map Entry.probability
  transitionPseudocount source target := (b.arcs.lookup (source, target)).map Entry.pseudocount
  emissionProbability state symbol := (b.emission? state symbol).map Entry.probability
  emissionPseudocount state symbol := (b.emission? state symbol).map Entry.pseudocount
  initialProbability state :=
    if state ∈ Q.symbols then b.initial.map fun given => given state else none
  arcs := (Q.symbols ×ˢ Q.symbols).filter (· ∈ b.arcs)

/-! ### Changes -/

def setArc (b : SparseBuilder Q A α) (source target : S) (e : Entry α) : SparseBuilder Q A α :=
  { b with arcs := b.arcs.insert (source, target) e }

def dropArc (b : SparseBuilder Q A α) (source target : S) : SparseBuilder Q A α :=
  { b with arcs := b.arcs.erase (source, target) }

def setEmission (b : SparseBuilder Q A α) (state : S) (symbol : E) (e : Entry α) :
    SparseBuilder Q A α :=
  let row := Function.update (b.emissions state) symbol e
  { b with emissions := Function.update b.emissions state row }

/-- The map of the arcs between known states for which there is an entry. -/
def tabulate (Q : Alphabet S) (arc? : S × S → Option (Entry α)) :
    Finmap fun _ : S × S => Entry α :=
  ((Q.symbols ×ˢ Q.symbols).filterMap fun arc => (arc? arc).map (Sigma.mk arc)).toFinmap

theorem dlookup_filterMap {κ β : Type} [DecidableEq κ] (f : κ → Option β) (keys : List κ) (a : κ) :
    (keys.filterMap fun k => (f k).map (Sigma.mk (β := fun _ => β) k)).dlookup a =
      if a ∈ keys then f a else none := by
  induction keys with
  | nil => rfl
  | cons k rest ih =>
    by_cases same : a = k
    · subst same
      cases entry : f a with
      | none => simp [entry, ih]
      | some b => simp [entry]
    · cases entry : f k with
      | none => simp [entry, ih, same]
      | some b =>
        rw [List.filterMap_cons_some (by rw [entry]; rfl), List.dlookup_cons_ne _ _ same, ih]
        simp [same]

theorem lookup_tabulate (arc? : S × S → Option (Entry α)) (source target : S) :
    (tabulate Q arc?).lookup (source, target) =
      if source ∈ Q.symbols ∧ target ∈ Q.symbols then arc? (source, target) else none := by
  rw [tabulate, Finmap.dlookup_list_toFinmap, dlookup_filterMap]
  simp only [List.mem_product]

theorem mem_symbols_of_mem_tabulate {arc? : S × S → Option (Entry α)} {source target : S}
    (mem : (source, target) ∈ tabulate Q arc?) : source ∈ Q.symbols ∧ target ∈ Q.symbols := by
  rw [← Finmap.lookup_isSome, lookup_tabulate] at mem
  split at mem
  · rename_i known
    exact known
  · cases mem

/-- How many arcs leave a state. -/
def outdegree (b : SparseBuilder Q A α) (source : S) : Nat :=
  Q.symbols.countP fun target => (source, target) ∈ b.arcs

/-! ### Edits -/

section Requirements

variable [Arithmetic α]

def requireState (Q : Alphabet S) (operation : Operation) (state : S) :
    Except (Error S E α) Unit :=
  require (state ∈ Q.symbols) (.unknownState operation state)

def requireSymbol (A : Alphabet E) (operation : Operation) (symbol : E) :
    Except (Error S E α) Unit :=
  require (symbol ∈ A.symbols) (.unknownSymbol operation symbol)

def requireProbability (operation : Operation) (p : α) : Except (Error S E α) Unit :=
  require (0 ≤ p ∧ p ≤ 1) (.invalidProbability operation p .outsideUnitInterval)

def requirePseudocount (operation : Operation) (c : α) : Except (Error S E α) Unit :=
  require (IsFinite c ∧ 0 ≤ c) (.invalidPseudocount operation c)

/-- The entry of an arc, which there has to be. -/
def entryOf (b : SparseBuilder Q A α) (operation : Operation) (source target : S) :
    Except (Error S E α) (Entry α) := do
  requireState Q operation source
  requireState Q operation target
  match b.arcs.lookup (source, target) with
  | some e => .ok e
  | none => .error (.notAllowed source target)

/-- Each entry has to name a state and give it a probability. -/
def requireEntries (Q : Alphabet S) : List (S × α) → Except (Error S E α) Unit
  | [] => .ok ()
  | (state, p) :: rest => do
    requireState Q .setInitial state
    requireProbability .setInitial p
    requireEntries Q rest

end Requirements

/-- What a list of entries gives to a state: the last entry counts. -/
def lastGiven (entries : List (S × α)) (state : S) : Option α := entries.reverse.lookup state

theorem lastGiven_cons (source target : S) (p : α) (rest : List (S × α)) :
    lastGiven ((source, p) :: rest) target =
      (lastGiven rest target).or (if source = target then some p else none) := by
  rw [lastGiven, List.reverse_cons, List.lookup_append, lastGiven]
  by_cases same : source = target
  · simp [same]
  · have differ : (target == source) = false := beq_false_of_ne (Ne.symm same)
    simp [same, differ, List.lookup_cons]

variable [Arithmetic α]

/-- The initial distribution by entries: the states without one share what is left. -/
def setInitial (b : SparseBuilder Q A α) (entries : List (S × α)) :
    Except (Error S E α) (SparseBuilder Q A α) := do
  requireEntries Q entries
  let sum := totalFromFirst (Q.symbols.filterMap (lastGiven entries))
  let missing := Q.symbols.countP fun state => (lastGiven entries state).isNone
  require (¬ 1 + tolerance < sum) (.invalidProbability .setInitial sum .initialAboveOne)
  require (missing = 0 → NearOne sum) (.invalidProbability .setInitial sum .initialIncomplete)
  let rest := 1 - sum
  let part : α := (if rest ≤ 0 then 0 else rest) / (missing : α)
  .ok { b with initial := some fun state => (lastGiven entries state).getD part }

/-- Equal shares of every group. -/
def setEqual (b : SparseBuilder Q A α) : SparseBuilder Q A α where
  arcs := tabulate Q fun arc =>
    (b.arcs.lookup arc).map (·.withProbability (share (b.outdegree arc.1)))
  emissions state symbol := (b.emissions state symbol).withProbability (share A.size)
  initial := some fun _ => share Q.size

/-- The builder after a definite edit, or why the edit is refused. -/
def apply (b : SparseBuilder Q A α) :
    DefiniteEdit S E α → Except (Error S E α) (SparseBuilder Q A α)
  | ⟨.allow source target p c, _⟩ => do
    requireState Q .allowTransition source
    requireState Q .allowTransition target
    requireProbability .allowTransition p
    requirePseudocount .allowTransition c
    require ((source, target) ∉ b.arcs) (.alreadyAllowed source target)
    .ok (b.setArc source target ⟨p, c⟩)
  | ⟨.allowAll, _⟩ =>
    .ok { b with arcs := tabulate Q fun _ => some ⟨0, defaultPseudocount⟩ }
  | ⟨.destroy source target, _⟩ => do
    let _ ← b.entryOf .destroyTransition source target
    .ok (b.dropArc source target)
  | ⟨.setTransition source target p, _⟩ => do
    let e ← b.entryOf .setTransition source target
    requireProbability .setTransition p
    .ok (b.setArc source target { e with probability := p })
  | ⟨.setTransitionPseudocount source target c, _⟩ => do
    let e ← b.entryOf .setTransitionPseudocount source target
    requirePseudocount .setTransitionPseudocount c
    .ok (b.setArc source target { e with pseudocount := c })
  | ⟨.setEmission state symbol p, _⟩ => do
    requireState Q .setEmission state
    requireSymbol A .setEmission symbol
    requireProbability .setEmission p
    .ok (b.setEmission state symbol { b.emissions state symbol with probability := p })
  | ⟨.setEmissionPseudocount state symbol c, _⟩ => do
    requireState Q .setEmissionPseudocount state
    requireSymbol A .setEmissionPseudocount symbol
    requirePseudocount .setEmissionPseudocount c
    .ok (b.setEmission state symbol { b.emissions state symbol with pseudocount := c })
  | ⟨.setInitial entries, _⟩ => b.setInitial entries
  | ⟨.setEqual, _⟩ => .ok b.setEqual
  | ⟨.randomize _, definite⟩ => definite.elim

/-- How a definite edit ends, and the builder it leaves. -/
def step (b : SparseBuilder Q A α) (edit : DefiniteEdit S E α) :
    Option (Error S E α) × SparseBuilder Q A α :=
  ending b (b.apply edit)

end SparseBuilder

end Trellis
