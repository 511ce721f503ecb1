import Trellis.Alphabet
import Trellis.Group
import Trellis.Table

/-!
# Parameters

The tables that a model under construction and a finished model share: an
optional entry for each pair of states, absent where the arc is forbidden, and
an entry for each state and symbol. A forbidden arc has no entry, so it cannot
carry a probability; the dense view reads it as zero (`Parameters.transition`,
`Parameters.transitionPseudocount`). Where tables keep two numbers for every pair of
states beside a mask, those of forbidden arcs are zero too, which depends on the
operations that write them (`Tables.Reachable.blank`).
-/

namespace Trellis

variable {S E α : Type}

/-- Transition and emission entries over two alphabets. -/
structure Parameters (Q : Alphabet S) (A : Alphabet E) (α : Type) where
  transitions : Table Q.size Q.size (Option (Entry α))
  emissions : Table Q.size A.size (Entry α)
deriving DecidableEq

namespace Parameters

variable {Q : Alphabet S} {A : Alphabet E}

@[ext] theorem ext {p r : Parameters Q A α}
    (transitions : ∀ k l, p.transitions.get k l = r.transitions.get k l)
    (emissions : ∀ k x, p.emissions.get k x = r.emissions.get k x) : p = r := by
  obtain ⟨pt, pe⟩ := p
  obtain ⟨rt, re⟩ := r
  congr 1
  · exact Table.ext transitions
  · exact Table.ext emissions

/-- Whether there is an arc from one state to the other. -/
def allows (p : Parameters Q A α) (k l : Q.Code) : Bool := (p.transitions.get k l).isSome

/-- The states that a state has arcs to, in code order. -/
def targets (p : Parameters Q A α) (k : Q.Code) : List Q.Code := Q.codes.filter (p.allows k)

/-- The entries of the arcs that leave a state. -/
def transitionGroup (p : Parameters Q A α) (k : Q.Code) : Group α :=
  (p.transitions.row k).toList.filterMap id

/-- The entries of the emissions of a state. -/
def emissionGroup (p : Parameters Q A α) (k : Q.Code) : Group α :=
  (p.emissions.row k).toList

/-! ### Replacing entries -/

/-- Sets the entry of an arc; without an entry the arc is forbidden. -/
def setArc (p : Parameters Q A α) (k l : Q.Code) (e : Option (Entry α)) : Parameters Q A α :=
  { p with transitions := p.transitions.set k l e }

def setEmission (p : Parameters Q A α) (k : Q.Code) (x : A.Code) (e : Entry α) :
    Parameters Q A α :=
  { p with emissions := p.emissions.set k x e }

/-- Changes each entry, given the group it belongs to. -/
def mapGroups (f : Group α → Entry α → Entry α) (p : Parameters Q A α) : Parameters Q A α where
  transitions := p.transitions.mapRows fun row =>
    let group := row.toList.filterMap id
    row.map (Option.map (f group))
  emissions := p.emissions.mapRows fun row =>
    let group := row.toList
    row.map (f group)

/-- Replaces the probability of each entry; what the table of arcs holds for a
forbidden arc is not used. -/
def reweigh (p : Parameters Q A α) (arcs : Table Q.size Q.size α)
    (emissions : Table Q.size A.size α) : Parameters Q A α where
  transitions := .ofFn fun k l => (p.transitions.get k l).map (·.withProbability (arcs.get k l))
  emissions := .ofFn fun k x => (p.emissions.get k x).withProbability (emissions.get k x)

@[simp] theorem transitions_mapGroups (f : Group α → Entry α → Entry α) (p : Parameters Q A α)
    (k l : Q.Code) :
    (p.mapGroups f).transitions.get k l =
      (p.transitions.get k l).map (f (p.transitionGroup k)) := by
  simp [mapGroups, transitionGroup]

@[simp] theorem emissions_mapGroups (f : Group α → Entry α → Entry α) (p : Parameters Q A α)
    (k : Q.Code) (x : A.Code) :
    (p.mapGroups f).emissions.get k x = f (p.emissionGroup k) (p.emissions.get k x) := by
  simp [mapGroups, emissionGroup]

@[simp] theorem transitions_reweigh (p : Parameters Q A α) (arcs : Table Q.size Q.size α)
    (emissions : Table Q.size A.size α) (k l : Q.Code) :
    (p.reweigh arcs emissions).transitions.get k l =
      (p.transitions.get k l).map (·.withProbability (arcs.get k l)) := by
  simp [reweigh]

@[simp] theorem emissions_reweigh (p : Parameters Q A α) (arcs : Table Q.size Q.size α)
    (emissions : Table Q.size A.size α) (k : Q.Code) (x : A.Code) :
    (p.reweigh arcs emissions).emissions.get k x =
      (p.emissions.get k x).withProbability (emissions.get k x) := by
  simp [reweigh]

/-! ### The dense view -/

section Zero

variable [Zero α]

/-- The probability of an arc, zero where it is forbidden. -/
def transition (p : Parameters Q A α) (k l : Q.Code) : α :=
  (p.transitions.get k l).elim 0 Entry.probability

/-- The pseudocount of an arc, zero where it is forbidden. -/
def transitionPseudocount (p : Parameters Q A α) (k l : Q.Code) : α :=
  (p.transitions.get k l).elim 0 Entry.pseudocount

end Zero

/-- The probability that a state emits a symbol. -/
def emission (p : Parameters Q A α) (k : Q.Code) (x : A.Code) : α :=
  (p.emissions.get k x).probability

/-- The pseudocount of an emission. -/
def emissionPseudocount (p : Parameters Q A α) (k : Q.Code) (x : A.Code) : α :=
  (p.emissions.get k x).pseudocount

/-! ### Lookup by symbol -/

section DecidableEq

variable [DecidableEq S]

/-- The entry of an arc; none if a state is unknown or the arc forbidden. -/
def arc? (p : Parameters Q A α) (source target : S) : Option (Entry α) := do
  let k ← Q.codeOf? source
  let l ← Q.codeOf? target
  p.transitions.get k l

@[simp] theorem arc?_symbol (p : Parameters Q A α) (k l : Q.Code) :
    p.arc? (Q.symbol k) (Q.symbol l) = p.transitions.get k l := by
  simp [arc?, Alphabet.codeOf?_symbol]

/-- Only known states have arcs. -/
theorem mem_symbols_of_arc? {p : Parameters Q A α} {source target : S} {e : Entry α}
    (arc : p.arc? source target = some e) : source ∈ Q.symbols ∧ target ∈ Q.symbols := by
  obtain ⟨k, at_k, arc⟩ := Option.bind_eq_some_iff.mp arc
  obtain ⟨l, at_l, -⟩ := Option.bind_eq_some_iff.mp arc
  rw [← Q.codeOf?_eq_some_iff.mp at_k, ← Q.codeOf?_eq_some_iff.mp at_l]
  exact ⟨Q.symbol_mem k, Q.symbol_mem l⟩

variable [DecidableEq E]

/-- The entry of an emission; none if the state or the symbol is unknown. -/
def emission? (p : Parameters Q A α) (state : S) (symbol : E) : Option (Entry α) := do
  let k ← Q.codeOf? state
  let x ← A.codeOf? symbol
  return p.emissions.get k x

@[simp] theorem emission?_symbol (p : Parameters Q A α) (k : Q.Code) (x : A.Code) :
    p.emission? (Q.symbol k) (A.symbol x) = some (p.emissions.get k x) := by
  simp [emission?, Alphabet.codeOf?_symbol]

/-- Every known state has an entry for every known symbol, and no other has one. -/
theorem isSome_emission? (p : Parameters Q A α) (state : S) (symbol : E) :
    (p.emission? state symbol).isSome ↔ state ∈ Q.symbols ∧ symbol ∈ A.symbols := by
  rw [← Q.isSome_codeOf?, ← A.isSome_codeOf?]
  cases at_k : Q.codeOf? state with
  | none => simp [emission?, at_k]
  | some k =>
    cases at_x : A.codeOf? symbol with
    | none => simp [emission?, at_k, at_x]
    | some x => simp [emission?, at_k, at_x]

end DecidableEq

/-- The arcs there are, by source and then by target. -/
def arcs (p : Parameters Q A α) : List (S × S) :=
  Q.codes.flatMap fun k => (p.targets k).map fun l => (Q.symbol k, Q.symbol l)

end Parameters

end Trellis
