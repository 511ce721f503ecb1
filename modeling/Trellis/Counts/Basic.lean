import Trellis.Error
import Trellis.Table

/-!
# Count tables

How often a path starts in each state, takes each arc and emits each symbol in
each state, with the log-likelihood of what was counted. The three tables have
sizes of their own, and tables are added entry by entry (`Counts.accumulate`). An
axis of length one is repeated along the axis it is added to; axes of other different
lengths cannot be aligned (`Counts.alignAxis`).
-/

namespace Trellis

/-- The sizes of the three tables of counts. -/
structure CountShape where
  initial : Nat
  sources : Nat
  targets : Nat
  emitters : Nat
  symbols : Nat
deriving DecidableEq, Repr

/-- The shape of counts for a model of `n` states and `m` symbols. -/
abbrev CountShape.ofModel (n m : Nat) : CountShape := ⟨n, n, n, n, m⟩

/-- Counts of starts, steps and emissions. -/
structure Counts (shape : CountShape) (α σ : Type) where
  initial : Vector α shape.initial
  transitions : Table shape.sources shape.targets α
  emissions : Table shape.emitters shape.symbols α
  logLikelihood : σ
deriving DecidableEq

namespace Counts

variable {S E α σ : Type}

/-- Nothing counted. -/
def zeros [Zero α] [Zero σ] (shape : CountShape) : Counts shape α σ where
  initial := .replicate _ 0
  transitions := .ofFn fun _ _ => 0
  emissions := .ofFn fun _ _ => 0
  logLikelihood := 0

/-- The same counts, if they have the shape asked for. -/
def withShape? {shape : CountShape} (wanted : CountShape) (c : Counts shape α σ) :
    Option (Counts wanted α σ) :=
  if h : shape = wanted then some (h ▸ c) else none

/-- Where each index of an axis of length `n` reads from an axis of length `m`. -/
def alignAxis (n m : Nat) : Option (Fin n → Fin m) :=
  if h : n = m then some (Fin.cast h)
  else if h : m = 1 then some fun _ => ⟨0, by omega⟩
  else none

/-- Adds a table entry by entry, if its axes can be aligned. -/
def addTable [Add α] {n m n' m' : Nat} (s : Table n m α) (t : Table n' m' α) :
    Option (Table n m α) := do
  let row ← alignAxis n n'
  let column ← alignAxis m m'
  return .ofFn fun i j => s.get i j + t.get (row i) (column j)

/-- Adds other counts. The lengths of the initial counts and the numbers of
symbols have to agree; the other axes have to be aligned. -/
def accumulate [Add α] [Add σ] {shape shape' : CountShape} (c : Counts shape α σ)
    (d : Counts shape' α σ) : Except (Error S E α) (Counts shape α σ) :=
  if initial_eq : shape.initial = shape'.initial then
    if shape.symbols = shape'.symbols then
      match addTable c.transitions d.transitions, addTable c.emissions d.emissions with
      | some transitions, some emissions =>
        .ok {
          initial := c.initial.zipWith (· + ·) (d.initial.cast initial_eq.symm)
          transitions, emissions
          logLikelihood := c.logLikelihood + d.logLikelihood }
      | _, _ => .error .unalignedTables
    else .error (.sizeMismatch .accumulate shape.symbols shape'.symbols)
  else .error (.sizeMismatch .accumulate shape.initial shape'.initial)

end Counts

end Trellis
