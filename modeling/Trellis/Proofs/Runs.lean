import Mathlib.Logic.Relation
import Trellis.Builder.Edit
import Trellis.Estimate
import Trellis.Proofs.Exact

/-!
# Runs

The models there are (`Model.Reachable`): what a run of operations makes out of
the empty builder. A run edits a builder, finishes it, starts again from a finished
model, and estimates a model from counts of which none is negative, in any order
(`Stage.Step`). Training is estimation from counts that are never negative, so its
models are among these. `Machine.model` is a model for runs on fixed inputs.
-/

namespace Trellis

variable {S E K σ : Type} {Q : Alphabet S} {A : Alphabet E}

/-- The value of a sequence of two operations comes from a value of the first. -/
theorem bind_eq_ok {ε β γ : Type} {x : Except ε β} {f : β → Except ε γ} {c : γ} :
    (x >>= f) = .ok c ↔ ∃ b, x = .ok b ∧ f b = .ok c := by
  cases x with
  | error e => simp [bind, Except.bind]
  | ok b => simp [bind, Except.bind]

/-- A sequence of two operations fails where the first does, or the second after it. -/
theorem bind_eq_error {ε β γ : Type} {x : Except ε β} {f : β → Except ε γ} {e : ε} :
    (x >>= f) = .error e ↔ x = .error e ∨ ∃ b, x = .ok b ∧ f b = .error e := by
  cases x with
  | error d => simp [bind, Except.bind]
  | ok b => simp [bind, Except.bind]

theorem mapError_eq_ok {ε δ β : Type} {x : Except ε β} {f : ε → δ} {b : β} :
    x.mapError f = .ok b ↔ x = .ok b := by
  cases x with
  | error e => simp [Except.mapError]
  | ok c => simp [Except.mapError]

theorem toOption_eq_some {ε β : Type} {x : Except ε β} {b : β} :
    x.toOption = some b ↔ x = .ok b := by
  cases x with
  | error e => simp [Except.toOption]
  | ok c => simp [Except.toOption]

/-- No count is negative. -/
structure Counts.Nonneg [Zero K] [LE K] {shape : CountShape} (c : Counts shape K σ) : Prop where
  initial : ∀ k, 0 ≤ c.initial.get k
  transitions : ∀ k l, 0 ≤ c.transitions.get k l
  emissions : ∀ k x, 0 ≤ c.emissions.get k x

/-- What a run has in hand. -/
inductive Stage (Q : Alphabet S) (A : Alphabet E) (K : Type) where
  | building (builder : Builder Q A K)
  | finished (model : Model Q A K)

namespace Stage

variable [DecidableEq S] [DecidableEq E] [Field K] [LinearOrder K]

/-- One operation that succeeds. -/
inductive Step : Stage Q A K → Stage Q A K → Prop where
  | edit {b c : Builder Q A K} (e : Edit S E K) :
      b.apply e = .ok c → Step (.building b) (.building c)
  | build {b : Builder Q A K} {m : Model Q A K} :
      b.build = .ok m → Step (.building b) (.finished m)
  | reopen (m : Model Q A K) : Step (.finished m) (.building (.ofModel m))
  | estimate {σ : Type} {m r : Model Q A K} (options : Estimation)
      (counts : Counts (.ofModel Q.size A.size) K σ) :
      counts.Nonneg → m.estimate options counts = .ok r → Step (.finished m) (.finished r)

/-- Some run from the empty builder ends here. -/
def Reachable (s : Stage Q A K) : Prop := Relation.ReflTransGen Step (.building .empty) s

end Stage

section Reachable

variable [DecidableEq S] [DecidableEq E] [Field K] [LinearOrder K]

/-- Some run from the empty builder ends with this builder. -/
def Builder.Reachable (b : Builder Q A K) : Prop := Stage.Reachable (.building b)

/-- Some run from the empty builder ends with this model. -/
def Model.Reachable (m : Model Q A K) : Prop := Stage.Reachable (.finished m)

theorem Builder.Reachable.empty : (Builder.empty : Builder Q A K).Reachable := .refl

theorem Builder.Reachable.apply {b c : Builder Q A K} (reach : b.Reachable) (e : Edit S E K)
    (applied : b.apply e = .ok c) : c.Reachable :=
  reach.tail (.edit e applied)

/-- The builder after edits that all succeed, in order. -/
def Builder.applyAll (b : Builder Q A K) (edits : List (Edit S E K)) :
    Except (Error S E K) (Builder Q A K) :=
  edits.foldlM Builder.apply b

theorem Builder.Reachable.applyAll {b c : Builder Q A K} (reach : b.Reachable)
    {edits : List (Edit S E K)} (applied : b.applyAll edits = .ok c) : c.Reachable := by
  induction edits generalizing b with
  | nil =>
    cases applied
    exact reach
  | cons e rest ih =>
    rw [Builder.applyAll, List.foldlM_cons] at applied
    obtain ⟨d, first, applied⟩ := bind_eq_ok.mp applied
    exact ih (reach.apply e first) applied

theorem Builder.Reachable.build {b : Builder Q A K} {m : Model Q A K} (reach : b.Reachable)
    (built : b.build = .ok m) : m.Reachable :=
  reach.tail (.build built)

theorem Model.Reachable.estimate {m r : Model Q A K} (reach : m.Reachable)
    (options : Estimation) (counts : Counts (.ofModel Q.size A.size) K σ)
    (nonneg : counts.Nonneg) (estimated : m.estimate options counts = .ok r) : r.Reachable :=
  reach.tail (.estimate options counts nonneg estimated)

end Reachable

/-! ### A machine

A model for runs on fixed inputs. A machine works (state 1) until it fails
(state 2), after which nothing follows: the failed state has no arcs. A working
machine shows 0 or 1, a failed one shows 1.
-/

namespace Machine

/-- Working and failed. -/
def states : Alphabet Nat := ⟨[1, 2], by decide, by decide⟩

def symbols : Alphabet Nat := ⟨[0, 1], by decide, by decide⟩

def edits : List (Edit Nat Nat ℚ) :=
  [.setInitial [(1, 1)], .allow 1 1 (1 / 2) 1, .allow 1 2 (1 / 2) 1, .setEmission 1 0 (3 / 4),
    .setEmission 1 1 (1 / 4), .setEmission 2 1 1]

def builder : Builder states symbols ℚ where
  transitions := ⟨#v[#v[some ⟨1 / 2, 1⟩, some ⟨1 / 2, 1⟩], #v[none, none]]⟩
  emissions := ⟨#v[#v[⟨3 / 4, 1⟩, ⟨1 / 4, 1⟩], #v[⟨0, 1⟩, ⟨1, 1⟩]]⟩
  initial := some #v[1, 0]

/-- The machine, finished. -/
def model : Model states symbols ℚ := builder.finished

def working : states.Code := ⟨0, by decide⟩

def failed : states.Code := ⟨1, by decide⟩

/-- The codes of 0, 0 and 1. -/
def shown : List symbols.Code := [⟨0, by decide⟩, ⟨0, by decide⟩, ⟨1, by decide⟩]

theorem model_reachable : model.Reachable :=
  (Builder.Reachable.empty.applyAll
    (show Builder.empty.applyAll edits = .ok builder by decide +kernel)).build
    (show builder.build = .ok model by decide +kernel)

end Machine

end Trellis
