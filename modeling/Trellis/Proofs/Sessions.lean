import Trellis.Proofs.Training

/-!
# Sessions

A program over the library as a list of requests: it starts builders, edits
them, finishes them, starts again from any model it has, and trains any model it
has (`Session.perform?`). A request that is refused changes nothing. Whatever the
requests are and however many, each builder and each model they produce can be
reached by operations that succeed (`Session.Reachable.run`).
-/

namespace Trellis

variable {S E K σ : Type} {Q : Alphabet S} {A : Alphabet E} [Field K] [LinearOrder K]

/-- What can be asked for; a model is addressed by its position among those
produced so far. Counts that are brought along must not be negative. -/
inductive Request (Q : Alphabet S) (A : Alphabet E) (K σ : Type) [Field K] [LinearOrder K] where
  | start
  | edit (e : Edit S E K)
  | build
  | reopen (position : Nat)
  | estimate (position : Nat) (options : Estimation)
      (counts : Counts (.ofModel Q.size A.size) K σ) (nonneg : counts.Nonneg)
  | baumWelch (position : Nat) (options : Estimation) (sequence : Sequence S E)
  | labelled (position : Nat) (options : Estimation) (sequence : Sequence S E)

/-- A builder, and every model produced so far. -/
structure Session (Q : Alphabet S) (A : Alphabet E) (K : Type) where
  builder : Builder Q A K
  models : List (Model Q A K)

namespace Session

def initial : Session Q A K := ⟨.empty, []⟩

def withBuilder (s : Session Q A K) (b : Builder Q A K) : Session Q A K := { s with builder := b }

def withModel (s : Session Q A K) (m : Model Q A K) : Session Q A K :=
  { s with models := s.models ++ [m] }

section Run

variable [DecidableEq S] [DecidableEq E] [Score σ] [Logarithm K σ]

/-- The session after a request, if that is granted. -/
def perform? (s : Session Q A K) : Request Q A K σ → Option (Session Q A K)
  | .start => some (s.withBuilder .empty)
  | .edit e => (s.builder.apply e).toOption.map s.withBuilder
  | .build => s.builder.build.toOption.map s.withModel
  | .reopen position => (s.models[position]?).map fun m => s.withBuilder (.ofModel m)
  | .estimate position options counts _ => do
    let m ← s.models[position]?
    let r ← (m.estimate options counts).toOption
    return s.withModel r
  | .baumWelch position options sequence => do
    let m ← s.models[position]?
    let estimate ← (m.baumWelchStep (σ := σ) options sequence).toOption
    return s.withModel estimate.model
  | .labelled position options sequence => do
    let m ← s.models[position]?
    let estimate ← (m.labelledStep (σ := σ) options sequence).toOption
    return s.withModel estimate.model

/-- The session after a request. A request that is refused leaves it as it was. -/
def perform (s : Session Q A K) (request : Request Q A K σ) : Session Q A K :=
  (s.perform? request).getD s

/-- The session after all requests, starting with an empty builder and no models. -/
def run (requests : List (Request Q A K σ)) : Session Q A K := requests.foldl perform initial

end Run

/-! ### Runs of requests -/

section Reachable

variable [DecidableEq S] [DecidableEq E]

/-- All that is in hand can be reached by operations that succeed. -/
structure Reachable (s : Session Q A K) : Prop where
  builder : s.builder.Reachable
  models : ∀ m ∈ s.models, m.Reachable

namespace Reachable

variable {s t : Session Q A K}

theorem initial : (Session.initial : Session Q A K).Reachable where
  builder := .empty
  models m mem := by cases mem

theorem withBuilder (reach : s.Reachable) {b : Builder Q A K} (reachable : b.Reachable) :
    (s.withBuilder b).Reachable :=
  ⟨reachable, reach.models⟩

theorem withModel (reach : s.Reachable) {m : Model Q A K} (reachable : m.Reachable) :
    (s.withModel m).Reachable where
  builder := reach.builder
  models r mem := by
    rcases List.mem_append.mp mem with old | new
    · exact reach.models r old
    · rw [List.mem_singleton.mp new]
      exact reachable

variable [IsStrictOrderedRing K] [Score σ] [Logarithm K σ]

/-- A request that is granted leads from what can be reached to what can be reached. -/
theorem perform? (reach : s.Reachable) {request : Request Q A K σ}
    (granted : s.perform? request = some t) : t.Reachable := by
  cases request with
  | start =>
    cases granted
    exact reach.withBuilder .empty
  | edit e =>
    obtain ⟨b, applied, rfl⟩ := Option.map_eq_some_iff.mp granted
    exact reach.withBuilder (reach.builder.apply e (toOption_eq_some.mp applied))
  | build =>
    obtain ⟨m, built, rfl⟩ := Option.map_eq_some_iff.mp granted
    exact reach.withModel (reach.builder.build (toOption_eq_some.mp built))
  | reopen position =>
    obtain ⟨m, found, rfl⟩ := Option.map_eq_some_iff.mp granted
    exact reach.withBuilder ((reach.models m (List.mem_of_getElem? found)).tail (.reopen m))
  | estimate position options counts nonneg =>
    obtain ⟨m, found, granted⟩ := Option.bind_eq_some_iff.mp granted
    obtain ⟨r, estimated, granted⟩ := Option.bind_eq_some_iff.mp granted
    cases granted
    have before := reach.models m (List.mem_of_getElem? found)
    exact reach.withModel
      (before.estimate options counts nonneg (toOption_eq_some.mp estimated))
  | baumWelch position options sequence =>
    obtain ⟨m, found, granted⟩ := Option.bind_eq_some_iff.mp granted
    obtain ⟨estimate, stepped, granted⟩ := Option.bind_eq_some_iff.mp granted
    cases granted
    have before := reach.models m (List.mem_of_getElem? found)
    exact reach.withModel (before.baumWelchStep (toOption_eq_some.mp stepped))
  | labelled position options sequence =>
    obtain ⟨m, found, granted⟩ := Option.bind_eq_some_iff.mp granted
    obtain ⟨estimate, stepped, granted⟩ := Option.bind_eq_some_iff.mp granted
    cases granted
    have before := reach.models m (List.mem_of_getElem? found)
    exact reach.withModel (before.labelledStep (toOption_eq_some.mp stepped))

theorem perform (reach : s.Reachable) (request : Request Q A K σ) :
    (s.perform request).Reachable := by
  unfold Session.perform
  cases granted : s.perform? request with
  | none => exact reach
  | some t => exact reach.perform? granted

theorem performAll (reach : s.Reachable) (requests : List (Request Q A K σ)) :
    (requests.foldl Session.perform s).Reachable := by
  induction requests generalizing s with
  | nil => exact reach
  | cons request rest ih => exact ih (reach.perform request)

/-- **Whatever is asked for**, all that is in hand can be reached. -/
theorem run (requests : List (Request Q A K σ)) : (Session.run requests).Reachable :=
  Reachable.initial.performAll requests

end Reachable

end Reachable

end Session

end Trellis
