import Trellis.Proofs.ForbiddenCells
import Trellis.Proofs.Sessions

/-!
# Sessions in place

The requests of a session, granted by operations on tables: a builder is edited,
drawn and finished cell by cell, a finished model is what these loops leave in the
six tables, and estimation overwrites a copy of the tables of a model. A refused
edit may have written before it stopped, and a cell outlives the arc it belongs to,
so nothing here is true by the types alone.

Such a session follows one that keeps builders and models as values
(`InPlace.Keeps.perform`, `InPlace.Keeps.run`). So the models that a program produces are
read off tables of which every cell is known, those of forbidden arcs included
(`stochastic_of_mem_models`).
-/

namespace Trellis

variable {S E α K σ : Type} {Q : Alphabet S} {A : Alphabet E}

/-- The words of an edit that draws; the definite edits have none. -/
def Edit.words? : Edit S E α → Option (Stream' UInt64)
  | .randomize words => some words
  | _ => none

theorem Edit.definite_of_words?_eq_none {e : Edit S E α} (none_drawn : e.words? = none) :
    e.Definite := by
  cases e with
  | randomize words => cases none_drawn
  | _ => exact trivial

/-- The number in the cell of two names, zero if one of them is unknown. -/
def Table.named [DecidableEq S] [DecidableEq E] [Zero α] (cells : Table Q.size A.size α)
    (name : S) (symbol : E) : α :=
  (Q.codeOf? name).elim 0 fun k => (A.codeOf? symbol).elim 0 (cells.get k)

theorem toOption_bind {ε β γ : Type} (x : Except ε β) (f : β → Except ε γ) :
    (x >>= f).toOption = x.toOption.bind fun b => (f b).toOption := by
  cases x with
  | error e => rfl
  | ok b => rfl

/-- The model of a training step, given what the step counts. -/
theorem Model.map_model_step [Arithmetic α] (m : Model Q A α) (options : Estimation)
    (counted : Except (Error S E α) (Counts (.ofModel Q.size A.size) α σ)) :
    ((do
      let counts ← counted
      let model ← m.estimate options counts
      .ok ⟨model, counts.logLikelihood⟩ : Except (Error S E α) (Estimate Q A α σ)).toOption.map
        Estimate.model) =
      counted.toOption.bind fun counts => (m.estimate options counts).toOption := by
  rw [toOption_bind]
  cases counted.toOption with
  | none => rfl
  | some counts =>
    rw [Option.bind_some, Option.bind_some, toOption_bind]
    cases (m.estimate options counts).toOption with
    | none => rfl
    | some model => rfl

namespace Tables

/-! ### Operations on tables -/

section Operations

variable [Arithmetic α]

/-- The tables after an edit, granted or not. -/
def edited [DecidableEq S] [DecidableEq E] (t : Tables Q A α) (e : Edit S E α) : Tables Q A α :=
  match drawn : e.words? with
  | some words => (Drawing.randomize.run (t, words)).2.1
  | none => (t.step ⟨e, Edit.definite_of_words?_eq_none drawn⟩).2

/-- The tables of the finished model, if finishing reports no fault. -/
def finished? (t : Tables Q A α) : Option (Tables Q A α) :=
  match finish.run t with
  | .ok _ s => some s
  | .error _ _ => none

/-- The model that is read off finished tables: its parameters, its initial
distribution, and the arcs as the mask lists them. -/
def model (t : Tables Q A α) : Model Q A α :=
  .ofParameters t.builder.toParameters t.builder.initialOrUniform

theorem model_eq {t : Tables Q A α} {m : Model Q A α} (held : t.builder = .ofModel m) :
    t.model = m := by
  rw [model, held]
  exact m.ofParameters_eq_self

end Operations

section Follow

variable [DecidableEq S] [DecidableEq E] [Field K] [LinearOrder K] {t r : Tables Q A K}

/-- An edit leaves the tables of the builder after the edit; if it is refused, those of
the builder before it. -/
theorem builder_edited (t : Tables Q A K) (e : Edit S E K) :
    (t.edited e).builder = (ending t.builder (t.builder.apply e)).2 := by
  unfold edited
  split
  · rename_i words drawn
    cases e with
    | randomize words =>
      cases drawn
      obtain ⟨s, run, left, -⟩ := Drawing.run_randomize t words
      rw [run]
      exact left
    | _ => cases drawn
  · exact (t.step_builder _).2

theorem Reachable.edited (made : t.Reachable) (e : Edit S E K) : (t.edited e).Reachable := by
  unfold Tables.edited
  split
  · exact made.randomize _
  · exact made.edit _

/-- Tables that a history of operations in place has finished. -/
structure IsModel (t : Tables Q A K) : Prop where
  reachable : t.Reachable
  held : t.builder = .ofModel t.model

theorem Reachable.finished? (made : t.Reachable) (finished : t.finished? = some r) :
    r.IsModel := by
  rcases t.finish_cases with ⟨e, s, -, failed⟩ | ⟨-, filled⟩
  · rw [Tables.finished?, failed] at finished
    cases finished
  · rw [Tables.finished?, filled] at finished
    cases finished
    exact ⟨made.finish filled, by rw [model_eq t.builder_filled, t.builder_filled]⟩

omit [DecidableEq S] [DecidableEq E] in
/-- Finishing in place leaves the model that the builder is finished to. -/
theorem map_model_finished? (t : Tables Q A K) :
    t.finished?.map model = t.builder.build.toOption := by
  rcases t.finish_cases with ⟨e, s, refused, failed⟩ | ⟨succeeded, filled⟩
  · rw [Tables.finished?, failed, refused]
    rfl
  · rw [Tables.finished?, filled, succeeded]
    exact congrArg some (model_eq t.builder_filled)

end Follow

/-! ### Cells -/

section Cells

variable [DecidableEq S] [DecidableEq E]

/-- A model answers by name with the numbers in the cells, whatever the mask says. -/
structure Tells [Zero α] (t : Tables Q A α) (m : Model Q A α) : Prop where
  transition : ∀ source target,
    m.transitionProbability source target = t.probabilities.named source target
  transitionPseudocount : ∀ source target,
    m.pseudocountOfTransition source target = t.pseudocounts.named source target
  emission : ∀ state symbol,
    m.emissionProbability state symbol = t.emissionProbabilities.named state symbol
  emissionPseudocount : ∀ state symbol,
    m.pseudocountOfEmission state symbol = t.emissionPseudocounts.named state symbol

omit [DecidableEq E] in
/-- An answer about an arc is the number in a cell, if the model has this number for
every pair of states. -/
theorem elim_arc?_eq_named [Zero α] {m : Model Q A α} {number : Entry α → α}
    {cells : Table Q.size Q.size α}
    (values : ∀ k l, (m.transitions.get k l).elim 0 number = cells.get k l) (source target : S) :
    (m.arc? source target).elim 0 number = cells.named source target := by
  rw [Parameters.arc?, Table.named]
  cases Q.codeOf? source with
  | none => rfl
  | some k =>
    cases Q.codeOf? target with
    | none => rfl
    | some l => exact values k l

theorem elim_emission?_eq_named [Zero α] {m : Model Q A α} {number : Entry α → α}
    {cells : Table Q.size A.size α} (values : ∀ k x, number (m.emissions.get k x) = cells.get k x)
    (state : S) (symbol : E) :
    (m.emission? state symbol).elim 0 number = cells.named state symbol := by
  rw [Parameters.emission?, Table.named]
  cases Q.codeOf? state with
  | none => rfl
  | some k =>
    cases A.codeOf? symbol with
    | none => rfl
    | some x => exact values k x

/-- Tables that are well formed cell by cell, whatever the mask says about a cell. -/
structure Stochastic [Field K] [LinearOrder K] (t : Tables Q A K) : Prop where
  initial : ∃ row, t.initial = some row ∧ UnitRow row ∧ NearOne (∑ k, row.get k)
  transition_mem : ∀ k l, 0 ≤ t.probabilities.get k l ∧ t.probabilities.get k l ≤ 1
  transition_total : ∀ k l, t.allowed.get k l = true → NearOne (∑ l, t.probabilities.get k l)
  isolated : ∀ k, (∀ l, t.allowed.get k l = false) → ∀ l, t.probabilities.get k l = 0
  forbidden : ∀ k l, t.allowed.get k l = false →
    t.probabilities.get k l = 0 ∧ t.pseudocounts.get k l = 0
  emission_mem : ∀ k x,
    0 ≤ t.emissionProbabilities.get k x ∧ t.emissionProbabilities.get k x ≤ 1
  emission_total : ∀ k, NearOne (∑ x, t.emissionProbabilities.get k x)
  pseudocount_nonneg : ∀ k l, 0 ≤ t.pseudocounts.get k l
  emissionPseudocount_nonneg : ∀ k x, 0 ≤ t.emissionPseudocounts.get k x

namespace IsModel

variable [Field K] [LinearOrder K] {t : Tables Q A K}

theorem tells (made : t.IsModel) : t.Tells t.model where
  transition := elim_arc?_eq_named (made.reachable.blank.transition_eq made.held)
  transitionPseudocount :=
    elim_arc?_eq_named (made.reachable.blank.transitionPseudocount_eq made.held)
  emission := elim_emission?_eq_named (emission_of_held made.held)
  emissionPseudocount := elim_emission?_eq_named (emissionPseudocount_of_held made.held)

/-- A model that is well formed as a value is well formed in its cells. -/
theorem stochastic [IsStrictOrderedRing K] (made : t.IsModel) (sound : t.model.WellFormed) :
    t.Stochastic := by
  have blank := made.reachable.blank
  have transition := blank.transition_eq made.held
  have transitionPseudocount := blank.transitionPseudocount_eq made.held
  have emission := emission_of_held made.held
  have emissionPseudocount := emissionPseudocount_of_held made.held
  have allows := allows_of_held made.held
  have balanced := sound.stochastic
  refine ⟨⟨_, initial_of_held made.held, sound.initial, sound.initial_total⟩,
    fun k l => ?_, fun k l allowed => ?_, fun k isolated l => ?_, fun k l forbidden => ?_,
    fun k x => ?_, fun k => ?_, fun k l => ?_, fun k x => ?_⟩
  · rw [← transition]
    exact balanced.transition_mem k l
  · simp only [← transition]
    exact sound.transition_total k l ((allows k l).trans allowed)
  · exact blank.probabilities k l (isolated l)
  · exact ⟨blank.probabilities k l forbidden, blank.pseudocounts k l forbidden⟩
  · rw [← emission]
    exact balanced.emission_mem k x
  · simp only [← emission]
    exact sound.emission_total k
  · rw [← transitionPseudocount]
    exact sound.parameters.transitionPseudocount_nonneg k l
  · rw [← emissionPseudocount]
    exact (sound.parameters.emission k x).pseudocount_nonneg

end IsModel

end Cells

end Tables

namespace Session

/-! ### Requests -/

/-- A session that keeps its builder in tables, and those of every model produced so far. -/
structure InPlace (Q : Alphabet S) (A : Alphabet E) (K : Type) where
  tables : Tables Q A K
  models : List (Tables Q A K)

namespace InPlace

variable [Field K] [LinearOrder K]

def initial : InPlace Q A K := ⟨.empty, []⟩

def withTables (s : InPlace Q A K) (t : Tables Q A K) : InPlace Q A K := { s with tables := t }

/-- The session with another model, if there is one. -/
def withModel? (s : InPlace Q A K) (t : Option (Tables Q A K)) : InPlace Q A K :=
  { s with models := s.models ++ t.toList }

/-- The tables that are estimated from counts for the model at a position. -/
def estimated? (s : InPlace Q A K) (position : Nat) (options : Estimation)
    (counts? : Model Q A K → Option (Counts (.ofModel Q.size A.size) K σ)) :
    Option (Tables Q A K) := do
  let t ← s.models[position]?
  let counts ← counts? t.model
  (t.reestimate options counts).finished?

variable [DecidableEq S] [DecidableEq E] [Score σ] [Logarithm K σ]

/-- The session after a request. One that is refused produces no model. -/
def perform (s : InPlace Q A K) : Request Q A K σ → InPlace Q A K
  | .start => s.withTables .empty
  | .edit e => s.withTables (s.tables.edited e)
  | .build => s.withModel? s.tables.finished?
  | .reopen position => s.withTables ((s.models[position]?).getD s.tables)
  | .estimate position options counts _ =>
    s.withModel? (s.estimated? position options fun _ => some counts)
  | .baumWelch position options sequence =>
    s.withModel? (s.estimated? (σ := σ) position options fun m => do
      let xs ← (m.observe sequence.emissions).toOption
      (m.expectedCounts xs).toOption)
  | .labelled position options sequence =>
    s.withModel? (s.estimated? (σ := σ) position options fun m =>
      (m.labelledCounts sequence).toOption)

/-- The tables after all requests, starting with empty tables and no models. -/
def run (requests : List (Request Q A K σ)) : InPlace Q A K := requests.foldl perform initial

/-! ### Following a session of values -/

/-- The tables are made in place and hold what the other session has in hand. -/
structure Keeps (s : InPlace Q A K) (r : Session Q A K) : Prop where
  reachable : s.tables.Reachable
  builder : s.tables.builder = r.builder
  finished : ∀ t ∈ s.models, t.IsModel
  models : s.models.map Tables.model = r.models

namespace Keeps

variable {s : InPlace Q A K} {r : Session Q A K}

theorem initial : (initial : InPlace Q A K).Keeps Session.initial where
  reachable := .empty
  builder := Tables.builder_empty
  finished _ mem := by cases mem
  models := rfl

theorem withTables (keeps : s.Keeps r) {t : Tables Q A K} {b : Builder Q A K}
    (reachable : t.Reachable) (builder : t.builder = b) :
    (s.withTables t).Keeps (r.withBuilder b) :=
  ⟨reachable, builder, keeps.finished, keeps.models⟩

/-- A model is produced on both sides, or on neither. -/
theorem withModel? (keeps : s.Keeps r) {t : Option (Tables Q A K)} {m : Option (Model Q A K)}
    (finished : ∀ a, t = some a → a.IsModel) (same : t.map Tables.model = m) :
    (s.withModel? t).Keeps ((m.map r.withModel).getD r) := by
  subst same
  cases t with
  | none =>
    refine ⟨keeps.reachable, keeps.builder, fun a mem => ?_, ?_⟩
    · rw [InPlace.withModel?, Option.toList_none, List.append_nil] at mem
      exact keeps.finished a mem
    · rw [InPlace.withModel?, Option.toList_none, List.append_nil]
      exact keeps.models
  | some t =>
    refine ⟨keeps.reachable, keeps.builder, fun a mem => ?_, ?_⟩
    · rcases List.mem_append.mp mem with old | new
      · exact keeps.finished a old
      · rw [Option.toList_some, List.mem_singleton] at new
        exact finished a (congrArg some new.symm)
    · rw [InPlace.withModel?, List.map_append, keeps.models]
      rfl

theorem model_getElem? (keeps : s.Keeps r) (position : Nat) :
    r.models[position]? = (s.models[position]?).map Tables.model := by
  rw [← keeps.models, List.getElem?_map]

omit [Score σ] [Logarithm K σ] in
/-- **Estimation** from what is counted for a model, in place and by value. -/
theorem estimated? {β : Type} (keeps : s.Keeps r) (position : Nat) (options : Estimation)
    {counts? : Model Q A K → Option (Counts (.ofModel Q.size A.size) K σ)}
    {step? : Model Q A K → Option β} {result : β → Model Q A K}
    (trains : ∀ m, (step? m).map result =
      (counts? m).bind fun counts => (m.estimate options counts).toOption) :
    (s.withModel? (s.estimated? position options counts?)).Keeps
      ((do
        let m ← r.models[position]?
        let b ← step? m
        return r.withModel (result b) : Option (Session Q A K)).getD r) := by
  have produced : (do
      let m ← r.models[position]?
      let b ← step? m
      return r.withModel (result b) : Option (Session Q A K)) =
      ((r.models[position]?).bind fun m => (step? m).map result).map r.withModel := by
    cases r.models[position]? with
    | none => rfl
    | some m => cases found : step? m <;> simp [found]
  rw [produced]
  refine keeps.withModel? (fun a estimated => ?_) ?_
  · obtain ⟨t, found, estimated⟩ := Option.bind_eq_some_iff.mp estimated
    obtain ⟨counts, -, estimated⟩ := Option.bind_eq_some_iff.mp estimated
    have made := (keeps.finished t (List.mem_of_getElem? found)).reachable
    exact (made.reestimate options counts).finished? estimated
  · rw [InPlace.estimated?, keeps.model_getElem?]
    cases found : s.models[position]? with
    | none => rfl
    | some t =>
      have held := (keeps.finished t (List.mem_of_getElem? found)).held
      rw [Option.map_some, Option.bind_some, trains]
      cases counted : counts? t.model with
      | none => simp [counted]
      | some counts =>
        simp only [Option.bind_eq_bind, Option.bind_some, counted]
        rw [Model.estimate, ← Tables.builder_reestimate held options counts,
          Tables.map_model_finished?]

/-- **One request** in place follows the request by value. -/
theorem perform (keeps : s.Keeps r) (request : Request Q A K σ) :
    (s.perform request).Keeps (r.perform request) := by
  cases request with
  | start => exact keeps.withTables .empty Tables.builder_empty
  | edit e =>
    have left := s.tables.builder_edited e
    have value : r.perform (.edit e : Request Q A K σ) =
        r.withBuilder (ending r.builder (r.builder.apply e)).2 := by
      rw [Session.perform, Session.perform?]
      cases r.builder.apply e with
      | error refusal => rfl
      | ok b => rfl
    rw [value, ← keeps.builder]
    exact keeps.withTables (keeps.reachable.edited e) left
  | build =>
    refine keeps.withModel? (fun a finished => keeps.reachable.finished? finished) ?_
    rw [Tables.map_model_finished?, keeps.builder]
  | reopen position =>
    have value := keeps.model_getElem? position
    rw [InPlace.perform, Session.perform, Session.perform?, value]
    cases found : s.models[position]? with
    | none => exact keeps
    | some t =>
      have made := keeps.finished t (List.mem_of_getElem? found)
      exact keeps.withTables made.reachable made.held
  | estimate position options counts nonneg =>
    exact keeps.estimated? position options fun m => Option.map_id'
  | baumWelch position options sequence =>
    refine keeps.estimated? position options fun m => ?_
    rw [Model.baumWelchStep, toOption_bind]
    cases (m.observe sequence.emissions).toOption with
    | none => rfl
    | some xs => exact Model.map_model_step m options (m.expectedCounts xs)
  | labelled position options sequence =>
    exact keeps.estimated? position options fun m =>
      Model.map_model_step m options (m.labelledCounts sequence)

theorem performAll (keeps : s.Keeps r) (requests : List (Request Q A K σ)) :
    (requests.foldl InPlace.perform s).Keeps (requests.foldl Session.perform r) := by
  induction requests generalizing s r with
  | nil => exact keeps
  | cons request rest ih => exact ih (keeps.perform request)

/-- **A session in place** has the models of the session by value, in tables. -/
theorem run (requests : List (Request Q A K σ)) :
    (InPlace.run requests).Keeps (Session.run requests) :=
  Keeps.initial.performAll requests

end Keeps

end InPlace

/-! ### The models of a session -/

section Models

variable [DecidableEq S] [DecidableEq E] [Field K] [LinearOrder K] [IsStrictOrderedRing K]
  [Score σ] [Logarithm K σ]

/-- **Every model that is produced is well formed.** Whatever was asked for before, the
models are read off tables of which every cell is in order: the entries are
probabilities, the groups add up to one within the tolerance, a state without arcs has a
row of zeros, a forbidden arc has zero in the cells of its probability and of its
pseudocount, and no pseudocount is negative. A model tells the numbers in the cells
without looking at the mask, and so the same holds of the model as a value. -/
theorem stochastic_of_mem_models (requests : List (Request Q A K σ)) :
    (InPlace.run requests).models.map Tables.model = (run requests).models ∧
    ∀ t ∈ (InPlace.run requests).models,
      t.Stochastic ∧ t.Tells t.model ∧ t.model.Stochastic ∧
      (∀ k, (∀ l, t.model.allows k l = false) → ∀ l, t.model.transition k l = 0) ∧
      (∀ k l, t.model.allows k l = false →
        t.model.transition k l = 0 ∧ t.model.transitionPseudocount k l = 0) ∧
      (∀ k l, 0 ≤ t.model.transitionPseudocount k l) ∧
      ∀ k x, 0 ≤ t.model.emissionPseudocount k x := by
  have keeps := InPlace.Keeps.run requests
  refine ⟨keeps.models, fun t mem => ?_⟩
  have made := keeps.finished t mem
  have produced : t.model ∈ (run requests).models := by
    rw [← keeps.models]
    exact List.mem_map_of_mem mem
  have sound := ((Reachable.run requests).models _ produced).wellFormed
  refine ⟨made.stochastic sound, made.tells, sound.stochastic, ?_, ?_, ?_, ?_⟩
  · intro k isolated l
    exact Parameters.transition_eq_zero (isolated l)
  · intro k l forbidden
    exact ⟨Parameters.transition_eq_zero forbidden,
      Parameters.transitionPseudocount_eq_zero forbidden⟩
  · exact sound.parameters.transitionPseudocount_nonneg
  · intro k x
    exact (sound.parameters.emission k x).pseudocount_nonneg

end Models

/-- The machine is built and trained; then it loses the arc to the failed state,
is built again and trained on a labelled sequence. -/
def machineRequests : List (Request Machine.states Machine.symbols ℚ EReal) :=
  Machine.edits.map .edit ++
    [.build, .baumWelch 0 ⟨true, true⟩ (.unlabelled [0, 0, 1]), .reopen 1, .edit (.destroy 1 2),
      .edit (.setTransition 1 1 1), .build, .labelled 2 ⟨true, false⟩ ⟨[0, 1], [1, 1], .inr rfl⟩]

theorem stochastic_machine :
    ∃ t, (InPlace.run machineRequests).models[3]? = some t ∧ t.Stochastic ∧
      t.probabilities.get Machine.working Machine.failed = 0 ∧
      t.pseudocounts.get Machine.working Machine.failed = 0 ∧
      (∀ l, t.probabilities.get Machine.failed l = 0) ∧
      t.model.pseudocountOfTransition 1 2 = 0 := by
  have bound : 3 < (InPlace.run machineRequests).models.length := by decide +kernel
  have cut : (InPlace.run machineRequests).models[3].allowed.get Machine.working Machine.failed =
      false := by decide +kernel +revert
  have last : ∀ l, (InPlace.run machineRequests).models[3].allowed.get Machine.failed l =
      false := by decide +kernel +revert
  obtain ⟨stochastic, tells, -⟩ :=
    (stochastic_of_mem_models machineRequests).2 _ (List.getElem_mem bound)
  obtain ⟨probability, pseudocount⟩ := stochastic.forbidden _ _ cut
  exact ⟨_, List.getElem?_eq_getElem bound, stochastic, probability, pseudocount,
    stochastic.isolated _ last, (tells.transitionPseudocount 1 2).trans pseudocount⟩

end Session

end Trellis
