import Mathlib.Data.Multiset.Basic
import Trellis.Proofs.RecodedDecoding

/-!
# The order of declaration

An alphabet is declared in some order, and every table is kept in that order.
From outside the order cannot be seen: whatever is asked by name, two models
over reordered alphabets answer alike if the same edits made them (`SameByName`,
`Model.WellFormed.sameByName_recode`, `order_of_declaration`). What may differ is
the order of a listing, which of several faults is reported, and which of several
best paths is found.
-/

namespace Trellis

variable {S E K σ : Type} {Q Q' : Alphabet S} {A A' : Alphabet E} [DecidableEq S] [DecidableEq E]

/-! ### Tables by name -/

namespace Alphabet

/-- A row, read by symbols; nothing for a symbol that is unknown. -/
def read (Q : Alphabet S) (row : Vector K Q.size) (s : S) : Option K :=
  (Q.codeOf? s).map row.get

/-- A table, read by symbols. -/
def readTable (Q : Alphabet S) (A : Alphabet E) (t : Table Q.size A.size K) (s : S) (x : E) :
    Option K :=
  (Q.codeOf? s).bind fun k => (A.codeOf? x).map (t.get k)

omit [DecidableEq E] in
theorem read_recode (q : Recoding Q Q') (row : Vector K Q.size) :
    Q'.read (Row.recode q.code row) = Q.read row := by
  funext s
  rw [read, read, q.codeOf?_eq, Option.map_map]
  exact congrArg (Option.map · _) (funext fun k => Row.get_recode q.code row k)

theorem readTable_recode (q : Recoding Q Q') (a : Recoding A A') (t : Table Q.size A.size K) :
    readTable Q' A' (t.recode q.code a.code) = readTable Q A t := by
  funext s x
  rw [readTable, readTable, q.codeOf?_eq, a.codeOf?_eq]
  cases Q.codeOf? s with
  | none => rfl
  | some k =>
    cases A.codeOf? x with
    | none => rfl
    | some y => exact congrArg some (t.get_recode q.code a.code k y)

end Alphabet

/-! ### Answers -/

/-- What a model tells when it is asked by name. A listing is told without its
order. -/
@[ext] structure ModelAnswers (S E K : Type) where
  isAllowed : S → S → Bool
  initialProbability : S → K
  transitionProbability : S → S → K
  pseudocountOfTransition : S → S → K
  emissionProbability : S → E → K
  pseudocountOfEmission : S → E → K
  transitionsFrom : S → Multiset S
  transitionsTo : S → Multiset S

/-- Counts by name. -/
@[ext] structure CountAnswers (S E K σ : Type) where
  initial : S → Option K
  transitions : S → S → Option K
  emissions : S → E → Option K
  logLikelihood : σ

/-- What counts tell by name: the three tables, read by symbols, and the log-likelihood. -/
def Counts.answers (counts : Counts (.ofModel Q.size A.size) K σ) : CountAnswers S E K σ where
  initial := Q.read counts.initial
  transitions := Q.readTable Q counts.transitions
  emissions := Q.readTable A counts.emissions
  logLikelihood := counts.logLikelihood

theorem Counts.answers_recode (q : Recoding Q Q') (a : Recoding A A')
    (counts : Counts (.ofModel Q.size A.size) K σ) :
    (counts.recode q a).answers = counts.answers :=
  CountAnswers.ext (Alphabet.read_recode q _) (Alphabet.readTable_recode q q _)
    (Alphabet.readTable_recode q a _) rfl

namespace Model

section Answers

variable [Zero K]

/-- What a model tells by name; the states before and after a state are told as a multiset,
since their order is that of the alphabet. -/
def answers (m : Model Q A K) : ModelAnswers S E K where
  isAllowed := m.isAllowed
  initialProbability := m.initialProbability
  transitionProbability := m.transitionProbability
  pseudocountOfTransition := m.pseudocountOfTransition
  emissionProbability := m.emissionProbability
  pseudocountOfEmission := m.pseudocountOfEmission
  transitionsFrom s := m.transitionsFrom s
  transitionsTo s := m.transitionsTo s

variable (q : Recoding Q Q') (a : Recoding A A') (m : Model Q A K)

omit [DecidableEq S] [DecidableEq E] [Zero K] in
theorem successors_recode (k : Q.Code) :
    ((m.recode q a).successors (q.code k)).Perm ((m.successors k).map q.code) := by
  rw [successors_eq, successors_eq]
  refine (q.codes_perm.filter _).trans (.of_eq ?_)
  simp only [List.filter_map, Function.comp_def, toParameters_recode, Parameters.allows_recode]

omit [DecidableEq S] [DecidableEq E] [Zero K] in
theorem predecessors_recode (l : Q.Code) :
    ((m.recode q a).predecessors (q.code l)).Perm ((m.predecessors l).map q.code) := by
  rw [predecessors_eq, predecessors_eq]
  refine (q.codes_perm.filter _).trans (.of_eq ?_)
  simp only [List.filter_map, Function.comp_def, toParameters_recode, Parameters.allows_recode]

omit [DecidableEq S] in
/-- Codes that are listed in another order name the same symbols. -/
theorem names_perm {ks : List Q.Code} {ks' : List Q'.Code} (perm : ks'.Perm (ks.map q.code)) :
    (ks'.map Q'.symbol).Perm (ks.map Q.symbol) := by
  refine (perm.map Q'.symbol).trans (.of_eq ?_)
  simp only [List.map_map, Function.comp_def, q.symbol_code]

/-- By other codes a model gives the same answers. -/
theorem answers_recode : (m.recode q a).answers = m.answers := by
  ext1
  · funext source target
    simp only [answers, isAllowed, toParameters_recode, Parameters.arc?_recode]
  · funext state
    simp only [answers, initialProbability, q.codeOf?_eq]
    cases Q.codeOf? state with
    | none => rfl
    | some k => exact m.get_initial_recode q a k
  · funext source target
    simp only [answers, transitionProbability, toParameters_recode, Parameters.arc?_recode]
  · funext source target
    simp only [answers, pseudocountOfTransition, toParameters_recode, Parameters.arc?_recode]
  · funext state symbol
    simp only [answers, emissionProbability, toParameters_recode, Parameters.emission?_recode]
  · funext state symbol
    simp only [answers, pseudocountOfEmission, toParameters_recode, Parameters.emission?_recode]
  · funext state
    simp only [answers, transitionsFrom, q.codeOf?_eq]
    cases Q.codeOf? state with
    | none => rfl
    | some k => exact Multiset.coe_eq_coe.mpr (names_perm q (m.successors_recode q a k))
  · funext state
    simp only [answers, transitionsTo, q.codeOf?_eq]
    cases Q.codeOf? state with
    | none => rfl
    | some l => exact Multiset.coe_eq_coe.mpr (names_perm q (m.predecessors_recode q a l))

end Answers

/-! ### Everything by name -/

section Results

variable [Field K] [LinearOrder K] (m : Model Q A K)

/-- The forward rows by name, each with its scale. -/
def forwardByName (symbols : List E) : Except (Error S E K) (List ((S → Option K) × K)) := do
  let xs ← m.observe symbols
  let steps ← m.forward xs
  .ok (steps.map fun step => (Q.read step.row, step.scale))

/-- The posterior rows by name. -/
def posteriorsByName (symbols : List E) : Except (Error S E K) (List (S → Option K)) := do
  let xs ← m.observe symbols
  let rows ← m.posteriors xs
  .ok (rows.map Q.read)

variable [Score σ] [Logarithm K σ]

/-- The log-likelihood of symbols, some of which may be unknown. -/
def sequenceLogLikelihood (symbols : List E) : Except (Error S E K) σ := do
  let xs ← m.observe symbols
  let steps ← m.forward xs
  .ok (ForwardStep.logLikelihood steps)

/-- The expected counts by name. -/
def expectedCountsByName (symbols : List E) : Except (Error S E K) (CountAnswers S E K σ) := do
  let xs ← m.observe symbols
  let counts ← m.expectedCounts xs
  .ok counts.answers

end Results

end Model

/-- What is told by name of a model after a step. -/
def Estimate.answers [Zero K] (estimate : Estimate Q A K σ) : ModelAnswers S E K × σ :=
  (estimate.model.answers, estimate.logLikelihood)

theorem Estimate.answers_recode [Field K] (q : Recoding Q Q') (a : Recoding A A')
    (estimate : Estimate Q A K σ) : (estimate.recode q a).answers = estimate.answers :=
  congrArg (·, estimate.logLikelihood) (estimate.model.answers_recode q a)

/-- Two models cannot be told apart by name: whatever is asked, one gives the
answer of the other or fails with its error. Of decoded paths only the scores
are compared. -/
structure SameByName (σ : Type) [Field K] [LinearOrder K] [Score σ] [Logarithm K σ]
    (m : Model Q A K) (m' : Model Q' A' K) : Prop where
  answers : m'.answers = m.answers
  forward : ∀ symbols, m'.forwardByName symbols = m.forwardByName symbols
  logLikelihood : ∀ symbols,
    (m'.sequenceLogLikelihood symbols : Except (Error S E K) σ) = m.sequenceLogLikelihood symbols
  posteriors : ∀ symbols, m'.posteriorsByName symbols = m.posteriorsByName symbols
  expectedCounts : ∀ symbols,
    (m'.expectedCountsByName symbols : Except (Error S E K) (CountAnswers S E K σ)) =
      m.expectedCountsByName symbols
  decode : ∀ symbols, Path.score <$> ((Decoder.ofModel m' : Decoder Q' A' σ).decode symbols :
      Except (Error S E K) _) = Path.score <$> (Decoder.ofModel m : Decoder Q A σ).decode symbols
  decodeOver : ∀ states symbols,
    Path.score <$> ((Decoder.ofModel m' : Decoder Q' A' σ).decodeOver states symbols :
      Except (Error S E K) _) =
      Path.score <$> (Decoder.ofModel m : Decoder Q A σ).decodeOver states symbols
  baumWelchStep : ∀ options sequence,
    Estimate.answers <$> (m'.baumWelchStep options sequence : Except _ (Estimate Q' A' K σ)) =
      Estimate.answers <$> m.baumWelchStep options sequence
  labelledStep : ∀ options sequence,
    Estimate.answers <$> (m'.labelledStep options sequence : Except _ (Estimate Q' A' K σ)) =
      Estimate.answers <$> m.labelledStep options sequence

section Recode

variable [Field K] [LinearOrder K] [IsStrictOrderedRing K] [Score σ] [MonotoneScore σ]
  [Logarithm K σ] {m : Model Q A K}

/-- A model by other codes cannot be told from the model by name. -/
theorem Model.WellFormed.sameByName_recode (sound : m.WellFormed) (q : Recoding Q Q')
    (a : Recoding A A') : SameByName σ m (m.recode q a) where
  answers := m.answers_recode q a
  forward symbols := by
    simp only [Model.forwardByName, Model.observe_recode, Model.forward_recode, bind_map_left,
      List.map_map, Function.comp_def, ForwardStep.recode, Alphabet.read_recode]
  logLikelihood symbols := by
    simp only [Model.sequenceLogLikelihood, Model.observe_recode, Model.forward_recode,
      bind_map_left, ForwardStep.logLikelihood, List.map_map, Function.comp_def,
      ForwardStep.recode]
  posteriors symbols := by
    simp only [Model.posteriorsByName, Model.observe_recode, Model.posteriors_recode,
      bind_map_left, List.map_map, Function.comp_def, Alphabet.read_recode]
  expectedCounts symbols := by
    simp only [Model.expectedCountsByName, Model.observe_recode, Model.expectedCounts_recode,
      bind_map_left, Counts.answers_recode]
  decode := Decoder.decode_recode q a m
  decodeOver := Decoder.decodeOver_recode q a m
  baumWelchStep options sequence := by
    simp only [sound.baumWelchStep_recode, Functor.map_map, Estimate.answers_recode]
  labelledStep options sequence := by
    simp only [sound.labelledStep_recode, Functor.map_map, Estimate.answers_recode]

omit [IsStrictOrderedRing K] in
theorem Builder.Reachable.after {b : Builder Q A K} (reach : b.Reachable)
    (edits : List (DefiniteEdit S E K)) : (b.after edits).Reachable := by
  induction edits generalizing b with
  | nil => exact reach
  | cons edit rest ih =>
    rw [Builder.after, List.foldl_cons]
    refine ih ?_
    rw [Builder.step]
    cases applied : b.apply edit.val with
    | error e => exact reach
    | ok c => exact reach.apply edit.val applied

/-- **The order of declaration cannot be seen.** Over reordered alphabets the
same definite edits are refused for the same reasons, and the builders they
leave are finished both or neither. What is finished cannot be told apart by
name; what is not has the same faults, of which either may be reported. -/
theorem order_of_declaration (states : Q.symbols.Perm Q'.symbols)
    (symbols : A.symbols.Perm A'.symbols) (edits : List (DefiniteEdit S E K)) :
    (Builder.empty : Builder Q' A' K).refusals edits =
      (Builder.empty : Builder Q A K).refusals edits ∧
    ((∃ m m', ((Builder.empty : Builder Q A K).after edits).build = .ok m ∧
        ((Builder.empty : Builder Q' A' K).after edits).build = .ok m' ∧ SameByName σ m m') ∨
      ∃ sum fault sum' fault',
        ((Builder.empty : Builder Q A K).after edits).HasFault sum fault ∧
        ((Builder.empty : Builder Q A K).after edits).HasFault sum' fault' ∧
        ((Builder.empty : Builder Q A K).after edits).build =
          .error (.invalidProbability .build sum fault) ∧
        ((Builder.empty : Builder Q' A' K).after edits).build =
          .error (.invalidProbability .build sum' fault')) := by
  obtain ⟨q⟩ := Recoding.exists_of_perm states
  obtain ⟨a⟩ := Recoding.exists_of_perm symbols
  obtain ⟨refused, left⟩ := (Builder.empty : Builder Q A K).run_recode q a edits
  rw [← Builder.empty_recode] at refused left
  refine ⟨refused, ?_⟩
  rw [left]
  rcases ((Builder.empty : Builder Q A K).after edits).build_recode q a with
    ⟨m, built, built'⟩ | faulty
  · have reach : m.Reachable := (Builder.Reachable.after .empty edits).build built
    exact .inl ⟨m, _, built, built', reach.wellFormed.sameByName_recode q a⟩
  · exact .inr faulty

namespace Machine

def statesReversed : Alphabet Nat := ⟨[2, 1], by decide, by decide⟩

def symbolsReversed : Alphabet Nat := ⟨[1, 0], by decide, by decide⟩

/-- A run that knows no state 7. -/
def run : List (DefiniteEdit Nat Nat ℚ) :=
  [⟨.setInitial [(1, 1)], trivial⟩, ⟨.allow 1 2 1 3, trivial⟩, ⟨.allow 7 1 1 1, trivial⟩,
    ⟨.setEmission 1 0 1, trivial⟩]

end Machine

theorem order_of_declaration_machine :
    ∃ m m', ((Builder.empty : Builder Machine.states Machine.symbols ℚ).after
        Machine.run).build = .ok m ∧
      ((Builder.empty : Builder Machine.statesReversed Machine.symbolsReversed ℚ).after
        Machine.run).build = .ok m' ∧ SameByName EReal m m' := by
  have states : Machine.states.symbols.Perm Machine.statesReversed.symbols := by decide
  have symbols : Machine.symbols.symbols.Perm Machine.symbolsReversed.symbols := by decide
  obtain ⟨-, built | ⟨sum, fault, -, -, -, -, failed, -⟩⟩ :=
    order_of_declaration (σ := EReal) states symbols Machine.run
  · exact built
  · have sane : ((Builder.empty : Builder Machine.states Machine.symbols ℚ).after
        Machine.run).build.toOption.isSome = true := by decide +kernel
    rw [failed] at sane
    cases sane

end Recode

end Trellis
