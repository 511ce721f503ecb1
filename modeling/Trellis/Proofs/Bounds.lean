import Trellis.Proofs.CheckedCounts
import Trellis.Proofs.CheckedDecoding
import Trellis.Proofs.Labelling

/-!
# Codes are in bounds

The codes that an alphabet gives to symbols are the numbers below its length, and the
tables of builders and models have its length. So an operation that looks up names and
reads or writes tables at what it finds is never out of bounds. For each group of
operations a structure states this of all that take names or run over codes
(`Tables.StayInBounds`, `Model.LookupsInBounds`, `Model.RecursionsInBounds`,
`Model.CountsInBounds`, `Decoder.StaysInBounds`): where every access looks whether its
indices are in bounds, the operation still ends, with the result or the error of the
operation over codes. `codes_in_bounds` states all of them, of all alphabets.
-/

namespace Trellis

variable {S E α σ : Type} [DecidableEq S] [Hashable S] [DecidableEq E] [Hashable E] [Arithmetic α]

/-! ### Builders -/

/-- A builder in tables is edited, filled with random numbers, finished and asked. -/
structure Tables.StayInBounds (Q : Alphabet S) (A : Alphabet E) (α : Type) [Arithmetic α] :
    Prop where
  perform : ∀ edit : DefiniteEdit S E α,
    InBounds (Checked.perform Q.codeMap A.codeMap edit)
      (Tables.perform edit : Editing Q A α Unit)
  randomize :
    InBounds (Checked.randomize Q.codeMap A.codeMap) (Drawing.randomize : Drawing Q A α Unit)
  finish : InBounds (Checked.finish Q.codeMap A.codeMap) (Tables.finish : Editing Q A α Unit)
  arcCell? : ∀ (t : Tables Q A α) cells source target,
    InBounds (Checked.arcCell? Q.codeMap t cells source target) (t.arcCell? cells source target)
  emissionCell? : ∀ (cells : Table Q.size A.size α) state symbol,
    InBounds (Checked.emissionCell? Q.codeMap A.codeMap cells state symbol)
      (Tables.emissionCell? cells state symbol)
  initialCell? : ∀ (t : Tables Q A α) state,
    InBounds (Checked.initialCell? Q.codeMap t state) (t.answers.initialProbability state)
  arcs : ∀ t : Tables Q A α, InBounds (Checked.arcs Q.codeMap t) (pure t.answers.arcs : Id _)

theorem Tables.stayInBounds (Q : Alphabet S) (A : Alphabet E) : StayInBounds Q A α where
  perform := InBounds.perform
  randomize := InBounds.randomize
  finish := InBounds.finish
  arcCell? := InBounds.arcCell?
  emissionCell? := InBounds.emissionCell?
  initialCell? t := InBounds.initialCell? t
  arcs t := .of_eq_pure (Checked.arcs_eq t)

namespace Model

variable {Q : Alphabet S} {A : Alphabet E}

/-! ### Models -/

/-- The arcs of a model are listed, and the model is asked. -/
structure LookupsInBounds (m : Model Q A α) : Prop where
  scan : ∀ mask : Table Q.size Q.size Bool,
    InBounds (Checked.scan Q.codeMap.size mask) (pure (.scan mask) : Id _)
  initialProbability : ∀ state,
    InBounds (Checked.initialProbability m Q.codeMap state)
      (pure (m.initialProbability state) : Id _)
  arc? : ∀ source target,
    InBounds (Checked.arc? m Q.codeMap source target) (pure (m.arc? source target) : Id _)
  emission? : ∀ state symbol,
    InBounds (Checked.emission? m Q.codeMap A.codeMap state symbol)
      (pure (m.emission? state symbol) : Id _)
  transitionsFrom : ∀ state,
    InBounds (Checked.transitionsFrom m Q.codeMap state) (pure (m.transitionsFrom state) : Id _)
  transitionsTo : ∀ state,
    InBounds (Checked.transitionsTo m Q.codeMap state) (pure (m.transitionsTo state) : Id _)

theorem lookupsInBounds (m : Model Q A α) : m.LookupsInBounds where
  scan mask := .of_eq_pure (Checked.scan_eq mask)
  initialProbability state := .of_eq_pure (Checked.initialProbability_eq m state)
  arc? source target := .of_eq_pure (Checked.arc?_eq m source target)
  emission? state symbol := .of_eq_pure (Checked.emission?_eq m state symbol)
  transitionsFrom state := .of_eq_pure (Checked.transitionsFrom_eq m state)
  transitionsTo state := .of_eq_pure (Checked.transitionsTo_eq m state)

/-- The recursions run over a sequence of symbols. -/
structure RecursionsInBounds (m : Model Q A α) : Prop where
  observe : ∀ symbols,
    InBounds (Checked.encode A.codeMap (.unknownSymbol .observe) symbols)
      (List.map Fin.val <$> m.observe symbols : Except (Error S E α) _)
  forward : ∀ xs,
    InBounds (Checked.forward m Q.codeMap (xs.map Fin.val))
      (m.forward xs : Except (Error S E α) _)
  scaleAt : ∀ xs position previous,
    InBounds (Checked.scaleAt m Q.codeMap (xs.map Fin.val) position previous)
      (m.scaleAt xs position previous : Except (Error S E α) _)
  backward : ∀ xs scales,
    InBounds (Checked.backward m Q.codeMap (xs.map Fin.val) scales)
      (m.backward xs scales : Except (Error S E α) _)
  posteriors : ∀ xs,
    InBounds (Checked.posteriors m Q.codeMap (xs.map Fin.val))
      (m.posteriors xs : Except (Error S E α) _)

theorem recursionsInBounds (m : Model Q A α) : m.RecursionsInBounds where
  observe := InBounds.encode A _
  forward := InBounds.forward m
  scaleAt := InBounds.scaleAt m
  backward := InBounds.backward m
  posteriors := InBounds.posteriors m

/-- Sequences are counted. Counting a known path by number adds ones; the counts are those
of the path wherever adding ones counts. -/
structure CountsInBounds [Score σ] [Logarithm α σ] (m : Model Q A α) : Prop where
  expectedCounts : ∀ xs,
    InBounds (Checked.expectedCounts m Q.codeMap (xs.map Fin.val))
      (m.expectedCounts xs : Except (Error S E α) (Counts _ α σ))
  labelledCounts : ∀ sequence,
    InBounds (Checked.labelledCounts m Q.codeMap A.codeMap sequence)
      (m.tallies <$> m.labelledPath sequence : Except (Error S E α) (Counts _ α σ))
  labelledCounts_eq : ∀ sequence, m.labelledCounts sequence =
    (m.pathCounts <$> m.labelledPath sequence : Except (Error S E α) (Counts _ α σ))
  tallies_eq : (∀ n : Nat, ones n = (n : α)) → ∀ path, m.tallies path = m.pathCounts path

theorem countsInBounds [Score σ] [Logarithm α σ] (m : Model Q A α) :
    m.CountsInBounds (σ := σ) where
  expectedCounts := InBounds.expectedCounts m
  labelledCounts := InBounds.labelledCounts m
  labelledCounts_eq := m.labelledCounts_eq
  tallies_eq := m.tallies_eq

end Model

/-! ### Decoders -/

/-- A decoder searches all states, or those that are listed. -/
structure Decoder.StaysInBounds [Score σ] {Q : Alphabet S} {A : Alphabet E} (α : Type)
    (d : Decoder Q A σ) : Prop where
  decode : ∀ symbols,
    InBounds (Checked.decode d Q.codeMap A.codeMap symbols)
      (d.decode symbols : Except (Error S E α) _)
  decodeOver : ∀ states symbols,
    InBounds (Checked.decodeOver d Q.codeMap A.codeMap states symbols)
      (d.decodeOver states symbols : Except (Error S E α) _)

/-! ### All of them -/

/-- **Codes are in bounds.** A list of symbols makes a code map exactly if it has symbols
and none of them repeats an earlier one, and otherwise the first that does is named; the
map numbers the symbols from zero in their order, and encodes exactly the sequences of
them. With the code maps of the alphabets, no table is ever accessed out of bounds, by a
builder, a model, the recursions, the counts or a decoder. -/
theorem codes_in_bounds [Score σ] [Logarithm α σ] :
    (∀ symbols : List S, CodeMap.Made symbols) ∧
    ∀ (Q : Alphabet S) (A : Alphabet E),
      Tables.StayInBounds Q A α ∧
      (∀ m : Model Q A α,
        m.LookupsInBounds ∧ m.RecursionsInBounds ∧ m.CountsInBounds (σ := σ)) ∧
      ∀ d : Decoder Q A σ, d.StaysInBounds α :=
  ⟨CodeMap.made, fun Q A => ⟨Tables.stayInBounds Q A,
    fun m => ⟨m.lookupsInBounds, m.recursionsInBounds, m.countsInBounds⟩,
    fun d => ⟨InBounds.decode d, InBounds.decodeOver d⟩⟩⟩

/-- The states of the machine are 1 and 2, with the numbers 0 and 1. Its posteriors over
three symbols, looked up by number, are in bounds, and so are the counts of two symbols
with their states, which in exact arithmetic are the counts over codes. -/
theorem codes_machine :
    (∃ C : CodeMap Nat, CodeMap.ofList [1, 2] = .ok C ∧ C.codeOf? 2 = some 1 ∧
      C.symbol? 1 = some 2 ∧ C.symbol? 2 = none ∧ C.encode id [2, 1, 3, 4] = .error 3) ∧
    CodeMap.ofList [1, 2, 2, 1] = .error (.duplicate 2) ∧
    (do
      let xs ← Checked.encode Machine.symbols.codeMap (.unknownSymbol .observe) [0, 0, 1]
      Checked.posteriors Machine.model Machine.states.codeMap xs :
        Checked (Except (Error Nat Nat ℚ)) _).run =
      .ok (some [#v[1, 0], #v[1, 0], #v[1 / 5, 4 / 5]]) ∧
    InBounds
      (Checked.labelledCounts Machine.model Machine.states.codeMap Machine.symbols.codeMap
        ⟨[0, 1], [1, 2], .inr rfl⟩)
      (Machine.model.labelledCounts ⟨[0, 1], [1, 2], .inr rfl⟩ :
        Except (Error Nat Nat ℚ) (Counts _ ℚ EReal)) := by
  obtain ⟨makes, bounds⟩ := codes_in_bounds (S := Nat) (E := Nat) (α := ℚ) (σ := EReal)
  obtain ⟨-, recursions, counts⟩ := (bounds Machine.states Machine.symbols).2.1 Machine.model
  refine ⟨?_, ?_, ?_, ?_⟩
  · obtain ⟨C, made⟩ := (makes [1, 2]).exists_iff.mpr (by decide)
    have numbers := (makes [1, 2]).numbers C made
    have encodes := (makes [1, 2]).encodes C made
    refine ⟨C, made, ?_, numbers.symbol?_eq 1, numbers.symbol?_eq 2, ?_⟩
    · exact (numbers.codeOf?_eq_some_iff 2 1).mpr (numbers.symbol?_eq 1)
    · refine (encodes.error_iff id [2, 1, 3, 4] 3).mpr ⟨[2, 1], 3, [4], rfl, ?_, ?_, rfl⟩
      · decide
      · decide
  · exact ((makes [1, 2, 2, 1]).duplicate_iff 2).mpr ⟨[1, 2], [1], rfl, by decide, by decide⟩
  · have over_codes : (do
        let xs ← Machine.model.observe [0, 0, 1]
        Machine.model.posteriors xs :
          Except (Error Nat Nat ℚ) (List (Vector ℚ Machine.states.size))) =
        .ok [#v[1, 0], #v[1, 0], #v[1 / 5, 4 / 5]] := by
      decide +kernel
    refine ((recursions.observe [0, 0, 1]).bind_map recursions.posteriors).trans ?_
    rw [over_codes]
    rfl
  · rw [counts.labelledCounts_eq, ← funext (counts.tallies_eq ones_eq_natCast)]
    exact counts.labelledCounts _

end Trellis
