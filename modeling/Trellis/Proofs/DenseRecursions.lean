import Trellis.Decoder
import Trellis.Proofs.ArcLists
import Trellis.Proofs.ForbiddenCells
import Trellis.Proofs.Smoothing

/-!
# Dense recursions

The recursions over a model sum over the arcs of a state. Here they are written as
in a textbook, over the dense tables of a model: every sum is over all states, and
there is no mask. In exact arithmetic both are the same, results and errors, since
the number of a forbidden arc is zero (`forward_eq_dense`, `scaleAt_eq_dense`,
`backward_eq_dense`, `expectedCounts_eq_dense`). These dense tables are the ones that
an in-place history leaves in memory (`Tables.Blank.dense?_eq`) and of which a decoder
takes the logarithms (`decoder_eq_dense`). `sparse_eq_dense` states this of every model
that a run ends with.
-/

namespace Trellis

variable {S E α K σ : Type} {Q : Alphabet S} {A : Alphabet E}

/-- The numbers of a model in dense tables, without its arcs. -/
structure Dense (Q : Alphabet S) (A : Alphabet E) (α : Type) where
  initial : Vector α Q.size
  transition : Table Q.size Q.size α
  emission : Table Q.size A.size α

/-- The dense tables of a model: a forbidden arc has number zero. -/
def Model.dense [Zero α] (m : Model Q A α) : Dense Q A α where
  initial := m.initial
  transition := .ofFn m.transition
  emission := .ofFn m.emission

/-- The dense tables as they are kept, whatever the mask says. -/
def Tables.dense? (t : Tables Q A α) : Option (Dense Q A α) :=
  t.initial.map fun initial => ⟨initial, t.probabilities, t.emissionProbabilities⟩

namespace Dense

/-! ### Textbook recursions -/

/-- The logarithms of dense tables. -/
def decoder [Logarithm α σ] (d : Dense Q A α) : Decoder Q A σ where
  initial := d.initial.map Logarithm.log
  transition := .ofFn fun k l => Logarithm.log (d.transition.get k l)
  emission := .ofFn fun k x => Logarithm.log (d.emission.get k x)

variable [Field K] [LinearOrder K]

/-- The probability of arriving in a state, from any state or at the start. -/
def arrival (d : Dense Q A K) (previous : Option (Vector K Q.size)) (l : Q.Code) : K :=
  match previous with
  | none => d.initial.get l
  | some row => ∑ k, row.get k * d.transition.get k l

/-- The forward row before scaling, over all states. -/
def rawRow (d : Dense Q A K) (previous : Option (Vector K Q.size)) (x : A.Code) :
    Vector K Q.size :=
  .ofFn fun l => d.emission.get l x * d.arrival previous l

/-- The sum of a row, which has to be positive. -/
def scaleOf {n : Nat} (position : Nat) (row : Vector K n) : Except (Error S E K) K :=
  if 0 < ∑ k, row.get k then .ok (∑ k, row.get k)
  else .error (.numerical position (.scale (∑ k, row.get k)))

/-- The steps from a position on, over all states. -/
def forwardFrom (d : Dense Q A K) (position : Nat) (previous : Option (Vector K Q.size)) :
    List A.Code → Except (Error S E K) (List (ForwardStep Q.size K))
  | [] => .ok []
  | x :: rest => do
    let raw := d.rawRow previous x
    let scale ← scaleOf position raw
    let row := raw.map (· / scale)
    let steps ← d.forwardFrom (position + 1) (some row) rest
    .ok (⟨row, scale⟩ :: steps)

/-- The forward recursion over all states. -/
def forward (d : Dense Q A K) (xs : List A.Code) :
    Except (Error S E K) (List (ForwardStep Q.size K)) :=
  d.forwardFrom 0 none xs

/-- The scale of one position, given the row before it, over all states. -/
def scaleAt (d : Dense Q A K) (xs : List A.Code) (position : Nat) (previous : List K) :
    Except (Error S E K) K :=
  match xs[position]? with
  | none => .error (.positionOutOfRange .scale position xs.length)
  | some x =>
    if previous.length = Q.size then
      let row : Vector K Q.size := .ofFn fun k => previous.getD k 0
      scaleOf position (d.rawRow (if position = 0 then none else some row) x)
    else
      .error (.sizeMismatch .scale Q.size previous.length)

/-- The backward entry of a state, given the later symbols with their scales. -/
def backwardEntry (d : Dense Q A K) : List (A.Code × K) → Q.Code → K
  | [], _ => 1
  | (x, scale) :: later, k =>
    (∑ l, d.transition.get k l * d.emission.get l x * d.backwardEntry later l) / scale

/-- A row for each position, from what comes after it. -/
def backward (d : Dense Q A K) (xs : List A.Code) (scales : List K) :
    Except (Error S E K) (List (Vector K Q.size)) :=
  if scales.length = xs.length then
    .ok ((xs.zip scales).tails.tail.map fun later => .ofFn (d.backwardEntry later))
  else
    .error (.sizeMismatch .backward xs.length scales.length)

/-- Both recursions over all states, with the posteriors at each position. -/
def smooth (d : Dense Q A K) (xs : List A.Code) :
    Except (Error S E K) (List (Model.Smoothed Q.size K)) := do
  let steps ← d.forward xs
  let rows ← d.backward xs (steps.map ForwardStep.scale)
  let posteriors ← Model.posteriorRows 0 ((steps.map ForwardStep.row).zip rows)
  .ok (((steps.zip rows).zip posteriors).map fun ((f, b), p) => ⟨f, b, p⟩)

/-- The posterior probability of each step, summed, for any two states. -/
def expectedSteps (d : Dense Q A K) (positions : Model.Positions Q A K) (k l : Q.Code) : K :=
  ((positions.zip positions.tail).map fun ((_, here), (x, next)) =>
    here.forward.row.get k * d.transition.get k l * d.emission.get l x * next.backward.get l
      / next.forward.scale).sum

/-- The expected counts, with steps between any two states. -/
def expectedCounts [Score σ] [Logarithm K σ] (d : Dense Q A K) (xs : List A.Code) :
    Except (Error S E K) (Counts (.ofModel Q.size A.size) K σ) := do
  let smoothed ← d.smooth xs
  let positions := xs.zip smoothed
  .ok {
    initial := .ofFn (Model.expectedStart positions)
    transitions := .ofFn (d.expectedSteps positions)
    emissions := .ofFn (Model.expectedEmissions positions)
    logLikelihood := ForwardStep.logLikelihood (smoothed.map Model.Smoothed.forward) }

end Dense

/-! ### Dense tables in place -/

/-- The arcs of a model are listed from the mask that is kept for it. -/
theorem Tables.adjacency_eq_scan {t : Tables Q A α} {m : Model Q A α}
    (held : t.builder = .ofModel m) : m.adjacency = .scan t.allowed := by
  have allows : m.allows = t.allowed.get := funext fun k => funext (allows_of_held held k)
  rw [m.adjacency_eq, allows, Adjacency.scan_eq_ofMask]

/-- The dense tables that are kept for a model are those of the model. -/
theorem Tables.Blank.dense?_eq [Zero α] {t : Tables Q A α} {m : Model Q A α} (blank : t.Blank)
    (held : t.builder = .ofModel m) : t.dense? = some m.dense := by
  have arcs : t.probabilities = .ofFn m.transition := by
    ext k l
    rw [Table.get_ofFn, blank.transition_eq held]
  have emissions : t.emissionProbabilities = .ofFn m.emission := by
    ext k x
    rw [Table.get_ofFn, emission_of_held held]
  rw [dense?, initial_of_held held, arcs, emissions]
  rfl

namespace Model

/-! ### Sparse sums and dense sums -/

section Exact

variable [Field K] [LinearOrder K] (m : Model Q A K)

theorem arrival_eq_dense (previous : Option (Vector K Q.size)) (l : Q.Code) :
    m.arrival previous l = m.dense.arrival previous l := by
  cases previous with
  | none => rfl
  | some row =>
    rw [arrival, Dense.arrival, m.total_predecessors l fun k forbidden => by
      rw [forbidden, mul_zero]]
    simp only [dense, Table.get_ofFn]

theorem rawRow_eq_dense (previous : Option (Vector K Q.size)) (x : A.Code) :
    m.rawRow previous x = m.dense.rawRow previous x := by
  refine Row.ext fun l => ?_
  rw [rawRow, Dense.rawRow, Row.get_ofFn, Row.get_ofFn, arrival_eq_dense, dense, Table.get_ofFn]

theorem scaleOf_eq_dense {n : Nat} (position : Nat) (row : Vector K n) :
    (scaleOf position row : Except (Error S E K) K) = Dense.scaleOf position row := by
  rw [scaleOf, Dense.scaleOf]
  simp only [rowTotal_toList, isDivisor_iff]

theorem forwardFrom_eq_dense (position : Nat) (previous : Option (Vector K Q.size))
    (xs : List A.Code) :
    m.forwardFrom position previous xs = m.dense.forwardFrom position previous xs := by
  induction xs generalizing position previous with
  | nil => rfl
  | cons x rest ih =>
    rw [forwardFrom, Dense.forwardFrom]
    simp only [rawRow_eq_dense, scaleOf_eq_dense, ih]

/-- The forward recursion over arcs is the one over all states, errors included. -/
theorem forward_eq_dense (xs : List A.Code) : m.forward xs = m.dense.forward xs :=
  m.forwardFrom_eq_dense 0 none xs

/-- The scale of one position, whatever row is given for the position before. -/
theorem scaleAt_eq_dense (xs : List A.Code) (position : Nat) (previous : List K) :
    m.scaleAt xs position previous = m.dense.scaleAt xs position previous := by
  rw [scaleAt, Dense.scaleAt]
  cases xs[position]? with
  | none => rfl
  | some x =>
    dsimp only
    split
    · rename_i size
      have row : (⟨previous.toArray, by simp [size]⟩ : Vector K Q.size) =
          .ofFn fun k => previous.getD k 0 := by
        refine Row.ext fun k => ?_
        have bound : k.val < previous.length := lt_of_lt_of_eq k.isLt size.symm
        rw [Row.get_ofFn, ← List.getElem_eq_getD (h := bound) 0]
        rfl
      rw [row, rawRow_eq_dense, scaleOf_eq_dense]
    · rfl

theorem backwardRows_fst_eq_dense (later : List (A.Code × K)) :
    (m.backwardRows later).1 = .ofFn (m.dense.backwardEntry later) := by
  refine Row.ext fun k => ?_
  induction later generalizing k with
  | nil => rw [backwardRows, Row.get_replicate, Row.get_ofFn, Dense.backwardEntry]
  | cons p rest ih =>
    obtain ⟨x, scale⟩ := p
    have row : (m.backwardRows ((x, scale) :: rest)).1 =
        m.backwardRow x scale (m.backwardRows rest).1 := rfl
    rw [row, get_backwardRow, Row.get_ofFn, Dense.backwardEntry]
    simp only [ih, Row.get_ofFn, dense, Table.get_ofFn]

theorem backwardRows_eq_dense (later : List (A.Code × K)) :
    (m.backwardRows later).1 :: (m.backwardRows later).2 =
      later.tails.map fun rest => .ofFn (m.dense.backwardEntry rest) := by
  induction later with
  | nil =>
    rw [backwardRows_fst_eq_dense]
    rfl
  | cons p rest ih =>
    have rows : (m.backwardRows (p :: rest)).2 =
        (m.backwardRows rest).1 :: (m.backwardRows rest).2 := rfl
    rw [backwardRows_fst_eq_dense, List.tails_cons, List.map_cons, rows, ih]

/-- The backward recursion, whatever scales are given. -/
theorem backward_eq_dense (xs : List A.Code) (scales : List K) :
    (m.backward xs scales : Except (Error S E K) _) = m.dense.backward xs scales := by
  rw [backward, Dense.backward]
  refine if_congr Iff.rfl ?_ rfl
  cases xs.zip scales with
  | nil => rfl
  | cons p later => exact congrArg Except.ok (m.backwardRows_eq_dense later)

theorem smooth_eq_dense (xs : List A.Code) : m.smooth xs = m.dense.smooth xs := by
  rw [smooth, Dense.smooth]
  simp only [forward_eq_dense, backward_eq_dense]

theorem expectedSteps_eq_dense (positions : Positions Q A K) (k l : Q.Code) :
    m.expectedSteps positions k l = m.dense.expectedSteps positions k l := by
  rw [expectedSteps, Dense.expectedSteps]
  simp only [dense, Table.get_ofFn]
  split
  · exact total_eq_sum _
  · rename_i forbidden
    -- The steps of a path never take this arc, and each term has its number as a factor.
    have zero := Parameters.transition_eq_zero (Bool.eq_false_iff.mpr forbidden)
    simp [zero]

/-- The expected counts; a step over a forbidden arc is expected zero times. -/
theorem expectedCounts_eq_dense [Score σ] [Logarithm K σ] (xs : List A.Code) :
    (m.expectedCounts xs : Except (Error S E K) (Counts _ K σ)) = m.dense.expectedCounts xs := by
  have steps (positions : Positions Q A K) :
      m.expectedSteps positions = m.dense.expectedSteps positions :=
    funext fun k => funext (m.expectedSteps_eq_dense positions k)
  rw [expectedCounts, Dense.expectedCounts]
  simp only [smooth_eq_dense, steps]

omit [LinearOrder K] in
theorem decoder_eq_dense [Logarithm K σ] :
    (Decoder.ofModel m : Decoder Q A σ) = m.dense.decoder := by
  rw [Decoder.ofModel, Dense.decoder]
  simp only [dense, Table.get_ofFn]

/-- **Sparse recursions are dense recursions.** A model that a run ends with is the
content of tables made in place, and all such tables hold its dense tables, with zeros
for the forbidden arcs, and the mask that its arcs are listed from. Over the lists the
scale of a position, the forward and the backward recursion and the expected counts are
what they are over the dense tables, of which the decoder takes the logarithms. -/
theorem sparse_eq_dense [Score σ] [Logarithm K σ] [DecidableEq S] [DecidableEq E]
    {m : Model Q A K} (reach : m.Reachable) :
    (∃ t : Tables Q A K, t.Reachable ∧ t.builder = .ofModel m) ∧
    (∀ t : Tables Q A K, t.Reachable → t.builder = .ofModel m →
      m.adjacency = .scan t.allowed ∧ t.dense? = some m.dense) ∧
    (∀ xs position previous, m.scaleAt xs position previous =
      m.dense.scaleAt xs position previous) ∧
    (∀ xs, m.forward xs = m.dense.forward xs) ∧
    (∀ xs scales, (m.backward xs scales : Except (Error S E K) _) = m.dense.backward xs scales) ∧
    (∀ xs, (m.expectedCounts xs : Except (Error S E K) (Counts _ K σ)) =
      m.dense.expectedCounts xs) ∧
    (Decoder.ofModel m : Decoder Q A σ) = m.dense.decoder :=
  ⟨Tables.exists_tables_of_reachable reach,
    fun _ made held => ⟨Tables.adjacency_eq_scan held, made.blank.dense?_eq held⟩,
    m.scaleAt_eq_dense, m.forward_eq_dense, m.backward_eq_dense, m.expectedCounts_eq_dense,
    m.decoder_eq_dense⟩

theorem sparse_machine :
    (∃ t : Tables Machine.states Machine.symbols ℚ, t.Reachable ∧
      t.probabilities.get Machine.working Machine.failed = 1 / 2 ∧
      t.probabilities.get Machine.failed Machine.working = 0) ∧
    Machine.model.dense.scaleAt Machine.shown 2 [1, 0] = .ok (5 / 8) ∧
    Machine.model.dense.scaleAt [⟨1, by decide⟩, ⟨0, by decide⟩] 1 [0, 1] =
      .error (.numerical 1 (.scale 0)) ∧
    Machine.model.dense.backward Machine.shown [0, 1 / 2, 3] =
      (.ok [#v[5 / 32, 0], #v[5 / 24, 0], #v[1, 1]] :
        Except (Error Nat Nat ℚ) (List (Vector ℚ Machine.states.size))) ∧
    (Machine.model.expectedCounts Machine.shown : Except (Error Nat Nat ℚ) (Counts _ ℚ EReal)) =
      Machine.model.dense.expectedCounts Machine.shown ∧
    (Machine.model.dense.expectedCounts Machine.shown :
      Except (Error Nat Nat ℚ) (Counts _ ℚ EReal)).map
        (fun counts => (counts.initial, counts.transitions, counts.emissions)) =
      .ok (#v[1, 0], ⟨#v[#v[6 / 5, 4 / 5], #v[0, 0]]⟩, ⟨#v[#v[2, 1 / 5], #v[0, 4 / 5]]⟩) := by
  obtain ⟨⟨t, made, held⟩, tables, scales, -, backward, counts, -⟩ :=
    sparse_eq_dense (σ := EReal) Machine.model_reachable
  obtain ⟨initial, -, dense⟩ := Option.map_eq_some_iff.mp (tables t made held).2
  have arcs : t.probabilities = Machine.model.dense.transition := congrArg Dense.transition dense
  refine ⟨⟨t, made, ?_, ?_⟩, ?_, ?_, ?_, counts _, ?_⟩
  · rw [arcs]
    decide +kernel
  · rw [arcs]
    decide +kernel
  · rw [← scales]
    decide +kernel
  · rw [← scales]
    decide +kernel
  · rw [← backward]
    decide +kernel
  · rw [← counts]
    decide +kernel

end Exact

end Model

end Trellis
