import Trellis.Proofs.Exact
import Trellis.StatePath

/-!
# Sums over state paths

The probability of a sequence of symbols is the sum, over all state paths of
its length, of the joint probability of the path and the symbols
(`Model.probability`). The recursions of this library never enumerate paths;
`Model.pathSum_cons` is the one equation by which they agree with the enumeration.
The first and the last position of a path can be split off a sum
(`Model.probability_cons`, `Model.pathSum_head`, `Model.pathSum_tail`).
-/

namespace Trellis

variable {S E K : Type} {Q : Alphabet S} {A : Alphabet E}

/-! ### Paths -/

namespace Alphabet

/-- The state paths of a length. -/
def paths (Q : Alphabet S) : Nat → Finset (List Q.Code)
  | 0 => {[]}
  | n + 1 => Finset.univ.biUnion fun k => (Q.paths n).map ⟨List.cons k, List.cons_injective⟩

/-- Every list of states is a path of its length. -/
theorem mem_paths {n : Nat} {states : List Q.Code} :
    states ∈ Q.paths n ↔ states.length = n := by
  induction n generalizing states with
  | zero => simp [paths]
  | succ n ih =>
    cases states with
    | nil => simp [paths]
    | cons k rest => simp [paths, ih]

/-- A path of a positive length has a first state and a shorter path after it. -/
theorem sum_paths_succ [AddCommMonoid K] (n : Nat) (f : List Q.Code → K) :
    ∑ states ∈ Q.paths (n + 1), f states = ∑ k, ∑ rest ∈ Q.paths n, f (k :: rest) := by
  rw [paths, Finset.sum_biUnion]
  · exact Finset.sum_congr rfl fun k _ => Finset.sum_map _ _ _
  · intro k _ l _ ne
    rw [Function.onFun, Finset.disjoint_left]
    intro states fromK fromL
    obtain ⟨_, _, rfl⟩ := Finset.mem_map.mp fromK
    obtain ⟨_, _, eq⟩ := Finset.mem_map.mp fromL
    exact ne (List.cons.inj eq).1.symm

end Alphabet

namespace Model

variable [Field K]

/-! ### Probabilities -/

/-- The joint probability of a state path and the symbols it emits. -/
def jointProbability (m : Model Q A K) (states : List Q.Code) (symbols : List A.Code) : K :=
  (m.factors (states.zip symbols)).prod

/-- The joint probability of what follows a position in state `k`. -/
def laterProbability (m : Model Q A K) (k : Q.Code) (states : List Q.Code)
    (symbols : List A.Code) : K :=
  (m.laterFactors k (states.zip symbols)).prod

/-- The probability of a sequence: the sum over all state paths. -/
def probability (m : Model Q A K) (symbols : List A.Code) : K :=
  ∑ states ∈ Q.paths symbols.length, m.jointProbability states symbols

/-- The probability of a sequence and of being in state `k` at its end. -/
def probabilityEndingIn (m : Model Q A K) (symbols : List A.Code) (k : Q.Code) : K :=
  ∑ states ∈ Q.paths symbols.length with states.getLast? = some k,
    m.jointProbability states symbols

/-- The probability of a sequence after a position in state `k`. -/
def continuation (m : Model Q A K) (k : Q.Code) (symbols : List A.Code) : K :=
  ∑ states ∈ Q.paths symbols.length, m.laterProbability k states symbols

@[simp] theorem jointProbability_cons (m : Model Q A K) (k : Q.Code) (states : List Q.Code)
    (x : A.Code) (symbols : List A.Code) :
    m.jointProbability (k :: states) (x :: symbols) =
      m.initial.get k * m.emission k x * m.laterProbability k states symbols := by
  simp [jointProbability, laterProbability, factors, mul_assoc]

@[simp] theorem laterProbability_nil (m : Model Q A K) (k : Q.Code) (symbols : List A.Code) :
    m.laterProbability k [] symbols = 1 := by
  simp [laterProbability, laterFactors]

@[simp] theorem laterProbability_cons (m : Model Q A K) (k l : Q.Code) (states : List Q.Code)
    (x : A.Code) (symbols : List A.Code) :
    m.laterProbability k (l :: states) (x :: symbols) =
      m.transition k l * m.emission l x * m.laterProbability l states symbols := by
  simp [laterProbability, laterFactors, mul_assoc]

@[simp] theorem probability_nil (m : Model Q A K) : m.probability [] = 1 := by
  simp [probability, Alphabet.paths, jointProbability, factors]

@[simp] theorem continuation_nil (m : Model Q A K) (k : Q.Code) : m.continuation k [] = 1 := by
  simp [continuation, Alphabet.paths]

theorem continuation_cons (m : Model Q A K) (k : Q.Code) (x : A.Code) (symbols : List A.Code) :
    m.continuation k (x :: symbols) =
      ∑ l, m.transition k l * m.emission l x * m.continuation l symbols := by
  simp only [continuation, List.length_cons, Alphabet.sum_paths_succ, laterProbability_cons,
    Finset.mul_sum]

/-! ### Weighted sums -/

/-- The sum of `f` over the paths that start in each state with a weight and go
on over the symbols, each counted with its probability. -/
def pathSum (m : Model Q A K) (weight : Q.Code → K) (symbols : List A.Code)
    (f : List Q.Code → K) : K :=
  ∑ k, ∑ states ∈ Q.paths symbols.length,
    weight k * m.laterProbability k states symbols * f (k :: states)

/-- The probability of the symbols after a position with these weights. -/
def mass (m : Model Q A K) (weight : Q.Code → K) (symbols : List A.Code) : K :=
  m.pathSum weight symbols fun _ => 1

/-- The weights of starting in each state and emitting a symbol there. -/
def enter (m : Model Q A K) (x : A.Code) (k : Q.Code) : K := m.emission k x * m.initial.get k

/-- The weights after one more symbol. -/
def advance (m : Model Q A K) (weight : Q.Code → K) (x : A.Code) (l : Q.Code) : K :=
  m.emission l x * ∑ k, weight k * m.transition k l

/-- A sum over all paths of a sequence is one over the paths from its first symbol. -/
theorem sum_jointProbability_mul (m : Model Q A K) (x : A.Code) (symbols : List A.Code)
    (f : List Q.Code → K) :
    ∑ states ∈ Q.paths (x :: symbols).length,
        m.jointProbability states (x :: symbols) * f states =
      m.pathSum (m.enter x) symbols f := by
  simp only [List.length_cons, Alphabet.sum_paths_succ, jointProbability_cons, pathSum, enter,
    mul_comm (m.initial.get _)]

/-- The probability of a sequence is the weight of its first position, carried through the
later ones. -/
theorem probability_cons (m : Model Q A K) (x : A.Code) (symbols : List A.Code) :
    m.probability (x :: symbols) = m.mass (m.enter x) symbols := by
  rw [mass, ← sum_jointProbability_mul]
  simp [probability]

/-- Whether a path ends in a state, as a number. -/
def endsIn (l : Q.Code) (states : List Q.Code) : K := if states.getLast? = some l then 1 else 0

theorem endsIn_cons_cons (l k j : Q.Code) (states : List Q.Code) :
    (endsIn l (k :: j :: states) : K) = endsIn l (j :: states) := by
  rw [endsIn, List.getLast?_cons_cons, endsIn]

theorem probabilityEndingIn_cons (m : Model Q A K) (x : A.Code) (symbols : List A.Code)
    (l : Q.Code) :
    m.probabilityEndingIn (x :: symbols) l = m.pathSum (m.enter x) symbols (endsIn l) := by
  rw [← sum_jointProbability_mul, probabilityEndingIn, Finset.sum_filter]
  simp only [endsIn, mul_ite, mul_one, mul_zero]

@[simp] theorem pathSum_nil (m : Model Q A K) (weight : Q.Code → K) (f : List Q.Code → K) :
    m.pathSum weight [] f = ∑ k, weight k * f [k] := by
  simp [pathSum, Alphabet.paths]

/-- What depends on the first state alone is summed over the first state. -/
theorem pathSum_head (m : Model Q A K) (weight : Q.Code → K) (symbols : List A.Code)
    {f : List Q.Code → K} {g : Q.Code → K} (split : ∀ k states, f (k :: states) = g k) :
    m.pathSum weight symbols f = ∑ k, weight k * m.continuation k symbols * g k := by
  simp only [pathSum, continuation, split, Finset.mul_sum, Finset.sum_mul]

/-- The step over one symbol: what depends on the first two states is summed
over them, and the rest is a sum from the weights after the symbol. -/
theorem pathSum_cons (m : Model Q A K) (weight : Q.Code → K) (x : A.Code)
    (symbols : List A.Code) {f h : List Q.Code → K} {g : Q.Code → Q.Code → K}
    (split : ∀ k l states, f (k :: l :: states) = g k l + h (l :: states)) :
    m.pathSum weight (x :: symbols) f =
      (∑ k, ∑ l, weight k * m.transition k l * m.emission l x * m.continuation l symbols * g k l) +
        m.pathSum (m.advance weight x) symbols h := by
  have later : m.pathSum (m.advance weight x) symbols h =
      ∑ k, ∑ l, ∑ states ∈ Q.paths symbols.length,
        weight k * m.transition k l * m.emission l x * m.laterProbability l states symbols *
          h (l :: states) := by
    rw [Finset.sum_comm]
    refine Finset.sum_congr rfl fun l _ => ?_
    rw [Finset.sum_comm]
    refine Finset.sum_congr rfl fun states _ => ?_
    simp only [advance, Finset.mul_sum, Finset.sum_mul]
    exact Finset.sum_congr rfl fun k _ => by ring
  rw [later, pathSum]
  simp only [List.length_cons, Alphabet.sum_paths_succ, laterProbability_cons, split, continuation,
    ← Finset.sum_add_distrib, Finset.mul_sum, Finset.sum_mul]
  refine Finset.sum_congr rfl fun k _ => Finset.sum_congr rfl fun l _ =>
    Finset.sum_congr rfl fun states _ => by ring

/-- What does not depend on the first state is a sum from the weights after the
next symbol. -/
theorem pathSum_tail (m : Model Q A K) (weight : Q.Code → K) (x : A.Code)
    (symbols : List A.Code) {f h : List Q.Code → K}
    (split : ∀ k l states, f (k :: l :: states) = h (l :: states)) :
    m.pathSum weight (x :: symbols) f = m.pathSum (m.advance weight x) symbols h := by
  have step := m.pathSum_cons weight x symbols (f := f) (h := h) (g := fun _ _ => 0)
    fun k l states => by rw [split, zero_add]
  simpa using step

theorem mass_cons (m : Model Q A K) (weight : Q.Code → K) (x : A.Code) (symbols : List A.Code) :
    m.mass weight (x :: symbols) = m.mass (m.advance weight x) symbols :=
  m.pathSum_tail weight x symbols fun _ _ _ => rfl

theorem mass_eq_sum (m : Model Q A K) (weight : Q.Code → K) (symbols : List A.Code) :
    m.mass weight symbols = ∑ k, weight k * m.continuation k symbols := by
  have head := m.pathSum_head weight symbols (f := fun _ => 1) (g := fun _ => 1) fun _ _ => rfl
  simpa [mass] using head

theorem mass_nil (m : Model Q A K) (weight : Q.Code → K) : m.mass weight [] = ∑ k, weight k := by
  simp [mass_eq_sum]

theorem pathSum_smul (m : Model Q A K) (c : K) (weight : Q.Code → K) (symbols : List A.Code)
    (f : List Q.Code → K) :
    m.pathSum (fun k => c * weight k) symbols f = c * m.pathSum weight symbols f := by
  simp only [pathSum, Finset.mul_sum]
  exact Finset.sum_congr rfl fun k _ => Finset.sum_congr rfl fun states _ => by ring

end Model

end Trellis
