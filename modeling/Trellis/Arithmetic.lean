/-!
# Arithmetic

The numbers a model is made of and the scores a decoder compares, each as bare
operations with a decidable order. No law is part of these classes: a rounding
arithmetic is an instance as well as an exact one, and a statement that needs a
law asks for it.

In a rounding arithmetic the order of a sum can be seen in its result. The sum
of a list runs from left to right: it is `total`, which starts at zero, or
`totalFromFirst`, which starts at the first member, and the two differ only
where zeros have a sign. The total of a stored row is an operation of the
arithmetic, `rowTotal`, of which nothing is known here: long rows may be summed
in an order of their own (`laneTotal`).
-/

namespace Trellis

/-- Numbers: the four operations, the naturals, a decidable order, and the total
of a stored row, which need not be the sum in any particular order. -/
class Arithmetic (α : Type) extends Zero α, One α, Add α, Sub α, Mul α, Div α, NatCast α,
    LE α, LT α where
  decidableLE : DecidableLE α
  decidableLT : DecidableLT α
  rowTotal : List α → α

export Arithmetic (rowTotal)

attribute [reducible, instance(100)] Arithmetic.decidableLE Arithmetic.decidableLT

/- Where numbers have operations of their own, those come first. -/
attribute [instance(100)] Arithmetic.toZero Arithmetic.toOne Arithmetic.toAdd Arithmetic.toSub
  Arithmetic.toMul Arithmetic.toDiv Arithmetic.toNatCast Arithmetic.toLE Arithmetic.toLT

/-- Scores of paths: they are added along a path and compared; `bottom` is the
score of what cannot happen. -/
class Score (σ : Type) extends Zero σ, Add σ, LE σ, LT σ where
  bottom : σ
  decidableLE : DecidableLE σ
  decidableLT : DecidableLT σ

attribute [reducible, instance(100)] Score.decidableLE Score.decidableLT

attribute [instance(100)] Score.toZero Score.toAdd Score.toLE Score.toLT

/-- The score of a probability. -/
class Logarithm (α : Type) (σ : outParam Type) where
  log : α → σ

/-- The sum from left to right, starting at zero. -/
def total {α : Type} [Zero α] [Add α] (xs : List α) : α :=
  xs.foldl (· + ·) 0

@[simp] theorem total_nil {α : Type} [Zero α] [Add α] : total ([] : List α) = 0 := rfl

/-- The sum from left to right, starting at the first member; zero if there is
none. A sum of negative zeros stays negative. -/
def totalFromFirst {α : Type} [Zero α] [Add α] : List α → α
  | [] => 0
  | x :: rest => rest.foldl (· + ·) x

/-- The two sums agree if nothing is lost by adding to zero. -/
theorem totalFromFirst_eq_total {α : Type} [Zero α] [Add α] (zero_add : ∀ x : α, 0 + x = x)
    (xs : List α) : totalFromFirst xs = total xs := by
  cases xs with
  | nil => rfl
  | cons x rest => rw [totalFromFirst, total, List.foldl_cons, zero_add]

/-- The natural logarithm of a product, given its factors. -/
def logLikelihood {α σ : Type} [Score σ] [Logarithm α σ] (factors : List α) : σ :=
  total (factors.map Logarithm.log)

section Arithmetic

variable {α : Type} [Arithmetic α]

/-- Slack when a group of probabilities is asked to total one: one billionth. -/
def tolerance : α := 1 / ((1000000000 : Nat) : α)

/-- Within the tolerance of one. -/
def NearOne (x : α) : Prop := x - 1 ≤ tolerance ∧ 1 - x ≤ tolerance

instance (x : α) : Decidable (NearOne x) := inferInstanceAs (Decidable (_ ∧ _))

/-- Equal to zero in the order, whatever its sign. -/
def IsZero (x : α) : Prop := x ≤ 0 ∧ 0 ≤ x

instance (x : α) : Decidable (IsZero x) := inferInstanceAs (Decidable (_ ∧ _))

/-- The total of a group that is neither vacant nor a distribution. -/
def IsFaulty (sum : α) : Prop := ¬ IsZero sum ∧ ¬ NearOne sum

instance (sum : α) : Decidable (IsFaulty sum) := inferInstanceAs (Decidable (_ ∧ _))

/-- The difference of a number and itself is zero, which an infinity and a
value that is no number fail. -/
def IsFinite (x : α) : Prop := IsZero (x - x)

instance (x : α) : Decidable (IsFinite x) := inferInstanceAs (Decidable (IsZero _))

/-- A positive finite number: what a row may be divided by. -/
def IsDivisor (x : α) : Prop := 0 < x ∧ IsFinite x

instance (x : α) : Decidable (IsDivisor x) := inferInstanceAs (Decidable (_ ∧ _))

/-- One of `n` equal parts of one. -/
def share (n : Nat) : α := 1 / (n : α)

end Arithmetic

end Trellis
