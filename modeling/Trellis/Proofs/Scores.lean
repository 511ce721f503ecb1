import Mathlib.Algebra.Order.CompleteField
import Mathlib.Analysis.SpecialFunctions.Log.Basic
import Mathlib.Data.EReal.Operations
import Trellis.Proofs.Exact

/-!
# Laws of scores

What a statement about decoding may ask of the scores (`OrderedScore`,
`MonotoneScore`). None of the laws is about the arithmetic of sums beyond the order,
so rounded sums of logarithms have them as well as exact ones. The laws of the exact
logarithm are apart (`LawfulLogarithm`): it turns products into sums
(`logLikelihood_eq_log_prod`) and keeps the order of probabilities (`log_le_log`).
The extended reals are scores, and the logarithm of an archimedean field takes its
values there.
-/

namespace Trellis

/-- The order of scores is total; the score of what cannot happen is the least
one and stays as it is under addition. -/
class OrderedScore (σ : Type) [Score σ] : Prop where
  le_refl : ∀ a : σ, a ≤ a
  le_trans : ∀ {a b c : σ}, a ≤ b → b ≤ c → a ≤ c
  le_antisymm : ∀ {a b : σ}, a ≤ b → b ≤ a → a = b
  le_total : ∀ a b : σ, a ≤ b ∨ b ≤ a
  lt_iff_not_le : ∀ {a b : σ}, a < b ↔ ¬ b ≤ a
  bottom_le : ∀ a : σ, Score.bottom ≤ a
  bottom_add : ∀ a : σ, Score.bottom + a = Score.bottom
  add_bottom : ∀ a : σ, a + Score.bottom = Score.bottom

/-- Addition is also monotone in its left operand. -/
class MonotoneScore (σ : Type) [Score σ] : Prop extends OrderedScore σ where
  add_le_add_right : ∀ {a b : σ}, a ≤ b → ∀ c, a + c ≤ b + c

/-- The laws of the exact logarithm: it turns products into sums, keeps the
order of probabilities, and sends zero to the score of what cannot happen. -/
class LawfulLogarithm (K σ : Type) [Field K] [LinearOrder K] [Score σ] [Logarithm K σ] :
    Prop where
  log_zero : Logarithm.log (0 : K) = (Score.bottom : σ)
  log_one : Logarithm.log (1 : K) = (0 : σ)
  log_mul : ∀ {x y : K}, 0 ≤ x → 0 ≤ y →
    Logarithm.log (x * y) = (Logarithm.log x + Logarithm.log y : σ)
  log_lt_log : ∀ {x y : K}, 0 ≤ x → x < y → (Logarithm.log x : σ) < Logarithm.log y

namespace OrderedScore

variable {σ : Type} [Score σ] [OrderedScore σ] {a b : σ}

theorem not_lt : ¬ a < b ↔ b ≤ a := by rw [lt_iff_not_le, not_not]

theorem lt_irrefl (a : σ) : ¬ a < a := not_lt.mpr (le_refl a)

theorem le_of_lt (lt : a < b) : a ≤ b := (le_total a b).resolve_right (lt_iff_not_le.mp lt)

theorem lt_of_le_of_lt {c : σ} (le : a ≤ b) (lt : b < c) : a < c := by
  rw [lt_iff_not_le] at lt ⊢
  intro ge
  exact lt (le_trans ge le)

theorem le_bottom_iff : a ≤ Score.bottom ↔ a = Score.bottom := by
  constructor
  · exact fun le => le_antisymm le (bottom_le a)
  · rintro rfl
    exact le_refl _

/-- What is possible after an addition was possible before. -/
theorem bottom_lt_of_bottom_lt_add (possible : Score.bottom < a + b) : Score.bottom < a := by
  rw [lt_iff_not_le, le_bottom_iff] at possible ⊢
  intro impossible
  rw [impossible, bottom_add] at possible
  exact possible rfl

end OrderedScore

section Lawful

variable {K σ : Type} [Field K] [LinearOrder K] [IsStrictOrderedRing K] [Score σ] [Logarithm K σ]
  [LawfulLogarithm K σ]

/-- Adding the logarithms of factors one after another multiplies. -/
theorem foldl_add_log {xs : List K} (nonneg : ∀ x ∈ xs, 0 ≤ x) {y : K} (hy : 0 ≤ y) :
    (xs.map Logarithm.log).foldl (· + ·) (Logarithm.log y : σ) = Logarithm.log (y * xs.prod) := by
  induction xs generalizing y with
  | nil => simp
  | cons x rest ih =>
    have hx := nonneg x List.mem_cons_self
    rw [List.map_cons, List.foldl_cons, ← LawfulLogarithm.log_mul hy hx,
      ih (fun z mem => nonneg z (List.mem_cons_of_mem _ mem)) (mul_nonneg hy hx),
      List.prod_cons, mul_assoc]

/-- The logarithms of the factors add up to the logarithm of the product. -/
theorem logLikelihood_eq_log_prod {xs : List K} (nonneg : ∀ x ∈ xs, 0 ≤ x) :
    (logLikelihood xs : σ) = Logarithm.log xs.prod := by
  have sum := foldl_add_log (σ := σ) nonneg zero_le_one
  rwa [LawfulLogarithm.log_one, one_mul] at sum

/-- So they do if the sum starts at the first of them. -/
theorem totalFromFirst_map_log {xs : List K} (nonneg : ∀ x ∈ xs, 0 ≤ x) :
    (totalFromFirst (xs.map Logarithm.log) : σ) = Logarithm.log xs.prod := by
  cases xs with
  | nil => exact LawfulLogarithm.log_one.symm
  | cons x rest =>
    rw [List.prod_cons]
    exact foldl_add_log (fun y mem => nonneg y (List.mem_cons_of_mem _ mem))
      (nonneg x List.mem_cons_self)

section Ordered

variable [OrderedScore σ] {x y : K}

omit [IsStrictOrderedRing K] in
/-- The logarithm keeps the order of what is not negative. -/
theorem log_le_log (nonneg : 0 ≤ x) (le : x ≤ y) :
    (Logarithm.log x : σ) ≤ Logarithm.log y := by
  rcases le.eq_or_lt with rfl | lt
  · exact OrderedScore.le_refl _
  · exact OrderedScore.le_of_lt (LawfulLogarithm.log_lt_log nonneg lt)

omit [IsStrictOrderedRing K] in
theorem log_inj (hx : 0 ≤ x) (hy : 0 ≤ y) :
    (Logarithm.log x : σ) = Logarithm.log y ↔ x = y := by
  constructor
  · intro same
    have incomparable : ∀ {a b : K}, 0 ≤ a → (Logarithm.log a : σ) = Logarithm.log b → ¬ a < b := by
      intro a b ha eq lt
      have less := LawfulLogarithm.log_lt_log (σ := σ) ha lt
      rw [eq] at less
      exact OrderedScore.lt_irrefl _ less
    exact le_antisymm (not_lt.mp (incomparable hy same.symm)) (not_lt.mp (incomparable hx same))
  · rintro rfl
    rfl

omit [IsStrictOrderedRing K] in
/-- Exactly zero has the score of what cannot happen. -/
theorem bottom_lt_log_iff (nonneg : 0 ≤ x) :
    (Score.bottom : σ) < Logarithm.log x ↔ 0 < x := by
  constructor
  · intro possible
    refine nonneg.lt_of_ne fun zero => ?_
    rw [← zero, LawfulLogarithm.log_zero] at possible
    exact OrderedScore.lt_irrefl _ possible
  · intro positive
    rw [← LawfulLogarithm.log_zero (K := K)]
    exact LawfulLogarithm.log_lt_log le_rfl positive

end Ordered

end Lawful

/-! ### The extended reals -/

noncomputable instance : Score EReal where
  bottom := ⊥
  decidableLE := inferInstance
  decidableLT := inferInstance

instance : MonotoneScore EReal where
  le_refl _ := le_rfl
  le_trans := fun ab bc => ab.trans bc
  le_antisymm := fun ab ba => ab.antisymm ba
  le_total := le_total
  lt_iff_not_le := not_le.symm
  bottom_le _ := bot_le
  bottom_add := EReal.bot_add
  add_bottom := EReal.add_bot
  add_le_add_right le c := by gcongr

section Archimedean

variable (K : Type) [Field K] [LinearOrder K] [IsStrictOrderedRing K] [Archimedean K]

/-- The real number that an element of an archimedean field is. -/
noncomputable def toReal : K →+*o ℝ :=
  ConditionallyCompleteLinearOrderedField.inducedOrderRingHom K ℝ

variable {K}

theorem toReal_strictMono : StrictMono (toReal K) :=
  (OrderHomClass.mono (toReal K)).strictMono_of_injective (toReal K).toRingHom.injective

theorem toReal_pos {x : K} : 0 < toReal K x ↔ 0 < x := by
  rw [← map_zero (toReal K), toReal_strictMono.lt_iff_lt]

theorem toReal_nonneg {x : K} (nonneg : 0 ≤ x) : 0 ≤ toReal K x := by
  rw [← map_zero (toReal K)]
  exact toReal_strictMono.monotone nonneg

noncomputable instance : Logarithm K EReal where
  log x := if 0 < x then ((Real.log (toReal K x) : ℝ) : EReal) else ⊥

theorem log_of_pos {x : K} (pos : 0 < x) :
    (Logarithm.log x : EReal) = ((Real.log (toReal K x) : ℝ) : EReal) := if_pos pos

theorem log_of_nonpos {x : K} (nonpos : ¬ 0 < x) : (Logarithm.log x : EReal) = ⊥ := if_neg nonpos

instance : LawfulLogarithm K EReal where
  log_zero := log_of_nonpos (lt_irrefl 0)
  log_one := by
    rw [log_of_pos one_pos, map_one, Real.log_one, EReal.coe_zero]
  log_mul := by
    intro x y hx hy
    rcases hx.eq_or_lt with rfl | hx
    · rw [zero_mul, log_of_nonpos (lt_irrefl 0), EReal.bot_add]
    rcases hy.eq_or_lt with rfl | hy
    · rw [mul_zero, log_of_nonpos (lt_irrefl 0), EReal.add_bot]
    rw [log_of_pos (mul_pos hx hy), log_of_pos hx, log_of_pos hy, map_mul,
      Real.log_mul (toReal_pos.mpr hx).ne' (toReal_pos.mpr hy).ne', EReal.coe_add]
  log_lt_log := by
    intro x y hx lt
    have hy := hx.trans_lt lt
    rw [log_of_pos hy]
    rcases hx.eq_or_lt with rfl | hx
    · rw [log_of_nonpos (lt_irrefl 0)]
      exact EReal.bot_lt_coe _
    · rw [log_of_pos hx]
      exact EReal.coe_lt_coe (Real.log_lt_log (toReal_pos.mpr hx) (toReal_strictMono lt))

end Archimedean

end Trellis
