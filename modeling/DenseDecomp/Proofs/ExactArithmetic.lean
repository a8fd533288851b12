import Mathlib.Algebra.BigOperators.Fin
import Mathlib.Analysis.Real.Sqrt
import DenseDecomp.Scalar

namespace DenseDecomp

/-- What a division by zero gives. Exact arithmetic leaves it open. -/
class DivisionByZero where
  quotient : ℝ → ℝ

noncomputable instance [DivisionByZero] : Scalar ℝ where
  abs x := |x|
  sqrt := Real.sqrt
  hypot x y := √(x * x + y * y)
  div a b := if b = 0 then DivisionByZero.quotient a else a / b
  beq a b := decide (a = b)
  decidableLT _ _ := Classical.propDecidable _
  decidableLE _ _ := Classical.propDecidable _

namespace Scalar

variable [DivisionByZero]

-- Here `a / b` alone would be read as the division of exact arithmetic on both sides.
theorem div_of_ne_zero (a : ℝ) {b : ℝ} (hb : b ≠ 0) :
    @HDiv.hDiv ℝ ℝ ℝ (@instHDiv ℝ Scalar.toDiv) a b =
      @HDiv.hDiv ℝ ℝ ℝ (@instHDiv ℝ DivInvMonoid.toDiv) a b :=
  if_neg hb

theorem mul_div_of_ne_zero (a : ℝ) {b : ℝ} (hb : b ≠ 0) : b * (a / b) = a := by
  rw [div_of_ne_zero a hb, mul_div_cancel₀ a hb]

instance : @LawfulBEq ℝ Scalar.toBEq where
  rfl := decide_eq_true rfl
  eq_of_beq := of_decide_eq_true

@[simp] theorem abs_real (x : ℝ) : Scalar.abs x = |x| := rfl

@[simp] theorem sqrt_real (x : ℝ) : Scalar.sqrt x = √x := rfl

@[simp] theorem hypot_real (x y : ℝ) : Scalar.hypot x y = √(x * x + y * y) := rfl

@[simp] theorem epsilon_real : (epsilon : ℝ) = (2 ^ 52)⁻¹ := by
  have h : (4503599627370496.0 : ℝ) ≠ 0 := by norm_num
  rw [epsilon, div_of_ne_zero _ h]
  norm_num

theorem epsilon_nonneg : 0 ≤ (epsilon : ℝ) := by
  rw [epsilon_real]
  norm_num

@[simp] theorem maxNum_real (a b : ℝ) : maxNum a b = max a b := by
  rw [maxNum, if_pos (beq_self_eq_true a)]
  by_cases h : a < b
  · rw [if_pos h, max_eq_right h.le]
  · rw [if_neg h, max_eq_left (not_lt.1 h)]

theorem negateIf_mul_self (p : Prop) [Decidable p] (a : ℝ) : negateIf p a * negateIf p a = a * a := by
  by_cases h : p
  · simp only [negateIf, h, if_true, neg_mul_neg]
  · simp only [negateIf, h, if_false]

theorem mul_negateIf_pos_nonpos (x : ℝ) {a : ℝ} (ha : 0 ≤ a) : x * negateIf (0 < x) a ≤ 0 := by
  by_cases h : 0 < x
  · simp only [negateIf, h, if_true]
    exact mul_nonpos_of_nonneg_of_nonpos h.le (neg_nonpos.2 ha)
  · simp only [negateIf, h, if_false]
    exact mul_nonpos_of_nonpos_of_nonneg (not_lt.1 h) ha

theorem sumWhere_real {n : ℕ} (p : Fin n → Prop) [DecidablePred p] (f : Fin n → ℝ) :
    sumWhere p f = ∑ k, if p k then f k else 0 := by
  induction n with
  | zero => rfl
  | succ n ih =>
    have h := ih (fun k ↦ p k.castSucc) (fun k ↦ f k.castSucc)
    rw [sumWhere, Fin.foldl_succ_last, Fin.sum_univ_castSucc, ← h, ← sumWhere]
    by_cases hp : p (Fin.last n)
    · simp only [hp, if_true]
    · simp only [hp, if_false, add_zero]

theorem sumWhereDown_real {n : ℕ} (p : Fin n → Prop) [DecidablePred p] (f : Fin n → ℝ) :
    sumWhereDown p f = ∑ k, if p k then f k else 0 := by
  induction n with
  | zero => rfl
  | succ n ih =>
    have h := ih (fun k ↦ p k.succ) (fun k ↦ f k.succ)
    rw [sumWhereDown, Fin.foldr_succ, Fin.sum_univ_succ, ← h, ← sumWhereDown]
    by_cases hp : p 0
    · simp only [hp, if_true, add_comm]
    · simp only [hp, if_false, zero_add]

end Scalar

end DenseDecomp
