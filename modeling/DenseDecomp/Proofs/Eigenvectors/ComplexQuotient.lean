import Mathlib
import DenseDecomp.Proofs.ExactArithmetic
import DenseDecomp.Scalar.ComplexQuotient

namespace DenseDecomp

noncomputable def complexOfParts : ℝ × ℝ →ₗ[ℝ] ℂ := Complex.equivRealProdLm.symm.toLinearMap

@[simp] theorem complexOfParts_re (z : ℝ × ℝ) : (complexOfParts z).re = z.1 := rfl

@[simp] theorem complexOfParts_im (z : ℝ × ℝ) : (complexOfParts z).im = z.2 := rfl

theorem mul_complexOfParts (x y : ℝ) (z : ℝ × ℝ) :
    (⟨x, y⟩ : ℂ) * complexOfParts z = ⟨x * z.1 - y * z.2, x * z.2 + y * z.1⟩ := rfl

theorem ofReal_mul_complexOfParts (x : ℝ) (z : ℝ × ℝ) :
    (x : ℂ) * complexOfParts z = ⟨x * z.1, x * z.2⟩ := by
  refine (mul_complexOfParts x 0 z).trans ?_
  rw [zero_mul, zero_mul, sub_zero, add_zero]

theorem Scalar.mul_complexQuotient [DivisionByZero] (a b : ℝ) {c d : ℝ} (h : c ≠ 0 ∨ d ≠ 0) :
    (⟨c, d⟩ : ℂ) * complexOfParts (complexQuotient a b c d) = ⟨a, b⟩ := by
  -- With `r` the ratio of both parts, the scaled divisor `m` is the larger part times `1 + r ^ 2`.
  rw [mul_complexOfParts, complexQuotient]
  simp only [abs_real]
  split
  case isTrue hlarger =>
    have hc : c ≠ 0 := abs_pos.1 ((abs_nonneg d).trans_lt hlarger)
    obtain ⟨r, hr⟩ : ∃ r, r = d / c := ⟨_, rfl⟩
    obtain rfl : c * r = d := by rw [hr, mul_div_of_ne_zero _ hc]
    rw [← hr]
    obtain ⟨m, hm⟩ : ∃ m, m = c + r * (c * r) := ⟨_, rfl⟩
    have hne : m ≠ 0 := by
      have hfactor : m = c * (1 + r ^ 2) := by linear_combination hm
      rw [hfactor]
      exact mul_ne_zero hc (by positivity)
    rw [← hm]
    have hre := mul_div_of_ne_zero (a + r * b) hne
    have him := mul_div_of_ne_zero (b - r * a) hne
    refine Complex.ext (mul_left_cancel₀ hne ?_) (mul_left_cancel₀ hne ?_)
    · linear_combination c * hre - c * r * him - a * hm
    · linear_combination c * him + c * r * hre - b * hm
  case isFalse hsmaller =>
    have hd : d ≠ 0 := by
      rintro rfl
      exact hsmaller (abs_zero.trans_lt (abs_pos.2 (h.resolve_right (· rfl))))
    obtain ⟨r, hr⟩ : ∃ r, r = c / d := ⟨_, rfl⟩
    obtain rfl : d * r = c := by rw [hr, mul_div_of_ne_zero _ hd]
    rw [← hr]
    obtain ⟨m, hm⟩ : ∃ m, m = d + r * (d * r) := ⟨_, rfl⟩
    have hne : m ≠ 0 := by
      have hfactor : m = d * (1 + r ^ 2) := by linear_combination hm
      rw [hfactor]
      exact mul_ne_zero hd (by positivity)
    rw [← hm]
    have hre := mul_div_of_ne_zero (r * a + b) hne
    have him := mul_div_of_ne_zero (r * b - a) hne
    refine Complex.ext (mul_left_cancel₀ hne ?_) (mul_left_cancel₀ hne ?_)
    · linear_combination d * r * hre - d * him - a * hm
    · linear_combination d * r * him + d * hre - b * hm

end DenseDecomp
