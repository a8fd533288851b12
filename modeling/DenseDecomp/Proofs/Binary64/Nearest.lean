import Mathlib

namespace DenseDecomp.Binary64

noncomputable def roundoff : ℝ := ((2 ^ (-53 : ℤ) : ℚ) : ℝ)

noncomputable def halfLeast : ℝ := ((2 ^ (-1075 : ℤ) : ℚ) : ℝ)

noncomputable def maxFinite : ℝ := (((2 ^ 53 - 1 : ℕ) * 2 ^ (971 : ℤ) : ℚ) : ℝ)

/-- A multiple `w` of the last place of `x` that is nearest to `x`. The last place is that of a
mantissa of 53 bits, but no smaller than the smallest positive value. -/
inductive Nearest (x w : ℝ) : Prop
  | intro (j n : ℤ) (range : -1074 ≤ j) (place : j = -1074 ∨ (2 : ℝ) ^ (j + 52) ≤ |x|)
      (multiple : w = n * 2 ^ j) (error : |w - x| ≤ 2 ^ j / 2)

inductive Multiple (x : ℝ) : Prop
  | intro (k : ℤ) (eq : x = k * 2 ^ (-1074 : ℤ))

theorem roundoff_eq : roundoff = 2 ^ (-53 : ℤ) := Rat.cast_zpow 2 _

theorem halfLeast_eq : halfLeast = 2 ^ (-1075 : ℤ) := Rat.cast_zpow 2 _

theorem maxFinite_eq : maxFinite = (2 ^ 53 - 1 : ℕ) * 2 ^ (971 : ℤ) := by
  rw [maxFinite, Rat.cast_mul, Rat.cast_natCast, Rat.cast_zpow, Rat.cast_ofNat]

variable {x w : ℝ}

theorem Multiple.add (hx : Multiple x) (hw : Multiple w) : Multiple (x + w) := by
  obtain ⟨k, rfl⟩ := hx
  obtain ⟨l, rfl⟩ := hw
  exact ⟨k + l, by rw [Int.cast_add, add_mul]⟩

theorem Multiple.neg (hx : Multiple x) : Multiple (-x) := by
  obtain ⟨k, rfl⟩ := hx
  exact ⟨-k, by rw [Int.cast_neg, neg_mul]⟩

theorem roundoff_pos : 0 < roundoff := by
  rw [roundoff_eq]
  positivity

theorem halfLeast_pos : 0 < halfLeast := by
  rw [halfLeast_eq]
  positivity

theorem maxFinite_pos : 0 < maxFinite := by
  rw [maxFinite_eq]
  positivity

theorem roundoff_le : roundoff ≤ 1 / 1000 := by
  rw [roundoff_eq]
  norm_num

theorem halfLeast_le : halfLeast ≤ roundoff := by
  rw [halfLeast_eq, roundoff_eq]
  exact zpow_le_zpow_right₀ one_le_two (by norm_num)

theorem one_le_roundoff_mul_maxFinite : 1 ≤ roundoff * maxFinite := by
  rw [roundoff_eq, maxFinite_eq, mul_left_comm, ← zpow_add₀ two_ne_zero]
  have hpow : (1 : ℝ) ≤ 2 ^ (-53 + 971 : ℤ) := one_le_zpow₀ one_le_two (by norm_num)
  have hcast : (1 : ℝ) ≤ (2 ^ 53 - 1 : ℕ) := by norm_num
  exact one_le_mul_of_one_le_of_one_le hcast hpow

theorem one_le_maxFinite : 1 ≤ maxFinite := by
  refine one_le_roundoff_mul_maxFinite.trans ?_
  exact mul_le_of_le_one_left maxFinite_pos.le (roundoff_le.trans (by norm_num))

theorem half_zpow (j : ℤ) : (2 : ℝ) ^ j / 2 = 2 ^ (j - 1) := by
  rw [zpow_sub_one₀ two_ne_zero, div_eq_mul_inv]

theorem Nearest.neg (h : Nearest x w) : Nearest (-x) (-w) := by
  obtain ⟨j, n, hj, hplace, hw, herror⟩ := h
  refine ⟨j, -n, hj, ?_, ?_, ?_⟩
  · rwa [abs_neg]
  · rw [hw, Int.cast_neg, neg_mul]
  · rwa [neg_sub_neg, abs_sub_comm]

theorem nearest_self {j n : ℤ} (hj : -1074 ≤ j) (hn : j = -1074 ∨ 2 ^ 52 ≤ |n|) :
    Nearest (n * 2 ^ j) (n * 2 ^ j) := by
  refine ⟨j, n, hj, ?_, rfl, ?_⟩
  · refine hn.imp_right fun hn ↦ ?_
    have hpos : (0 : ℝ) < 2 ^ j := zpow_pos two_pos j
    have hcast : (2 : ℝ) ^ (52 : ℤ) ≤ |(n : ℝ)| := by exact_mod_cast hn
    rw [abs_mul, abs_of_pos hpos, add_comm, zpow_add₀ two_ne_zero]
    exact mul_le_mul_of_nonneg_right hcast hpos.le
  · rw [sub_self, abs_zero]
    positivity

theorem nearest_zero : Nearest 0 0 := by
  have h := nearest_self (j := -1074) (n := 0) le_rfl (Or.inl rfl)
  rwa [Int.cast_zero, zero_mul] at h

theorem half_place_le {j : ℤ} (h : (2 : ℝ) ^ (j + 52) ≤ |x|) : (2 : ℝ) ^ j / 2 ≤ roundoff * |x| :=
  calc
    (2 : ℝ) ^ j / 2 = 2 ^ (-53 : ℤ) * 2 ^ (j + 52) := by
      rw [half_zpow, ← zpow_add₀ two_ne_zero]
      congr 1
      ring
    _ ≤ roundoff * |x| := by
      rw [← roundoff_eq]
      exact mul_le_mul_of_nonneg_left h roundoff_pos.le

theorem Nearest.error_le (h : Nearest x w) : |w - x| ≤ roundoff * |x| + halfLeast := by
  obtain ⟨j, n, -, rfl | hplace, -, herror⟩ := h
  · have hhalf : (2 : ℝ) ^ (-1074 : ℤ) / 2 = halfLeast := (half_zpow _).trans halfLeast_eq.symm
    rw [hhalf] at herror
    exact herror.trans (le_add_of_nonneg_left (mul_nonneg roundoff_pos.le (abs_nonneg x)))
  · exact herror.trans ((half_place_le hplace).trans (le_add_of_nonneg_right halfLeast_pos.le))

/-- A multiple of the smallest value loses nothing there: only the relative error is left. -/
theorem Nearest.error_le_of_multiple (h : Nearest x w) (hx : Multiple x) :
    |w - x| ≤ roundoff * |x| := by
  obtain ⟨k, hx⟩ := hx
  obtain ⟨j, n, -, rfl | hplace, hw, herror⟩ := h
  · have hpos : (0 : ℝ) < 2 ^ (-1074 : ℤ) := zpow_pos two_pos _
    have hdiff : w - x = ((n - k : ℤ) : ℝ) * 2 ^ (-1074 : ℤ) := by
      rw [hw, hx]
      push_cast
      ring
    rw [hdiff, abs_mul, abs_of_pos hpos, div_eq_mul_inv, mul_comm ((2 : ℝ) ^ (-1074 : ℤ))] at herror
    have hlt : |((n - k : ℤ) : ℝ)| < 1 :=
      (le_of_mul_le_mul_right herror hpos).trans_lt (by norm_num)
    have hzero : n - k = 0 := Int.abs_lt_one_iff.1 (by exact_mod_cast hlt)
    rw [hdiff, hzero, Int.cast_zero, zero_mul, abs_zero]
    exact mul_nonneg roundoff_pos.le (abs_nonneg x)
  · exact herror.trans (half_place_le hplace)

/-- Rounding to nearest does not pass a value that fits into the mantissa. -/
theorem Nearest.abs_le_of_le {b : ℕ} {i : ℤ} (h : Nearest x w) (hb : b < 2 ^ 53) (hi : -1074 ≤ i)
    (hx : |x| ≤ b * 2 ^ i) : |w| ≤ b * 2 ^ i := by
  obtain ⟨j, n, -, hplace, hw, herror⟩ := h
  have hj : (0 : ℝ) < 2 ^ j := zpow_pos two_pos _
  obtain hij | hij := le_or_gt j i
  · -- The bound is a whole number of last places.
    obtain ⟨k, rfl⟩ : ∃ k : ℕ, i = j + k := ⟨(i - j).toNat, by omega⟩
    have hbound : (b : ℝ) * 2 ^ (j + k : ℤ) = ((b * 2 ^ k : ℕ) : ℝ) * 2 ^ j := by
      rw [zpow_add₀ two_ne_zero, zpow_natCast]
      push_cast
      ring
    have hle : |w| ≤ |x| + 2 ^ j / 2 := by
      have htriangle := abs_add_le (w - x) x
      rw [sub_add_cancel] at htriangle
      linarith
    rw [hbound] at hx ⊢
    rw [hw, abs_mul, abs_of_pos hj] at hle ⊢
    have hlt : |(n : ℝ)| * 2 ^ j < ((b * 2 ^ k : ℕ) + 1 : ℝ) * 2 ^ j := by linarith
    have hn : |(n : ℝ)| < (b * 2 ^ k : ℕ) + 1 := lt_of_mul_lt_mul_right hlt hj.le
    have hn' : |n| < (b * 2 ^ k : ℕ) + 1 := by exact_mod_cast hn
    refine mul_le_mul_of_nonneg_right ?_ hj.le
    exact_mod_cast Int.lt_add_one_iff.1 hn'
  · -- The value is too small for a last place above that of the bound.
    exfalso
    have hlarge : (2 : ℝ) ^ (j + 52) ≤ |x| := hplace.resolve_left (by omega)
    have hsmall : (b : ℝ) * 2 ^ i < 2 ^ (j + 52) :=
      calc
        (b : ℝ) * 2 ^ i < 2 ^ (53 : ℤ) * 2 ^ i := by
          refine mul_lt_mul_of_pos_right ?_ (zpow_pos two_pos _)
          exact_mod_cast hb
        _ = 2 ^ (i + 53) := by rw [← zpow_add₀ two_ne_zero, add_comm]
        _ ≤ 2 ^ (j + 52) := zpow_le_zpow_right₀ one_le_two (by omega)
    exact absurd (hlarge.trans hx) (not_le.2 hsmall)

theorem Nearest.nonneg (h : Nearest x w) (hx : 0 ≤ x) : 0 ≤ w := by
  obtain ⟨j, n, -, -, rfl, herror⟩ := h
  have hj : (0 : ℝ) < 2 ^ j := zpow_pos two_pos _
  have hlow : -(2 ^ j / 2) ≤ n * 2 ^ j - x := (abs_le.1 herror).1
  have hlt : (-1 : ℝ) * 2 ^ j < n * 2 ^ j := by linarith
  have hn : (-1 : ℤ) < n := by exact_mod_cast lt_of_mul_lt_mul_right hlt hj.le
  exact mul_nonneg (by exact_mod_cast Int.add_one_le_iff.2 hn) hj.le

theorem Nearest.nonpos (h : Nearest x w) (hx : x ≤ 0) : w ≤ 0 :=
  neg_nonneg.1 (h.neg.nonneg (neg_nonneg.2 hx))

theorem Nearest.sign_nonneg (h : Nearest x w) : 0 ≤ x * w := by
  obtain hx | hx := le_total 0 x
  · exact mul_nonneg hx (h.nonneg hx)
  · exact mul_nonneg_of_nonpos_of_nonpos hx (h.nonpos hx)

theorem Nearest.le_abs (h : Nearest x w) : 999 / 1000 * |x| - halfLeast ≤ |w| := by
  have htriangle := abs_sub_abs_le_abs_sub x w
  rw [abs_sub_comm] at htriangle
  have herror := h.error_le
  have hu := mul_le_mul_of_nonneg_right roundoff_le (abs_nonneg x)
  linarith

theorem Nearest.le_abs_of_multiple (h : Nearest x w) (hx : Multiple x) :
    999 / 1000 * |x| ≤ |w| := by
  have htriangle := abs_sub_abs_le_abs_sub x w
  rw [abs_sub_comm] at htriangle
  have herror := h.error_le_of_multiple hx
  have hu := mul_le_mul_of_nonneg_right roundoff_le (abs_nonneg x)
  linarith

theorem Nearest.abs_le_one (h : Nearest x w) (hx : |x| ≤ 1) : |w| ≤ 1 := by
  have hone : (1 : ℝ) = (1 : ℕ) * 2 ^ (0 : ℤ) := by rw [Nat.cast_one, zpow_zero, mul_one]
  rw [hone] at hx ⊢
  exact h.abs_le_of_le (by norm_num) (by norm_num) hx

end DenseDecomp.Binary64
