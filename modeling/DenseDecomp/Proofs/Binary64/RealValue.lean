import Mathlib
import DenseDecomp.Proofs.Binary64.Nearest
import DenseDecomp.Proofs.Binary64.Overflow

namespace DenseDecomp.Binary64

open Float.Model (Format UnpackedFloat totalExponent)
open Float.Model.UnpackedFloat

section Canonical

variable {m : ℕ} {e : ℤ}

/-- A mantissa and an exponent as they are stored, but for exponents that are too large. -/
structure Canonical (m : ℕ) (e : ℤ) : Prop where
  lt : m < 2 ^ 53
  ge : -1074 ≤ e
  normal : e = -1074 ∨ 2 ^ 52 ≤ m

theorem canonical_of_unpack {b : BitVec (Format.numBits .binary64)} {s : Sign} {hm : 0 < m}
    (h : unpack .binary64 b = .finite s m e hm) : Canonical m e :=
  ⟨(unpack_le h).1, unpack_exponent_ge h, unpack_mantissa_ge h⟩

/-- The leading bit of a normal mantissa is not stored, and put back when it is read. -/
theorem toNat_append_mantissa (h : 2 ^ 52 ≤ m) (hlt : m < 2 ^ 53) :
    (1#1 ++ BitVec.ofNat 52 m).toNat = m := by
  obtain ⟨r, rfl⟩ := Nat.exists_eq_add_of_le h
  have hr : r < 2 ^ 52 := by omega
  have hlow : (BitVec.ofNat 52 (2 ^ 52 + r)).toNat = r := by
    rw [BitVec.toNat_ofNat, Nat.add_mod_left, Nat.mod_eq_of_lt hr]
  have hor := Nat.two_pow_add_eq_or_of_lt hr 1
  rw [mul_one] at hor
  rw [BitVec.toNat_append, hlow]
  exact hor.symm

theorem stored_normal (s : Sign) (hm : 0 < m) (h : 2 ^ 52 ≤ m) (hlt : m < 2 ^ 53) (hge : -1074 ≤ e)
    (hle : e ≤ 971) : stored (.finite s m e hm) = .finite s m e hm := by
  have hbias : Format.exponentBias .binary64 = 1023 := by decide
  have hbits : Format.mantissaBits .binary64 = 53 := rfl
  have hlog : m.log2 + 1 = 53 := by
    have hlt' := (Nat.log2_lt hm.ne').2 hlt
    have hge' := (Nat.le_log2 hm.ne').2 h
    omega
  obtain ⟨k, rfl⟩ : ∃ k : ℕ, e = k - 1075 := ⟨(e + 1075).toNat, by omega⟩
  have hk : ((k : ℤ) - 1075 + (1023 : ℕ) + (52 : ℕ)).toNat = k := by omega
  have hfits : ¬ 2 ^ 11 ≤ k + 1 := by omega
  have hfield : (BitVec.ofNat 11 k).toNat = k := Nat.mod_eq_of_lt (by omega)
  have htop : BitVec.ofNat 11 k ≠ -1#11 := by
    intro heq
    rw [heq] at hfield
    have htop : (-1#11).toNat = 2047 := rfl
    omega
  have hbottom : BitVec.ofNat 11 k ≠ 0#11 := by
    intro heq
    rw [heq] at hfield
    have hbottom : (0#11).toNat = 0 := rfl
    omega
  rw [stored]
  simp only [pack, hbias, hbits, hlog, hk, hfits, if_true, if_false, unpack,
    unpackMantissa_packComponents, unpackExponent_packComponents, unpackSign_packComponents,
    Sign.ofBitVec_toBitVec, htop, hbottom, hfield, toNat_append_mantissa h hlt]
  congr 1

theorem stored_subnormal (s : Sign) (hm : 0 < m) (hlt : m < 2 ^ 52) :
    stored (.finite s m (-1074) hm) = .finite s m (-1074) hm := by
  have hbias : Format.exponentBias .binary64 = 1023 := by decide
  have hbits : Format.mantissaBits .binary64 = 53 := rfl
  have hlog : ¬ m.log2 + 1 = 53 := by
    have hlt' := (Nat.log2_lt hm.ne').2 hlt
    omega
  have hfits : ¬ 2 ^ 11 ≤ ((-1074 : ℤ) + (1023 : ℕ) + (52 : ℕ)).toNat + 1 := by decide
  have hmantissa : (BitVec.ofNat 52 m).toNat = m := Nat.mod_eq_of_lt hlt
  have hne : BitVec.ofNat 52 m ≠ 0#52 := by
    intro heq
    rw [heq] at hmantissa
    exact hm.ne hmantissa
  have htop : (0#11) ≠ -1#11 := by decide
  rw [stored]
  simp only [pack, hbias, hbits, hlog, hfits, if_false, unpack, unpackMantissa_packComponents,
    unpackExponent_packComponents, unpackSign_packComponents, Sign.ofBitVec_toBitVec, htop, if_true,
    hne, dif_neg, not_false_eq_true, hmantissa]
  rfl

/-- What is canonical is stored as it is, as long as its exponent is in range. -/
theorem Canonical.stored_eq (h : Canonical m e) (he : e ≤ 971) (s : Sign) (hm : 0 < m) :
    stored (.finite s m e hm) = .finite s m e hm := by
  obtain hnormal | hsmall := le_or_gt (2 ^ 52) m
  · exact stored_normal s hm hnormal h.lt h.ge he
  · obtain rfl := h.normal.resolve_right (not_le.2 hsmall)
    exact stored_subnormal s hm hsmall

theorem Canonical.value_le (h : Canonical m e) (he : e ≤ 971) : (m : ℝ) * 2 ^ e ≤ maxFinite := by
  have hm : (m : ℝ) ≤ (2 ^ 53 - 1 : ℕ) := by exact_mod_cast Nat.le_sub_one_of_lt h.lt
  have hpow : (2 : ℝ) ^ e ≤ 2 ^ (971 : ℤ) := zpow_le_zpow_right₀ one_le_two he
  rw [maxFinite_eq]
  exact mul_le_mul hm hpow (zpow_pos two_pos e).le (Nat.cast_nonneg _)

theorem Canonical.maxFinite_lt (h : Canonical m e) (he : 971 < e) :
    maxFinite < (m : ℝ) * 2 ^ e := by
  have hm : (2 ^ 52 : ℝ) ≤ m := by exact_mod_cast h.normal.resolve_left (by omega)
  calc
    maxFinite < 2 ^ 53 * 2 ^ (971 : ℤ) := by
      rw [maxFinite_eq]
      refine mul_lt_mul_of_pos_right ?_ (zpow_pos two_pos _)
      norm_num
    _ = 2 ^ 52 * 2 ^ (972 : ℤ) := by
      have hsucc : (2 : ℝ) ^ (972 : ℤ) = 2 ^ (971 : ℤ) * 2 := zpow_add_one₀ two_ne_zero 971
      rw [hsucc]
      ring
    _ ≤ m * 2 ^ e := by
      have hpow : (2 : ℝ) ^ (972 : ℤ) ≤ 2 ^ e := zpow_le_zpow_right₀ one_le_two (by omega)
      exact mul_le_mul hm hpow (zpow_pos two_pos _).le (Nat.cast_nonneg _)

theorem Canonical.value_mono {m' : ℕ} {e' : ℤ} (h : Canonical m e) (h' : Canonical m' e')
    (hle : e < e' ∨ e = e' ∧ m ≤ m') : (m : ℝ) * 2 ^ e ≤ m' * 2 ^ e' := by
  obtain hlt | ⟨rfl, hle⟩ := hle
  · have hge := h.ge
    have hm' : (2 ^ 52 : ℝ) ≤ m' := by exact_mod_cast h'.normal.resolve_left (by omega)
    have hm : (m : ℝ) ≤ 2 ^ 53 := by exact_mod_cast h.lt.le
    calc
      (m : ℝ) * 2 ^ e ≤ 2 ^ 53 * 2 ^ e := mul_le_mul_of_nonneg_right hm (zpow_pos two_pos e).le
      _ = 2 ^ 52 * 2 ^ (e + 1) := by
        rw [zpow_add_one₀ two_ne_zero]
        ring
      _ ≤ m' * 2 ^ e' := by
        have hpow : (2 : ℝ) ^ (e + 1) ≤ 2 ^ e' := zpow_le_zpow_right₀ one_le_two (by omega)
        exact mul_le_mul hm' hpow (zpow_pos two_pos _).le (Nat.cast_nonneg _)
  · refine mul_le_mul_of_nonneg_right ?_ (zpow_pos two_pos e).le
    exact_mod_cast hle

end Canonical

def signed : Sign → ℝ → ℝ
  | .negative, x => -x
  | .positive, x => x

section Signed

variable (s t : Sign) (x y : ℝ)

@[simp] theorem abs_signed : |signed s x| = |x| := by
  cases s with
  | negative => exact abs_neg x
  | positive => rfl

theorem signed_zero : signed s 0 = 0 := by
  cases s with
  | negative => exact neg_zero
  | positive => rfl

theorem signed_mul : signed (s * t) (x * y) = signed s x * signed t y := by
  cases s with
  | negative =>
    cases t with
    | negative => exact (neg_mul_neg x y).symm
    | positive => exact (neg_mul x y).symm
  | positive =>
    cases t with
    | negative => exact (mul_neg x y).symm
    | positive => rfl

theorem signed_div : signed (s / t) (x / y) = signed s x / signed t y := by
  cases s with
  | negative =>
    cases t with
    | negative => exact (neg_div_neg_eq x y).symm
    | positive => exact (neg_div y x).symm
  | positive =>
    cases t with
    | negative => exact (div_neg x).symm
    | positive => rfl

theorem signed_neg : signed (-s) x = -signed s x := by
  cases s with
  | negative => exact (neg_neg x).symm
  | positive => rfl

theorem apply_cast (m : ℕ) : ((s.apply m : ℤ) : ℝ) = signed s m := by
  cases s with
  | negative => exact (Int.cast_neg _).trans (congrArg _ (Int.cast_natCast m))
  | positive => exact Int.cast_natCast m

theorem signed_mul_right : signed s (x * y) = signed s x * y := by
  cases s with
  | negative => exact (neg_mul x y).symm
  | positive => rfl

variable {x y}

theorem Nearest.signed (h : Nearest x y) : Nearest (signed s x) (signed s y) := by
  cases s with
  | negative => exact h.neg
  | positive => exact h

end Signed

def rationalValue : UnpackedFloat → ℚ
  | .finite s m e _ => s.apply m * 2 ^ e
  | .zero _ | .infinity _ | .notANumber => 0

noncomputable def realValue (u : UnpackedFloat) : ℝ := rationalValue u

theorem realValue_finite (s : Sign) {m : ℕ} (e : ℤ) (hm : 0 < m) :
    realValue (.finite s m e hm) = signed s (m * 2 ^ e) := by
  rw [realValue, rationalValue, Rat.cast_mul, Rat.cast_intCast, Rat.cast_zpow, Rat.cast_ofNat,
    apply_cast, signed_mul_right]

theorem realValue_zero (s : Sign) : realValue (.zero s) = 0 := Rat.cast_zero

noncomputable def toReal (x : Float) : ℝ := realValue (unpacked x)

section Value

variable {x y : Float}

theorem canonical_of_unpacked {s : Sign} {m : ℕ} {e : ℤ} {hm : 0 < m}
    (h : unpacked x = .finite s m e hm) : Canonical m e :=
  canonical_of_unpack h

theorem toReal_of_finite {s : Sign} {m : ℕ} {e : ℤ} {hm : 0 < m}
    (h : unpacked x = .finite s m e hm) : toReal x = signed s (m * 2 ^ e) := by
  rw [toReal, h, realValue_finite]

theorem toReal_of_zero {s : Sign} (h : unpacked x = .zero s) : toReal x = 0 := by
  rw [toReal, h, realValue_zero]

theorem toReal_cases (x : Float) : toReal x = 0 ∨ ∃ s m e hm, unpacked x = .finite s m e hm := by
  cases hx : unpacked x with
  | notANumber | infinity s | zero s =>
    left
    rw [toReal, hx]
    exact Rat.cast_zero
  | finite s m e hm => exact .inr ⟨s, m, e, hm, rfl⟩

theorem finite_cases (h : x.isFinite = true) : (∃ s, unpacked x = .zero s) ∨
    ∃ s m e hm, unpacked x = .finite s m e hm := by
  obtain ⟨hnan, hinf⟩ := of_isFinite h
  rw [← Bool.not_eq_true, isNaN_iff] at hnan
  cases hx : unpacked x with
  | notANumber => exact absurd hx hnan
  | infinity s => exact absurd hx (hinf s)
  | zero s => exact .inl ⟨s, rfl⟩
  | finite s m e hm => exact .inr ⟨s, m, e, hm, rfl⟩

theorem toReal_neg (x : Float) : toReal (-x) = -toReal x := by
  rw [toReal, toReal, unpacked_neg]
  cases unpacked x with
  | notANumber | infinity s | zero s =>
    change ((0 : ℚ) : ℝ) = -((0 : ℚ) : ℝ)
    rw [Rat.cast_zero, neg_zero]
  | finite s m e hm =>
    rw [UnpackedFloat.neg, realValue_finite, realValue_finite, signed_neg]

theorem multiple_toReal (x : Float) : Multiple (toReal x) := by
  obtain hx | ⟨s, m, e, hm, hx⟩ := toReal_cases x
  · exact ⟨0, by rw [hx, Int.cast_zero, zero_mul]⟩
  · have hge := (canonical_of_unpacked hx).ge
    obtain ⟨d, rfl⟩ : ∃ d : ℕ, e = d + -1074 := ⟨(e + 1074).toNat, by omega⟩
    refine ⟨s.apply (m * 2 ^ d : ℕ), ?_⟩
    rw [toReal_of_finite hx, apply_cast, ← signed_mul_right, zpow_add₀ two_ne_zero, zpow_natCast]
    push_cast
    rw [mul_assoc]

theorem exists_abs_toReal_eq (x : Float) :
    ∃ (b : ℕ) (i : ℤ), b < 2 ^ 53 ∧ -1074 ≤ i ∧ |toReal x| = b * 2 ^ i := by
  obtain hx | ⟨s, m, e, hm, hx⟩ := toReal_cases x
  · refine ⟨0, -1074, by norm_num, le_rfl, ?_⟩
    rw [hx, abs_zero, Nat.cast_zero, zero_mul]
  · have h := canonical_of_unpacked hx
    refine ⟨m, e, h.lt, h.ge, ?_⟩
    rw [toReal_of_finite hx, abs_signed, abs_of_nonneg]
    positivity

theorem unpacked_one : unpacked 1 = .finite .positive (2 ^ 52) (-52) (by decide) := rfl

theorem toReal_one : toReal 1 = 1 := by
  rw [toReal_of_finite unpacked_one, signed]
  norm_num

theorem abs_toReal_le (x : Float) : |toReal x| ≤ maxFinite := by
  obtain hx | ⟨s, m, e, hm, hx⟩ := toReal_cases x
  · rw [hx, abs_zero]
    exact maxFinite_pos.le
  · rw [toReal_of_finite hx, abs_signed, abs_of_nonneg (by positivity)]
    exact (canonical_of_unpacked hx).value_le (unpack_le hx).2

theorem le_abs_toReal (h : toReal x ≠ 0) : 2 * halfLeast ≤ |toReal x| := by
  obtain ⟨k, hk⟩ := multiple_toReal x
  have hne : k ≠ 0 := by
    rintro rfl
    rw [Int.cast_zero, zero_mul] at hk
    exact h hk
  have hone : (1 : ℝ) ≤ |(k : ℝ)| := by exact_mod_cast Int.one_le_abs hne
  have hleast : 2 * halfLeast = 2 ^ (-1074 : ℤ) := by
    rw [halfLeast_eq, ← zpow_one_add₀ two_ne_zero]
    rfl
  rw [hk, abs_mul, abs_of_pos (zpow_pos two_pos _ : (0 : ℝ) < 2 ^ (-1074 : ℤ)), hleast]
  exact le_mul_of_one_le_left (zpow_pos two_pos _).le hone

theorem abs_toReal_le_of_abs_le (hx : x.isFinite = true) (hy : y.isFinite = true)
    (h : x.abs ≤ y.abs) : |toReal x| ≤ |toReal y| := by
  obtain ⟨-, -, hrank⟩ := le_iff.1 h
  rw [unpacked_abs, unpacked_abs] at hrank
  obtain ⟨s, hx⟩ | ⟨s, m, e, hm, hx⟩ := finite_cases hx
  · rw [toReal_of_zero hx, abs_zero]
    exact abs_nonneg _
  · obtain ⟨t, hy⟩ | ⟨t, m', e', hm', hy⟩ := finite_cases hy
    · rw [hx, hy] at hrank
      simp [UnpackedFloat.abs, rank, Prod.Lex.toLex_le_toLex] at hrank
    · rw [hx, hy] at hrank
      simp only [UnpackedFloat.abs, rank, Prod.Lex.toLex_le_toLex, lt_irrefl, true_and, false_or,
        Nat.cast_le] at hrank
      rw [toReal_of_finite hx, toReal_of_finite hy, abs_signed, abs_signed,
        abs_of_nonneg (by positivity), abs_of_nonneg (by positivity)]
      exact (canonical_of_unpacked hx).value_mono (canonical_of_unpacked hy) hrank

end Value

end DenseDecomp.Binary64
