import Mathlib
import DenseDecomp.Proofs.Binary64.RoundingError

namespace DenseDecomp.Binary64

open Float.Model (Format UnpackedFloat totalExponent)
open Float.Model.UnpackedFloat

section Unpacked

theorem rounds_zero (s : Sign) : Rounds 0 (.zero s) := by
  refine .inl ⟨rfl, ?_⟩
  rw [realValue_zero]
  exact nearest_zero

theorem rounds_self {x : Float} (h : x.isFinite = true) : Rounds (toReal x) (unpacked x) := by
  refine .inl ⟨h, ?_⟩
  obtain ⟨s, hx⟩ | ⟨s, m, e, hm, hx⟩ := finite_cases h
  · rw [toReal_of_zero hx, hx, realValue_zero]
    exact nearest_zero
  · obtain ⟨-, hge, hnormal⟩ := canonical_of_unpacked hx
    have hbits : e = -1074 ∨ 2 ^ 52 ≤ |(m : ℤ)| := by
      rw [Nat.abs_cast]
      exact_mod_cast hnormal
    rw [toReal_of_finite hx, hx, realValue_finite]
    exact Nearest.signed s (nearest_self hge hbits)

theorem totalExponent_shiftLeft {m : ℕ} (hm : m ≠ 0) (e : ℤ) (d : ℕ) :
    totalExponent (m <<< d) (e - d) = totalExponent m e := by
  have hlog : (m <<< d).log2 = m.log2 + d := by
    induction d with
    | zero => rfl
    | succ d ih =>
      have hne : m <<< d ≠ 0 := by
        rw [Nat.shiftLeft_eq]
        exact Nat.mul_ne_zero hm (Nat.two_pow_pos d).ne'
      rw [Nat.shiftLeft_succ, Nat.log2_two_mul hne, ih, add_assoc]
  rw [totalExponent, totalExponent, hlog, Nat.cast_add]
  omega

theorem shiftLeft_value (m d : ℕ) (e : ℤ) :
    ((m <<< d : ℕ) : ℝ) * 2 ^ (e - d) = m * 2 ^ e := by
  rw [Nat.shiftLeft_eq, zpow_sub₀ two_ne_zero, zpow_natCast]
  push_cast
  field_simp

theorem rounds_roundWithAccuracy (s : Sign) {m : ℕ} {e : ℤ} {acc : Accuracy} {v : ℝ}
    (hv : Represents (ExtendedMantissa.ofMantissaAndAccuracy m acc) v)
    (he : e ≤ Format.targetExponent .binary64 (totalExponent m e)) :
    Rounds (signed s (v * 2 ^ e)) (stored (roundWithAccuracy .binary64 s m e acc)) := by
  obtain ⟨hform, hnearest⟩ := roundWithAccuracy_spec s hv he
  exact rounds_stored hform hnearest

theorem rounds_round (s : Sign) {m : ℕ} (hm : m ≠ 0) (e : ℤ) :
    Rounds (signed s (m * 2 ^ e)) (stored (UnpackedFloat.round .binary64 s m e)) := by
  obtain ⟨d, hd⟩ : ∃ d, d = (e - Format.targetExponent .binary64 (totalExponent m e)).toNat :=
    ⟨_, rfl⟩
  have htarget : e - d ≤ Format.targetExponent .binary64 (totalExponent (m <<< d) (e - d)) := by
    rw [totalExponent_shiftLeft hm]
    omega
  have hrounds := rounds_roundWithAccuracy s (represents_exact (m <<< d)) htarget
  rw [shiftLeft_value] at hrounds
  simp only [UnpackedFloat.round, decreaseExponent, ← hd]
  exact hrounds

theorem rounds_normalize (m e : ℤ) (z : Sign) :
    Rounds (m * 2 ^ e) (stored (UnpackedFloat.normalize .binary64 m e z)) := by
  rw [UnpackedFloat.normalize]
  obtain hm | rfl | hm := lt_trichotomy m 0
  · obtain ⟨k, rfl⟩ : ∃ k : ℕ, m = -k := ⟨(-m).toNat, by omega⟩
    have hrounds := rounds_round .negative (m := k) (by omega) e
    rw [signed, ← neg_mul] at hrounds
    rw [compare_lt_iff_lt.2 hm, Int.cast_neg, Int.cast_natCast, neg_neg, Int.toNat_natCast]
    exact hrounds
  · rw [compare_eq_iff_eq.2 rfl, Int.cast_zero, zero_mul]
    change Rounds 0 (stored (.zero z))
    rw [stored_zero]
    exact rounds_zero z
  · obtain ⟨k, rfl⟩ := Int.eq_ofNat_of_zero_le hm.le
    have hrounds := rounds_round .positive (m := k) (by omega) e
    rw [compare_gt_iff_gt.2 hm, Int.cast_natCast, Int.toNat_natCast]
    exact hrounds

/-- A product has all bits of the format, or it lies below the last place of the range. -/
theorem Canonical.le_target_mul {m m' : ℕ} {e e' : ℤ} (h : Canonical m e) (h' : Canonical m' e')
    (hm : 0 < m) (hm' : 0 < m') :
    e + e' ≤ Format.targetExponent .binary64 (totalExponent (m * m') (e + e')) := by
  have hne : m * m' ≠ 0 := (Nat.mul_pos hm hm').ne'
  have hlog (hlarge : 2 ^ 52 ≤ m * m') : 52 ≤ (m * m').log2 := (Nat.le_log2 hne).2 hlarge
  rw [targetExponent_binary64, totalExponent]
  obtain rfl | hnormal := h.normal
  · obtain rfl | hnormal' := h'.normal
    · exact le_max_of_le_right (by norm_num)
    · have := hlog (hnormal'.trans (Nat.le_mul_of_pos_left m' hm))
      omega
  · have := hlog (hnormal.trans (Nat.le_mul_of_pos_right m hm'))
    omega

/-- A quotient is formed with enough bits: what is divided has at least 53 more than the divisor. -/
theorem le_target_div {m m' d : ℕ} {e e' t : ℤ} (hm : m ≠ 0) (hm' : m' ≠ 0)
    (ht : t = min (e - e')
      (Format.targetExponent .binary64 (totalExponent m e - totalExponent m' e')))
    (hd : d = (e - e' - t).toNat) :
    t ≤ Format.targetExponent .binary64 (totalExponent (m <<< d / m') t) := by
  rw [targetExponent_binary64, totalExponent, totalExponent] at ht
  rw [targetExponent_binary64, totalExponent]
  obtain hlow | hhigh := le_or_gt t (-1074)
  · exact le_max_of_le_right hlow
  · obtain ⟨j, hj⟩ : ∃ j : ℕ, m.log2 + d = m'.log2 + 1 + j :=
      ⟨m.log2 + d - (m'.log2 + 1), by omega⟩
    have hquotient : 2 ^ j ≤ m <<< d / m' := by
      rw [Nat.le_div_iff_mul_le (Nat.pos_of_ne_zero hm'), Nat.shiftLeft_eq]
      calc
        2 ^ j * m' ≤ 2 ^ j * 2 ^ (m'.log2 + 1) := Nat.mul_le_mul_left _ Nat.lt_log2_self.le
        _ = 2 ^ m.log2 * 2 ^ d := by rw [← Nat.pow_add, ← Nat.pow_add, hj, add_comm]
        _ ≤ m * 2 ^ d := Nat.mul_le_mul_right _ (Nat.log2_self_le hm)
    have hlog : j ≤ (m <<< d / m').log2 :=
      (Nat.le_log2 ((Nat.two_pow_pos j).trans_le hquotient).ne').2 hquotient
    omega

theorem rounds_divCore (s : Sign) {m m' : ℕ} (hm : m ≠ 0) (hm' : m' ≠ 0) (e e' : ℤ) :
    Rounds (signed s (m * 2 ^ e / (m' * 2 ^ e')))
      (stored (roundWithAccuracy .binary64 s (divCore .binary64 m e m' e').1
        (divCore .binary64 m e m' e').2.1 (divCore .binary64 m e m' e').2.2)) := by
  obtain ⟨t, ht⟩ : ∃ t, t = min (e - e')
      (Format.targetExponent .binary64 (totalExponent m e - totalExponent m' e')) := ⟨_, rfl⟩
  obtain ⟨d, hd⟩ : ∃ d, d = (e - e' - t).toNat := ⟨_, rfl⟩
  have hcore : divCore .binary64 m e m' e' =
      (m <<< d / m', t, accuracyOfFraction (m <<< d % m') m') := by
    rw [divCore, ← ht, ← hd]
  have hvalue : (((m <<< d / m' : ℕ) : ℝ) + (m <<< d % m' : ℕ) / m') * 2 ^ t =
      m * 2 ^ e / (m' * 2 ^ e') := by
    have hpos : (m' : ℝ) ≠ 0 := Nat.cast_ne_zero.2 hm'
    have hsplit : (m' : ℝ) * (m <<< d / m' : ℕ) + (m <<< d % m' : ℕ) = (m <<< d : ℕ) := by
      exact_mod_cast Nat.div_add_mod (m <<< d) m'
    have hexp : e - d = t + e' := by omega
    rw [← shiftLeft_value m d e, ← hsplit, hexp, zpow_add₀ two_ne_zero]
    field_simp
  have hfraction := represents_fraction (m <<< d / m')
    (Nat.mod_lt (m <<< d) (Nat.pos_of_ne_zero hm'))
  rw [hcore, ← hvalue]
  exact rounds_roundWithAccuracy s hfraction (le_target_div hm hm' ht hd)

/-- A root is formed with enough bits: the mantissa is shifted to twice as many. -/
theorem le_target_sqrt {m k : ℕ} {e t : ℤ} (hm : m ≠ 0)
    (ht : t = min (e.ediv 2) (Format.targetExponent .binary64 ((totalExponent m e + 1).ediv 2)))
    (hk : k = (e - 2 * t).toNat) :
    t ≤ Format.targetExponent .binary64 (totalExponent (m <<< k).sqrt t) := by
  have hdiv (i : ℤ) : i.ediv 2 = i / 2 := rfl
  rw [hdiv, hdiv, targetExponent_binary64, totalExponent] at ht
  rw [targetExponent_binary64, totalExponent]
  obtain hlow | hhigh := le_or_gt t (-1074)
  · exact le_max_of_le_right hlow
  · have hbits : 104 ≤ m.log2 + k := by omega
    have hroot : 2 ^ 52 ≤ (m <<< k).sqrt := by
      rw [Nat.le_sqrt, ← Nat.pow_add, Nat.shiftLeft_eq]
      calc
        2 ^ (52 + 52) ≤ 2 ^ (m.log2 + k) := Nat.pow_le_pow_right two_pos hbits
        _ = 2 ^ m.log2 * 2 ^ k := Nat.pow_add ..
        _ ≤ m * 2 ^ k := Nat.mul_le_mul_right _ (Nat.log2_self_le hm)
    have hlog : 52 ≤ (m <<< k).sqrt.log2 :=
      (Nat.le_log2 ((Nat.two_pow_pos 52).trans_le hroot).ne').2 hroot
    omega

theorem rounds_sqrtCore {m : ℕ} (hm : m ≠ 0) (e : ℤ) :
    Rounds √(m * 2 ^ e) (stored (roundWithAccuracy .binary64 .positive
      (sqrtCore .binary64 m e).1 (sqrtCore .binary64 m e).2.1 (sqrtCore .binary64 m e).2.2)) := by
  obtain ⟨t, ht⟩ : ∃ t, t = min (e.ediv 2)
      (Format.targetExponent .binary64 ((totalExponent m e + 1).ediv 2)) := ⟨_, rfl⟩
  obtain ⟨k, hk⟩ : ∃ k, k = (e - 2 * t).toNat := ⟨_, rfl⟩
  have hdiv : e.ediv 2 = e / 2 := rfl
  have hpos : (0 : ℝ) < 2 ^ t := zpow_pos two_pos t
  have hvalue : √((m <<< k : ℕ) : ℝ) * 2 ^ t = √(m * 2 ^ e) := by
    have hexp : e - k = t + t := by omega
    rw [← shiftLeft_value m k e, hexp, zpow_add₀ two_ne_zero, Real.sqrt_mul (Nat.cast_nonneg _),
      Real.sqrt_mul_self hpos.le]
  have htarget := le_target_sqrt hm ht hk
  have h := rounds_roundWithAccuracy .positive (represents_sqrt (m <<< k)) htarget
  rw [signed, hvalue] at h
  simp only [sqrtCore, ← ht, ← hk]
  exact h

end Unpacked

section Arithmetic

variable {x y : Float}

theorem rounds_add (hx : x.isFinite = true) (hy : y.isFinite = true) :
    Rounds (toReal x + toReal y) (unpacked (x + y)) := by
  have hadd : unpacked (x + y) =
      stored (UnpackedFloat.add .binary64 (unpacked x) (unpacked y)) := rfl
  have hself := stored_unpacked x
  have hself' := stored_unpacked y
  have hrounds := rounds_self hx
  have hrounds' := rounds_self hy
  obtain ⟨s, hx⟩ | ⟨s, m, e, hm, hx⟩ := finite_cases hx
  · obtain ⟨t, hy⟩ | ⟨t, m', e', hm', hy⟩ := finite_cases hy
    · rw [hadd, hx, hy, toReal_of_zero hx, toReal_of_zero hy, add_zero, UnpackedFloat.add]
      split
      · rw [stored_zero]
        exact rounds_zero _
      · rw [stored_zero]
        exact rounds_zero _
    · have hsum : unpacked (x + y) = unpacked y := by
        rw [hadd, hx, hy]
        rw [hy] at hself'
        exact hself'
      rw [hsum, toReal_of_zero hx, zero_add]
      exact hrounds'
  · obtain ⟨t, hy⟩ | ⟨t, m', e', hm', hy⟩ := finite_cases hy
    · have hsum : unpacked (x + y) = unpacked x := by
        rw [hadd, hx, hy]
        rw [hx] at hself
        exact hself
      rw [hsum, toReal_of_zero hy, add_zero]
      exact hrounds
    · -- The larger exponent is brought down to the smaller one, so that the mantissas add up.
      obtain ⟨d, hd⟩ : ∃ d, d = (e - min e e').toNat := ⟨_, rfl⟩
      obtain ⟨d', hd'⟩ : ∃ d', d' = (e' - min e e').toNat := ⟨_, rfl⟩
      have hmin : min e e' = e - d := by omega
      have hmin' : min e e' = e' - d' := by omega
      have hvalue : toReal x + toReal y =
          ((s.apply (m <<< d : ℕ) + t.apply (m' <<< d' : ℕ) : ℤ) : ℝ) * 2 ^ min e e' := by
        rw [Int.cast_add, apply_cast, apply_cast, add_mul, ← signed_mul_right, ← signed_mul_right,
          toReal_of_finite hx, toReal_of_finite hy, ← shiftLeft_value m d, ← shiftLeft_value m' d',
          ← hmin, ← hmin']
      rw [hadd, hx, hy, hvalue, hd, hd']
      exact rounds_normalize _ _ _

theorem isFinite_neg (x : Float) : (-x).isFinite = x.isFinite := by
  change (unpacked (-x)).isFinite = (unpacked x).isFinite
  rw [unpacked_neg]
  cases unpacked x with
  | notANumber => rfl
  | infinity s => rfl
  | zero s => rfl
  | finite s m e hm => rfl

theorem unpacked_sub (x y : Float) : unpacked (x - y) = unpacked (x + -y) := by
  have hadd : unpacked (x + -y) =
      stored (UnpackedFloat.add .binary64 (unpacked x) (unpacked y).neg) := by
    rw [← unpacked_neg]
    rfl
  have hneg (s : Sign) : - -s = s := by
    cases s with
    | negative => rfl
    | positive => rfl
  have happly (s : Sign) (k : ℕ) : (-s).apply k = -s.apply k := by
    cases s with
    | negative => exact (neg_neg _).symm
    | positive => rfl
  rw [hadd]
  change stored (UnpackedFloat.sub .binary64 (unpacked x) (unpacked y)) = _
  rcases unpacked x with s | _ | s | ⟨s, m, e, hm⟩ <;>
    rcases unpacked y with t | _ | t | ⟨t, m', e', hm'⟩ <;>
    simp only [UnpackedFloat.sub, UnpackedFloat.add, UnpackedFloat.neg, decreaseExponent, happly,
      sub_eq_add_neg]

theorem rounds_sub (hx : x.isFinite = true) (hy : y.isFinite = true) :
    Rounds (toReal x - toReal y) (unpacked (x - y)) := by
  rw [unpacked_sub, sub_eq_add_neg, ← toReal_neg]
  exact rounds_add hx ((isFinite_neg y).trans hy)

theorem rounds_mul (hx : x.isFinite = true) (hy : y.isFinite = true) :
    Rounds (toReal x * toReal y) (unpacked (x * y)) := by
  have hmul : unpacked (x * y) =
      stored (UnpackedFloat.mul .binary64 (unpacked x) (unpacked y)) := rfl
  obtain ⟨s, hx⟩ | ⟨s, m, e, hm, hx⟩ := finite_cases hx
  · rw [toReal_of_zero hx, zero_mul, hmul, hx]
    obtain ⟨t, hy⟩ | ⟨t, m', e', hm', hy⟩ := finite_cases hy
    · rw [hy, UnpackedFloat.mul, stored_zero]
      exact rounds_zero _
    · rw [hy, UnpackedFloat.mul, stored_zero]
      exact rounds_zero _
  · obtain ⟨t, hy⟩ | ⟨t, m', e', hm', hy⟩ := finite_cases hy
    · rw [toReal_of_zero hy, mul_zero, hmul, hx, hy, UnpackedFloat.mul, stored_zero]
      exact rounds_zero _
    · have hvalue : toReal x * toReal y = signed (s * t) ((m * m' : ℕ) * 2 ^ (e + e')) := by
        rw [toReal_of_finite hx, toReal_of_finite hy, ← signed_mul, Nat.cast_mul,
          zpow_add₀ two_ne_zero, mul_mul_mul_comm]
      rw [hmul, hx, hy, hvalue]
      refine rounds_roundWithAccuracy _ (represents_exact _) ?_
      exact (canonical_of_unpacked hx).le_target_mul (canonical_of_unpacked hy) hm hm'

theorem rounds_div (hx : x.isFinite = true) (hy : y.isFinite = true) (hne : toReal y ≠ 0) :
    Rounds (toReal x / toReal y) (unpacked (x / y)) := by
  have hdiv : unpacked (x / y) =
      stored (UnpackedFloat.div .binary64 (unpacked x) (unpacked y)) := rfl
  obtain ⟨t, hy⟩ | ⟨t, m', e', hm', hy⟩ := finite_cases hy
  · exact absurd (toReal_of_zero hy) hne
  · obtain ⟨s, hx⟩ | ⟨s, m, e, hm, hx⟩ := finite_cases hx
    · rw [toReal_of_zero hx, zero_div, hdiv, hx, hy, UnpackedFloat.div, stored_zero]
      exact rounds_zero _
    · rw [hdiv, hx, hy, toReal_of_finite hx, toReal_of_finite hy, ← signed_div]
      exact rounds_divCore _ hm.ne' hm'.ne' e e'

theorem rounds_sqrt (hx : x.isFinite = true) (hpos : 0 < x) :
    Rounds √(toReal x) (unpacked x.sqrt) := by
  obtain h | ⟨m, e, hm, h⟩ := zero_lt_iff.1 hpos
  · exact absurd h ((of_isFinite hx).2 _)
  · rw [unpacked_sqrt, h, toReal_of_finite h]
    exact rounds_sqrtCore hm.ne' e

theorem isFinite_of_div (h : (x / y).isFinite = true) : x.isFinite = true := by
  have h : (stored (UnpackedFloat.div .binary64 (unpacked x) (unpacked y))).isFinite = true := h
  change (unpacked x).isFinite = true
  cases hx : unpacked x with
  | notANumber =>
    rw [hx, UnpackedFloat.div, stored_notANumber] at h
    cases h
  | infinity s =>
    rw [hx] at h
    cases hy : unpacked y with
    | notANumber | infinity t =>
      rw [hy] at h
      change (stored .notANumber).isFinite = true at h
      rw [stored_notANumber] at h
      cases h
    | zero t | finite t m e hm =>
      rw [hy, UnpackedFloat.div, stored_infinity] at h
      cases h
  | zero s => rfl
  | finite s m e hm => rfl

theorem isFinite_div_infinity {s : Sign} (hx : x.isFinite = true) (hy : unpacked y = .infinity s) :
    (x / y).isFinite = true := by
  change (stored (UnpackedFloat.div .binary64 (unpacked x) (unpacked y))).isFinite = true
  rw [hy]
  obtain ⟨t, hx⟩ | ⟨t, m, e, hm, hx⟩ := finite_cases hx
  · rw [hx, UnpackedFloat.div, stored_zero]
    rfl
  · rw [hx, UnpackedFloat.div, stored_zero]
    rfl

end Arithmetic

end DenseDecomp.Binary64
