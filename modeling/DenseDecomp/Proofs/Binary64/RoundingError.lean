import Mathlib
import DenseDecomp.Proofs.Binary64.RealValue

namespace DenseDecomp.Binary64

open Float.Model (Format UnpackedFloat totalExponent)
open Float.Model.UnpackedFloat

section Residual

/-- The value that a mantissa stands for: the round bit counts for a half, and the sticky bit tells
whether anything less than a half is left. -/
inductive Represents (em : ExtendedMantissa) (v : ℝ) : Prop
  | intro (t : ℝ) (nonneg : 0 ≤ t) (lt : t < 1 / 2) (sticky : t = 0 ↔ em.stickyBit = false)
      (eq : v = em.mantissa + em.roundBit.toNat / 2 + t)

variable {em : ExtendedMantissa} {v : ℝ}

theorem represents_exact (m : ℕ) :
    Represents (ExtendedMantissa.ofMantissaAndAccuracy m .exact) m := by
  refine ⟨0, le_rfl, by norm_num, iff_of_true rfl rfl, ?_⟩
  simp [ExtendedMantissa.ofMantissaAndAccuracy]

/-- The accuracy of a fraction places it relative to a half. -/
theorem represents_fraction (m : ℕ) {num den : ℕ} (h : num < den) :
    Represents (ExtendedMantissa.ofMantissaAndAccuracy m (accuracyOfFraction num den))
      (m + num / den) := by
  have hden : (0 : ℝ) < den := by exact_mod_cast (Nat.zero_le num).trans_lt h
  have hlt : (num : ℝ) < den := by exact_mod_cast h
  rw [accuracyOfFraction]
  split
  case isTrue hzero =>
    rw [hzero, Nat.cast_zero, zero_div, add_zero]
    exact represents_exact m
  case isFalse hne =>
    have hnum : (0 : ℝ) < num := by exact_mod_cast Nat.pos_of_ne_zero hne
    have hpos : (0 : ℝ) < num / den := div_pos hnum hden
    have hone : (num : ℝ) / den < 1 := (div_lt_one hden).2 hlt
    obtain hcompare | hcompare | hcompare := lt_trichotomy (2 * num) den
    · have hhalf : (num : ℝ) / den < 1 / 2 := by
        rw [div_lt_div_iff₀ hden two_pos, one_mul, mul_comm]
        exact_mod_cast hcompare
      rw [compare_lt_iff_lt.2 hcompare]
      refine ⟨num / den, hpos.le, hhalf, iff_of_false hpos.ne' nofun, ?_⟩
      simp [ExtendedMantissa.ofMantissaAndAccuracy]
    · have hhalf : (num : ℝ) / den = 1 / 2 := by
        rw [div_eq_div_iff hden.ne' two_ne_zero, one_mul, mul_comm]
        exact_mod_cast hcompare
      rw [compare_eq_iff_eq.2 hcompare, hhalf]
      refine ⟨0, le_rfl, by norm_num, iff_of_true rfl rfl, ?_⟩
      simp [ExtendedMantissa.ofMantissaAndAccuracy]
    · have hhalf : 1 / 2 < (num : ℝ) / den := by
        rw [div_lt_div_iff₀ two_pos hden, one_mul, mul_comm]
        exact_mod_cast hcompare
      rw [compare_gt_iff_gt.2 hcompare]
      refine ⟨num / den - 1 / 2, by linarith, by linarith,
        iff_of_false (by linarith) nofun, ?_⟩
      simp [ExtendedMantissa.ofMantissaAndAccuracy]

/-- The remainder of an integer root places what is left relative to a half. -/
theorem represents_sqrt (m : ℕ) :
    Represents (ExtendedMantissa.ofMantissaAndAccuracy m.sqrt
      (if m - m.sqrt * m.sqrt = 0 then .exact
        else .inexact (if m - m.sqrt * m.sqrt ≤ m.sqrt then .lt else .gt))) √m := by
  obtain ⟨r, hr⟩ : ∃ r, r = m.sqrt := ⟨_, rfl⟩
  have hle : r * r ≤ m := hr ▸ Nat.sqrt_le m
  have hlt : m < (r + 1) * (r + 1) := hr ▸ Nat.lt_succ_sqrt m
  rw [← hr]
  split
  case isTrue hzero =>
    obtain rfl : m = r * r := by omega
    rw [Nat.cast_mul, Real.sqrt_mul_self (Nat.cast_nonneg r)]
    exact represents_exact r
  case isFalse hne =>
    have hlow : (r : ℝ) < √m := by
      refine Real.lt_sqrt_of_sq_lt ?_
      rw [pow_two]
      exact_mod_cast (by omega : r * r < m)
    split
    case isTrue hsmall =>
      have hhigh : √m < r + 1 / 2 := by
        rw [Real.sqrt_lt' (by positivity)]
        have hbound : (m : ℝ) ≤ r * r + r := by exact_mod_cast (by omega : m ≤ r * r + r)
        linarith
      refine ⟨√m - r, by linarith, by linarith, iff_of_false (by linarith) nofun, ?_⟩
      simp [ExtendedMantissa.ofMantissaAndAccuracy]
    case isFalse hlarge =>
      have hhalf : r + 1 / 2 < √m := by
        refine Real.lt_sqrt_of_sq_lt ?_
        have hbound : (r : ℝ) * r + r + 1 ≤ m := by
          exact_mod_cast (by omega : r * r + r + 1 ≤ m)
        linarith
      have hhigh : √m < r + 1 := by
        rw [Real.sqrt_lt' (by positivity), pow_two]
        exact_mod_cast hlt
      refine ⟨√m - r - 1 / 2, by linarith, by linarith, iff_of_false (by linarith) nofun, ?_⟩
      simp [ExtendedMantissa.ofMantissaAndAccuracy]

theorem Represents.mantissa_le (h : Represents em v) : (em.mantissa : ℝ) ≤ v := by
  obtain ⟨t, ht, -, -, rfl⟩ := h
  have hround : (0 : ℝ) ≤ em.roundBit.toNat / 2 := by positivity
  linarith

theorem Represents.shiftRightOne (h : Represents em v) : Represents em.shiftRightOne (v / 2) := by
  obtain ⟨t, ht, hhalf, hsticky, rfl⟩ := h
  obtain ⟨m, r, s⟩ := em
  have hr : (r.toNat : ℝ) ≤ 1 := by exact_mod_cast Bool.toNat_le r
  have hsplit : (m : ℝ) = 2 * (m / 2 : ℕ) + (m % 2 : ℕ) := by
    exact_mod_cast (Nat.div_add_mod m 2).symm
  have hbit : (m % 2 != 0).toNat = m % 2 := by
    obtain h | h := Nat.mod_two_eq_zero_or_one m
    · rw [h]
      rfl
    · rw [h]
      rfl
  refine ⟨r.toNat / 4 + t / 2, by positivity, by linarith, ?_, ?_⟩
  · change _ ↔ (r || s) = false
    rw [Bool.or_eq_false_iff, ← hsticky]
    cases r with
    | false => simp
    | true =>
      refine iff_of_false ?_ (fun h ↦ nomatch h.1)
      rw [Bool.toNat_true, Nat.cast_one]
      positivity
  · change (m + r.toNat / 2 + t) / 2 =
      ((m / 2 : ℕ) : ℝ) + ((m % 2 != 0).toNat : ℝ) / 2 + (r.toNat / 4 + t / 2)
    rw [hbit, hsplit]
    ring

theorem Represents.shiftRight (h : Represents em v) (k : ℕ) :
    Represents (em >>> k) (v / 2 ^ k) := by
  induction k with
  | zero =>
    rw [pow_zero, div_one]
    exact h
  | succ k ih =>
    rw [pow_succ, ← div_div]
    exact ih.shiftRightOne

/-- Rounding goes to a nearest integer. -/
theorem Represents.abs_roundedMantissa_sub_le (h : Represents em v) :
    |(em.roundedMantissa : ℝ) - v| ≤ 1 / 2 := by
  obtain ⟨t, ht, hhalf, hsticky, rfl⟩ := h
  obtain ⟨m, r, s⟩ := em
  rw [abs_le]
  cases r with
  | false =>
    have hround : ExtendedMantissa.roundedMantissa ⟨m, false, s⟩ = m := by
      cases s with
      | false => rfl
      | true => rfl
    rw [hround, Bool.toNat_false, Nat.cast_zero, zero_div]
    constructor
    · linarith
    · linarith
  | true =>
    rw [Bool.toNat_true, Nat.cast_one]
    cases s with
    | false =>
      -- A tie goes to the even side, which may be above or below.
      obtain rfl := hsticky.2 rfl
      have hround : ExtendedMantissa.roundedMantissa ⟨m, true, false⟩ = m + m % 2 := rfl
      rw [hround, Nat.cast_add]
      have hbit : ((m % 2 : ℕ) : ℝ) ≤ 1 := by
        exact_mod_cast Nat.le_of_lt_succ (Nat.mod_lt m two_pos)
      have hbit' : (0 : ℝ) ≤ (m % 2 : ℕ) := Nat.cast_nonneg _
      constructor
      · linarith
      · linarith
    | true =>
      have hround : ExtendedMantissa.roundedMantissa ⟨m, true, true⟩ = m + 1 := rfl
      rw [hround, Nat.cast_add, Nat.cast_one]
      constructor
      · linarith
      · linarith

end Residual

section Rounding

def InForm : UnpackedFloat → Prop
  | .finite _ m e _ => Canonical m e
  | .zero _ => True
  | .infinity _ | .notANumber => False

/-- What is stored for the value `x`: a nearest value, or an infinity if `x` is out of range. -/
def Rounds (x : ℝ) (u : UnpackedFloat) : Prop :=
  u.isFinite = true ∧ Nearest x (realValue u) ∨ (∃ s, u = .infinity s) ∧ maxFinite < |x|

variable {x : ℝ} {u : UnpackedFloat}

theorem Rounds.nearest {y : Float} (h : Rounds x (unpacked y)) (hy : y.isFinite = true) :
    Nearest x (toReal y) := by
  obtain ⟨-, hnearest⟩ | ⟨⟨s, hs⟩, -⟩ := h
  · exact hnearest
  · exact absurd hs ((of_isFinite hy).2 s)

theorem Rounds.of_le {y : Float} (h : Rounds x (unpacked y)) (hx : |x| ≤ maxFinite) :
    y.isFinite = true ∧ Nearest x (toReal y) := by
  obtain h | ⟨-, hlt⟩ := h
  · exact h
  · exact absurd hx (not_le.2 hlt)

theorem rounds_stored (hu : InForm u) (h : Nearest x (realValue u)) : Rounds x (stored u) := by
  cases u with
  | notANumber => exact hu.elim
  | infinity s => exact hu.elim
  | zero s =>
    rw [stored_zero]
    exact .inl ⟨rfl, h⟩
  | finite s m e hm =>
    have hcanonical : Canonical m e := hu
    obtain hle | hlt := le_or_gt e 971
    · rw [hcanonical.stored_eq hle]
      exact .inl ⟨rfl, h⟩
    · rw [stored, unpack_pack_of_lt s hm hlt]
      refine .inr ⟨⟨s, rfl⟩, not_le.1 fun hx ↦ ?_⟩
      rw [maxFinite_eq] at hx
      have hbound := h.abs_le_of_le (by norm_num) (by norm_num) hx
      have hlarge := hcanonical.maxFinite_lt hlt
      rw [realValue_finite, abs_signed, abs_of_nonneg (by positivity), ← maxFinite_eq] at hbound
      exact absurd hbound (not_le.2 hlarge)

/-- Rounding up may need one bit more than the format has; shifting it out again loses nothing. -/
theorem shift_rounded {r k : ℕ} {e : ℤ} (hr : r ≤ 2 ^ 53) (he : -1074 ≤ e)
    (hnormal : e = -1074 ∨ 2 ^ 52 ≤ r)
    (hk : k = (Format.targetExponent .binary64 (totalExponent r e) - e).toNat) :
    Canonical (r / 2 ^ k) (e + k) ∧ ((r / 2 ^ k : ℕ) : ℝ) * 2 ^ (e + k) = r * 2 ^ e := by
  rw [targetExponent_binary64, totalExponent] at hk
  obtain hlt | rfl := lt_or_eq_of_le hr
  · have hlog : r.log2 ≤ 52 := by
      obtain rfl | hne := eq_or_ne r 0
      · rw [Nat.log2_zero]
        exact Nat.zero_le 52
      · exact Nat.le_of_lt_succ ((Nat.log2_lt hne).2 hlt)
    obtain rfl : k = 0 := by omega
    rw [pow_zero, Nat.div_one, Nat.cast_zero, add_zero]
    exact ⟨⟨hlt, he, hnormal⟩, rfl⟩
  · have hlog : (2 ^ 53).log2 = 53 := Nat.log2_two_pow
    obtain rfl : k = 1 := by omega
    refine ⟨⟨by norm_num, by omega, .inr (by norm_num)⟩, ?_⟩
    rw [Nat.cast_one, zpow_add_one₀ two_ne_zero]
    norm_num
    ring

/-- The first shift keeps all bits of the format, or it ends at the last place of the range. -/
theorem shift_cases {m k : ℕ} {e : ℤ}
    (hk : e + k = Format.targetExponent .binary64 (totalExponent m e)) :
    e + k = -1074 ∨ 2 ^ 52 ≤ m / 2 ^ k ∧ (2 : ℝ) ^ (e + k + 52) ≤ m * 2 ^ e := by
  rw [targetExponent_binary64, totalExponent] at hk
  refine or_iff_not_imp_left.2 fun hlast ↦ ?_
  have hne : m ≠ 0 := by
    rintro rfl
    rw [Nat.log2_zero] at hk
    omega
  have hbits : 2 ^ (52 + k) ≤ m := (Nat.le_log2 hne).1 (by omega)
  constructor
  · rw [Nat.le_div_iff_mul_le (Nat.two_pow_pos k), ← Nat.pow_add]
    exact hbits
  · have hcast : (2 : ℝ) ^ (52 + k) ≤ m := by exact_mod_cast hbits
    calc
      (2 : ℝ) ^ (e + k + 52) = 2 ^ (52 + k) * 2 ^ e := by
        rw [← zpow_natCast, ← zpow_add₀ two_ne_zero]
        congr 1
        push_cast
        ring
      _ ≤ m * 2 ^ e := mul_le_mul_of_nonneg_right hcast (zpow_pos two_pos e).le

theorem nearest_rounded {m k : ℕ} {e : ℤ} {acc : Accuracy} {v : ℝ}
    (hv : Represents (ExtendedMantissa.ofMantissaAndAccuracy m acc) v)
    (hk : e + k = Format.targetExponent .binary64 (totalExponent m e)) :
    Nearest (v * 2 ^ e)
      ((ExtendedMantissa.ofMantissaAndAccuracy m acc >>> k).roundedMantissa * 2 ^ (e + k)) := by
  have hpos : (0 : ℝ) < 2 ^ (e + k) := zpow_pos two_pos _
  have hle := hv.mantissa_le
  rw [mantissa_ofMantissaAndAccuracy] at hle
  have hshift : v * 2 ^ e = v / 2 ^ k * 2 ^ (e + k) := by
    rw [zpow_add₀ two_ne_zero, zpow_natCast]
    field_simp
  have herror := (hv.shiftRight k).abs_roundedMantissa_sub_le
  refine ⟨e + k, _, ?_, ?_, congrArg (· * _) (Int.cast_natCast _).symm, ?_⟩
  · rw [hk, targetExponent_binary64]
    exact le_max_right _ _
  · refine (shift_cases hk).imp_right fun h ↦ h.2.trans (le_trans ?_ (le_abs_self _))
    exact mul_le_mul_of_nonneg_right hle (zpow_pos two_pos e).le
  · rw [hshift, ← sub_mul, abs_mul, abs_of_pos hpos]
    calc
      _ ≤ 1 / 2 * (2 : ℝ) ^ (e + k) := mul_le_mul_of_nonneg_right herror hpos.le
      _ = 2 ^ (e + k) / 2 := by ring

theorem roundWithAccuracy_spec (s : Sign) {m : ℕ} {e : ℤ} {acc : Accuracy} {v : ℝ}
    (hv : Represents (ExtendedMantissa.ofMantissaAndAccuracy m acc) v)
    (he : e ≤ Format.targetExponent .binary64 (totalExponent m e)) :
    InForm (roundWithAccuracy .binary64 s m e acc) ∧
      Nearest (signed s (v * 2 ^ e)) (realValue (roundWithAccuracy .binary64 s m e acc)) := by
  obtain ⟨k, hk⟩ : ∃ k, k = (Format.targetExponent .binary64 (totalExponent m e) - e).toNat :=
    ⟨_, rfl⟩
  have htarget : e + k = Format.targetExponent .binary64 (totalExponent m e) := by omega
  obtain ⟨hbits, hge, -⟩ := shift_bounds m e hk
  have hnearest := nearest_rounded hv htarget
  obtain ⟨hlow, hhigh⟩ := roundedMantissa_shiftRight_bounds m k acc
  obtain ⟨r, hr⟩ : ∃ r, r = (ExtendedMantissa.ofMantissaAndAccuracy m acc >>> k).roundedMantissa :=
    ⟨_, rfl⟩
  rw [← hr] at hnearest hlow hhigh
  obtain ⟨k', hk'⟩ : ∃ k', k' = (Format.targetExponent .binary64 (totalExponent r (e + k)) -
    (e + k)).toNat := ⟨_, rfl⟩
  have hnormal : e + k = -1074 ∨ 2 ^ 52 ≤ r := (shift_cases htarget).imp_right (by omega)
  obtain ⟨hcanonical, hvalue⟩ := shift_rounded (by omega) hge hnormal hk'
  rw [← hvalue] at hnearest
  have hsigned := hnearest.signed s
  rw [roundWithAccuracy_eq s hk hr hk']
  split
  case isTrue hzero =>
    rw [hzero, Nat.cast_zero, zero_mul, signed_zero] at hsigned
    rw [realValue_zero]
    exact ⟨trivial, hsigned⟩
  case isFalse hne =>
    rw [realValue_finite]
    exact ⟨hcanonical, hsigned⟩

end Rounding

end DenseDecomp.Binary64
