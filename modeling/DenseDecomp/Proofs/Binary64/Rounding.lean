import Mathlib

namespace DenseDecomp.Binary64

open Float.Model (Format UnpackedFloat totalExponent)
open Float.Model.UnpackedFloat

section Sign

variable {f : Format}

theorem unpack_packComponents_neg (s : Sign) (e : BitVec f.exponentBits)
    (m : BitVec f.mantissaBitsWithoutImplicit) :
    unpack f (packComponents f (-s) e m) = (unpack f (packComponents f s e m)).neg := by
  simp only [unpack, unpackMantissa_packComponents, unpackExponent_packComponents,
    unpackSign_packComponents, Sign.ofBitVec_toBitVec]
  split_ifs <;> rfl

/-- The sign is stored apart from the rest. -/
theorem unpack_pack_neg (u : UnpackedFloat) :
    unpack f (pack f u.neg) = (unpack f (pack f u)).neg := by
  cases u with
  | notANumber => simp only [UnpackedFloat.neg, pack, unpack_packedNaN]
  | infinity s => exact unpack_packComponents_neg s _ _
  | zero s => exact unpack_packComponents_neg s _ _
  | finite s m e hm =>
    simp only [UnpackedFloat.neg, pack]
    split_ifs
    · exact unpack_packComponents_neg s _ _
    · exact unpack_packComponents_neg s _ _
    · exact unpack_packComponents_neg s _ _

end Sign

theorem unpack_pack_infinity (s : Sign) :
    unpack .binary64 (pack .binary64 (.infinity s)) = .infinity s := by
  cases s <;> rfl

theorem unpack_pack_zero (s : Sign) : unpack .binary64 (pack .binary64 (.zero s)) = .zero s :=
  unpack_packedZero

theorem unpack_pack_finite_of_le (s : Sign) {m : ℕ} {e : ℤ} (hm : 0 < m) (hlt : m < 2 ^ 53)
    (he : -1074 ≤ e) (hle : e ≤ 971) :
    ∃ m' e' hm', unpack .binary64 (pack .binary64 (.finite s m e hm)) = .finite s m' e' hm' := by
  have hbias : Format.exponentBias .binary64 = 1023 := by decide
  have hbits : Format.mantissaBits .binary64 = 53 := rfl
  simp only [pack, hbias, hbits]
  split_ifs with hbig hnormal
  · norm_num at hbig
    omega
  · have hexp : BitVec.ofNat 11 (e + (1023 : ℕ) + (52 : ℕ)).toNat ≠ 0#11 ∧
        BitVec.ofNat 11 (e + (1023 : ℕ) + (52 : ℕ)).toNat ≠ -1#11 := by
      have h : (BitVec.ofNat 11 (e + (1023 : ℕ) + (52 : ℕ)).toNat).toNat =
          (e + (1023 : ℕ) + (52 : ℕ)).toNat := by
        rw [BitVec.toNat_ofNat, Nat.mod_eq_of_lt]
        norm_num at hbig
        omega
      constructor <;> intro h' <;> rw [h'] at h <;> simp at h hbig <;> omega
    simp only [unpack, unpackMantissa_packComponents, unpackExponent_packComponents,
      unpackSign_packComponents, Sign.ofBitVec_toBitVec, hexp, if_false]
    refine ⟨_, _, Nat.pos_of_ne_zero fun h ↦ ?_, rfl⟩
    rw [BitVec.toNat_append, Nat.or_eq_zero_iff] at h
    exact absurd h.1 (by decide)
  · have hlog : m.log2 < 52 := by
      have := (Nat.log2_lt hm.ne').2 hlt
      omega
    have hmant : BitVec.ofNat 52 m ≠ 0#52 := fun h ↦ by
      have h := congrArg BitVec.toNat h
      rw [BitVec.toNat_ofNat, Nat.mod_eq_of_lt ((Nat.log2_lt hm.ne').1 hlog)] at h
      exact hm.ne' h
    have hexp : (0#11) ≠ -1#11 := by decide
    simp only [unpack, unpackMantissa_packComponents, unpackExponent_packComponents,
      unpackSign_packComponents, Sign.ofBitVec_toBitVec]
    rw [if_neg hexp, if_pos trivial, dif_neg hmant]
    exact ⟨_, _, Nat.pos_of_ne_zero fun h ↦ hmant (BitVec.eq_of_toNat_eq h), rfl⟩

theorem unpack_pack_of_lt (s : Sign) {m : ℕ} {e : ℤ} (hm : 0 < m) (he : 971 < e) :
    unpack .binary64 (pack .binary64 (.finite s m e hm)) = .infinity s := by
  have hbig : 2 ^ 11 ≤ (e + (1023 : ℕ) + (52 : ℕ)).toNat + 1 := by
    norm_num
    omega
  have hpack : pack .binary64 (.finite s m e hm) = pack .binary64 (.infinity s) := if_pos hbig
  rw [hpack]
  exact unpack_pack_infinity s

theorem unpack_pack_finite (s : Sign) {m : ℕ} {e : ℤ} (hm : 0 < m) (hlt : m < 2 ^ 53)
    (he : -1074 ≤ e) :
    unpack .binary64 (pack .binary64 (.finite s m e hm)) = .infinity s ∨
      ∃ m' e' hm', unpack .binary64 (pack .binary64 (.finite s m e hm)) = .finite s m' e' hm' := by
  obtain hle | hgt := le_or_gt e 971
  · exact .inr (unpack_pack_finite_of_le s hm hlt he hle)
  · exact .inl (unpack_pack_of_lt s hm hgt)

theorem unpack_exponent_ge {b : BitVec (Format.numBits .binary64)} {s : Sign} {m : ℕ} {e : ℤ}
    {hm : 0 < m} (h : unpack .binary64 b = .finite s m e hm) : -1074 ≤ e := by
  have hbias : Format.exponentBias .binary64 = 1023 := by decide
  simp only [unpack, hbias] at h
  split_ifs at h with h₁ h₂ h₃ h₄
  · injection h with _ _ he
    omega
  · injection h with _ _ he
    have : 0 < (unpackExponent b).toNat := Nat.pos_of_ne_zero fun h₀ ↦ h₃ (BitVec.eq_of_toNat_eq h₀)
    omega

theorem unpack_le {b : BitVec (Format.numBits .binary64)} {s : Sign} {m : ℕ} {e : ℤ} {hm : 0 < m}
    (h : unpack .binary64 b = .finite s m e hm) : m < 2 ^ 53 ∧ e ≤ 971 := by
  have hbias : Format.exponentBias .binary64 = 1023 := by decide
  simp only [unpack, hbias] at h
  split_ifs at h with h₁ h₂ h₃ h₄
  · injection h with _ hm' he
    have hlt := (unpackMantissa b).isLt
    rw [hm'] at hlt
    rw [h₃] at he
    exact ⟨hlt.trans (by decide), he ▸ by decide⟩
  · injection h with _ hm' he
    have hlt := (1#1 ++ unpackMantissa b).isLt
    rw [hm'] at hlt
    have hbits := (unpackExponent b).isLt
    have htop : (unpackExponent b).toNat ≠ 2047 := fun h ↦ h₁ (BitVec.eq_of_toNat_eq h)
    refine ⟨hlt, ?_⟩
    omega

section Rounding

theorem mantissa_shiftRight (em : ExtendedMantissa) (k : ℕ) :
    (em >>> k).mantissa = em.mantissa / 2 ^ k := by
  induction k with
  | zero => exact (Nat.div_one _).symm
  | succ k ih =>
    calc
      (em >>> (k + 1)).mantissa = (em >>> k).mantissa / 2 := rfl
      _ = em.mantissa / 2 ^ (k + 1) := by rw [ih, Nat.div_div_eq_div_mul, Nat.pow_succ]

theorem mantissa_ofMantissaAndAccuracy (m : ℕ) (acc : Accuracy) :
    (ExtendedMantissa.ofMantissaAndAccuracy m acc).mantissa = m := by
  rcases acc with _ | _ | _ | _ <;> rfl

theorem le_roundedMantissa (em : ExtendedMantissa) : em.mantissa ≤ em.roundedMantissa := by
  obtain ⟨m, r, s⟩ := em
  cases r <;> cases s
  · exact Nat.le_refl m
  · exact Nat.le_refl m
  · exact Nat.le_add_right m _
  · exact Nat.le_succ m

theorem roundedMantissa_le (em : ExtendedMantissa) : em.roundedMantissa ≤ em.mantissa + 1 := by
  obtain ⟨m, r, s⟩ := em
  cases r <;> cases s
  · exact Nat.le_succ m
  · exact Nat.le_succ m
  · exact Nat.add_le_add_left (Nat.le_of_lt_succ (Nat.mod_lt m two_pos)) m
  · exact Nat.le_refl (m + 1)

theorem roundedMantissa_shiftRight_bounds (m k : ℕ) (acc : Accuracy) :
    m / 2 ^ k ≤ (ExtendedMantissa.ofMantissaAndAccuracy m acc >>> k).roundedMantissa ∧
      (ExtendedMantissa.ofMantissaAndAccuracy m acc >>> k).roundedMantissa ≤ m / 2 ^ k + 1 := by
  have hlow := le_roundedMantissa (ExtendedMantissa.ofMantissaAndAccuracy m acc >>> k)
  have hhigh := roundedMantissa_le (ExtendedMantissa.ofMantissaAndAccuracy m acc >>> k)
  rw [mantissa_shiftRight, mantissa_ofMantissaAndAccuracy] at hlow hhigh
  exact ⟨hlow, hhigh⟩

theorem targetExponent_binary64 (t : ℤ) :
    Format.targetExponent .binary64 t = max (t - 53) (-1074) :=
  rfl

/-- What a shift to the target exponent leaves: no more bits than the format has, and at least one
where the value is not below its range. -/
theorem shift_bounds (m : ℕ) (e : ℤ) {k : ℕ}
    (hk : k = (Format.targetExponent .binary64 (totalExponent m e) - e).toNat) :
    m / 2 ^ k < 2 ^ 53 ∧ -1074 ≤ e + k ∧ (0 < m → -1074 < totalExponent m e → 0 < m / 2 ^ k) := by
  rw [targetExponent_binary64, totalExponent] at hk
  refine ⟨?_, by omega, fun hm ht ↦ ?_⟩
  · rw [Nat.div_lt_iff_lt_mul (Nat.two_pow_pos k), ← Nat.pow_add]
    calc
      m < 2 ^ (m.log2 + 1) := Nat.lt_log2_self
      _ ≤ 2 ^ (53 + k) := Nat.pow_le_pow_right (by decide) (by omega)
  · rw [totalExponent] at ht
    refine Nat.div_pos ?_ (Nat.two_pow_pos k)
    calc
      2 ^ k ≤ 2 ^ m.log2 := Nat.pow_le_pow_right (by decide) (by omega)
      _ ≤ m := Nat.log2_self_le hm.ne'

/-- Rounding shifts twice, since the first rounding may carry over into one bit more. -/
theorem roundWithAccuracy_eq (s : Sign) {m k r k' : ℕ} {e : ℤ} {acc : Accuracy}
    (hk : k = (Format.targetExponent .binary64 (totalExponent m e) - e).toNat)
    (hr : r = (ExtendedMantissa.ofMantissaAndAccuracy m acc >>> k).roundedMantissa)
    (hk' : k' = (Format.targetExponent .binary64 (totalExponent r (e + k)) - (e + k)).toNat) :
    roundWithAccuracy .binary64 s m e acc = if h : r / 2 ^ k' = 0 then .zero s
      else .finite s (r / 2 ^ k') (e + k + k') (Nat.pos_of_ne_zero h) := by
  simp only [roundWithAccuracy, shiftToTargetExponent, shiftToExponent, ← hk, ← hr, ← hk',
    mantissa_shiftRight, mantissa_ofMantissaAndAccuracy]

theorem roundWithAccuracy_cases (s : Sign) (m : ℕ) (e : ℤ) (acc : Accuracy) :
    (roundWithAccuracy .binary64 s m e acc = .zero s ∧ (0 < m → totalExponent m e ≤ -1074)) ∨
      ∃ m' e' hm', roundWithAccuracy .binary64 s m e acc = .finite s m' e' hm' ∧ m' < 2 ^ 53 ∧
        -1074 ≤ e' := by
  obtain ⟨k, hk⟩ : ∃ k, k = (Format.targetExponent .binary64 (totalExponent m e) - e).toNat :=
    ⟨_, rfl⟩
  obtain ⟨-, he, hpos⟩ := shift_bounds m e hk
  obtain ⟨r, hr⟩ : ∃ r, r = (ExtendedMantissa.ofMantissaAndAccuracy m acc >>> k).roundedMantissa :=
    ⟨_, rfl⟩
  have hle : m / 2 ^ k ≤ r := hr ▸ (roundedMantissa_shiftRight_bounds m k acc).1
  obtain ⟨k', hk'⟩ : ∃ k', k' = (Format.targetExponent .binary64 (totalExponent r (e + k)) -
    (e + k)).toNat := ⟨_, rfl⟩
  obtain ⟨hlt', he', hpos'⟩ := shift_bounds r (e + k) hk'
  rw [roundWithAccuracy_eq s hk hr hk']
  split
  case isTrue h =>
    refine .inl ⟨rfl, fun hm ↦ not_lt.1 fun ht ↦ ?_⟩
    refine (hpos' ((hpos hm ht).trans_le hle) ?_).ne' h
    rw [totalExponent]
    omega
  case isFalse h => exact .inr ⟨_, _, Nat.pos_of_ne_zero h, rfl, hlt', he'⟩

end Rounding

/-- The root of a positive value is positive: it lies far above the bottom of the range. -/
theorem sqrt_finite {m : ℕ} {e : ℤ} (hm : 0 < m) (he : -1074 ≤ e) :
    ∃ m' e' hm', UnpackedFloat.sqrt .binary64 (.finite .positive m e hm) =
      .finite .positive m' e' hm' ∧ m' < 2 ^ 53 ∧ -1074 ≤ e' := by
  obtain ⟨t, ht⟩ : ∃ t, t = min (e.ediv 2) (Format.targetExponent .binary64
    ((totalExponent m e + 1).ediv 2)) := ⟨_, rfl⟩
  obtain ⟨k, hk⟩ : ∃ k, k = (e - 2 * t).toNat := ⟨_, rfl⟩
  have hroot : 2 ^ (k / 2) ≤ Nat.sqrt (m <<< k) := by
    rw [Nat.le_sqrt, ← Nat.pow_add, Nat.shiftLeft_eq]
    calc
      2 ^ (k / 2 + k / 2) ≤ 2 ^ k := Nat.pow_le_pow_right (by decide) (by omega)
      _ ≤ m * 2 ^ k := Nat.le_mul_of_pos_left _ hm
  have hlog : k / 2 ≤ (Nat.sqrt (m <<< k)).log2 :=
    (Nat.le_log2 (Nat.ne_of_gt ((Nat.two_pow_pos _).trans_le hroot))).2 hroot
  simp only [UnpackedFloat.sqrt, sqrtCore, ← ht, ← hk]
  obtain ⟨-, h⟩ | h := roundWithAccuracy_cases .positive (Nat.sqrt (m <<< k)) t _
  · have h := h ((Nat.two_pow_pos _).trans_le hroot)
    rw [totalExponent] at h
    omega
  · exact h

end DenseDecomp.Binary64
