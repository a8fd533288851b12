import Mathlib
import DenseDecomp.Proofs.Binary64.Underflow

namespace DenseDecomp.Binary64

open Float.Model (Format UnpackedFloat totalExponent)
open Float.Model.UnpackedFloat

section Rounding

/-- Rounding does not pass a bound that needs no rounding itself. -/
theorem roundedMantissa_shiftRight_le {m b k : ℕ} (h : m ≤ b * 2 ^ k) :
    (ExtendedMantissa.mk m false false >>> k).roundedMantissa ≤ b := by
  cases k with
  | zero =>
    rw [pow_zero, mul_one] at h
    exact h
  | succ k =>
    rw [shiftRight_succ]
    obtain hlt | rfl := lt_or_eq_of_le h
    · refine (roundedMantissa_le _).trans ?_
      exact (Nat.div_lt_iff_lt_mul (Nat.two_pow_pos (k + 1))).2 hlt
    · have hround : b * 2 ^ (k + 1) / 2 ^ k % 2 = 0 := by
        rw [Nat.pow_succ', ← mul_assoc, Nat.mul_div_cancel _ (Nat.two_pow_pos k)]
        exact Nat.mul_mod_left b 2
      have hsticky : b * 2 ^ (k + 1) % 2 ^ k = 0 := by
        rw [Nat.pow_succ', ← mul_assoc]
        exact Nat.mul_mod_left _ _
      rw [Nat.mul_div_cancel _ (Nat.two_pow_pos (k + 1)), hround, hsticky]
      exact le_rfl

theorem exponent_le_of_roundWithAccuracy {s s' : Sign} {m m' k : ℕ} {e e' : ℤ} {acc : Accuracy}
    {hm' : 0 < m'} (hk : k = (Format.targetExponent .binary64 (totalExponent m e) - e).toNat)
    (he : e + k ≤ 971)
    (hr : (ExtendedMantissa.ofMantissaAndAccuracy m acc >>> k).roundedMantissa <
      2 ^ (1024 - (e + k)).toNat)
    (h : roundWithAccuracy .binary64 s m e acc = .finite s' m' e' hm') : e' ≤ 971 := by
  obtain ⟨r, hr'⟩ : ∃ r, r = (ExtendedMantissa.ofMantissaAndAccuracy m acc >>> k).roundedMantissa :=
    ⟨_, rfl⟩
  have hlog : r.log2 + (e + k) + 1 ≤ 1024 := by
    rw [← hr'] at hr
    obtain rfl | hne := eq_or_ne r 0
    · rw [Nat.log2_zero]
      omega
    · have hlt := (Nat.log2_lt hne).2 hr
      omega
  obtain ⟨k', hk'⟩ : ∃ k', k' = (Format.targetExponent .binary64 (totalExponent r (e + k)) -
    (e + k)).toNat := ⟨_, rfl⟩
  rw [roundWithAccuracy_eq s hk hr' hk'] at h
  rw [targetExponent_binary64, totalExponent] at hk'
  split at h
  case isTrue => cases h
  case isFalse =>
    injection h with _ _ he'
    omega

/-- One more bit than the format has fits below the largest exponent. -/
theorem roundedMantissa_lt {m k : ℕ} {e : ℤ} {acc : Accuracy}
    (hk : k = (Format.targetExponent .binary64 (totalExponent m e) - e).toNat) (he : e + k < 971) :
    (ExtendedMantissa.ofMantissaAndAccuracy m acc >>> k).roundedMantissa <
      2 ^ (1024 - (e + k)).toNat := by
  obtain ⟨hbits, -⟩ := shift_bounds m e hk
  obtain ⟨-, hround⟩ := roundedMantissa_shiftRight_bounds m k acc
  calc
    _ ≤ m / 2 ^ k + 1 := hround
    _ < 2 ^ 54 := by omega
    _ ≤ 2 ^ (1024 - (e + k)).toNat := Nat.pow_le_pow_right two_pos (by omega)

theorem target_le {m k : ℕ} {e b : ℤ} (h : m < 2 ^ (53 + k)) (he : e + k ≤ b) (hb : -1074 ≤ b) :
    Format.targetExponent .binary64 (totalExponent m e) ≤ b := by
  have hlog : m.log2 < 53 + k := by
    obtain rfl | hm := eq_or_ne m 0
    · rw [Nat.log2_zero]
      omega
    · exact (Nat.log2_lt hm).2 h
  rw [targetExponent_binary64, totalExponent]
  omega

/-- What is at most a value of the format is rounded to a value of the format. -/
theorem exponent_le_of_roundWithAccuracy_exact {s s' : Sign} {m m' b j : ℕ} {e e' : ℤ}
    {hm' : 0 < m'} (hm : m ≤ b * 2 ^ j) (hb : b < 2 ^ 53) (he : e + j ≤ 971)
    (h : roundWithAccuracy .binary64 s m e .exact = .finite s' m' e' hm') : e' ≤ 971 := by
  obtain ⟨k, hk⟩ : ∃ k, k = (Format.targetExponent .binary64 (totalExponent m e) - e).toNat :=
    ⟨_, rfl⟩
  have hlt : m < 2 ^ (53 + j) :=
    calc
      m ≤ b * 2 ^ j := hm
      _ < 2 ^ 53 * 2 ^ j := Nat.mul_lt_mul_of_pos_right hb (Nat.two_pow_pos j)
      _ = 2 ^ (53 + j) := (Nat.pow_add 2 53 j).symm
  have htarget := target_le hlt he (by decide)
  have hek : e + k ≤ 971 := by omega
  refine exponent_le_of_roundWithAccuracy hk hek ?_ h
  obtain hlow | hhigh := lt_or_ge (e + k) 971
  · exact roundedMantissa_lt hk hlow
  · have hjk : j ≤ k := by omega
    have hround : (ExtendedMantissa.ofMantissaAndAccuracy m .exact >>> k).roundedMantissa ≤ b :=
      roundedMantissa_shiftRight_le
        (hm.trans (Nat.mul_le_mul_left b (Nat.pow_le_pow_right two_pos hjk)))
    have hexp : (1024 - (e + k)).toNat = 53 := by omega
    rw [hexp]
    exact hround.trans_lt hb

theorem negative_ne_positive : Sign.negative ≠ .positive := by
  intro h
  cases h

theorem stored_roundWithAccuracy_ne_infinity {s t : Sign} (hst : s ≠ t) (m : ℕ) (e : ℤ)
    (acc : Accuracy) : stored (roundWithAccuracy .binary64 s m e acc) ≠ .infinity t := by
  obtain ⟨h, -⟩ | ⟨m', e', hm', h, hlt, he⟩ := roundWithAccuracy_cases s m e acc
  · rw [h, stored_zero]
    exact UnpackedFloat.noConfusion
  · rw [h]
    obtain h | ⟨_, _, _, h⟩ := unpack_pack_finite s hm' hlt he
    · rw [stored, h]
      exact fun heq ↦ hst (UnpackedFloat.infinity.inj heq)
    · rw [stored, h]
      exact UnpackedFloat.noConfusion

theorem stored_round_ne_infinity {s t : Sign} {m b j : ℕ} {e : ℤ} (hm : m ≤ b * 2 ^ j)
    (hb : b < 2 ^ 53) (he : e + j ≤ 971) :
    stored (UnpackedFloat.round .binary64 s m e) ≠ .infinity t := by
  rw [UnpackedFloat.round, targetExponent_binary64]
  simp only [decreaseExponent]
  obtain ⟨d, hd⟩ : ∃ d, d = (e - max (totalExponent m e - 53) (-1074)).toNat := ⟨_, rfl⟩
  have hshift : m <<< d ≤ b * 2 ^ (j + d) := by
    rw [Nat.shiftLeft_eq, Nat.pow_add, ← mul_assoc]
    exact Nat.mul_le_mul_right _ hm
  have hexp : e - d + (j + d : ℕ) ≤ 971 := by
    rw [Nat.cast_add]
    omega
  rw [← hd]
  obtain ⟨hr, -⟩ | ⟨m', e', hm', hr, hlt, he'⟩ := roundWithAccuracy_cases s (m <<< d) (e - d) .exact
  · rw [hr, stored_zero]
    exact UnpackedFloat.noConfusion
  · have hle := exponent_le_of_roundWithAccuracy_exact hshift hb hexp hr
    obtain ⟨_, _, _, hu⟩ := unpack_pack_finite_of_le s hm' hlt he' hle
    rw [hr, stored, hu]
    exact UnpackedFloat.noConfusion

theorem stored_normalize_ne_infinity {x e : ℤ} {b j : ℕ} (hx : x ≤ (b * 2 ^ j : ℕ))
    (hb : b < 2 ^ 53) (he : e + j ≤ 971) (z : Sign) :
    stored (UnpackedFloat.normalize .binary64 x e z) ≠ .infinity .positive := by
  rw [UnpackedFloat.normalize]
  split
  · exact stored_roundWithAccuracy_ne_infinity negative_ne_positive _ _ _
  · rw [stored_zero]
    exact UnpackedFloat.noConfusion
  · exact stored_round_ne_infinity (by omega) hb he

end Rounding

section Arithmetic

variable {x y : Float}

theorem isFinite_iff : x.isFinite = true ↔ x.isNaN = false ∧ ∀ s, unpacked x ≠ .infinity s := by
  refine ⟨of_isFinite, fun ⟨hnan, hinf⟩ ↦ ?_⟩
  rw [← Bool.not_eq_true, isNaN_iff] at hnan
  change (unpacked x).isFinite = true
  cases hu : unpacked x with
  | notANumber => exact absurd hu hnan
  | infinity s => exact absurd hu (hinf s)
  | zero s => rfl
  | finite s m e hm => rfl

theorem apply_le (s : Sign) (k : ℕ) : s.apply k ≤ k := by
  cases s with
  | positive => exact le_rfl
  | negative => exact (neg_nonpos.2 (Int.natCast_nonneg k)).trans (Int.natCast_nonneg k)

theorem unpacked_sub_ne_infinity (hx : x.isFinite = true) (hy : 0 ≤ y) :
    unpacked (x - y) ≠ .infinity .positive := by
  change stored (UnpackedFloat.sub .binary64 (unpacked x) (unpacked y)) ≠ _
  obtain ⟨hnan, hinf⟩ := of_isFinite hx
  rw [← Bool.not_eq_true, isNaN_iff] at hnan
  have hself := stored_unpacked x
  rw [zero_le_iff, zero_lt_iff] at hy
  cases hu : unpacked x with
  | notANumber => exact absurd hu hnan
  | infinity s => exact absurd hu (hinf s)
  | zero s =>
    obtain ⟨t, hv⟩ | hv | ⟨m, e, hm, hv⟩ := hy
    · rw [hv, UnpackedFloat.sub]
      split
      · rw [stored_zero]
        exact UnpackedFloat.noConfusion
      · rw [stored_zero]
        exact UnpackedFloat.noConfusion
    · rw [hv]
      change stored (.infinity .negative) ≠ _
      rw [stored_infinity]
      exact fun h ↦ negative_ne_positive (UnpackedFloat.infinity.inj h)
    · have hneg : stored (.finite .negative m e hm) = (stored (unpacked y)).neg := by
        rw [hv]
        exact unpack_pack_neg (.finite .positive m e hm)
      rw [hv]
      change stored (.finite .negative m e hm) ≠ _
      rw [hneg, stored_unpacked, hv]
      exact UnpackedFloat.noConfusion
  | finite s m e hm =>
    obtain ⟨t, hv⟩ | hv | ⟨m', e', hm', hv⟩ := hy
    · rw [hu] at hself
      rw [hv]
      change stored (.finite s m e hm) ≠ _
      rw [hself]
      exact UnpackedFloat.noConfusion
    · rw [hv]
      change stored (.infinity .negative) ≠ _
      rw [stored_infinity]
      exact fun h ↦ negative_ne_positive (UnpackedFloat.infinity.inj h)
    · obtain ⟨hlt, hle⟩ := unpack_le hu
      rw [hv]
      refine stored_normalize_ne_infinity (b := m) (j := (e - min e e').toNat) ?_ hlt ?_ _
      · rw [← Nat.shiftLeft_eq]
        exact (sub_le_self _ (Int.natCast_nonneg _)).trans (apply_le s _)
      · omega

theorem sqrt_shiftLeft_lt {m : ℕ} (k : ℕ) (hm : m < 2 ^ 53) :
    Nat.sqrt (m <<< k) < 2 ^ (53 + k / 2) := by
  rw [Nat.sqrt_lt, Nat.shiftLeft_eq, ← Nat.pow_add]
  calc
    m * 2 ^ k < 2 ^ 53 * 2 ^ k := Nat.mul_lt_mul_of_pos_right hm (Nat.two_pow_pos k)
    _ = 2 ^ (53 + k) := (Nat.pow_add 2 53 k).symm
    _ ≤ 2 ^ (53 + k / 2 + (53 + k / 2)) := Nat.pow_le_pow_right two_pos (by omega)

/-- The root of a finite value lies far below the largest exponent. -/
theorem isFinite_sqrt (hx : x.isFinite = true) (hpos : 0 < x) : x.sqrt.isFinite = true := by
  obtain h | ⟨m, e, hm, h⟩ := zero_lt_iff.1 hpos
  · exact absurd h ((of_isFinite hx).2 .positive)
  obtain ⟨hlt, hle⟩ := unpack_le h
  obtain ⟨m', e', hm', hroot, hlt', he'⟩ := sqrt_finite hm (unpack_exponent_ge h)
  have hround := hroot
  obtain ⟨t, ht⟩ : ∃ t, t = min (e.ediv 2) (Format.targetExponent .binary64
    ((totalExponent m e + 1).ediv 2)) := ⟨_, rfl⟩
  obtain ⟨k, hk⟩ : ∃ k, k = (e - 2 * t).toNat := ⟨_, rfl⟩
  simp only [UnpackedFloat.sqrt, sqrtCore, ← ht, ← hk] at hround
  have hdiv : e.ediv 2 = e / 2 := rfl
  have htarget := target_le (e := t) (b := 485) (sqrt_shiftLeft_lt k hlt) (by omega) (by decide)
  have hexp : e' ≤ 971 := by
    obtain ⟨j, hj⟩ : ∃ j, j = (Format.targetExponent .binary64
      (totalExponent (Nat.sqrt (m <<< k)) t) - t).toNat := ⟨_, rfl⟩
    have htj : t + j ≤ 485 := by omega
    refine exponent_le_of_roundWithAccuracy hj (htj.trans (by decide)) ?_ hround
    exact roundedMantissa_lt hj (by omega)
  obtain ⟨_, _, _, hu⟩ := unpack_pack_finite_of_le .positive hm' hlt' he' hexp
  change (unpacked x.sqrt).isFinite = true
  rw [unpacked_sqrt, h, hroot, stored, hu]
  rfl

end Arithmetic

section Lost

variable {x y : Float}

theorem isFinite_of_add (h : (x + y).isFinite = true) : x.isFinite = true ∧ y.isFinite = true := by
  have h : (stored (UnpackedFloat.add .binary64 (unpacked x) (unpacked y))).isFinite = true := h
  change (unpacked x).isFinite = true ∧ (unpacked y).isFinite = true
  generalize unpacked x = u at h ⊢
  generalize unpacked y = v at h ⊢
  cases u with
  | notANumber => simp [UnpackedFloat.add, stored_notANumber, UnpackedFloat.isFinite] at h
  | infinity s =>
    cases v with
    | notANumber => simp [UnpackedFloat.add, stored_notANumber, UnpackedFloat.isFinite] at h
    | infinity t =>
      rw [UnpackedFloat.add] at h
      split at h
      · simp [stored_infinity, UnpackedFloat.isFinite] at h
      · simp [stored_notANumber, UnpackedFloat.isFinite] at h
    | zero t => simp [UnpackedFloat.add, stored_infinity, UnpackedFloat.isFinite] at h
    | finite t m e hm => simp [UnpackedFloat.add, stored_infinity, UnpackedFloat.isFinite] at h
  | zero s =>
    cases v with
    | notANumber => simp [UnpackedFloat.add, stored_notANumber, UnpackedFloat.isFinite] at h
    | infinity t => simp [UnpackedFloat.add, stored_infinity, UnpackedFloat.isFinite] at h
    | zero t => exact ⟨rfl, rfl⟩
    | finite t m e hm => exact ⟨rfl, rfl⟩
  | finite s m e hm =>
    cases v with
    | notANumber => simp [UnpackedFloat.add, stored_notANumber, UnpackedFloat.isFinite] at h
    | infinity t => simp [UnpackedFloat.add, stored_infinity, UnpackedFloat.isFinite] at h
    | zero t => exact ⟨rfl, rfl⟩
    | finite t m' e' hm' => exact ⟨rfl, rfl⟩

theorem isFinite_of_mul_self (h : (x * x).isFinite = true) : x.isFinite = true := by
  have h : (stored (UnpackedFloat.mul .binary64 (unpacked x) (unpacked x))).isFinite = true := h
  change (unpacked x).isFinite = true
  cases hu : unpacked x with
  | notANumber => simp [hu, UnpackedFloat.mul, stored_notANumber, UnpackedFloat.isFinite] at h
  | infinity s => simp [hu, UnpackedFloat.mul, stored_infinity, UnpackedFloat.isFinite] at h
  | zero s => rfl
  | finite s m e hm => rfl

/-- Something too large to be taken away leaves nothing positive. -/
theorem isFinite_of_zero_lt_sub (hy : y.isNaN = true ∨ 0 ≤ y) (h : 0 < x - y) :
    y.isFinite = true := by
  have hdiff := (not_isNaN_of_lt h).2
  rw [← Bool.not_eq_true, isNaN_sub_iff, not_or, not_or] at hdiff
  obtain ⟨hxnan, hynan, hinf⟩ := hdiff
  have hy : 0 ≤ y := hy.resolve_left hynan
  refine isFinite_iff.2 ⟨Bool.not_eq_true _ ▸ hynan, fun s hs ↦ ?_⟩
  cases s with
  | negative => exact ne_infinity_of_nonneg hy hs
  | positive =>
    have hne : unpacked x ≠ .infinity .positive := fun hx ↦ hinf ⟨_, hx, hs⟩
    have hsub := unpacked_sub_infinity (Bool.not_eq_true _ ▸ hxnan) hne hs
    exact nomatch (zero_lt_infinity_iff hsub).1 h

theorem isNaN_or_nonneg_mul_self (x : Float) : (x * x).isNaN = true ∨ 0 ≤ x * x := by
  cases hx : x.isNaN with
  | true => exact .inl (isNaN_mul_iff.2 (.inl hx))
  | false => exact .inr (mul_self_nonneg hx)

theorem isNaN_or_nonneg_add (hx : x.isNaN = true ∨ 0 ≤ x) (hy : y.isNaN = true ∨ 0 ≤ y) :
    (x + y).isNaN = true ∨ 0 ≤ x + y := by
  obtain hx | hx := hx
  · exact .inl (isNaN_add_iff.2 (.inl hx))
  · obtain hy | hy := hy
    · exact .inl (isNaN_add_iff.2 (.inr (.inl hy)))
    · exact .inr (zero_le_add hx hy)

theorem isFinite_sub (hx : x.isFinite = true) (hy : y.isNaN = true ∨ 0 ≤ y) (h : 0 < x - y) :
    (x - y).isFinite = true := by
  have hynan := (of_isFinite (isFinite_of_zero_lt_sub hy h)).1
  have hy : 0 ≤ y := hy.resolve_left (Bool.not_eq_true _ ▸ hynan)
  refine isFinite_iff.2 ⟨(not_isNaN_of_lt h).2, fun s hs ↦ ?_⟩
  obtain rfl := (zero_lt_infinity_iff hs).1 h
  exact unpacked_sub_ne_infinity hx hy hs

/-- A sum of squares that is still finite has left out nothing. -/
theorem sumWhere_mul_self {n : ℕ} (p : Fin n → Prop) [DecidablePred p] (f : Fin n → Float) :
    ((Scalar.sumWhere p fun k ↦ f k * f k).isNaN = true ∨ 0 ≤ Scalar.sumWhere p fun k ↦ f k * f k) ∧
      ((Scalar.sumWhere p fun k ↦ f k * f k).isFinite = true → ∀ k, p k → (f k).isFinite = true) := by
  have h := foldl_invariant (f := fun acc k ↦ if p k then acc + f k * f k else acc)
    (fun t acc ↦ (acc.isNaN = true ∨ 0 ≤ acc) ∧
      (acc.isFinite = true → ∀ k : Fin n, k.val < t → p k → (f k).isFinite = true)) (b := 0)
    ⟨.inr (by decide), fun _ k hk ↦ absurd hk (Nat.not_lt_zero _)⟩ ?_
  · exact ⟨h.1, fun hfinite k ↦ h.2 hfinite k k.isLt⟩
  · rintro i acc ⟨hsign, hbefore⟩
    split
    case isTrue hi =>
      refine ⟨?_, fun hfinite k hk hpk ↦ ?_⟩
      · exact isNaN_or_nonneg_add hsign (isNaN_or_nonneg_mul_self (f i))
      · obtain ⟨hacc, hsquare⟩ := isFinite_of_add hfinite
        obtain rfl | hne := eq_or_ne k i
        · exact isFinite_of_mul_self hsquare
        · exact hbefore hacc k (by omega) hpk
    case isFalse hi =>
      refine ⟨hsign, fun hfinite k hk hpk ↦ ?_⟩
      have hne : k ≠ i := fun h ↦ hi (h ▸ hpk)
      exact hbefore hfinite k (by omega) hpk

end Lost

end DenseDecomp.Binary64
