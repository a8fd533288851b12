import Mathlib
import DenseDecomp.Proofs.Binary64.NotANumber
import DenseDecomp.Proofs.Loop

namespace DenseDecomp.Binary64

open Float.Model (Format UnpackedFloat totalExponent)
open Float.Model.UnpackedFloat

def vanishingBound : Float := Float.ofBits 0x0008000000000000

section Shift

theorem shiftRight_succ (m k : ℕ) :
    ExtendedMantissa.mk m false false >>> (k + 1) =
      ⟨m / 2 ^ (k + 1), m / 2 ^ k % 2 != 0, m % 2 ^ k != 0⟩ := by
  induction k with
  | zero => simp [HShiftRight.hShiftRight, Nat.repeat, ExtendedMantissa.shiftRightOne, Nat.mod_one]
  | succ k ih =>
    have hsticky : ((m / 2 ^ k % 2 != 0) || (m % 2 ^ k != 0)) = (m % 2 ^ (k + 1) != 0) := by
      rw [Nat.mod_pow_succ, Bool.eq_iff_iff]
      simp only [Bool.or_eq_true, bne_iff_ne]
      have hpow := Nat.two_pow_pos k
      rw [ne_eq (_ + _), Nat.add_eq_zero_iff, Nat.mul_eq_zero]
      omega
    calc
      ExtendedMantissa.mk m false false >>> (k + 1 + 1) =
          (ExtendedMantissa.mk m false false >>> (k + 1)).shiftRightOne := rfl
      _ = ⟨m / 2 ^ (k + 1 + 1), m / 2 ^ (k + 1) % 2 != 0, m % 2 ^ (k + 1) != 0⟩ := by
        rw [ih, ExtendedMantissa.shiftRightOne, hsticky, Nat.div_div_eq_div_mul, ← Nat.pow_succ]

theorem roundedMantissa_eq_zero_iff (em : ExtendedMantissa) :
    em.roundedMantissa = 0 ↔
      em.mantissa = 0 ∧ ¬ (em.roundBit = true ∧ em.stickyBit = true) := by
  obtain ⟨q, r, s⟩ := em
  cases r <;> cases s <;>
    simp +contextual [ExtendedMantissa.roundedMantissa, ExtendedMantissa.accuracy,
      Accuracy.roundToNearestEven]

/-- A mantissa that is shifted out rounds to zero up to the middle: a tie goes to the even side. -/
theorem roundedMantissa_shiftRight_eq_zero_iff (m k : ℕ) :
    (ExtendedMantissa.mk m false false >>> (k + 1)).roundedMantissa = 0 ↔ m ≤ 2 ^ k := by
  have hpos := Nat.two_pow_pos k
  have hsplit := Nat.div_add_mod m (2 ^ k)
  have hlt := Nat.mod_lt m hpos
  have hhalf : m / 2 ^ (k + 1) = m / 2 ^ k / 2 := by rw [Nat.pow_succ, Nat.div_div_eq_div_mul]
  rw [roundedMantissa_eq_zero_iff, shiftRight_succ, hhalf]
  simp only [bne_iff_ne]
  generalize m / 2 ^ k = q at *
  generalize m % 2 ^ k = r at *
  match q with
  | 0 => simp; omega
  | 1 => simp; omega
  | q + 2 =>
    have hlarge : 2 ^ k * 2 ≤ 2 ^ k * (q + 2) := Nat.mul_le_mul_left _ (Nat.le_add_left 2 q)
    omega

end Shift

section Product

/-- Only the first of both shifts can lose a value. -/
theorem roundWithAccuracy_eq_zero_iff (s : Sign) (m : ℕ) (e : ℤ) (acc : Accuracy) {k : ℕ}
    (hk : k = (Format.targetExponent .binary64 (totalExponent m e) - e).toNat) :
    roundWithAccuracy .binary64 s m e acc = .zero s ↔
      (ExtendedMantissa.ofMantissaAndAccuracy m acc >>> k).roundedMantissa = 0 := by
  obtain ⟨-, he, -⟩ := shift_bounds m e hk
  obtain ⟨r, hr⟩ : ∃ r, r = (ExtendedMantissa.ofMantissaAndAccuracy m acc >>> k).roundedMantissa :=
    ⟨_, rfl⟩
  obtain ⟨k', hk'⟩ : ∃ k', k' = (Format.targetExponent .binary64 (totalExponent r (e + k)) -
    (e + k)).toNat := ⟨_, rfl⟩
  obtain ⟨-, -, hpos⟩ := shift_bounds r (e + k) hk'
  rw [roundWithAccuracy_eq s hk hr hk', ← hr]
  have hiff : r / 2 ^ k' = 0 ↔ r = 0 := by
    constructor
    · intro h
      by_contra hne
      refine (hpos (Nat.pos_of_ne_zero hne) ?_).ne' h
      rw [totalExponent]
      omega
    · rintro rfl
      exact Nat.zero_div _
  rw [← hiff]
  split
  case isTrue h => exact iff_of_true rfl h
  case isFalse h => exact iff_of_false (fun heq ↦ by cases heq) h

theorem roundWithAccuracy_exact_eq_zero_iff (s : Sign) {m : ℕ} {e : ℤ} (hm : 0 < m) {k : ℕ}
    (he : e + k = -1075) :
    roundWithAccuracy .binary64 s m e .exact = .zero s ↔ m ≤ 2 ^ k := by
  obtain ⟨j, hj⟩ : ∃ j, j = (Format.targetExponent .binary64 (totalExponent m e) - e).toNat :=
    ⟨_, rfl⟩
  rw [roundWithAccuracy_eq_zero_iff s m e .exact hj]
  rw [targetExponent_binary64, totalExponent] at hj
  obtain hlow | hhigh := le_or_gt (e + m.log2 + 1 - 53) (-1074)
  · obtain rfl : j = k + 1 := by omega
    exact roundedMantissa_shiftRight_eq_zero_iff m k
  · have hlog : k + 1 ≤ m.log2 := by omega
    have hlarge : 2 ^ k < m :=
      calc
        2 ^ k < 2 ^ (k + 1) := Nat.pow_lt_pow_right (by decide) k.lt_succ_self
        _ ≤ 2 ^ m.log2 := Nat.pow_le_pow_right (by decide) hlog
        _ ≤ m := Nat.log2_self_le hm.ne'
    have hkept : 0 < m / 2 ^ j := by
      refine Nat.div_pos ?_ (Nat.two_pow_pos j)
      calc
        2 ^ j ≤ 2 ^ m.log2 := Nat.pow_le_pow_right (by decide) (by omega)
        _ ≤ m := Nat.log2_self_le hm.ne'
    obtain ⟨hrounded, -⟩ := roundedMantissa_shiftRight_bounds m j .exact
    omega

end Product

section Sum

/-- A sum does not underflow: it has no digits below the last one of the range. -/
theorem stored_normalize_of_pos {m e : ℤ} (hm : 0 < m) (he : -1074 ≤ e) (s : Sign) :
    stored (UnpackedFloat.normalize .binary64 m e s) = .infinity .positive ∨
      ∃ m' e' hm', stored (UnpackedFloat.normalize .binary64 m e s) =
        .finite .positive m' e' hm' := by
  obtain ⟨k, rfl⟩ := Int.eq_ofNat_of_zero_le hm.le
  have hk : 0 < k := Int.natCast_pos.1 hm
  have hcompare : compare (k : ℤ) 0 = .gt := compare_gt_iff_gt.2 hm
  have hround : UnpackedFloat.normalize .binary64 k e s =
      UnpackedFloat.round .binary64 .positive k e := by
    rw [UnpackedFloat.normalize, hcompare]
    rfl
  rw [hround, UnpackedFloat.round, targetExponent_binary64]
  simp only [decreaseExponent]
  obtain ⟨-, hlow⟩ | ⟨m', e', hm', hr, hlt, he'⟩ := roundWithAccuracy_cases .positive
    (k <<< (e - max (totalExponent k e - 53) (-1074)).toNat)
    (e - (e - max (totalExponent k e - 53) (-1074)).toNat) .exact
  · have hpos : 0 < k <<< (e - max (totalExponent k e - 53) (-1074)).toNat := by
      rw [Nat.shiftLeft_eq]
      exact Nat.mul_pos hk (Nat.two_pow_pos _)
    have hlow := hlow hpos
    rw [totalExponent] at hlow
    omega
  · rw [hr]
    exact unpack_pack_finite .positive hm' hlt he'

end Sum

/-- A value above the smallest exponent has all bits of its mantissa. -/
theorem unpack_mantissa_ge {b : BitVec (Format.numBits .binary64)} {s : Sign} {m : ℕ} {e : ℤ}
    {hm : 0 < m} (h : unpack .binary64 b = .finite s m e hm) : e = -1074 ∨ 2 ^ 52 ≤ m := by
  have hbias : Format.exponentBias .binary64 = 1023 := by decide
  simp only [unpack, hbias] at h
  split_ifs at h with h₁ h₂ h₃ h₄
  · injection h with _ _ he
    rw [h₃] at he
    exact .inl he.symm
  · injection h with _ hm' _
    right
    rw [← hm', BitVec.toNat_append]
    refine le_trans ?_ Nat.left_le_or
    decide

section Threshold

variable {x y : Float}

theorem unpacked_epsilon_mul (x : Float) : unpacked (Scalar.epsilon * x) =
    stored (UnpackedFloat.mul .binary64 (.finite .positive (2 ^ 52) (-104) (by decide))
      (unpacked x)) := rfl

theorem unpacked_vanishingBound :
    unpacked vanishingBound = .finite .positive (2 ^ 51) (-1074) (by decide) := rfl

theorem zero_lt_epsilon_mul_iff_ne_zero {m : ℕ} {e : ℤ} {hm : 0 < m}
    (hx : unpacked x = .finite .positive m e hm) : 0 < Scalar.epsilon * x ↔
      roundWithAccuracy .binary64 .positive (2 ^ 52 * m) (-104 + e) .exact ≠ .zero .positive := by
  have hmul : unpacked (Scalar.epsilon * x) =
      stored (roundWithAccuracy .binary64 .positive (2 ^ 52 * m) (-104 + e) .exact) := by
    rw [unpacked_epsilon_mul, hx]
    rfl
  rw [zero_lt_iff, hmul]
  obtain ⟨hr, -⟩ | ⟨m', e', hm', hr, hlt, he⟩ := roundWithAccuracy_cases .positive (2 ^ 52 * m)
    (-104 + e) .exact
  · rw [hr, stored_zero]
    refine iff_of_false ?_ (not_not.2 rfl)
    rintro (h | ⟨_, _, _, h⟩)
    · cases h
    · cases h
  · rw [hr]
    exact iff_of_true (unpack_pack_finite .positive hm' hlt he) nofun

theorem zero_lt_epsilon_mul_iff_of_finite {m : ℕ} {e : ℤ} {hm : 0 < m}
    (hx : unpacked x = .finite .positive m e hm) :
    0 < Scalar.epsilon * x ↔ -1074 < e ∨ 2 ^ 51 < m := by
  have hge : -1074 ≤ e := unpack_exponent_ge hx
  have hpos : 0 < 2 ^ 52 * m := Nat.mul_pos (by decide) hm
  rw [zero_lt_epsilon_mul_iff_ne_zero hx]
  obtain rfl | hnormal := unpack_mantissa_ge hx
  · have hlow : (-104 + -1074 : ℤ) + (103 : ℕ) = -1075 := rfl
    rw [ne_eq, roundWithAccuracy_exact_eq_zero_iff .positive hpos hlow]
    omega
  · have hlog : 104 ≤ (2 ^ 52 * m).log2 := by
      refine (Nat.le_log2 hpos.ne').2 ?_
      calc
        2 ^ 104 = 2 ^ 52 * 2 ^ 52 := by norm_num
        _ ≤ 2 ^ 52 * m := Nat.mul_le_mul_left _ hnormal
    refine iff_of_true ?_ (.inr (lt_of_lt_of_le (by decide) hnormal))
    obtain ⟨-, hlow⟩ | ⟨_, _, _, hr, -⟩ := roundWithAccuracy_cases .positive (2 ^ 52 * m) (-104 + e)
      .exact
    · have hlow := hlow hpos
      rw [totalExponent] at hlow
      omega
    · rw [hr]
      exact fun heq ↦ by cases heq

theorem zero_lt_of_zero_lt_epsilon_mul (h : 0 < Scalar.epsilon * x) : 0 < x := by
  rw [zero_lt_iff, unpacked_epsilon_mul] at h
  rw [zero_lt_iff]
  cases hx : unpacked x with
  | notANumber =>
    rw [hx] at h
    simp [UnpackedFloat.mul, stored_notANumber] at h
  | infinity s =>
    cases s with
    | positive => exact .inl rfl
    | negative =>
      have hmul : stored (.infinity (.positive * .negative)) = .infinity .negative :=
        stored_infinity _
      rw [hx, UnpackedFloat.mul, hmul] at h
      simp at h
  | zero s =>
    rw [hx, UnpackedFloat.mul, stored_zero] at h
    simp at h
  | finite s m e hm =>
    cases s with
    | positive => exact .inr ⟨m, e, hm, rfl⟩
    | negative =>
      obtain ⟨hr, -⟩ | ⟨m', e', hm', hr, hlt, he⟩ := roundWithAccuracy_cases
        (.positive * .negative) (2 ^ 52 * m) (-104 + e) .exact
      · rw [hx, UnpackedFloat.mul, hr, stored_zero] at h
        simp at h
      · rw [hx, UnpackedFloat.mul, hr, stored] at h
        obtain hs | ⟨_, _, _, hs⟩ := unpack_pack_finite (.positive * .negative) hm' hlt he
        · rw [hs] at h
          simp at h
        · rw [hs] at h
          simp at h

theorem zero_lt_of_vanishingBound_lt (h : vanishingBound < x) : 0 < x :=
  Binary64.lt_of_le_of_lt (by decide) h

/-- The threshold relative to a magnitude underflows up to half of the smallest normal value. -/
theorem zero_lt_epsilon_mul_iff : 0 < Scalar.epsilon * x ↔ vanishingBound < x := by
  by_cases hpos : 0 < x
  · have hnan := (not_isNaN_of_lt hpos).2
    rw [lt_iff (x := vanishingBound), unpacked_vanishingBound]
    obtain hx | ⟨m, e, hm, hx⟩ := zero_lt_iff.1 hpos
    · have hmul : unpacked (Scalar.epsilon * x) = .infinity .positive := by
        rw [unpacked_epsilon_mul, hx]
        exact stored_infinity _
      rw [hx]
      exact iff_of_true (zero_lt_iff.2 (.inl hmul)) ⟨rfl, hnan, by decide⟩
    · have hge : -1074 ≤ e := unpack_exponent_ge hx
      rw [zero_lt_epsilon_mul_iff_of_finite hx, hx, rank, rank, Prod.Lex.toLex_lt_toLex,
        Prod.Lex.toLex_lt_toLex]
      have hbound : vanishingBound.isNaN = false := rfl
      simp only [hbound, hnan, true_and, lt_irrefl, false_or]
      omega
  · exact iff_of_false (fun h ↦ hpos (zero_lt_of_zero_lt_epsilon_mul h))
      fun h ↦ hpos (zero_lt_of_vanishingBound_lt h)

end Threshold

section Magnitude

variable {x y : Float}

theorem unpacked_add_abs (x y : Float) : unpacked (x + y.abs) =
    stored (UnpackedFloat.add .binary64 (unpacked x) (unpacked y).abs) := by
  rw [← unpacked_abs]
  rfl

theorem add_cases (hx : 0 ≤ x) (hy : 0 ≤ y) :
    0 < x + y ∨ (x == 0) = true ∧ (y == 0) = true ∧ (x + y == 0) = true := by
  have hadd : unpacked (x + y) =
      stored (UnpackedFloat.add .binary64 (unpacked x) (unpacked y)) := rfl
  have hself := stored_unpacked x
  have hself' := stored_unpacked y
  rw [zero_le_iff, zero_lt_iff] at hx hy
  rw [zero_lt_iff, beq_zero_iff, beq_zero_iff, beq_zero_iff, hadd]
  obtain ⟨s, hx⟩ | hx | ⟨m, e, hm, hx⟩ := hx
  · obtain ⟨t, hy⟩ | hy | ⟨m', e', hm', hy⟩ := hy
    · right
      rw [hx, hy, UnpackedFloat.add]
      refine ⟨⟨s, rfl⟩, ⟨t, rfl⟩, ?_⟩
      split
      · exact ⟨_, stored_zero _⟩
      · exact ⟨_, stored_zero _⟩
    · left; left
      rw [hx, hy]
      exact stored_infinity _
    · left; right
      rw [hy] at hself'
      rw [hx, hy]
      exact ⟨m', e', hm', hself'⟩
  · left; left
    obtain ⟨t, hy⟩ | hy | ⟨m', e', hm', hy⟩ := hy
    all_goals
      rw [hx, hy]
      exact stored_infinity _
  · left
    obtain ⟨t, hy⟩ | hy | ⟨m', e', hm', hy⟩ := hy
    · right
      rw [hx] at hself
      rw [hx, hy]
      exact ⟨m, e, hm, hself⟩
    · left
      rw [hx, hy]
      exact stored_infinity _
    · have hge := unpack_exponent_ge hx
      have hge' := unpack_exponent_ge hy
      rw [hx, hy]
      refine stored_normalize_of_pos ?_ (le_min hge hge') .positive
      refine Int.add_pos_of_pos_of_nonneg (Int.natCast_pos.2 ?_) (Int.natCast_nonneg _)
      rw [Nat.shiftLeft_eq]
      exact Nat.mul_pos hm (Nat.two_pow_pos _)

theorem zero_le_add (hx : 0 ≤ x) (hy : 0 ≤ y) : 0 ≤ x + y := by
  obtain hpos | ⟨-, -, hzero⟩ := add_cases hx hy
  · exact Binary64.le_of_lt hpos
  · exact zero_le_iff.2 (.inl (beq_zero_iff.1 hzero))

theorem not_isNaN_of_beq_zero (hx : (x == 0) = true) : x.isNaN = false := by
  obtain ⟨s, hx⟩ := beq_zero_iff.1 hx
  rw [← Bool.not_eq_true, isNaN_iff, hx]
  exact nofun

theorem not_zero_lt_of_beq_zero (hx : (x == 0) = true) : ¬ 0 < x := by
  obtain ⟨s, hx⟩ := beq_zero_iff.1 hx
  rw [zero_lt_iff, hx]
  rintro (h | ⟨_, _, _, h⟩)
  · cases h
  · cases h

theorem zero_le_abs (hx : x.isNaN = false) : 0 ≤ x.abs := by
  rw [← Bool.not_eq_true, isNaN_iff] at hx
  rw [zero_le_iff, zero_lt_iff, unpacked_abs]
  cases hu : unpacked x with
  | notANumber => exact absurd hu hx
  | infinity s => exact .inr (.inl rfl)
  | zero s => exact .inl ⟨_, rfl⟩
  | finite s m e hm => exact .inr (.inr ⟨m, e, hm, rfl⟩)

theorem isNaN_abs (x : Float) : x.abs.isNaN = x.isNaN := by
  rw [Bool.eq_iff_iff, isNaN_iff, isNaN_iff, unpacked_abs]
  cases unpacked x <;> simp [UnpackedFloat.abs]

theorem abs_beq_zero_iff : (x.abs == 0) = true ↔ (x == 0) = true := by
  rw [beq_zero_iff, beq_zero_iff, unpacked_abs]
  cases unpacked x <;> simp [UnpackedFloat.abs]

theorem add_abs_cases (hx : 0 ≤ x) : (x + y.abs).isNaN = true ∨ 0 < x + y.abs ∨
    (x == 0) = true ∧ (y == 0) = true ∧ (x + y.abs == 0) = true := by
  cases hy : y.isNaN with
  | true => exact .inl (isNaN_add_iff.2 (.inr (.inl ((isNaN_abs y).trans hy))))
  | false =>
    obtain hpos | ⟨hx, habs, hsum⟩ := add_cases hx (zero_le_abs hy)
    · exact .inr (.inl hpos)
    · exact .inr (.inr ⟨hx, abs_beq_zero_iff.1 habs, hsum⟩)

theorem add_abs_zero (hx : (x == 0) = true) (hy : (y == 0) = true) : (x + y.abs == 0) = true := by
  obtain ⟨s, hx⟩ := beq_zero_iff.1 hx
  obtain ⟨t, hy⟩ := beq_zero_iff.1 hy
  rw [beq_zero_iff, unpacked_add_abs, hx, hy]
  cases s with
  | positive => exact ⟨_, stored_zero _⟩
  | negative => exact ⟨_, stored_zero _⟩

theorem sumWhere_abs_zero {n : ℕ} {p : Fin n → Prop} [DecidablePred p] {f : Fin n → Float}
    (h : ∀ k, p k → (f k == 0) = true) :
    (Scalar.sumWhere p (fun k ↦ Scalar.abs (f k)) == 0) = true := by
  refine foldl_invariant (fun _ (acc : Float) ↦ (acc == 0) = true) rfl fun k acc hacc ↦ ?_
  split
  case isTrue hk => exact add_abs_zero hacc (h k hk)
  case isFalse => exact hacc

theorem beq_zero_of_add_abs (hx : 0 ≤ x) (h : (x + y.abs == 0) = true) :
    (x == 0) = true ∧ (y == 0) = true := by
  obtain hnan | hpos | ⟨hx, hy, -⟩ := add_abs_cases (y := y) hx
  · cases (not_isNaN_of_beq_zero h).symm.trans hnan
  · exact absurd hpos (not_zero_lt_of_beq_zero h)
  · exact ⟨hx, hy⟩

theorem zero_le_add_abs (hx : 0 ≤ x) (hsum : (x + y.abs).isNaN = false) : 0 ≤ x + y.abs := by
  obtain hnan | hpos | ⟨-, -, hzero⟩ := add_abs_cases (y := y) hx
  · cases hsum.symm.trans hnan
  · exact Binary64.le_of_lt hpos
  · exact zero_le_iff.2 (.inl (beq_zero_iff.1 hzero))

theorem abs_sum_beq_zero_iff {x y z : Float} : (x.abs + y.abs + z.abs == 0) = true ↔
    (x == 0) = true ∧ (y == 0) = true ∧ (z == 0) = true := by
  constructor
  · intro h
    have hnan := not_isNaN_of_beq_zero h
    have hpair : (x.abs + y.abs).isNaN = false := by
      rw [← Bool.not_eq_true] at hnan ⊢
      exact fun hpair ↦ hnan (isNaN_add_iff.2 (.inl hpair))
    have hx : x.isNaN = false := by
      rw [← Bool.not_eq_true] at hpair ⊢
      exact fun hx ↦ hpair (isNaN_add_iff.2 (.inl ((isNaN_abs x).trans hx)))
    obtain ⟨hsum, hz⟩ := beq_zero_of_add_abs (zero_le_add_abs (zero_le_abs hx) hpair) h
    obtain ⟨hx, hy⟩ := beq_zero_of_add_abs (zero_le_abs hx) hsum
    exact ⟨abs_beq_zero_iff.1 hx, hy, hz⟩
  · rintro ⟨hx, hy, hz⟩
    exact add_abs_zero (add_abs_zero (abs_beq_zero_iff.2 hx) hy) hz

theorem abs_lt_iff_of_zero (hx : (x == 0) = true) : x.abs < y ↔ 0 < y := by
  obtain ⟨s, hx⟩ := beq_zero_iff.1 hx
  have habs : unpacked x.abs = unpacked 0 := by
    rw [unpacked_abs, hx]
    rfl
  have hnan : x.abs.isNaN = (0 : Float).isNaN := by
    rw [Bool.eq_iff_iff, isNaN_iff, isNaN_iff, habs]
  rw [lt_iff, lt_iff, habs, hnan]

theorem add_zero_beq (hx : x.isNaN = false) : (x + 0 == x) = true := by
  have hadd : unpacked (x + 0) =
      stored (UnpackedFloat.add .binary64 (unpacked x) (.zero .positive)) := rfl
  by_cases hzero : (x == 0) = true
  · obtain ⟨s, hs⟩ := beq_zero_iff.1 hzero
    change ((unpacked (x + 0)).compare (unpacked x) == some .eq) = true
    rw [hadd, hs]
    cases s with
    | positive => rfl
    | negative => rfl
  · have hsame : unpacked (x + 0) = unpacked x := by
      rw [hadd]
      rw [beq_zero_iff] at hzero
      cases hu : unpacked x with
      | notANumber => cases (isNaN_iff.2 hu).symm.trans hx
      | infinity s => exact stored_infinity s
      | zero s => exact absurd ⟨s, hu⟩ hzero
      | finite s m e hm =>
        rw [← hu]
        exact (congrArg stored (by rw [hu]; rfl)).trans (stored_unpacked x)
    change ((unpacked (x + 0)).compare (unpacked x) == some .eq) = true
    rw [hsame]
    exact beq_iff.2 ⟨hx, hx, rfl⟩

end Magnitude

end DenseDecomp.Binary64
