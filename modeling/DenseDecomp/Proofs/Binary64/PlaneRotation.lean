import DenseDecomp.Proofs.Binary64.ScaledDivision

namespace DenseDecomp.Binary64

open Float.Model (UnpackedFloat)
open Float.Model.UnpackedFloat

variable {c x y z : Float}

section Zero

theorem add_beq_zero (hx : (x == 0) = true) (hy : (y == 0) = true) : (x + y == 0) = true := by
  obtain ⟨s, hx⟩ := beq_zero_iff.1 hx
  obtain ⟨t, hy⟩ := beq_zero_iff.1 hy
  have hadd : unpacked (x + y) = stored (UnpackedFloat.add .binary64 (unpacked x) (unpacked y)) :=
    rfl
  rw [beq_zero_iff, hadd, hx, hy, UnpackedFloat.add]
  split
  · exact ⟨_, stored_zero _⟩
  · exact ⟨_, stored_zero _⟩

theorem mul_beq_zero (hx : (x == 0) = true) (hy : (y == 0) = true) : (x * y == 0) = true := by
  obtain ⟨s, hx⟩ := beq_zero_iff.1 hx
  obtain ⟨t, hy⟩ := beq_zero_iff.1 hy
  have hmul : unpacked (x * y) = stored (UnpackedFloat.mul .binary64 (unpacked x) (unpacked y)) :=
    rfl
  rw [beq_zero_iff, hmul, hx, hy]
  exact ⟨_, stored_zero _⟩

theorem sqrt_beq_zero (hx : (x == 0) = true) : (x.sqrt == 0) = true := by
  obtain ⟨s, hx⟩ := beq_zero_iff.1 hx
  rw [beq_zero_iff, unpacked_sqrt, hx]
  exact ⟨s, stored_zero s⟩

theorem isNaN_div_of_zero (hx : (x == 0) = true) (hy : (y == 0) = true) :
    (x / y).isNaN = true := by
  obtain ⟨s, hx⟩ := beq_zero_iff.1 hx
  obtain ⟨t, hy⟩ := beq_zero_iff.1 hy
  exact isNaN_div_iff.2 (.inr (.inr ⟨s, t, .inr ⟨hx, hy⟩⟩))

theorem isNaN_sqrt (hx : x.isNaN = true) : x.sqrt.isNaN = true := by
  rw [isNaN_iff] at hx ⊢
  rw [unpacked_sqrt, hx]
  exact stored_notANumber

theorem div_infinity {s : Sign} (hy : unpacked y = .infinity s) :
    (x / y).isNaN = true ∨ (x / y == 0) = true := by
  have hdiv : unpacked (x / y) = stored (UnpackedFloat.div .binary64 (unpacked x) (unpacked y)) :=
    rfl
  rw [isNaN_iff, beq_zero_iff, hdiv, hy]
  cases unpacked x with
  | notANumber => exact .inl stored_notANumber
  | infinity t => exact .inl stored_notANumber
  | zero t => exact .inr ⟨_, stored_zero _⟩
  | finite t m e hm => exact .inr ⟨_, stored_zero _⟩

end Zero

theorem cases_of_not_isFinite (h : x.isFinite = false) :
    x.isNaN = true ∨ ∃ s, unpacked x = .infinity s := by
  have h : (unpacked x).isFinite = false := h
  rw [isNaN_iff]
  cases hu : unpacked x with
  | notANumber => exact .inl rfl
  | infinity s => exact .inr ⟨s, rfl⟩
  | zero s | finite s m e hm =>
    rw [hu] at h
    cases h

theorem isNaN_zero_mul (hx : x.isFinite = false) : (0 * x).isNaN = true := by
  obtain hnan | ⟨s, hs⟩ := cases_of_not_isFinite hx
  · exact isNaN_mul_iff.2 (.inr (.inl hnan))
  · exact isNaN_mul_iff.2 (.inr (.inr ⟨.positive, s, .inr ⟨unpacked_zero, hs⟩⟩))

theorem toReal_ne_zero (hx : x.isFinite = true) (h : ¬ (x == 0) = true) : toReal x ≠ 0 := by
  obtain ⟨s, hu⟩ | ⟨s, m, e, hm, hu⟩ := finite_cases hx
  · exact absurd (beq_zero_iff.2 ⟨s, hu⟩) h
  · have hpos : (0 : ℝ) < m * 2 ^ e :=
      mul_pos (Nat.cast_pos.2 hm) (zpow_pos two_pos e)
    rw [toReal_of_finite hu, ← abs_pos, abs_signed, abs_of_pos hpos]
    exact hpos

theorem zero_lt_of_toReal (hx : x.isFinite = true) (h : 0 < toReal x) : 0 < x := by
  obtain ⟨s, hu⟩ | ⟨s, m, e, hm, hu⟩ := finite_cases hx
  · rw [toReal_of_zero hu] at h
    exact absurd h (lt_irrefl 0)
  · cases s with
    | positive => exact zero_lt_iff.2 (.inr ⟨m, e, hm, hu⟩)
    | negative =>
      rw [toReal_of_finite hu, signed] at h
      have hpos : (0 : ℝ) < m * 2 ^ e := mul_pos (Nat.cast_pos.2 hm) (zpow_pos two_pos e)
      linarith

theorem toReal_abs (x : Float) : toReal x.abs = |toReal x| := by
  change realValue (unpacked x.abs) = |realValue (unpacked x)|
  rw [unpacked_abs]
  cases unpacked x with
  | notANumber | infinity s | zero s =>
    simp [UnpackedFloat.abs, realValue, rationalValue]
  | finite s m e hm =>
    rw [UnpackedFloat.abs, realValue_finite, realValue_finite, abs_signed, signed,
      abs_of_nonneg (by positivity)]

theorem isFinite_abs (x : Float) : x.abs.isFinite = x.isFinite := by
  change (unpacked x.abs).isFinite = (unpacked x).isFinite
  rw [unpacked_abs]
  cases unpacked x with
  | notANumber => rfl
  | infinity s => rfl
  | zero s => rfl
  | finite s m e hm => rfl

section Rotation

/-- The factor of `x` in the rotation that takes `(c, z)` to an axis, with the sizes it is divided
by one after the other. -/
def turn (c z x : Float) : Float :=
  let size := c.abs + z.abs
  x / size / ((c / size) * (c / size) + (z / size) * (z / size)).sqrt

/-- The rotation has a direction, and the sum of the sizes stays in the range. -/
structure Turns (c z : Float) : Prop where
  isFinite : (c.abs + z.abs).isFinite = true
  ne_zero : ¬ (c.abs + z.abs == 0) = true

theorem Turns.finite (h : Turns c z) : c.isFinite = true ∧ z.isFinite = true := by
  obtain ⟨hc, hz⟩ := isFinite_of_add h.isFinite
  exact ⟨(isFinite_abs c).symm.trans hc, (isFinite_abs z).symm.trans hz⟩

theorem div_of_not_turns (h : ¬ Turns c z) (hx : x = c ∨ x = z) :
    (x / (c.abs + z.abs)).isNaN = true ∨ (x / (c.abs + z.abs) == 0) = true := by
  cases hfinite : (c.abs + z.abs).isFinite with
  | true =>
    have hzero : (c.abs + z.abs == 0) = true := by
      by_contra hne
      exact h ⟨hfinite, hne⟩
    have hc : c.isNaN = false :=
      (isNaN_abs c).symm.trans (of_isFinite (isFinite_of_add hfinite).1).1
    obtain ⟨hc, hz⟩ := beq_zero_of_add_abs (zero_le_abs hc) hzero
    left
    obtain rfl | rfl := hx
    · exact isNaN_div_of_zero (abs_beq_zero_iff.1 hc) hzero
    · exact isNaN_div_of_zero hz hzero
  | false =>
    obtain hnan | ⟨s, hs⟩ := cases_of_not_isFinite hfinite
    · exact .inl (isNaN_div_iff.2 (.inr (.inl hnan)))
    · exact div_infinity hs

theorem isNaN_turn (h : ¬ Turns c z) (hx : x = c ∨ x = z) : (turn c z x).isNaN = true := by
  have hp := div_of_not_turns h (.inl rfl)
  have hq := div_of_not_turns h (.inr rfl)
  have hx := div_of_not_turns h hx
  rw [turn]
  generalize c / (c.abs + z.abs) = p at *
  generalize z / (c.abs + z.abs) = q at *
  by_cases hnan : p.isNaN = true ∨ q.isNaN = true
  · have hsum : (p * p + q * q).isNaN = true := by
      rw [isNaN_add_iff, isNaN_mul_iff, isNaN_mul_iff]
      obtain h | h := hnan
      · exact .inl (.inl h)
      · exact .inr (.inl (.inl h))
    exact isNaN_div_iff.2 (.inr (.inl (isNaN_sqrt hsum)))
  · rw [not_or] at hnan
    have hp := hp.resolve_left hnan.1
    have hq := hq.resolve_left hnan.2
    have hroot := sqrt_beq_zero (add_beq_zero (mul_beq_zero hp hp) (mul_beq_zero hq hq))
    obtain hx | hx := hx
    · exact isNaN_div_iff.2 (.inl hx)
    · exact isNaN_div_of_zero hx hroot

theorem sq_add_sq_ge {p q : ℝ} (h : 99 / 100 ≤ |p| + |q|) : 49 / 100 ≤ p * p + q * q := by
  have hdiff := sq_nonneg (|p| - |q|)
  have hsum : (99 / 100) ^ 2 ≤ (|p| + |q|) ^ 2 := pow_le_pow_left₀ (by norm_num) h 2
  rw [← abs_mul_abs_self p, ← abs_mul_abs_self q]
  linarith

theorem thousand_le_maxFinite : 1000 ≤ maxFinite := by
  have h := mul_le_mul_of_nonneg_right roundoff_le maxFinite_pos.le
  linarith [one_le_roundoff_mul_maxFinite]

theorem Nearest.abs_le_pow {u w : ℝ} {i : ℕ} (h : Nearest u w) (hu : |u| ≤ 2 ^ i) :
    |w| ≤ 2 ^ i := by
  have hpow : (2 : ℝ) ^ i = (1 : ℕ) * 2 ^ (i : ℤ) := by rw [Nat.cast_one, one_mul, zpow_natCast]
  rw [hpow] at hu ⊢
  exact h.abs_le_of_le (by norm_num) (by omega) hu

theorem Nearest.le_of_nonneg {u w : ℝ} (h : Nearest u w) (hu : 0 ≤ u) :
    999 / 1000 * u - 1 / 1000 ≤ w := by
  have hlow := h.le_abs
  rw [abs_of_nonneg hu, abs_of_nonneg (h.nonneg hu)] at hlow
  linarith [halfLeast_le.trans roundoff_le]

theorem Turns.size_spec (h : Turns c z) :
    0 < toReal (c.abs + z.abs) ∧
      999 / 1000 * (|toReal c| + |toReal z|) ≤ toReal (c.abs + z.abs) ∧
      toReal (c.abs + z.abs) ≤ 1001 / 1000 * (|toReal c| + |toReal z|) := by
  obtain ⟨hc, hz⟩ := isFinite_of_add h.isFinite
  have hnear := (rounds_add hc hz).nearest h.isFinite
  rw [toReal_abs, toReal_abs] at hnear
  have hsum : 0 ≤ |toReal c| + |toReal z| := add_nonneg (abs_nonneg _) (abs_nonneg _)
  have hmultiple : Multiple (|toReal c| + |toReal z|) := by
    rw [← toReal_abs, ← toReal_abs]
    exact (multiple_toReal _).add (multiple_toReal _)
  have hnonneg := hnear.nonneg hsum
  have hlow := hnear.le_abs_of_multiple hmultiple
  have herror := hnear.error_le_of_multiple hmultiple
  rw [abs_of_nonneg hsum] at hlow herror
  rw [abs_of_nonneg hnonneg] at hlow
  have hscaled := mul_le_mul_of_nonneg_right roundoff_le hsum
  refine ⟨lt_of_le_of_ne hnonneg (toReal_ne_zero h.isFinite h.ne_zero).symm, hlow, ?_⟩
  linarith [(abs_le.1 herror).2]

theorem Turns.component_spec (h : Turns c z) (hx : x = c ∨ x = z) :
    (x / (c.abs + z.abs)).isFinite = true ∧ |toReal (x / (c.abs + z.abs))| ≤ 2 ∧
      Nearest (toReal x / toReal (c.abs + z.abs)) (toReal (x / (c.abs + z.abs))) := by
  obtain ⟨hpos, hlow, -⟩ := h.size_spec
  have hfinite : x.isFinite = true := by
    obtain rfl | rfl := hx
    · exact h.finite.1
    · exact h.finite.2
  have hle : |toReal x| ≤ |toReal c| + |toReal z| := by
    obtain rfl | rfl := hx
    · exact le_add_of_nonneg_right (abs_nonneg _)
    · exact le_add_of_nonneg_left (abs_nonneg _)
  have htwo : |toReal x / toReal (c.abs + z.abs)| ≤ 2 ^ 1 := by
    rw [abs_div, abs_of_pos hpos, div_le_iff₀ hpos]
    linarith
  obtain ⟨hquotient, hnear⟩ := (rounds_div hfinite h.isFinite hpos.ne').of_le
    (htwo.trans (by linarith [thousand_le_maxFinite]))
  have htwo' := hnear.abs_le_pow htwo
  rw [pow_one] at htwo'
  exact ⟨hquotient, htwo', hnear⟩

theorem Turns.le_add_components (h : Turns c z) :
    99 / 100 ≤ |toReal (c / (c.abs + z.abs))| + |toReal (z / (c.abs + z.abs))| := by
  obtain ⟨hpos, -, hhigh⟩ := h.size_spec
  have hp := (h.component_spec (.inl rfl)).2.2.le_abs
  have hq := (h.component_spec (.inr rfl)).2.2.le_abs
  have hexact : 1000 / 1001 ≤ |toReal c / toReal (c.abs + z.abs)| +
      |toReal z / toReal (c.abs + z.abs)| := by
    rw [abs_div, abs_div, abs_of_pos hpos, ← add_div, le_div_iff₀ hpos]
    linarith
  linarith [halfLeast_le.trans roundoff_le]

theorem square_spec (hx : x.isFinite = true) (htwo : |toReal x| ≤ 2) :
    (x * x).isFinite = true ∧ |toReal (x * x)| ≤ 2 ^ 2 ∧
      999 / 1000 * (toReal x * toReal x) - 1 / 1000 ≤ toReal (x * x) := by
  have hle : |toReal x * toReal x| ≤ 2 ^ 2 := by
    rw [abs_mul, pow_two]
    exact mul_le_mul htwo htwo (abs_nonneg _) two_pos.le
  obtain ⟨hfinite, hnear⟩ := (rounds_mul hx hx).of_le
    (hle.trans (by linarith [thousand_le_maxFinite]))
  have hnonneg : 0 ≤ toReal x * toReal x := (sq_nonneg _).trans_eq (pow_two _)
  exact ⟨hfinite, hnear.abs_le_pow hle, hnear.le_of_nonneg hnonneg⟩

theorem radius_spec {p q : Float} (hp : p.isFinite = true) (hq : q.isFinite = true)
    (hptwo : |toReal p| ≤ 2) (hqtwo : |toReal q| ≤ 2) (h : 99 / 100 ≤ |toReal p| + |toReal q|) :
    (p * p + q * q).sqrt.isFinite = true ∧ 1 / 2 ≤ toReal (p * p + q * q).sqrt := by
  obtain ⟨hpp, hpfour, hplow⟩ := square_spec hp hptwo
  obtain ⟨hqq, hqfour, hqlow⟩ := square_spec hq hqtwo
  have hexact := sq_add_sq_ge h
  have hsum : |toReal (p * p) + toReal (q * q)| ≤ maxFinite := by
    linarith [abs_add_le (toReal (p * p)) (toReal (q * q)), thousand_le_maxFinite]
  obtain ⟨hfinite, hnear⟩ := (rounds_add hpp hqq).of_le hsum
  have hlow : 9 / 25 ≤ toReal (p * p + q * q) := by
    have hlow := hnear.le_of_nonneg (by linarith)
    linarith
  have hpos : 0 < p * p + q * q := zero_lt_of_toReal hfinite (by linarith)
  have hroot := isFinite_sqrt hfinite hpos
  have hexactroot : 3 / 5 ≤ √(toReal (p * p + q * q)) :=
    Real.le_sqrt_of_sq_le (by linarith)
  have hrootlow :=
    ((rounds_sqrt hfinite hpos).nearest hroot).le_of_nonneg (Real.sqrt_nonneg _)
  exact ⟨hroot, by linarith⟩

theorem Turns.turn_spec (h : Turns c z) (hx : x = c ∨ x = z) :
    (turn c z x).isFinite = true ∧ |toReal (turn c z x)| ≤ 4 := by
  obtain ⟨hp, hptwo, -⟩ := h.component_spec (.inl rfl)
  obtain ⟨hq, hqtwo, -⟩ := h.component_spec (.inr rfl)
  obtain ⟨hx, hxtwo, -⟩ := h.component_spec hx
  obtain ⟨hradius, hlow⟩ := radius_spec hp hq hptwo hqtwo h.le_add_components
  have hpos := lt_of_lt_of_le (by norm_num : (0 : ℝ) < 1 / 2) hlow
  obtain ⟨r, hr⟩ : ∃ r, r = (c / (c.abs + z.abs) * (c / (c.abs + z.abs)) +
    z / (c.abs + z.abs) * (z / (c.abs + z.abs))).sqrt := ⟨_, rfl⟩
  rw [← hr] at hradius hlow hpos
  have hfour : |toReal (x / (c.abs + z.abs)) / toReal r| ≤ 2 ^ 2 := by
    rw [abs_div, abs_of_pos hpos, div_le_iff₀ hpos]
    linarith
  obtain ⟨hfinite, hnear⟩ := (rounds_div hx hradius hpos.ne').of_le
    (hfour.trans (by linarith [thousand_le_maxFinite]))
  have hle := hnear.abs_le_pow hfour
  rw [turn, ← hr]
  exact ⟨hfinite, hle.trans (by norm_num)⟩

theorem isFinite_add_of_le (hx : x.isFinite = true) (hy : y.isFinite = true)
    (hxle : |toReal x| ≤ maxFinite / 2) (hyle : |toReal y| ≤ maxFinite / 2) :
    (x + y).isFinite = true ∧ (x - y).isFinite = true := by
  constructor
  · exact ((rounds_add hx hy).of_le (by linarith [abs_add_le (toReal x) (toReal y)])).1
  · exact ((rounds_sub hx hy).of_le (by linarith [abs_sub (toReal x) (toReal y)])).1

theorem isFinite_mul_of_le {r : Float} (hr : r.isFinite = true) (hfour : |toReal r| ≤ 4)
    (hx : x.isFinite = true) (hxle : |toReal x| ≤ maxFinite / 16) :
    (r * x).isFinite = true ∧ |toReal (r * x)| ≤ maxFinite / 2 := by
  have hle : |toReal r * toReal x| ≤ maxFinite / 4 := by
    rw [abs_mul]
    linarith [mul_le_mul hfour hxle (abs_nonneg _) (by norm_num)]
  obtain ⟨hfinite, hnear⟩ := (rounds_mul hr hx).of_le (hle.trans (by linarith [maxFinite_pos]))
  refine ⟨hfinite, ?_⟩
  have htriangle := abs_sub_abs_le_abs_sub (toReal (r * x)) (toReal r * toReal x)
  have hscaled := mul_le_mul_of_nonneg_right roundoff_le (abs_nonneg (toReal r * toReal x))
  linarith [hnear.error_le, halfLeast_le.trans roundoff_le, thousand_le_maxFinite]

theorem Turns.rotated (h : Turns c z) (hx : x.isFinite = true) (hy : y.isFinite = true)
    (hxle : |toReal x| ≤ maxFinite / 16) (hyle : |toReal y| ≤ maxFinite / 16) :
    (turn c z z * x - -turn c z c * y).isFinite = true ∧
      (-turn c z c * x + turn c z z * y).isFinite = true := by
  obtain ⟨hcos, hcosle⟩ := h.turn_spec (.inr rfl)
  obtain ⟨hsin, hsinle⟩ := h.turn_spec (.inl rfl)
  have hsin : (-turn c z c).isFinite = true := (isFinite_neg _).trans hsin
  have hsinle : |toReal (-turn c z c)| ≤ 4 := by rwa [toReal_neg, abs_neg]
  obtain ⟨hcosx, hcosxle⟩ := isFinite_mul_of_le hcos hcosle hx hxle
  obtain ⟨hcosy, hcosyle⟩ := isFinite_mul_of_le hcos hcosle hy hyle
  obtain ⟨hsinx, hsinxle⟩ := isFinite_mul_of_le hsin hsinle hx hxle
  obtain ⟨hsiny, hsinyle⟩ := isFinite_mul_of_le hsin hsinle hy hyle
  exact ⟨(isFinite_add_of_le hcosx hsiny hcosxle hsinyle).2,
    (isFinite_add_of_le hsinx hcosy hsinxle hcosyle).1⟩

theorem isNaN_rotated (h : ¬ Turns c z) (x y : Float) :
    (turn c z z * x - -turn c z c * y).isNaN = true ∧
      (-turn c z c * x + turn c z z * y).isNaN = true := by
  have hcos := isNaN_turn h (.inr rfl)
  have hsin : (-turn c z c).isNaN = true := (isNaN_neg _).trans (isNaN_turn h (.inl rfl))
  constructor
  · exact isNaN_sub_iff.2 (.inl (isNaN_mul_iff.2 (.inl hcos)))
  · exact isNaN_add_iff.2 (.inl (isNaN_mul_iff.2 (.inl hsin)))

end Rotation

end DenseDecomp.Binary64
