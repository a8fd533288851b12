import Mathlib
import DenseDecomp.Proofs.Binary64.Order

namespace DenseDecomp.Binary64

open Float.Model (Format UnpackedFloat totalExponent)
open Float.Model.UnpackedFloat

def stored (u : UnpackedFloat) : UnpackedFloat := unpack .binary64 (pack .binary64 u)

theorem stored_unpacked (x : Float) : stored (unpacked x) = unpacked x := pack_unpacked x

theorem stored_notANumber : stored .notANumber = .notANumber := unpack_packedNaN

theorem stored_infinity (s : Sign) : stored (.infinity s) = .infinity s := unpack_pack_infinity s

theorem stored_zero (s : Sign) : stored (.zero s) = .zero s := unpack_pack_zero s

theorem neg_positive : -Sign.positive = Sign.negative := rfl

theorem neg_negative : -Sign.negative = Sign.positive := rfl

section Rounding

theorem stored_roundWithAccuracy_ne (s : Sign) (m : ℕ) (e : ℤ) (acc : Accuracy) :
    stored (roundWithAccuracy .binary64 s m e acc) ≠ .notANumber := by
  obtain ⟨h, -⟩ | ⟨m', e', hm', h, hlt, he⟩ := roundWithAccuracy_cases s m e acc
  · rw [h, stored_zero]
    exact nofun
  · rw [h]
    obtain h | ⟨_, _, _, h⟩ := unpack_pack_finite s hm' hlt he
    · rw [stored, h]
      exact nofun
    · rw [stored, h]
      exact nofun

theorem stored_normalize_ne (m e : ℤ) (s : Sign) :
    stored (UnpackedFloat.normalize .binary64 m e s) ≠ .notANumber := by
  rw [UnpackedFloat.normalize]
  split
  · exact stored_roundWithAccuracy_ne _ _ _ _
  · rw [stored_zero]
    exact nofun
  · exact stored_roundWithAccuracy_ne _ _ _ _

end Rounding

variable {x y : Float}

/-- A sum of numbers is one, but for infinities of opposite signs. -/
theorem isNaN_add_iff : (x + y).isNaN = true ↔ x.isNaN = true ∨ y.isNaN = true ∨
    ∃ s, unpacked x = .infinity s ∧ unpacked y = .infinity (-s) := by
  rw [isNaN_iff, isNaN_iff, isNaN_iff]
  change stored (UnpackedFloat.add .binary64 (unpacked x) (unpacked y)) = _ ↔ _
  have hx := stored_unpacked x
  have hy := stored_unpacked y
  generalize unpacked x = u at hx ⊢
  generalize unpacked y = v at hy ⊢
  cases u with
  | notANumber => simp [UnpackedFloat.add, stored_notANumber]
  | infinity s =>
    cases v with
    | notANumber => simp [UnpackedFloat.add, stored_notANumber]
    | infinity t =>
      cases s <;> cases t <;>
        simp [UnpackedFloat.add, stored_notANumber, stored_infinity, neg_positive, neg_negative]
    | zero t => simp [UnpackedFloat.add, stored_infinity]
    | finite t m e hm => simp [UnpackedFloat.add, stored_infinity]
  | zero s =>
    cases v with
    | notANumber => simp [UnpackedFloat.add, stored_notANumber]
    | infinity t => simp [UnpackedFloat.add, stored_infinity]
    | zero t =>
      cases s <;> cases t <;> simp [UnpackedFloat.add, stored_zero]
    | finite t m e hm => simp [UnpackedFloat.add, hy]
  | finite s m e hm =>
    cases v with
    | notANumber => simp [UnpackedFloat.add, stored_notANumber]
    | infinity t => simp [UnpackedFloat.add, stored_infinity]
    | zero t => simp [UnpackedFloat.add, hx]
    | finite t m' e' hm' => simp [UnpackedFloat.add, stored_normalize_ne]

theorem isNaN_sub_iff : (x - y).isNaN = true ↔ x.isNaN = true ∨ y.isNaN = true ∨
    ∃ s, unpacked x = .infinity s ∧ unpacked y = .infinity s := by
  rw [isNaN_iff, isNaN_iff, isNaN_iff]
  change stored (UnpackedFloat.sub .binary64 (unpacked x) (unpacked y)) = _ ↔ _
  have hx := stored_unpacked x
  have hy := stored_unpacked y
  generalize unpacked x = u at hx ⊢
  generalize unpacked y = v at hy ⊢
  cases u with
  | notANumber => simp [UnpackedFloat.sub, stored_notANumber]
  | infinity s =>
    cases v with
    | notANumber => simp [UnpackedFloat.sub, stored_notANumber]
    | infinity t =>
      cases s <;> cases t <;>
        simp [UnpackedFloat.sub, stored_notANumber, stored_infinity, neg_positive, neg_negative]
    | zero t => simp [UnpackedFloat.sub, stored_infinity]
    | finite t m e hm => simp [UnpackedFloat.sub, stored_infinity]
  | zero s =>
    cases v with
    | notANumber => simp [UnpackedFloat.sub, stored_notANumber]
    | infinity t => simp [UnpackedFloat.sub, stored_infinity]
    | zero t =>
      cases s <;> cases t <;> simp [UnpackedFloat.sub, stored_zero, neg_positive, neg_negative]
    | finite t m e hm =>
      have hneg : stored (.finite (-t) m e hm) = (stored (.finite t m e hm)).neg :=
        unpack_pack_neg (.finite t m e hm)
      simp [UnpackedFloat.sub, hneg, hy, UnpackedFloat.neg]
  | finite s m e hm =>
    cases v with
    | notANumber => simp [UnpackedFloat.sub, stored_notANumber]
    | infinity t => simp [UnpackedFloat.sub, stored_infinity]
    | zero t => simp [UnpackedFloat.sub, hx]
    | finite t m' e' hm' => simp [UnpackedFloat.sub, stored_normalize_ne]

theorem isNaN_mul_iff : (x * y).isNaN = true ↔ x.isNaN = true ∨ y.isNaN = true ∨
    ∃ s t, unpacked x = .infinity s ∧ unpacked y = .zero t ∨
      unpacked x = .zero s ∧ unpacked y = .infinity t := by
  rw [isNaN_iff, isNaN_iff, isNaN_iff]
  change stored (UnpackedFloat.mul .binary64 (unpacked x) (unpacked y)) = _ ↔ _
  generalize unpacked x = u
  generalize unpacked y = v
  cases u with
  | notANumber => simp [UnpackedFloat.mul, stored_notANumber]
  | infinity s =>
    cases v with
    | notANumber => simp [UnpackedFloat.mul, stored_notANumber]
    | infinity t => simp [UnpackedFloat.mul, stored_infinity]
    | zero t => simp [UnpackedFloat.mul, stored_notANumber]
    | finite t m e hm => simp [UnpackedFloat.mul, stored_infinity]
  | zero s =>
    cases v with
    | notANumber => simp [UnpackedFloat.mul, stored_notANumber]
    | infinity t => simp [UnpackedFloat.mul, stored_notANumber]
    | zero t => simp [UnpackedFloat.mul, stored_zero]
    | finite t m e hm => simp [UnpackedFloat.mul, stored_zero]
  | finite s m e hm =>
    cases v with
    | notANumber => simp [UnpackedFloat.mul, stored_notANumber]
    | infinity t => simp [UnpackedFloat.mul, stored_infinity]
    | zero t => simp [UnpackedFloat.mul, stored_zero]
    | finite t m' e' hm' => simp [UnpackedFloat.mul, stored_roundWithAccuracy_ne]

theorem isNaN_div_iff : (x / y).isNaN = true ↔ x.isNaN = true ∨ y.isNaN = true ∨
    ∃ s t, unpacked x = .infinity s ∧ unpacked y = .infinity t ∨
      unpacked x = .zero s ∧ unpacked y = .zero t := by
  rw [isNaN_iff, isNaN_iff, isNaN_iff]
  change stored (UnpackedFloat.div .binary64 (unpacked x) (unpacked y)) = _ ↔ _
  generalize unpacked x = u
  generalize unpacked y = v
  cases u with
  | notANumber => simp [UnpackedFloat.div, stored_notANumber]
  | infinity s =>
    cases v with
    | notANumber => simp [UnpackedFloat.div, stored_notANumber]
    | infinity t => simp [UnpackedFloat.div, stored_notANumber]
    | zero t => simp [UnpackedFloat.div, stored_infinity]
    | finite t m e hm => simp [UnpackedFloat.div, stored_infinity]
  | zero s =>
    cases v with
    | notANumber => simp [UnpackedFloat.div, stored_notANumber]
    | infinity t => simp [UnpackedFloat.div, stored_zero]
    | zero t => simp [UnpackedFloat.div, stored_notANumber]
    | finite t m e hm => simp [UnpackedFloat.div, stored_zero]
  | finite s m e hm =>
    cases v with
    | notANumber => simp [UnpackedFloat.div, stored_notANumber]
    | infinity t => simp [UnpackedFloat.div, stored_zero]
    | zero t => simp [UnpackedFloat.div, stored_infinity]
    | finite t m' e' hm' => simp [UnpackedFloat.div, stored_roundWithAccuracy_ne]

section Infinite

variable {s : Sign}

theorem isInf_iff : x.isInf = true ↔ ∃ s, unpacked x = .infinity s := by
  change (unpacked x).isInf = true ↔ _
  cases unpacked x <;> simp [UnpackedFloat.isInf]

theorem of_isFinite (h : x.isFinite = true) :
    x.isNaN = false ∧ ∀ s, unpacked x ≠ .infinity s := by
  have h : (unpacked x).isFinite = true := h
  rw [← Bool.not_eq_true, isNaN_iff]
  constructor
  · intro hx
    rw [hx] at h
    cases h
  · intro s hx
    rw [hx] at h
    cases h

theorem zero_le_of_infinity (h : unpacked x = .infinity .positive) : 0 ≤ x :=
  zero_le_iff.2 (.inr (zero_lt_iff.2 (.inl h)))

theorem zero_lt_infinity_iff (h : unpacked x = .infinity s) : 0 < x ↔ s = .positive := by
  rw [zero_lt_iff, h]
  simp

theorem ne_infinity_of_nonneg (h : 0 ≤ x) : unpacked x ≠ .infinity .negative := by
  intro hx
  rw [zero_le_iff, zero_lt_iff, hx] at h
  simp at h

theorem unpacked_add_infinity (hx : x.isNaN = false) (hne : unpacked x ≠ .infinity (-s))
    (hy : unpacked y = .infinity s) : unpacked (x + y) = .infinity s := by
  change stored (UnpackedFloat.add .binary64 (unpacked x) (unpacked y)) = _
  rw [← Bool.not_eq_true, isNaN_iff] at hx
  rw [hy]
  cases hu : unpacked x with
  | notANumber => exact absurd hu hx
  | infinity t =>
    rw [hu] at hne
    cases s <;> cases t <;> first | rfl | exact absurd rfl hne
  | zero t => exact stored_infinity s
  | finite t m e hm => exact stored_infinity s

theorem unpacked_sub_infinity (hx : x.isNaN = false) (hne : unpacked x ≠ .infinity s)
    (hy : unpacked y = .infinity s) : unpacked (x - y) = .infinity (-s) := by
  change stored (UnpackedFloat.sub .binary64 (unpacked x) (unpacked y)) = _
  rw [← Bool.not_eq_true, isNaN_iff] at hx
  rw [hy]
  cases hu : unpacked x with
  | notANumber => exact absurd hu hx
  | infinity t =>
    rw [hu] at hne
    cases s <;> cases t <;> first | rfl | exact absurd rfl hne
  | zero t => exact stored_infinity (-s)
  | finite t m e hm => exact stored_infinity (-s)

end Infinite

section Finite

theorem isFinite_add_zero (hx : x.isFinite = true) : (x + 0).isFinite = true := by
  have hadd : unpacked (x + 0) =
      stored (UnpackedFloat.add .binary64 (unpacked x) (.zero .positive)) := rfl
  have hx : (unpacked x).isFinite = true := hx
  change (unpacked (x + 0)).isFinite = true
  rw [hadd]
  cases hu : unpacked x with
  | notANumber =>
    rw [hu] at hx
    cases hx
  | infinity s =>
    rw [hu] at hx
    cases hx
  | zero s =>
    cases s with
    | positive => exact congrArg _ (stored_zero _)
    | negative => exact congrArg _ (stored_zero _)
  | finite s m e hm =>
    change (stored (.finite s m e hm)).isFinite = true
    rw [← hu, stored_unpacked]
    exact hx

theorem isNaN_add_of_isFinite (hx : x.isFinite = true) (hy : y.isNaN = false) :
    (x + y).isNaN = false := by
  obtain ⟨hnan, hinf⟩ := of_isFinite hx
  rw [← Bool.not_eq_true, isNaN_add_iff]
  rintro (h | h | ⟨s, h, -⟩)
  · exact absurd h (by rw [hnan]; decide)
  · exact absurd h (by rw [hy]; decide)
  · exact hinf s h

theorem isNaN_add_of_isFinite_right (hx : x.isNaN = false) (hy : y.isFinite = true) :
    (x + y).isNaN = false := by
  obtain ⟨hnan, hinf⟩ := of_isFinite hy
  rw [← Bool.not_eq_true, isNaN_add_iff]
  rintro (h | h | ⟨s, -, h⟩)
  · exact absurd h (by rw [hx]; decide)
  · exact absurd h (by rw [hnan]; decide)
  · exact hinf _ h

theorem isNaN_sub_of_isFinite (hx : x.isFinite = true) (hy : y.isNaN = false) :
    (x - y).isNaN = false := by
  obtain ⟨hnan, hinf⟩ := of_isFinite hx
  rw [← Bool.not_eq_true, isNaN_sub_iff]
  rintro (h | h | ⟨s, h, -⟩)
  · exact absurd h (by rw [hnan]; decide)
  · exact absurd h (by rw [hy]; decide)
  · exact hinf s h

theorem isNaN_mul_of_isFinite (hx : x.isFinite = true) (hy : y.isFinite = true) :
    (x * y).isNaN = false := by
  obtain ⟨hx, hxinf⟩ := of_isFinite hx
  obtain ⟨hy, hyinf⟩ := of_isFinite hy
  rw [← Bool.not_eq_true, isNaN_mul_iff]
  rintro (h | h | ⟨s, t, ⟨h, -⟩ | ⟨-, h⟩⟩)
  · exact absurd h (by rw [hx]; decide)
  · exact absurd h (by rw [hy]; decide)
  · exact hxinf s h
  · exact hyinf t h

theorem isNaN_half (hx : x.isNaN = false) : (x / 2.0).isNaN = false := by
  have htwo : ∃ m e hm, unpacked 2.0 = .finite .positive m e hm := ⟨_, _, _, rfl⟩
  obtain ⟨m, e, hm, htwo⟩ := htwo
  rw [← Bool.not_eq_true, isNaN_div_iff, htwo]
  rintro (h | h | ⟨s, t, ⟨-, h⟩ | ⟨-, h⟩⟩)
  · exact absurd h (by rw [hx]; decide)
  · rw [isNaN_iff, htwo] at h
    cases h
  · cases h
  · cases h

end Finite

section Root

theorem mul_self_nonneg (hx : x.isNaN = false) : 0 ≤ x * x := by
  have hmul : unpacked (x * x) = stored (UnpackedFloat.mul .binary64 (unpacked x) (unpacked x)) :=
    rfl
  have hsign : ∀ s : Sign, s * s = .positive := by
    rintro (_ | _)
    · rfl
    · rfl
  rw [← Bool.not_eq_true, isNaN_iff] at hx
  rw [zero_le_iff, zero_lt_iff, hmul]
  cases hu : unpacked x with
  | notANumber => exact absurd hu hx
  | infinity s =>
    rw [UnpackedFloat.mul, hsign]
    exact .inr (.inl (stored_infinity _))
  | zero s => exact .inl ⟨_, stored_zero _⟩
  | finite s m e hm =>
    rw [UnpackedFloat.mul, hsign]
    obtain ⟨h, -⟩ | ⟨m', e', hm', h, hlt, he⟩ := roundWithAccuracy_cases .positive (m * m) (e + e)
      .exact
    · rw [h]
      exact .inl ⟨_, stored_zero _⟩
    · rw [h]
      exact .inr (unpack_pack_finite .positive hm' hlt he)

theorem unpacked_sqrt_abs (x : Float) :
    unpacked x.abs.sqrt = stored (UnpackedFloat.sqrt .binary64 (unpacked x).abs) := by
  rw [← unpacked_abs]
  rfl

theorem isNaN_sqrt_abs (hx : x.isNaN = true) : x.abs.sqrt.isNaN = true := by
  rw [isNaN_iff] at hx ⊢
  rw [unpacked_sqrt_abs, hx]
  exact stored_notANumber

theorem unpacked_sqrt_abs_infinity {s : Sign} (hx : unpacked x = .infinity s) :
    unpacked x.abs.sqrt = .infinity .positive := by
  rw [unpacked_sqrt_abs, hx]
  exact stored_infinity _

theorem sqrt_abs_nonneg (hx : x.isNaN = false) : 0 ≤ x.abs.sqrt := by
  rw [← Bool.not_eq_true, isNaN_iff] at hx
  rw [zero_le_iff, zero_lt_iff, unpacked_sqrt_abs]
  cases hu : unpacked x with
  | notANumber => exact absurd hu hx
  | infinity s => exact .inr (.inl (stored_infinity _))
  | zero s => exact .inl ⟨_, stored_zero _⟩
  | finite s m e hm =>
    obtain ⟨m', e', hm', hroot, hlt, he⟩ := sqrt_finite hm (unpack_exponent_ge hu)
    rw [UnpackedFloat.abs, hroot]
    exact .inr (unpack_pack_finite .positive hm' hlt he)

theorem unpacked_sqrt (x : Float) :
    unpacked x.sqrt = stored (UnpackedFloat.sqrt .binary64 (unpacked x)) := rfl

theorem zero_lt_sqrt (hx : 0 < x) : 0 < x.sqrt := by
  rw [zero_lt_iff, unpacked_sqrt]
  obtain h | ⟨m, e, hm, h⟩ := zero_lt_iff.1 hx
  · rw [h]
    exact .inl (stored_infinity _)
  · obtain ⟨m', e', hm', hroot, hlt, he⟩ := sqrt_finite hm (unpack_exponent_ge h)
    rw [h, hroot]
    exact unpack_pack_finite .positive hm' hlt he

theorem maxNum_zero_cases (x : Float) : (0 < x ∧ Scalar.maxNum x 0 = x) ∨
    (¬ 0 < x ∧ ∃ s, unpacked (Scalar.maxNum x 0) = .zero s) := by
  rw [Scalar.maxNum]
  split
  case isTrue h => exact .inr ⟨Binary64.lt_asymm h, _, unpacked_zero⟩
  case isFalse h =>
    split
    case isTrue hself =>
      have hx := (beq_iff.1 hself).1
      obtain hzero | hpos := zero_le_iff.1 ((not_lt_iff hx (by decide)).1 h)
      · refine .inr ⟨fun hpos ↦ ?_, hzero⟩
        obtain ⟨s, hs⟩ := hzero
        rw [zero_lt_iff, hs] at hpos
        simp only [reduceCtorEq, exists_false, or_false] at hpos
      · exact .inl ⟨hpos, rfl⟩
    case isFalse hself =>
      refine .inr ⟨fun hpos ↦ hself ?_, _, unpacked_zero⟩
      have hx := (not_isNaN_of_lt hpos).2
      exact beq_iff.2 ⟨hx, hx, rfl⟩

theorem zero_lt_sqrt_maxNum_iff : 0 < Scalar.sqrt (Scalar.maxNum x 0) ↔ 0 < x := by
  obtain ⟨hpos, h⟩ | ⟨hpos, s, h⟩ := maxNum_zero_cases x
  · rw [h]
    exact iff_of_true (zero_lt_sqrt hpos) hpos
  · refine iff_of_false (fun hroot ↦ ?_) hpos
    have hzero : unpacked (Scalar.sqrt (Scalar.maxNum x 0)) = .zero s := by
      refine (unpacked_sqrt _).trans ?_
      rw [h]
      exact stored_zero s
    rw [zero_lt_iff, hzero] at hroot
    simp only [reduceCtorEq, exists_false, or_false] at hroot

end Root

theorem beq_zero_iff : (x == 0) = true ↔ ∃ s, unpacked x = .zero s := by
  change ((unpacked x).compare (unpacked 0) == some .eq) = true ↔ _
  rw [unpacked_zero]
  rcases unpacked x with (_ | _) | _ | s | ⟨_ | _, m, e, hm⟩ <;> simp [UnpackedFloat.compare]

end DenseDecomp.Binary64
