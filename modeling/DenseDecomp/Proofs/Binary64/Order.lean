import Mathlib
import DenseDecomp.Proofs.Binary64.Rounding
import DenseDecomp.Scalar.Binary64

namespace DenseDecomp.Binary64

open Float.Model (Format UnpackedFloat totalExponent)
open Float.Model.UnpackedFloat

/-- The place of a number in the order, as sign class, exponent and mantissa. -/
def rank : UnpackedFloat → ℤ ×ₗ ℤ ×ₗ ℤ
  | .infinity .negative => toLex (-2, toLex (0, 0))
  | .finite .negative m e _ => toLex (-1, toLex (-e, -m))
  | .zero _ => toLex (0, toLex (0, 0))
  | .finite .positive m e _ => toLex (1, toLex (e, m))
  | .infinity .positive => toLex (2, toLex (0, 0))
  | .notANumber => toLex (0, toLex (0, 0))

theorem exists_compare_eq {u v : UnpackedFloat} (hu : u ≠ .notANumber) (hv : v ≠ .notANumber) :
    ∃ o, u.compare v = some o ∧ (o = .lt ↔ rank u < rank v) ∧ (o = .gt ↔ rank v < rank u) := by
  have hsign : (compare Sign.negative Sign.negative, compare Sign.negative Sign.positive,
      compare Sign.positive Sign.negative, compare Sign.positive Sign.positive) =
      (Ordering.eq, Ordering.lt, Ordering.gt, Ordering.eq) := rfl
  simp only [Prod.mk.injEq] at hsign
  rcases u with (_ | _) | _ | _ | ⟨_ | _, m, e, hm⟩ <;>
  rcases v with (_ | _) | _ | _ | ⟨_ | _, m', e', hm'⟩
  all_goals try contradiction
  all_goals
    simp only [UnpackedFloat.compare, Option.some.injEq, exists_eq_left', rank,
      Prod.Lex.toLex_lt_toLex, Ordering.swap_then, Ordering.then_eq_lt, Ordering.then_eq_gt, hsign,
      Ordering.swap_eq_lt, Ordering.swap_eq_gt, Ordering.swap_eq_eq, compare_lt_iff_lt,
      compare_gt_iff_gt, compare_eq_iff_eq, reduceCtorEq]
    norm_num <;> omega

theorem compare_eq_none {u v : UnpackedFloat} (h : u = .notANumber ∨ v = .notANumber) :
    u.compare v = none := by
  obtain rfl | rfl := h
  · rfl
  · cases u <;> rfl

def unpacked (x : Float) : UnpackedFloat := x.toModel.unpack

theorem isNaN_iff {x : Float} : x.isNaN = true ↔ unpacked x = .notANumber :=
  Float.Model.UnpackedFloat.isNaN_iff

/-- A comparison with something that is not a number fails. -/
theorem lt_iff {x y : Float} :
    x < y ↔ x.isNaN = false ∧ y.isNaN = false ∧ rank (unpacked x) < rank (unpacked y) := by
  have hdef : x < y ↔ (unpacked x).compare (unpacked y) = some .lt := by
    change decide (x.toModel < y.toModel) = true ↔ _
    rw [decide_eq_true_iff]
    exact beq_iff_eq
  rw [hdef, ← Bool.not_eq_true, ← Bool.not_eq_true, isNaN_iff, isNaN_iff]
  by_cases h : unpacked x = .notANumber ∨ unpacked y = .notANumber
  · rw [compare_eq_none h]
    simp only [reduceCtorEq, false_iff]
    tauto
  · obtain ⟨hx, hy⟩ := not_or.1 h
    obtain ⟨o, ho, hlt, -⟩ := exists_compare_eq hx hy
    rw [ho, Option.some.injEq, hlt]
    exact ⟨fun h ↦ ⟨hx, hy, h⟩, fun h ↦ h.2.2⟩

theorem le_iff {x y : Float} :
    x ≤ y ↔ x.isNaN = false ∧ y.isNaN = false ∧ rank (unpacked x) ≤ rank (unpacked y) := by
  have hdef : x ≤ y ↔ ((unpacked x).compare (unpacked y)).any Ordering.isLE = true := by
    change decide (x.toModel ≤ y.toModel) = true ↔ _
    rw [decide_eq_true_iff]
    rfl
  rw [hdef, ← Bool.not_eq_true, ← Bool.not_eq_true, isNaN_iff, isNaN_iff]
  by_cases h : unpacked x = .notANumber ∨ unpacked y = .notANumber
  · rw [compare_eq_none h]
    simp only [Option.any_none, Bool.false_eq_true, false_iff]
    tauto
  · obtain ⟨hx, hy⟩ := not_or.1 h
    obtain ⟨o, ho, -, hgt⟩ := exists_compare_eq hx hy
    rw [ho, ← not_lt, ← hgt]
    cases o <;> simp [hx, hy]

/-- Something that is not a number equals nothing, and zeros of both signs are equal. -/
theorem beq_iff {x y : Float} : (x == y) = true ↔
    x.isNaN = false ∧ y.isNaN = false ∧ rank (unpacked x) = rank (unpacked y) := by
  change ((unpacked x).compare (unpacked y) == some .eq) = true ↔ _
  rw [beq_iff_eq, ← Bool.not_eq_true, ← Bool.not_eq_true, isNaN_iff, isNaN_iff]
  by_cases h : unpacked x = .notANumber ∨ unpacked y = .notANumber
  · rw [compare_eq_none h]
    simp only [reduceCtorEq, false_iff]
    tauto
  · obtain ⟨hx, hy⟩ := not_or.1 h
    obtain ⟨o, ho, hlt, hgt⟩ := exists_compare_eq hx hy
    have hrank : rank (unpacked x) = rank (unpacked y) ↔ o ≠ .lt ∧ o ≠ .gt := by
      rw [Ne, Ne, hlt, hgt, not_lt, not_lt, and_comm, ← le_antisymm_iff]
    rw [ho, hrank, Option.some.injEq]
    cases o <;> simp [hx, hy]

protected theorem beq_comm (x y : Float) : (x == y) = (y == x) := by
  rw [Bool.eq_iff_iff, beq_iff, beq_iff]
  exact ⟨fun h ↦ ⟨h.2.1, h.1, h.2.2.symm⟩, fun h ↦ ⟨h.2.1, h.1, h.2.2.symm⟩⟩

section Order

variable {x y z : Float}

theorem not_isNaN_of_lt (h : x < y) : x.isNaN = false ∧ y.isNaN = false :=
  ⟨(lt_iff.1 h).1, (lt_iff.1 h).2.1⟩

theorem not_beq_of_lt (h : x < y) : ¬ (x == y) = true := fun heq ↦
  (lt_iff.1 h).2.2.ne (beq_iff.1 heq).2.2

theorem incomparable_of_isNaN (hx : x.isNaN = true) (y : Float) :
    ¬ (x == y) = true ∧ ¬ x < y := by
  constructor
  · intro h
    cases hx.symm.trans (beq_iff.1 h).1
  · intro h
    cases hx.symm.trans (not_isNaN_of_lt h).1

protected theorem lt_asymm (h : x < y) : ¬ y < x := fun h' ↦
  (lt_iff.1 h).2.2.asymm (lt_iff.1 h').2.2

protected theorem lt_of_le_of_lt (hxy : x ≤ y) (hyz : y < z) : x < z := by
  rw [le_iff] at hxy
  rw [lt_iff] at hyz ⊢
  exact ⟨hxy.1, hyz.2.1, hxy.2.2.trans_lt hyz.2.2⟩

protected theorem le_of_lt (h : x < y) : x ≤ y := by
  rw [lt_iff] at h
  exact le_iff.2 ⟨h.1, h.2.1, h.2.2.le⟩

theorem not_lt_iff (hx : x.isNaN = false) (hy : y.isNaN = false) : ¬ x < y ↔ y ≤ x := by
  rw [lt_iff, le_iff, ← not_lt]
  tauto

protected theorem le_trans (hxy : x ≤ y) (hyz : y ≤ z) : x ≤ z := by
  rw [le_iff] at hxy hyz ⊢
  exact ⟨hxy.1, hyz.2.1, hxy.2.2.trans hyz.2.2⟩

end Order

section Sign

variable {x : Float}

theorem unpacked_zero : unpacked 0 = .zero .positive := rfl

theorem pack_unpacked (x : Float) : unpack .binary64 (pack .binary64 (unpacked x)) = unpacked x :=
  congrArg _ (pack_unpack_of_valid x.toModel.valid)

theorem unpacked_neg (x : Float) : unpacked (-x) = (unpacked x).neg := by
  change unpack .binary64 (pack .binary64 (unpacked x).neg) = _
  rw [unpack_pack_neg, pack_unpacked]

theorem unpacked_abs (x : Float) : unpacked x.abs = (unpacked x).abs := by
  have habs : (unpacked x).abs = unpacked x ∨ (unpacked x).abs = unpacked (-x) := by
    rw [unpacked_neg]
    rcases unpacked x with (_ | _) | _ | (_ | _) | ⟨_ | _, m, e, hm⟩
    all_goals first | exact .inl rfl | exact .inr rfl
  change unpack .binary64 (pack .binary64 (unpacked x).abs) = _
  obtain h | h := habs
  · rw [h, pack_unpacked]
  · rw [h, pack_unpacked]

theorem zero_lt_iff : 0 < x ↔ unpacked x = .infinity .positive ∨
    ∃ m e hm, unpacked x = .finite .positive m e hm := by
  rw [lt_iff, ← Bool.not_eq_true, ← Bool.not_eq_true, isNaN_iff, isNaN_iff, unpacked_zero]
  rcases unpacked x with (_ | _) | _ | _ | ⟨_ | _, m, e, hm⟩ <;>
    simp [rank, Prod.Lex.toLex_lt_toLex]
  exact hm

theorem zero_le_iff : 0 ≤ x ↔ (∃ s, unpacked x = .zero s) ∨ 0 < x := by
  rw [zero_lt_iff, le_iff, ← Bool.not_eq_true, ← Bool.not_eq_true, isNaN_iff, isNaN_iff,
    unpacked_zero]
  rcases unpacked x with (_ | _) | _ | _ | ⟨_ | _, m, e, hm⟩ <;>
    simp [rank, Prod.Lex.toLex_le_toLex]
  exact hm

theorem neg_lt_zero (h : 0 < x) : -x < 0 := by
  rw [lt_iff, ← Bool.not_eq_true, ← Bool.not_eq_true, isNaN_iff, isNaN_iff, unpacked_zero,
    unpacked_neg]
  obtain hx | ⟨m, e, hm, hx⟩ := zero_lt_iff.1 h
  · rw [hx]
    exact ⟨nofun, nofun, by decide⟩
  · rw [hx]
    exact ⟨nofun, nofun, Prod.Lex.toLex_lt_toLex.2 (.inl (by norm_num))⟩

theorem isNaN_neg (x : Float) : (-x).isNaN = x.isNaN := by
  rw [Bool.eq_iff_iff, isNaN_iff, isNaN_iff, unpacked_neg]
  cases unpacked x <;> simp [UnpackedFloat.neg]

theorem sqrt_abs_cases (x : Float) (h : ¬ 0 ≤ x) : 0 < x.abs.sqrt ∨ x.abs.sqrt.isNaN = true := by
  have hsqrt : unpacked x.abs.sqrt =
      unpack .binary64 (pack .binary64 (UnpackedFloat.sqrt .binary64 (unpacked x).abs)) := by
    rw [← unpacked_abs]
    rfl
  rw [zero_le_iff, zero_lt_iff] at h
  rw [zero_lt_iff, isNaN_iff, hsqrt]
  cases hu : unpacked x with
  | notANumber =>
    right
    simp only [UnpackedFloat.abs, UnpackedFloat.sqrt, UnpackedFloat.pack, unpack_packedNaN]
  | infinity s =>
    left; left
    exact unpack_pack_infinity _
  | zero s => exact absurd (.inl ⟨s, hu⟩) h
  | finite s m e hm =>
    left
    obtain ⟨m', e', hm', hroot, hlt, he⟩ := sqrt_finite hm (unpack_exponent_ge hu)
    rw [UnpackedFloat.abs, hroot]
    exact unpack_pack_finite _ hm' hlt he

end Sign

section Scalar

variable {x y : Float}

theorem epsilon_mul_nonneg (h : 0 ≤ x) : 0 ≤ Scalar.epsilon * x := by
  have hmul : unpacked (Scalar.epsilon * x) = unpack .binary64 (pack .binary64
      (UnpackedFloat.mul .binary64 (.finite .positive 4503599627370496 (-104) (by decide))
        (unpacked x))) := rfl
  rw [zero_le_iff, zero_lt_iff] at h ⊢
  rw [hmul]
  obtain ⟨s, h⟩ | h | ⟨m, e, hm, h⟩ := h
  · rw [h]
    exact .inl ⟨_, unpack_pack_zero _⟩
  · rw [h]
    exact .inr (.inl (unpack_pack_infinity _))
  · rw [h]
    obtain ⟨hr, -⟩ | ⟨m', e', hm', hr, hlt, he⟩ := roundWithAccuracy_cases
      (.positive * .positive) (4503599627370496 * m) (-104 + e) .exact
    · left
      rw [UnpackedFloat.mul, hr]
      exact ⟨_, unpack_pack_zero _⟩
    · right
      rw [UnpackedFloat.mul, hr]
      exact unpack_pack_finite _ hm' hlt he

theorem maxNum_nonneg (hx : 0 ≤ x) : 0 ≤ Scalar.maxNum x y := by
  have hself : (x == x) = true :=
    Float.beq_self_iff.2 fun h ↦ by
      rw [h] at hx
      exact absurd hx (by decide)
  rw [Scalar.maxNum, if_pos hself]
  split
  case isTrue h => exact Binary64.le_trans hx (Binary64.le_of_lt h)
  case isFalse => exact hx

end Scalar

end DenseDecomp.Binary64
