import DenseDecomp.Proofs.Binary64.PlaneRotation
import DenseDecomp.Proofs.SweepCount

namespace DenseDecomp

open Scalar Binary64
open Float.Model.UnpackedFloat (Sign)

variable {n : ℕ}

theorem Tuple.set_set_apply {α : Type} (x : Tuple α n) {a b : Fin n} (hab : a ≠ b) (u v : α) :
    ((x.set a u).set b v) a = u ∧ ((x.set a u).set b v) b = v := by
  constructor
  · rw [Tuple.set_apply, if_neg hab, Tuple.set_apply, if_pos rfl]
  · rw [Tuple.set_apply, if_pos rfl]

namespace RealSchur

section Block

variable {x p w : Float}

def farRoot (p w : Float) : Float :=
  if 0 ≤ p then p + (p * p + w).abs.sqrt else p - (p * p + w).abs.sqrt

/-- The product of the corners of a block leaves the range: upwards, or together with the square
that it is added to. -/
def Overflows (p w : Float) : Prop := w.isInf = true ∧ (0 < w ∨ (p * p).isInf = true)

theorem discriminant_of_infinity (hp : p.isNaN = false) (hw : unpacked w = .infinity .positive) :
    unpacked (p * p + w) = .infinity .positive := by
  have hsquare := mul_self_nonneg hp
  exact unpacked_add_infinity (s := .positive) (le_iff.1 hsquare).2.1
    (ne_infinity_of_nonneg hsquare) hw

/-- The square overflows as well, and the sum has no value. -/
theorem isNaN_discriminant_of_infinity (hp : p.isNaN = false)
    (hw : unpacked w = .infinity .negative) (hsquare : (p * p).isInf = true) :
    (p * p + w).isNaN = true := by
  obtain ⟨r, hr⟩ := isInf_iff.1 hsquare
  cases r with
  | positive => exact isNaN_add_iff.2 (.inr (.inr ⟨_, hr, hw⟩))
  | negative => exact absurd hr (ne_infinity_of_nonneg (mul_self_nonneg hp))

theorem exists_farRoot_of_infinity (hp : p.isNaN = false) {s : Sign}
    (hq : unpacked (p * p + w) = .infinity s) : ∃ t, unpacked (farRoot p w) = .infinity t := by
  have hroot := unpacked_sqrt_abs_infinity hq
  rw [farRoot]
  split
  case isTrue h =>
    exact ⟨.positive, unpacked_add_infinity hp (ne_infinity_of_nonneg h) hroot⟩
  case isFalse h =>
    exact ⟨_, unpacked_sub_infinity hp (fun hinf ↦ h (zero_le_of_infinity hinf)) hroot⟩

/-- Both terms have the same sign. -/
theorem isNaN_farRoot (hp : p.isNaN = false) (hq : (p * p + w).isNaN = false) :
    (farRoot p w).isNaN = false := by
  have hroot := sqrt_abs_nonneg hq
  have hnan : (p * p + w).abs.sqrt.isNaN = false := (le_iff.1 hroot).2.1
  rw [farRoot]
  split
  case isTrue h =>
    rw [← Bool.not_eq_true, isNaN_add_iff, hp, hnan]
    rintro (h' | h' | ⟨_ | _, hinf, hinf'⟩)
    · cases h'
    · cases h'
    · exact ne_infinity_of_nonneg h hinf
    · exact ne_infinity_of_nonneg hroot hinf'
  case isFalse h =>
    rw [← Bool.not_eq_true, isNaN_sub_iff, hp, hnan]
    rintro (h' | h' | ⟨_ | _, hinf, hinf'⟩)
    · cases h'
    · cases h'
    · exact ne_infinity_of_nonneg hroot hinf'
    · exact h (zero_le_of_infinity hinf)

theorem isNaN_discriminant (hp : p.isNaN = false) (hw : w.isNaN = false)
    (h : ¬ Overflows p w) : (p * p + w).isNaN = false := by
  have hsquare := mul_self_nonneg hp
  rw [← Bool.not_eq_true, isNaN_add_iff, (le_iff.1 hsquare).2.1, hw]
  rintro (h' | h' | ⟨s, hinf, hinf'⟩)
  · cases h'
  · cases h'
  · exact h ⟨isInf_iff.2 ⟨_, hinf'⟩, .inr (isInf_iff.2 ⟨_, hinf⟩)⟩

/-- A product that leaves the range downwards makes a conjugate pair. -/
theorem ne_infinity_of_discriminant_nonneg (hp : p.isNaN = false) (h : ¬ Overflows p w)
    (hq : 0 ≤ p * p + w) (s : Sign) : unpacked w ≠ .infinity s := by
  intro hw
  have hsquare := mul_self_nonneg hp
  cases s with
  | positive => exact h ⟨isInf_iff.2 ⟨_, hw⟩, .inl (zero_lt_iff.2 (.inl hw))⟩
  | negative =>
    refine ne_infinity_of_nonneg hq (unpacked_add_infinity (le_iff.1 hsquare).2.1 ?_ hw)
    intro hinf
    exact h ⟨isInf_iff.2 ⟨_, hw⟩, .inr (isInf_iff.2 ⟨_, hinf⟩)⟩

theorem isNaN_nearRoot (hx : x.isFinite = true) (hp : p.isNaN = false) (hw : w.isNaN = false)
    (h : ¬ Overflows p w) (hq : 0 ≤ p * p + w) (hfar : ¬ (farRoot p w == 0) = true) :
    (x - w / farRoot p w).isNaN = false := by
  refine isNaN_sub_of_isFinite hx ?_
  have hnan := isNaN_farRoot hp (isNaN_discriminant hp hw h)
  rw [← Bool.not_eq_true, isNaN_div_iff, hw, hnan]
  rintro (h' | h' | ⟨s, t, ⟨hinf, -⟩ | ⟨-, hzero⟩⟩)
  · cases h'
  · cases h'
  · exact ne_infinity_of_discriminant_nonneg hp h hq s hinf
  · exact hfar (beq_zero_iff.2 ⟨t, hzero⟩)

theorem isNaN_nearRoot_of_infinity (hp : p.isNaN = false) (hw : unpacked w = .infinity .positive) :
    (farRoot p w == 0) = false ∧ (x - w / farRoot p w).isNaN = true := by
  obtain ⟨t, ht⟩ := exists_farRoot_of_infinity hp (discriminant_of_infinity hp hw)
  constructor
  · rw [← Bool.not_eq_true, beq_zero_iff, ht]
    rintro ⟨s, hs⟩
    cases hs
  · have hdiv : (w / farRoot p w).isNaN = true :=
      isNaN_div_iff.2 (.inr (.inr ⟨.positive, t, .inl ⟨hw, ht⟩⟩))
    exact isNaN_sub_iff.2 (.inr (.inl hdiv))

end Block

def NotNumber (s : RealSchur Float n) (i : Fin n) : Prop :=
  (s.re i).isNaN = true ∨ (s.im i).isNaN = true

section Single

variable {s : RealSchur Float n} {i b : Fin n}

theorem notNumber_deflateOne (s : RealSchur Float n) (b : Fin n) :
    (s.deflateOne b).NotNumber b ↔ (s.form b b + s.shift).isNaN = true := by
  rw [NotNumber, deflateOne, Tuple.set_apply, if_pos rfl, Tuple.set_apply, if_pos rfl]
  exact or_iff_left (by decide)

theorem notNumber_deflateOne_of_ne (h : i ≠ b) :
    (s.deflateOne b).NotNumber i ↔ s.NotNumber i := by
  rw [NotNumber, deflateOne, Tuple.set_apply, if_neg h, Tuple.set_apply, if_neg h, NotNumber]

end Single

section Pair

variable {s : RealSchur Float n} {a b : Fin n} {x p w : Float}

theorem deflatePair_eq_splitPair (hp : (s.form a a - s.form b b) / 2.0 = p)
    (hw : s.form b a * s.form a b = w) (hq : 0 ≤ p * p + w) :
    s.deflatePair a b = s.splitPair a b (farRoot p w) w := by
  subst hp hw
  exact if_pos hq

theorem deflatePair_of_nonneg (hab : a ≠ b) (hx : s.form b b + s.shift = x)
    (hp : (s.form a a - s.form b b) / 2.0 = p) (hw : s.form b a * s.form a b = w)
    (hq : 0 ≤ p * p + w) :
    (s.deflatePair a b).re a = x + farRoot p w ∧
      (s.deflatePair a b).re b =
        (if farRoot p w == 0 then x + farRoot p w else x - w / farRoot p w) ∧
      (s.deflatePair a b).im a = 0 ∧ (s.deflatePair a b).im b = 0 := by
  subst hx
  rw [deflatePair_eq_splitPair hp hw hq]
  obtain ⟨hra, hrb⟩ := Tuple.set_set_apply s.re hab _ _
  obtain ⟨hia, hib⟩ := Tuple.set_set_apply s.im hab _ _
  exact ⟨hra, hrb, hia, hib⟩

theorem deflatePair_of_not_nonneg (hab : a ≠ b) (hx : s.form b b + s.shift = x)
    (hp : (s.form a a - s.form b b) / 2.0 = p) (hw : s.form b a * s.form a b = w)
    (hq : ¬ 0 ≤ p * p + w) :
    (s.deflatePair a b).re a = x + p ∧ (s.deflatePair a b).re b = x + p ∧
      (s.deflatePair a b).im a = (p * p + w).abs.sqrt ∧
      (s.deflatePair a b).im b = -(p * p + w).abs.sqrt := by
  subst hx hp hw
  rw [deflatePair]
  split
  case isTrue h => exact absurd h hq
  case isFalse h =>
    obtain ⟨hra, hrb⟩ := Tuple.set_set_apply s.re hab _ _
    obtain ⟨hia, hib⟩ := Tuple.set_set_apply s.im hab _ _
    exact ⟨hra, hrb, hia, hib⟩

theorem deflatePair_rest_of_not_nonneg (hp : (s.form a a - s.form b b) / 2.0 = p) (hw : s.form b a * s.form a b = w)
    (hq : ¬ 0 ≤ p * p + w) :
    (s.deflatePair a b).basis = s.basis ∧ (s.deflatePair a b).form = s.unshiftPair a b := by
  subst hp hw
  rw [deflatePair]
  split
  case isTrue h => exact absurd h hq
  case isFalse h => exact ⟨rfl, rfl⟩

theorem notNumber_deflatePair_of_overflows (hab : a ≠ b) (hx : s.form b b + s.shift = x)
    (hp : (s.form a a - s.form b b) / 2.0 = p) (hw : s.form b a * s.form a b = w)
    (hpnan : p.isNaN = false) (h : Overflows p w) :
    (s.deflatePair a b).NotNumber a ∨ (s.deflatePair a b).NotNumber b := by
  obtain ⟨hinf, hside⟩ := h
  obtain ⟨t, ht⟩ := isInf_iff.1 hinf
  rw [NotNumber, NotNumber]
  cases t with
  | positive =>
    -- Far root and product are both infinite, and the near root is their quotient.
    have hq := zero_le_of_infinity (discriminant_of_infinity hpnan ht)
    obtain ⟨-, hre, -, -⟩ := deflatePair_of_nonneg hab hx hp hw hq
    obtain ⟨hne, hnan⟩ := isNaN_nearRoot_of_infinity (x := x) hpnan ht
    rw [hne, if_neg Bool.false_ne_true] at hre
    rw [hre]
    exact .inr (.inl hnan)
  | negative =>
    -- A discriminant that is not a number passes for a negative one.
    have hneg : ¬ 0 < w := by
      rw [zero_lt_infinity_iff ht]
      exact nofun
    have hqnan := isNaN_discriminant_of_infinity hpnan ht (hside.resolve_left hneg)
    have hq : ¬ 0 ≤ p * p + w := fun hq ↦ by
      rw [(le_iff.1 hq).2.1] at hqnan
      cases hqnan
    obtain ⟨-, -, him, -⟩ := deflatePair_of_not_nonneg hab hx hp hw hq
    rw [him]
    exact .inl (.inr (isNaN_sqrt_abs hqnan))

theorem not_notNumber_deflatePair (hab : a ≠ b) (hx : s.form b b + s.shift = x)
    (hp : (s.form a a - s.form b b) / 2.0 = p) (hw : s.form b a * s.form a b = w)
    (hxfin : x.isFinite = true) (hpnan : p.isNaN = false) (hwnan : w.isNaN = false)
    (h : ¬ Overflows p w) :
    ¬ ((s.deflatePair a b).NotNumber a ∨ (s.deflatePair a b).NotNumber b) := by
  have hzero : (0 : Float).isNaN = false := rfl
  have hqnan := isNaN_discriminant hpnan hwnan h
  rw [NotNumber, NotNumber]
  by_cases hq : 0 ≤ p * p + w
  · obtain ⟨hra, hrb, hia, hib⟩ := deflatePair_of_nonneg hab hx hp hw hq
    have hfirst : (x + farRoot p w).isNaN = false :=
      isNaN_add_of_isFinite hxfin (isNaN_farRoot hpnan hqnan)
    have hsecond : (if farRoot p w == 0 then x + farRoot p w else x - w / farRoot p w).isNaN =
        false := by
      split
      case isTrue => exact hfirst
      case isFalse hfar => exact isNaN_nearRoot hxfin hpnan hwnan h hq hfar
    rw [hra, hrb, hia, hib, hfirst, hsecond, hzero]
    decide
  · obtain ⟨hra, hrb, hia, hib⟩ := deflatePair_of_not_nonneg hab hx hp hw hq
    have hcenter : (x + p).isNaN = false := isNaN_add_of_isFinite hxfin hpnan
    have hroot : (p * p + w).abs.sqrt.isNaN = false := (le_iff.1 (sqrt_abs_nonneg hqnan)).2.1
    rw [hra, hrb, hia, hib, isNaN_neg, hcenter, hroot]
    decide

/-- The eigenvalues of a finite block are numbers unless the product of its corners leaves the
range. -/
theorem notNumber_deflatePair_iff (hab : a ≠ b) (hx : s.form b b + s.shift = x)
    (hp : (s.form a a - s.form b b) / 2.0 = p) (hw : s.form b a * s.form a b = w)
    (hxfin : x.isFinite = true) (hpnan : p.isNaN = false) (hwnan : w.isNaN = false) :
    (s.deflatePair a b).NotNumber a ∨ (s.deflatePair a b).NotNumber b ↔ Overflows p w := by
  constructor
  · intro hnan
    by_contra h
    exact not_notNumber_deflatePair hab hx hp hw hxfin hpnan hwnan h hnan
  · exact notNumber_deflatePair_of_overflows hab hx hp hw hpnan

end Pair

section Basis

variable {s : RealSchur Float n} {a b r : Fin n} {p w z : Float}

theorem basis_splitPair (hab : a ≠ b) (z w : Float) (s : RealSchur Float n) (r : Fin n) :
    (s.splitPair a b z w).basis r a = turn (s.form b a) z z * s.basis r a -
        -turn (s.form b a) z (s.form b a) * s.basis r b ∧
      (s.splitPair a b z w).basis r b = -turn (s.form b a) z (s.form b a) * s.basis r a +
        turn (s.form b a) z z * s.basis r b :=
  ⟨Grid.rotateColumns_left trivial, Grid.rotateColumns_right trivial hab.symm⟩

/-- A rotation without a direction leaves nothing of both columns. -/
theorem isNaN_basis_splitPair (hab : a ≠ b) (h : ¬ Turns (s.form b a) z) (w : Float) (r : Fin n) :
    ((s.splitPair a b z w).basis r a).isNaN = true ∧
      ((s.splitPair a b z w).basis r b).isNaN = true := by
  obtain ⟨ha, hb⟩ := basis_splitPair hab z w s r
  rw [ha, hb]
  exact isNaN_rotated h _ _

theorem isFinite_basis_splitPair (hab : a ≠ b) (h : Turns (s.form b a) z) (w : Float)
    (ha : (s.basis r a).isFinite = true) (hb : (s.basis r b).isFinite = true)
    (hale : |toReal (s.basis r a)| ≤ maxFinite / 16)
    (hble : |toReal (s.basis r b)| ≤ maxFinite / 16) :
    ((s.splitPair a b z w).basis r a).isFinite = true ∧
      ((s.splitPair a b z w).basis r b).isFinite = true := by
  obtain ⟨ha', hb'⟩ := basis_splitPair hab z w s r
  rw [ha', hb']
  exact h.rotated ha hb hale hble

/-- Two real roots cost the basis its numbers exactly where the rotation has no direction. -/
theorem isNaN_basis_deflatePair_iff (hab : a ≠ b) (hp : (s.form a a - s.form b b) / 2.0 = p)
    (hw : s.form b a * s.form a b = w) (hq : 0 ≤ p * p + w) (r : Fin n)
    (ha : (s.basis r a).isFinite = true) (hb : (s.basis r b).isFinite = true)
    (hale : |toReal (s.basis r a)| ≤ maxFinite / 16)
    (hble : |toReal (s.basis r b)| ≤ maxFinite / 16) :
    (((s.deflatePair a b).basis r a).isNaN = true ∨
      ((s.deflatePair a b).basis r b).isNaN = true) ↔ ¬ Turns (s.form b a) (farRoot p w) := by
  rw [deflatePair_eq_splitPair hp hw hq]
  constructor
  · intro hnan hturns
    obtain ⟨ha', hb'⟩ := isFinite_basis_splitPair hab hturns w ha hb hale hble
    obtain hnan | hnan := hnan
    · cases (of_isFinite ha').1.symm.trans hnan
    · cases (of_isFinite hb').1.symm.trans hnan
  · intro hturns
    exact .inl (isNaN_basis_splitPair hab hturns w r).1

end Basis

end RealSchur

namespace Spectrum

variable {config : EigenConfig}

theorem exists_ofHessenberg_of_settle {form basis : Grid Float n n} {s : RealSchur Float n}
    (hs : (RealSchur.settle config (RealSchur.hessenbergNorm form) n le_rfl 0
      (.ofHessenberg form basis)).outcome = .ok s) :
    ∃ v, (ofHessenberg config form basis).outcome = .ok ⟨v, s.re, s.im⟩ := by
  by_cases hnorm : (RealSchur.hessenbergNorm form == 0) = true
  · exact ⟨s.basis, ofHessenberg_of_norm_zero hs hnorm⟩
  · obtain ⟨x, hx⟩ := exists_eigenvectors_of_settle hs
    exact ⟨changeBasis s.basis x, ofHessenberg_of_eigenvectors hs hnorm hx⟩

end Spectrum

end DenseDecomp
