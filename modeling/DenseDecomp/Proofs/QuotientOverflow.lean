import Mathlib
import DenseDecomp.Proofs.Binary64.ScaledDivision
import DenseDecomp.Proofs.Eigenvectors.ComplexQuotient

namespace DenseDecomp

namespace Scalar

variable {α : Type} [Scalar α]

def scaledDivisor (c d : α) : α :=
  if abs d < abs c then c + d / c * d else d + c / d * c

def complexNumerators (a b c d : α) : α × α :=
  if abs d < abs c then (a + d / c * b, b - d / c * a) else (c / d * a + b, c / d * b - a)

theorem complexQuotient_eq (a b c d : α) : complexQuotient a b c d =
    ((complexNumerators a b c d).1 / scaledDivisor c d,
      (complexNumerators a b c d).2 / scaledDivisor c d) := by
  rw [complexQuotient, complexNumerators, scaledDivisor]
  split
  case isTrue => rfl
  case isFalse => rfl

end Scalar

namespace Binary64

open Scalar

section Quotient

theorem dividend_eq (A B : ℝ) {C D : ℝ} (h : C ≠ 0 ∨ D ≠ 0) :
    A = ((⟨A, B⟩ : ℂ) / ⟨C, D⟩).re * C - ((⟨A, B⟩ : ℂ) / ⟨C, D⟩).im * D ∧
      B = ((⟨A, B⟩ : ℂ) / ⟨C, D⟩).re * D + ((⟨A, B⟩ : ℂ) / ⟨C, D⟩).im * C := by
  have hne : (⟨C, D⟩ : ℂ) ≠ 0 := by
    intro hzero
    obtain ⟨hC, hD⟩ := Complex.ext_iff.1 hzero
    exact h.elim (· hC) (· hD)
  have hmul := div_mul_cancel₀ (⟨A, B⟩ : ℂ) hne
  obtain ⟨hre, him⟩ := Complex.ext_iff.1 hmul
  exact ⟨hre.symm, him.symm⟩

/-- The dividend is at most twice the quotient times the larger part of the divisor. -/
theorem abs_dividend_le {M G x y A B C D : ℝ} (hA : A = x * C - y * D) (hB : B = x * D + y * C)
    (hx : |x| ≤ M / 2) (hy : |y| ≤ M / 2) (hC : |C| ≤ G) (hD : |D| ≤ G) :
    |A| ≤ M * G ∧ |B| ≤ M * G := by
  have hM : 0 ≤ M / 2 := (abs_nonneg x).trans hx
  have hterm {s t : ℝ} (hs : |s| ≤ M / 2) (ht : |t| ≤ G) : |s * t| ≤ M / 2 * G := by
    rw [abs_mul]
    exact mul_le_mul hs ht (abs_nonneg t) hM
  rw [hA, hB]
  constructor
  · linarith [abs_sub (x * C) (y * D), hterm hx hC, hterm hy hD]
  · linarith [abs_add_le (x * D) (y * C), hterm hx hD, hterm hy hC]

theorem larger_ne_zero {C D : ℝ} (h : C ≠ 0 ∨ D ≠ 0) (hle : |D| ≤ |C|) : C ≠ 0 := by
  rintro rfl
  rw [abs_zero] at hle
  exact h.elim (· rfl) fun hD ↦ hD (abs_nonpos_iff.1 hle)

theorem numerators_eq {x y A B C D : ℝ} (hA : A = x * C - y * D) (hB : B = x * D + y * C)
    (hC : C ≠ 0) :
    A + D / C * B = x * (C + D / C * D) ∧ B + D / C * -A = y * (C + D / C * D) := by
  rw [hA, hB]
  constructor
  · field_simp
    ring
  · field_simp
    ring

/-- Each quotient by `s` is finite where its numerator is, and both are for a dividend `(A, B)` that
leaves room for a factor two. -/
structure Guarded (p p' s : Float) (A B : ℝ) : Prop where
  fst : (p / s).isFinite = true ↔ p.isFinite = true
  snd : (p' / s).isFinite = true ↔ p'.isFinite = true
  both : |A| ≤ maxFinite / 2 → |B| ≤ maxFinite / 2 →
    (p / s).isFinite = true ∧ (p' / s).isFinite = true

variable {a b c d : Float} {x y : ℝ}

section Branches

variable (ha : a.isFinite = true) (hb : b.isFinite = true) (hc : c.isFinite = true)
  (hd : d.isFinite = true) (hA : toReal a = x * toReal c - y * toReal d)
  (hB : toReal b = x * toReal d + y * toReal c) (hx : |x| ≤ maxFinite / 2)
  (hy : |y| ≤ maxFinite / 2)

include ha hb hc hd hA hB hx hy

theorem guarded_of_larger_re (hle : |toReal d| ≤ |toReal c|) (hne : toReal c ≠ 0) :
    Guarded (a + d / c * b) (b - d / c * a) (c + d / c * d) (toReal a) (toReal b) := by
  obtain ⟨hrangeA, hrangeB⟩ := abs_dividend_le hA hB hx hy le_rfl hle
  obtain ⟨hexact, hexact'⟩ := numerators_eq hA hB hne
  obtain ⟨hr, hR, hq⟩ := ratio_spec hd hc hne hle
  have hone := hR.abs_le_one hq
  have hfst := SumOfProduct.of_product hr hone hb (multiple_toReal a)
    (rounds_add ha (product_spec hr hone hb).1)
  have hsnd := SumOfProduct.of_neg_product hr hone ha (multiple_toReal b)
    (rounds_sub hb (product_spec hr hone ha).1)
  rw [← abs_neg] at hrangeA
  have hfst' := hfst.isFinite_div_iff hd hc hne hle hrangeB hx hexact
  have hsnd' := hsnd.isFinite_div_iff hd hc hne hle hrangeA hy hexact'
  refine ⟨hfst', hsnd', fun hsmall hsmall' ↦ ⟨hfst'.2 ?_, hsnd'.2 ?_⟩⟩
  · exact hfst.isFinite hsmall hsmall'
  · exact hsnd.isFinite hsmall' (by rwa [abs_neg])

theorem guarded_of_larger_im (hle : |toReal c| ≤ |toReal d|) (hne : toReal d ≠ 0) :
    Guarded (c / d * a + b) (c / d * b - a) (d + c / d * c) (toReal a) (toReal b) := by
  obtain ⟨hrangeA, hrangeB⟩ := abs_dividend_le hA hB hx hy hle le_rfl
  -- The parts change places, and the imaginary part its sign.
  have hB' : toReal b = x * toReal d - -y * toReal c := by rw [hB, neg_mul, sub_neg_eq_add]
  have hA' : toReal a = x * toReal c + -y * toReal d := by rw [hA, neg_mul, sub_eq_add_neg]
  obtain ⟨hexact, hflipped⟩ := numerators_eq hB' hA' hne
  have hexact' : -toReal a + toReal c / toReal d * toReal b =
      y * (toReal d + toReal c / toReal d * toReal c) := by linarith
  obtain ⟨hr, hR, hq⟩ := ratio_spec hc hd hne hle
  have hone := hR.abs_le_one hq
  have hsum : Rounds (toReal b + toReal (c / d * a)) (unpacked (c / d * a + b)) := by
    rw [add_comm]
    exact rounds_add (product_spec hr hone ha).1 hb
  have hdiff : Rounds (-toReal a + toReal (c / d * b)) (unpacked (c / d * b - a)) := by
    rw [neg_add_eq_sub]
    exact rounds_sub (product_spec hr hone hb).1 ha
  have hfst := SumOfProduct.of_product hr hone ha (multiple_toReal b) hsum
  have hsnd := SumOfProduct.of_product hr hone hb (multiple_toReal a).neg hdiff
  have hfst' := hfst.isFinite_div_iff hc hd hne hle hrangeA hx hexact
  have hsnd' := hsnd.isFinite_div_iff hc hd hne hle hrangeB hy hexact'
  refine ⟨hfst', hsnd', fun hsmall hsmall' ↦ ⟨hfst'.2 ?_, hsnd'.2 ?_⟩⟩
  · exact hfst.isFinite hsmall' hsmall
  · exact hsnd.isFinite (by rwa [abs_neg]) hsmall'

end Branches

/-- Where the parts of the exact quotient leave room for a factor two, a part of the result is
finite exactly when the sum that is divided is; and this is so where the dividend leaves as much
room. -/
theorem complexQuotient_isFinite_iff (ha : a.isFinite = true) (hb : b.isFinite = true)
    (hc : c.isFinite = true) (hd : d.isFinite = true) (hne : toReal c ≠ 0 ∨ toReal d ≠ 0)
    (hre : |((⟨toReal a, toReal b⟩ : ℂ) / ⟨toReal c, toReal d⟩).re| ≤ maxFinite / 2)
    (him : |((⟨toReal a, toReal b⟩ : ℂ) / ⟨toReal c, toReal d⟩).im| ≤ maxFinite / 2) :
    (((complexQuotient a b c d).1.isFinite = true ↔
        (complexNumerators a b c d).1.isFinite = true) ∧
      ((complexQuotient a b c d).2.isFinite = true ↔
        (complexNumerators a b c d).2.isFinite = true)) ∧
    (|toReal a| ≤ maxFinite / 2 → |toReal b| ≤ maxFinite / 2 →
      (complexQuotient a b c d).1.isFinite = true ∧
        (complexQuotient a b c d).2.isFinite = true) := by
  obtain ⟨hA, hB⟩ := dividend_eq (toReal a) (toReal b) hne
  rw [complexQuotient_eq, complexNumerators, scaledDivisor]
  split
  case isTrue hbranch =>
    have hle : |toReal d| ≤ |toReal c| :=
      abs_toReal_le_of_abs_le hd hc (Binary64.le_of_lt hbranch)
    obtain ⟨hfst, hsnd, hboth⟩ :=
      guarded_of_larger_re ha hb hc hd hA hB hre him hle (larger_ne_zero hne hle)
    exact ⟨⟨hfst, hsnd⟩, hboth⟩
  case isFalse hbranch =>
    have hle : |toReal c| ≤ |toReal d| := by
      refine abs_toReal_le_of_abs_le hc hd ((not_lt_iff ?_ ?_).1 hbranch)
      · exact (isNaN_abs d).trans (of_isFinite hd).1
      · exact (isNaN_abs c).trans (of_isFinite hc).1
    obtain ⟨hfst, hsnd, hboth⟩ :=
      guarded_of_larger_im ha hb hc hd hA hB hre him hle (larger_ne_zero hne.symm hle)
    exact ⟨⟨hfst, hsnd⟩, hboth⟩

def halfMax : Float := Float.ofBits 0x7FDFFFFFFFFFFFFF

theorem toReal_halfMax : toReal halfMax = maxFinite / 2 := by
  have hunpacked : unpacked halfMax = .finite .positive (2 ^ 53 - 1) 970 (by decide) := rfl
  have hpow : (2 : ℝ) ^ (971 : ℤ) = 2 ^ (970 : ℤ) * 2 := zpow_add_one₀ two_ne_zero 970
  rw [toReal_of_finite hunpacked, signed, maxFinite_eq, hpow, ← mul_assoc,
    mul_div_cancel_right₀ _ two_ne_zero]

theorem complexQuotient_isFinite_iff_half :
    toReal halfMax = maxFinite / 2 ∧
      ((⟨toReal halfMax, toReal halfMax⟩ : ℂ) / ⟨toReal 1.0, toReal 1.0⟩).re = maxFinite / 2 ∧
      ((⟨toReal halfMax, toReal halfMax⟩ : ℂ) / ⟨toReal 1.0, toReal 1.0⟩).im = 0 ∧
      (complexQuotient halfMax halfMax 1.0 1.0).1.isFinite = true ∧
      (complexQuotient halfMax halfMax 1.0 1.0).2.isFinite = true := by
  have hunit : toReal 1.0 = 1 := toReal_one
  have hre : ((⟨toReal halfMax, toReal halfMax⟩ : ℂ) / ⟨toReal 1.0, toReal 1.0⟩).re =
      maxFinite / 2 := by
    rw [hunit, Complex.div_re, Complex.normSq_mk, toReal_halfMax]
    ring
  have him : ((⟨toReal halfMax, toReal halfMax⟩ : ℂ) / ⟨toReal 1.0, toReal 1.0⟩).im = 0 := by
    rw [hunit, Complex.div_im]
    ring
  have hpos : 0 ≤ maxFinite / 2 := (half_pos maxFinite_pos).le
  have hhalf : |toReal halfMax| ≤ maxFinite / 2 := by
    rw [toReal_halfMax, abs_of_nonneg hpos]
  have hone : toReal 1.0 ≠ 0 := by
    rw [hunit]
    exact one_ne_zero
  refine ⟨toReal_halfMax, hre, him,
    (complexQuotient_isFinite_iff rfl rfl rfl rfl (.inl hone) ?_ ?_).2 hhalf hhalf⟩
  · rw [hre, abs_of_nonneg hpos]
  · rw [him, abs_zero]
    exact hpos

def negHuge : Float := Float.ofBits 0xFFE0000000000000

/-- The quotient is `-2 ^ 1022 * I`, and the sum that its imaginary part divides overflows. -/
theorem not_forall_complexQuotient_isFinite :
    ¬ ∀ a b c d : Float, a.isFinite = true → b.isFinite = true → c.isFinite = true →
      d.isFinite = true → (toReal c ≠ 0 ∨ toReal d ≠ 0) →
      |((⟨toReal a, toReal b⟩ : ℂ) / ⟨toReal c, toReal d⟩).re| ≤ maxFinite / 2 →
      |((⟨toReal a, toReal b⟩ : ℂ) / ⟨toReal c, toReal d⟩).im| ≤ maxFinite / 2 →
      (complexQuotient a b c d).1.isFinite = true ∧
        (complexQuotient a b c d).2.isFinite = true := by
  intro h
  have htwo : toReal 2.0 = 2 := by
    have hunpacked : unpacked 2.0 = .finite .positive (2 ^ 52) (-51) (by decide) := rfl
    rw [toReal_of_finite hunpacked, signed]
    norm_num
  have hre (x : ℝ) : ((⟨x, x⟩ : ℂ) / ⟨2, -2⟩).re = 0 := by
    rw [Complex.div_re]
    ring
  have him (x : ℝ) : ((⟨x, x⟩ : ℂ) / ⟨2, -2⟩).im = x / 2 := by
    rw [Complex.div_im, Complex.normSq_mk]
    ring
  have hlost : (complexQuotient negHuge negHuge 2.0 (-2.0)).2.isFinite = false := by
    decide +kernel
  have hfinite := (h negHuge negHuge 2.0 (-2.0) rfl rfl rfl rfl ?_ ?_ ?_).2
  · rw [hlost] at hfinite
    cases hfinite
  · left
    rw [htwo]
    exact two_ne_zero
  · rw [toReal_neg, htwo, hre, abs_zero]
    exact (half_pos maxFinite_pos).le
  · rw [toReal_neg, htwo, him, abs_div, abs_two]
    exact div_le_div_of_nonneg_right (abs_toReal_le negHuge) two_pos.le

end Quotient

end Binary64

end DenseDecomp
