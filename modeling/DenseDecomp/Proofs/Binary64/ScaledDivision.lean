import Mathlib
import DenseDecomp.Proofs.Binary64.RoundedArithmetic

namespace DenseDecomp.Binary64

open Float.Model.UnpackedFloat (Sign)

section Estimates

variable {x w G q R T S : ℝ}

/-- Both terms of the scaled divisor have the same sign. -/
theorem abs_add_product (hR : Nearest q R) (hT : Nearest (R * (q * G)) T) :
    |G + T| = |G| + |T| := by
  have hsign : 0 ≤ q * R := hR.sign_nonneg
  have hproduct : R * (q * G) = q * R * G := by ring
  rw [hproduct] at hT
  obtain hneg | hpos := le_total G 0
  · have hT' : T ≤ 0 := hT.nonpos (mul_nonpos_of_nonneg_of_nonpos hsign hneg)
    exact (abs_add_eq_add_abs_iff G T).2 (.inr ⟨hneg, hT'⟩)
  · have hT' : 0 ≤ T := hT.nonneg (mul_nonneg hsign hpos)
    exact (abs_add_eq_add_abs_iff G T).2 (.inl ⟨hpos, hT'⟩)

theorem le_abs_product (hq : |q| ≤ 1) (hG : 2 * halfLeast ≤ |G|) (hR : Nearest q R)
    (hT : Nearest (R * (q * G)) T) : (499 / 500 * q ^ 2 - 501 / 1000) * |G| ≤ |T| := by
  have hη : halfLeast ≤ 1 / 1000 := halfLeast_le.trans roundoff_le
  have hratio : 999 / 1000 * |q| - 1 / 1000 ≤ |R| := by linarith [hR.le_abs]
  have hsquare : 499 / 500 * q ^ 2 - 1 / 1000 ≤ 999 / 1000 * (|R| * |q|) := by
    have hmul := mul_le_mul_of_nonneg_right hratio (abs_nonneg q)
    have hself : |q| * |q| = q ^ 2 := by rw [abs_mul_abs_self, sq]
    have hpos := sq_nonneg q
    linarith
  have hproduct : |R * (q * G)| = |R| * |q| * |G| := by rw [abs_mul, abs_mul, mul_assoc]
  have hlow := hT.le_abs
  rw [hproduct] at hlow
  have hscaled := mul_le_mul_of_nonneg_right hsquare (abs_nonneg G)
  linarith

/-- The scaled divisor is close to its exact value, even where a product in it underflows. -/
theorem le_abs_divisor (hq : |q| ≤ 1) (hG : 2 * halfLeast ≤ |G|) (hR : Nearest q R)
    (hT : Nearest (R * (q * G)) T) (hsum : Multiple (G + T)) (hS : Nearest (G + T) S) :
    59 / 100 * (1 + q ^ 2) * |G| ≤ |S| := by
  have hproduct := le_abs_product hq hG hR hT
  have hexact : 3 / 5 * (1 + q ^ 2) * |G| ≤ |G + T| := by
    rw [abs_add_product hR hT]
    have hpos := abs_nonneg G
    obtain hsmall | hlarge := le_total (q ^ 2) (2 / 3)
    · have hscaled := mul_le_mul_of_nonneg_right hsmall hpos
      have hT' := abs_nonneg T
      linarith
    · have hscaled := mul_le_mul_of_nonneg_right hlarge hpos
      linarith
  have hS' := hS.le_abs_of_multiple hsum
  have hpos : 0 ≤ (1 + q ^ 2) * |G| := by positivity
  linarith

theorem abs_product_sub_le {v Q : ℝ} (hq : |q| ≤ 1) (hR : Nearest q R) (hQ : Nearest (R * v) Q) :
    |Q - q * v| ≤ 3 * roundoff * |v| + halfLeast := by
  have hratio : |R - q| ≤ 2 * roundoff := by
    have hu := mul_le_mul_of_nonneg_left hq roundoff_pos.le
    linarith [hR.error_le, halfLeast_le]
  have hproduct : |Q - R * v| ≤ roundoff * |v| + halfLeast := by
    have hle : |R * v| ≤ |v| := by
      rw [abs_mul]
      exact mul_le_of_le_one_left (abs_nonneg v) (hR.abs_le_one hq)
    have hu := mul_le_mul_of_nonneg_left hle roundoff_pos.le
    linarith [hQ.error_le]
  calc
    |Q - q * v| ≤ |Q - R * v| + |(R - q) * v| := by
      rw [sub_mul]
      exact abs_sub_le Q (R * v) (q * v)
    _ ≤ (roundoff * |v| + halfLeast) + 2 * roundoff * |v| := by
      rw [abs_mul]
      exact add_le_add hproduct (mul_le_mul_of_nonneg_right hratio (abs_nonneg v))
    _ = 3 * roundoff * |v| + halfLeast := by ring

theorem abs_numerator_le {M v Q P : ℝ} (hM : 1 ≤ roundoff * M) (hq : |q| ≤ 1)
    (hG : 2 * halfLeast ≤ |G|) (hR : Nearest q R) (hQ : Nearest (R * v) Q) (hv : |v| ≤ M * |G|)
    (hexact : |x + q * v| ≤ M / 2 * ((1 + q ^ 2) * |G|)) (hsum : Multiple (x + Q))
    (hP : Nearest (x + Q) P) :
    |P| ≤ 29 / 50 * (1 + q ^ 2) * (M * |G|) := by
  have hu := roundoff_le
  have hN : 0 ≤ M * |G| := (abs_nonneg v).trans hv
  have hunit : |G| ≤ 1 / 1000 * (M * |G|) :=
    calc
      |G| ≤ roundoff * M * |G| := le_mul_of_one_le_left (abs_nonneg G) hM
      _ ≤ 1 / 1000 * (M * |G|) := by
        rw [mul_assoc]
        exact mul_le_mul_of_nonneg_right hu hN
  have hlost : |Q - q * v| ≤ 7 / 2000 * (M * |G|) := by
    have hscaled : 3 * roundoff * |v| ≤ 3 / 1000 * (M * |G|) :=
      mul_le_mul (by linarith) hv (abs_nonneg v) (by norm_num)
    linarith [abs_product_sub_le hq hR hQ]
  have hsum' : |x + Q| ≤ M / 2 * ((1 + q ^ 2) * |G|) + 7 / 2000 * (M * |G|) := by
    have hsplit : x + Q = x + q * v + (Q - q * v) := by ring
    rw [hsplit]
    exact (abs_add_le _ _).trans (add_le_add hexact hlost)
  have hP' : |P| ≤ 1001 / 1000 * |x + Q| := by
    have htriangle := abs_sub_abs_le_abs_sub P (x + Q)
    have herror := hP.error_le_of_multiple hsum
    have hscaled := mul_le_mul_of_nonneg_right hu (abs_nonneg (x + Q))
    linarith
  have hsquare : 0 ≤ q ^ 2 * (M * |G|) := mul_nonneg (sq_nonneg q) hN
  linarith

end Estimates

section Component

variable {g l p r y z : Float}

structure SumOfProduct (r p : Float) (x v t : ℝ) : Prop where
  nearest : Nearest (toReal r * v) t
  abs_le : |t| ≤ |v|
  multiple : Multiple (x + t)
  rounds : Rounds (x + t) (unpacked p)

theorem ratio_spec (hl : l.isFinite = true) (hg : g.isFinite = true) (hne : toReal g ≠ 0)
    (hle : |toReal l| ≤ |toReal g|) :
    (l / g).isFinite = true ∧ Nearest (toReal l / toReal g) (toReal (l / g)) ∧
      |toReal l / toReal g| ≤ 1 := by
  have hone : |toReal l / toReal g| ≤ 1 := by
    rw [abs_div]
    exact div_le_one_of_le₀ hle (abs_nonneg _)
  obtain ⟨hfinite, hnearest⟩ := (rounds_div hl hg hne).of_le (hone.trans one_le_maxFinite)
  exact ⟨hfinite, hnearest, hone⟩

theorem product_spec (hr : r.isFinite = true) (hone : |toReal r| ≤ 1) (hy : y.isFinite = true) :
    (r * y).isFinite = true ∧ Nearest (toReal r * toReal y) (toReal (r * y)) ∧
      |toReal (r * y)| ≤ |toReal y| := by
  have hle : |toReal r * toReal y| ≤ |toReal y| := by
    rw [abs_mul]
    exact mul_le_of_le_one_left (abs_nonneg _) hone
  obtain ⟨hfinite, hnearest⟩ := (rounds_mul hr hy).of_le (hle.trans (abs_toReal_le y))
  refine ⟨hfinite, hnearest, ?_⟩
  obtain ⟨b, i, hb, hi, hvalue⟩ := exists_abs_toReal_eq y
  rw [hvalue] at hle ⊢
  exact hnearest.abs_le_of_le hb hi hle

theorem SumOfProduct.of_product (hr : r.isFinite = true) (hone : |toReal r| ≤ 1)
    (hy : y.isFinite = true) {x : ℝ} (hx : Multiple x)
    (h : Rounds (x + toReal (r * y)) (unpacked p)) :
    SumOfProduct r p x (toReal y) (toReal (r * y)) := by
  obtain ⟨-, hnearest, hle⟩ := product_spec hr hone hy
  exact ⟨hnearest, hle, hx.add (multiple_toReal _), h⟩

theorem SumOfProduct.of_neg_product (hr : r.isFinite = true) (hone : |toReal r| ≤ 1)
    (hy : y.isFinite = true) {x : ℝ} (hx : Multiple x)
    (h : Rounds (x - toReal (r * y)) (unpacked p)) :
    SumOfProduct r p x (-toReal y) (-toReal (r * y)) := by
  obtain ⟨-, hnearest, hle⟩ := product_spec hr hone hy
  refine ⟨?_, ?_, hx.add (multiple_toReal _).neg, sub_eq_add_neg x _ ▸ h⟩
  · rw [mul_neg]
    exact hnearest.neg
  · rwa [abs_neg, abs_neg]

/-- The division of a numerator does not overflow where the exact quotient `c` leaves room for a
factor two. -/
theorem SumOfProduct.isFinite_div_iff {x v t c : ℝ} (h : SumOfProduct (l / g) p x v t)
    (hl : l.isFinite = true) (hg : g.isFinite = true) (hne : toReal g ≠ 0)
    (hle : |toReal l| ≤ |toReal g|) (hv : |v| ≤ maxFinite * |toReal g|) (hc : |c| ≤ maxFinite / 2)
    (hexact : x + toReal l / toReal g * v = c * (toReal g + toReal l / toReal g * toReal l)) :
    (p / (g + l / g * l)).isFinite = true ↔ p.isFinite = true := by
  refine ⟨isFinite_of_div, fun hp ↦ ?_⟩
  obtain ⟨hr, hR, hq⟩ := ratio_spec hl hg hne hle
  obtain ⟨hproduct, hT, -⟩ := product_spec hr (hR.abs_le_one hq) hl
  have hleast := le_abs_toReal hne
  obtain ⟨q, hratio⟩ : ∃ q, q = toReal l / toReal g := ⟨_, rfl⟩
  have hL : toReal l = q * toReal g := by rw [hratio, div_mul_cancel₀ _ hne]
  rw [← hratio] at hR hq hexact
  rw [hL] at hT
  have hexact : |x + q * v| ≤ maxFinite / 2 * ((1 + q ^ 2) * |toReal g|) := by
    have hfactor : toReal g + q * toReal l = (1 + q ^ 2) * toReal g := by
      rw [hL]
      ring
    have hpos : 0 < 1 + q ^ 2 := by positivity
    rw [hexact, hfactor, abs_mul, abs_mul, abs_of_pos hpos]
    exact mul_le_mul_of_nonneg_right hc (mul_nonneg hpos.le (abs_nonneg _))
  obtain ⟨hfinite, hS⟩ | ⟨⟨s, hs⟩, -⟩ := rounds_add hg hproduct
  · change Nearest _ (toReal (g + l / g * l)) at hS
    have hnumerator := abs_numerator_le one_le_roundoff_mul_maxFinite hq hleast hR h.nearest hv
      hexact h.multiple (h.rounds.nearest hp)
    have hscaled := le_abs_divisor hq hleast hR hT
      ((multiple_toReal g).add (multiple_toReal _)) hS
    rw [mul_assoc] at hscaled
    have hpos : 0 < (1 + q ^ 2) * |toReal g| := by positivity
    have hS' : 0 < |toReal (g + l / g * l)| := (mul_pos (by norm_num) hpos).trans_le hscaled
    have hquotient : |toReal p / toReal (g + l / g * l)| ≤ maxFinite := by
      rw [abs_div, div_le_iff₀ hS']
      have hmul := mul_le_mul_of_nonneg_left hscaled maxFinite_pos.le
      have hroom := mul_nonneg maxFinite_pos.le hpos.le
      linarith
    exact ((rounds_div hp hfinite (abs_pos.1 hS')).of_le hquotient).1
  · exact isFinite_div_infinity hp hs

/-- No numerator overflows where what is divided has room for a factor two. -/
theorem SumOfProduct.isFinite {x v t : ℝ} (h : SumOfProduct r p x v t)
    (hx : |x| ≤ maxFinite / 2) (hv : |v| ≤ maxFinite / 2) : p.isFinite = true := by
  have hle : |x + t| ≤ maxFinite := by
    linarith [abs_add_le x t, h.abs_le]
  exact (h.rounds.of_le hle).1

end Component

end DenseDecomp.Binary64
