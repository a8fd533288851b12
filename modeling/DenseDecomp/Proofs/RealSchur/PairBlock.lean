import Mathlib.Algebra.Polynomial.Roots
import Mathlib.Data.Complex.Basic
import Mathlib.LinearAlgebra.Matrix.Charpoly.Coeff
import Mathlib.Analysis.Real.Sqrt
import Mathlib.RingTheory.SimpleRing.Principal
import Mathlib.Tactic.LinearCombination
import DenseDecomp.Grid

namespace DenseDecomp.RealSchur

open Matrix Polynomial

variable {n : ℕ} {a b : Fin n} {c d x y α β z v t : ℝ}

def pairBlock (h : Grid ℝ n n) (a b : Fin n) : Matrix (Fin 2) (Fin 2) ℂ :=
  !![(h a a : ℂ), h a b; h b a, h b b]

theorem roots_charpoly_two {A : Matrix (Fin 2) (Fin 2) ℂ} {μ ν : ℂ} (htrace : μ + ν = A.trace)
    (hdet : μ * ν = A.det) : A.charpoly.roots = {μ, ν} := by
  have hfactors : A.charpoly = (({μ, ν} : Multiset ℂ).map fun x ↦ X - C x).prod := by
    rw [charpoly_fin_two, ← htrace, ← hdet, Multiset.insert_eq_cons, Multiset.map_cons,
      Multiset.prod_cons, Multiset.map_singleton, Multiset.prod_singleton, C_add, C_mul]
    ring
  rw [hfactors, roots_multiset_prod_X_sub_C]

section Roots

variable (h : Grid ℝ n n) (a b : Fin n)

noncomputable def halfGap : ℝ := (h a a - h b b) / 2.0

noncomputable def pairDiscriminant : ℝ := halfGap h a b * halfGap h a b + h b a * h a b

noncomputable def pairDistance : ℝ :=
  if 0 ≤ halfGap h a b then halfGap h a b + √(pairDiscriminant h a b)
  else halfGap h a b - √(pairDiscriminant h a b)

variable {h a b}

theorem mul_add_pairDiscriminant :
    halfGap h a b * halfGap h a b + h b a * h a b = pairDiscriminant h a b := rfl

theorem halfGap_add_self : halfGap h a b + halfGap h a b = h a a - h b b := by
  have htwo : (2.0 : ℝ) = 2 := by norm_num
  rw [halfGap, htwo, add_halves]

theorem pairDistance_mul (hq : 0 ≤ pairDiscriminant h a b) :
    pairDistance h a b * (pairDistance h a b - (h a a - h b b)) = h b a * h a b := by
  have hroot := Real.mul_self_sqrt hq
  rw [pairDistance, ← halfGap_add_self]
  split
  case isTrue =>
    rw [pairDiscriminant] at hroot ⊢
    linear_combination hroot
  case isFalse =>
    rw [pairDiscriminant] at hroot ⊢
    linear_combination hroot

/-- When the trailing entry is a root, it is a double one. -/
theorem pairDistance_sub_eq_zero (hz : pairDistance h a b = 0) :
    pairDistance h a b - (h a a - h b b) = 0 := by
  have hroot := Real.sqrt_nonneg (pairDiscriminant h a b)
  rw [hz, ← halfGap_add_self]
  rw [pairDistance] at hz
  split at hz
  case isTrue hp => linarith
  case isFalse hp => linarith

theorem roots_pairBlock_of_nonneg (hq : 0 ≤ pairDiscriminant h a b) :
    (pairBlock h a b).charpoly.roots =
      {((h b b + pairDistance h a b : ℝ) : ℂ),
        ((h b b - (pairDistance h a b - (h a a - h b b)) : ℝ) : ℂ)} := by
  refine roots_charpoly_two ?_ ?_
  · rw [pairBlock, trace_fin_two_of]
    push_cast
    ring
  · have hmul := congrArg (fun x : ℝ ↦ (x : ℂ)) (pairDistance_mul hq)
    push_cast at hmul
    rw [pairBlock, det_fin_two_of]
    push_cast
    linear_combination -hmul

theorem roots_pairBlock_of_neg (hq : pairDiscriminant h a b < 0) :
    (pairBlock h a b).charpoly.roots =
      {⟨h b b + halfGap h a b, √|pairDiscriminant h a b|⟩,
        ⟨h b b + halfGap h a b, -√|pairDiscriminant h a b|⟩} := by
  have hroot := Real.mul_self_sqrt (abs_nonneg (pairDiscriminant h a b))
  have hgap := halfGap_add_self (h := h) (a := a) (b := b)
  rw [abs_of_neg hq, pairDiscriminant] at hroot
  rw [abs_of_neg hq, pairDiscriminant]
  refine roots_charpoly_two ?_ ?_
  · rw [pairBlock, trace_fin_two_of]
    refine Complex.ext ?_ ?_
    · simp only [Complex.add_re, Complex.ofReal_re]
      linear_combination hgap
    · simp only [Complex.add_im, Complex.ofReal_im, add_neg_cancel, add_zero]
  · rw [pairBlock, det_fin_two_of]
    refine Complex.ext ?_ ?_
    · simp only [Complex.mul_re, Complex.sub_re, Complex.ofReal_re, Complex.ofReal_im]
      linear_combination hroot + h b b * hgap
    · simp only [Complex.mul_im, Complex.sub_im, Complex.ofReal_re, Complex.ofReal_im]
      ring

theorem forall_roots_real_iff :
    (∀ μ ∈ (pairBlock h a b).charpoly.roots, μ.im = 0) ↔ 0 ≤ pairDiscriminant h a b := by
  constructor
  · intro hreal
    by_contra hq
    have hq := not_le.1 hq
    have him := hreal ⟨h b b + halfGap h a b, √|pairDiscriminant h a b|⟩ <| by
      rw [roots_pairBlock_of_neg hq]
      exact Multiset.mem_cons_self _ _
    exact (Real.sqrt_pos.2 (abs_pos.2 hq.ne)).ne' him
  · intro hq μ hμ
    rw [roots_pairBlock_of_nonneg hq, Multiset.insert_eq_cons, Multiset.mem_cons,
      Multiset.mem_singleton] at hμ
    obtain rfl | rfl := hμ
    · exact Complex.ofReal_im _
    · exact Complex.ofReal_im _

end Roots

/-- A rotation that turns the eigenvector `(z, x)` of a block into its first axis makes the block
triangular. -/
theorem rotated_block (hc : c = z * t) (hd : d = -(x * t)) (hunit : c * c + d * d = 1)
    (hroot : z * (z - (α - β)) = x * y) :
    c * (d * α + c * x) - d * (d * y + c * β) = 0 ∧
      c * (c * α - d * x) - d * (c * y - d * β) = β + z ∧
      d * (d * α + c * x) + c * (d * y + c * β) = α - z := by
  subst hc hd
  refine ⟨?_, ?_, ?_⟩
  · linear_combination t ^ 2 * x * hroot
  · linear_combination (z + β) * hunit - t ^ 2 * z * hroot
  · linear_combination (α - z) * hunit + t ^ 2 * z * hroot

noncomputable def pairLength (x z : ℝ) : ℝ :=
  √(x / (|x| + |z|) * (x / (|x| + |z|)) + z / (|x| + |z|) * (z / (|x| + |z|)))

noncomputable def pairCos (x z : ℝ) : ℝ := z / (|x| + |z|) / pairLength x z

noncomputable def pairSin (x z : ℝ) : ℝ := -(x / (|x| + |z|) / pairLength x z)

theorem pairSize_ne_zero (hx : x ≠ 0) : |x| + |z| ≠ 0 :=
  (add_pos_of_pos_of_nonneg (abs_pos.2 hx) (abs_nonneg z)).ne'

theorem pairLength_ne_zero (hx : x ≠ 0) : pairLength x z ≠ 0 := by
  refine (Real.sqrt_pos.2 (add_pos_of_pos_of_nonneg ?_ (mul_self_nonneg _))).ne'
  exact mul_self_pos.2 (div_ne_zero hx (pairSize_ne_zero hx))

theorem pairLength_mul_self (x z : ℝ) : pairLength x z * pairLength x z =
    x / (|x| + |z|) * (x / (|x| + |z|)) + z / (|x| + |z|) * (z / (|x| + |z|)) :=
  Real.mul_self_sqrt (add_nonneg (mul_self_nonneg _) (mul_self_nonneg _))

theorem sqrt_pairLength (x z : ℝ) :
    √(x / (|x| + |z|) * (x / (|x| + |z|)) + z / (|x| + |z|) * (z / (|x| + |z|))) = pairLength x z :=
  rfl

theorem neg_pairSin (x z : ℝ) : -(x / (|x| + |z|) / pairLength x z) = pairSin x z := rfl

theorem div_pairCos (x z : ℝ) : z / (|x| + |z|) / pairLength x z = pairCos x z := rfl

theorem pairCos_unit (hx : x ≠ 0) :
    pairCos x z * pairCos x z + pairSin x z * pairSin x z = 1 := by
  have hne := pairLength_ne_zero (z := z) hx
  rw [pairCos, pairSin, neg_mul_neg, div_mul_div_comm _ (pairLength x z) _ (pairLength x z),
    div_mul_div_comm _ (pairLength x z) _ (pairLength x z), ← add_div, add_comm,
    ← pairLength_mul_self, div_self (mul_ne_zero hne hne)]

theorem exists_pairCos_eq (x z : ℝ) : ∃ t, pairCos x z = z * t ∧ pairSin x z = -(x * t) := by
  refine ⟨(|x| + |z|)⁻¹ * (pairLength x z)⁻¹, ?_, ?_⟩
  · rw [pairCos, div_eq_mul_inv, div_eq_mul_inv z, mul_assoc]
  · rw [pairSin, div_eq_mul_inv, div_eq_mul_inv x, mul_assoc]

end DenseDecomp.RealSchur
