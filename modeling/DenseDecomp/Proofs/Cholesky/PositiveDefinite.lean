import Mathlib.LinearAlgebra.Matrix.Block
import Mathlib.LinearAlgebra.Matrix.ToLinearEquiv
import Mathlib.Data.Matrix.Basis
import DenseDecomp.Proofs.ChangeOfBasis
import DenseDecomp.Proofs.Cholesky.Recurrence
import DenseDecomp.Proofs.ExactArithmetic
import DenseDecomp.Proofs.GridMatrix

namespace DenseDecomp

open Matrix

variable {n : ℕ} {A L L' : Matrix (Fin n) (Fin n) ℝ}

structure IsCholeskyFactor (A L : Matrix (Fin n) (Fin n) ℝ) : Prop where
  lower : L.IsLowerTriangular
  diagonal_pos : ∀ i, 0 < L i i
  mul_transpose : L * Lᵀ = A

theorem sum_eq_sum_ite_add {p : Fin n → Prop} [DecidablePred p] {f : Fin n → ℝ} {k : Fin n}
    (hk : ¬ p k) (h : ∀ i, ¬ p i → i ≠ k → f i = 0) :
    ∑ i, f i = (∑ i, if p i then f i else 0) + f k := by
  have hterm : ∀ i, f i = (if p i then f i else 0) + if i = k then f k else 0 := fun i ↦ by
    obtain rfl | hik := eq_or_ne i k
    · rw [if_neg hk, if_pos rfl, zero_add]
    · rw [if_neg hik, add_zero]
      split
      case isTrue => rfl
      case isFalse hi => exact h i hi hik
  calc
    ∑ i, f i = ∑ i, ((if p i then f i else 0) + if i = k then f k else 0) :=
      Finset.sum_congr rfl fun i _ ↦ hterm i
    _ = (∑ i, if p i then f i else 0) + f k := by
      rw [Finset.sum_add_distrib, Finset.sum_ite_eq', if_pos (Finset.mem_univ k)]

theorem lower_mul_transpose_apply (hL : L.IsLowerTriangular) (j k : Fin n) :
    (L * Lᵀ) j k = (∑ i, if i < k then L k i * L j i else 0) + L j k * L k k := by
  have h := sum_eq_sum_ite_add (p := (· < k)) (f := fun i ↦ L k i * L j i) (lt_irrefl k)
    fun i hi hik ↦ by
      rw [hL (OrderDual.toDual_lt_toDual.2 (lt_of_le_of_ne (not_lt.1 hi) hik.symm)), zero_mul]
  simp only [Matrix.mul_apply, transpose_apply, mul_comm (L j _), h]

theorem eq_mul_transpose (hA : Aᵀ = A) (hL : L.IsLowerTriangular)
    (h : ∀ j k, k ≤ j → (∑ i, if i < k then L k i * L j i else 0) + L j k * L k k = A j k) :
    L * Lᵀ = A := by
  refine eq_of_lower ?_ hA fun j k hkj ↦ ?_
  · rw [transpose_mul, transpose_transpose]
  · rw [lower_mul_transpose_apply hL, h j k hkj]

theorem dotProduct_mul_transpose (M : Matrix (Fin n) (Fin n) ℝ) (x : Fin n → ℝ) :
    x ⬝ᵥ (M * Mᵀ) *ᵥ x = (x ᵥ* M) ⬝ᵥ (x ᵥ* M) := by
  rw [← mulVec_mulVec, dotProduct_mulVec, mulVec_transpose]

theorem dotProduct_mulVec_congr {B : Matrix (Fin n) (Fin n) ℝ} {x : Fin n → ℝ}
    (h : ∀ i k, x i ≠ 0 → x k ≠ 0 → A i k = B i k) : x ⬝ᵥ A *ᵥ x = x ⬝ᵥ B *ᵥ x := by
  refine Finset.sum_congr rfl fun i _ ↦ ?_
  by_cases hi : x i = 0
  · rw [hi, zero_mul, zero_mul]
  · have hrow : (A *ᵥ x) i = (B *ᵥ x) i := by
      simp only [mulVec, dotProduct]
      refine Finset.sum_congr rfl fun k _ ↦ ?_
      by_cases hk : x k = 0
      · rw [hk, mul_zero, mul_zero]
      · rw [h i k hi hk]
    rw [hrow]

namespace IsCholeskyFactor

theorem det_pos (h : IsCholeskyFactor A L) : 0 < L.det := by
  rw [det_of_isLowerTriangular L h.lower]
  exact Finset.prod_pos fun i _ ↦ h.diagonal_pos i

theorem isSymm (h : IsCholeskyFactor A L) : A.IsSymm := by
  rw [← h.mul_transpose, Matrix.IsSymm, transpose_mul, transpose_transpose]

theorem dotProduct_pos (h : IsCholeskyFactor A L) {x : Fin n → ℝ} (hx : x ≠ 0) :
    0 < x ⬝ᵥ A *ᵥ x := by
  rw [← h.mul_transpose, dotProduct_mul_transpose]
  refine lt_of_le_of_ne (Finset.sum_nonneg fun k _ ↦ mul_self_nonneg _) fun h₀ ↦ ?_
  exact h.det_pos.ne' (exists_vecMul_eq_zero_iff.1 ⟨x, hx, dotProduct_self_eq_zero.1 h₀.symm⟩)

theorem unique (h : IsCholeskyFactor A L) (h' : IsCholeskyFactor A L') : L' = L := by
  -- Row by row, and in a row from left to right, the entries are determined.
  have hrow : ∀ j k, L' j k = L j k := by
    intro j
    induction j using WellFoundedLT.induction with
    | ind j ihj =>
      intro k
      induction k using WellFoundedLT.induction with
      | ind k ihk =>
        have hsum : (∑ i, if i < k then L' k i * L' j i else 0) + L' j k * L' k k =
            (∑ i, if i < k then L k i * L j i else 0) + L j k * L k k := by
          rw [← lower_mul_transpose_apply h'.lower, ← lower_mul_transpose_apply h.lower,
            h'.mul_transpose, h.mul_transpose]
        obtain hkj | rfl | hkj := lt_trichotomy k j
        · have hbefore : (∑ i, if i < k then L' k i * L' j i else 0) =
              ∑ i, if i < k then L k i * L j i else 0 :=
            Finset.sum_congr rfl fun i _ ↦
              ite_congr rfl (fun hi ↦ by rw [ihj k hkj, ihk i hi]) fun _ ↦ rfl
          rw [hbefore, ihj k hkj] at hsum
          exact mul_right_cancel₀ (h.diagonal_pos k).ne' (add_left_cancel hsum)
        · have hbefore : (∑ i, if i < k then L' k i * L' k i else 0) =
              ∑ i, if i < k then L k i * L k i else 0 :=
            Finset.sum_congr rfl fun i _ ↦ ite_congr rfl (fun hi ↦ by rw [ihk i hi]) fun _ ↦ rfl
          rw [hbefore] at hsum
          exact (mul_self_inj (h'.diagonal_pos k).le (h.diagonal_pos k).le).1
            (add_left_cancel hsum)
        · have hzero := OrderDual.toDual_lt_toDual.2 hkj
          rw [h'.lower hzero, h.lower hzero]
  ext j k
  exact hrow j k

end IsCholeskyFactor

namespace CholeskyFactor

open Scalar

variable [DivisionByZero] {a : Grid ℝ n n} {j k : Fin n}

theorem factor_lower (a : Grid ℝ n n) : (factor a).toMatrix.IsLowerTriangular :=
  fun _ _ h ↦ (rowFilled_factor a _).above _ (OrderDual.toDual_lt_toDual.1 h)

theorem factor_self (a : Grid ℝ n n) (j : Fin n) :
    factor a j j = √(max (pivot a (factor a) j) 0) := by
  rw [(rowFilled_factor a j).diagonal, maxNum_real, sqrt_real]

theorem factor_self_pos (h : 0 < pivot a (factor a) j) : 0 < factor a j j := by
  rw [factor_self, max_eq_left h.le]
  exact Real.sqrt_pos.2 h

theorem factor_row_eq (hkj : k < j) (hk : factor a k k ≠ 0) :
    (∑ i, if i < k then factor a k i * factor a j i else 0) + factor a j k * factor a k k =
      a j k := by
  rw [← sumWhere_real, (rowFilled_factor a j).below k hkj, belowEntry, div_of_ne_zero _ hk]
  have hcancel := div_mul_cancel₀
    (a j k - sumWhere (· < k) fun i ↦ factor a k i * factor a j i) hk
  exact (congrArg _ hcancel).trans (add_sub_cancel _ _)

theorem factor_pivot_eq (a : Grid ℝ n n) (j : Fin n) :
    (∑ i, if i < j then factor a j i * factor a j i else 0) + pivot a (factor a) j = a j j := by
  rw [← sumWhere_real, pivot]
  exact add_sub_cancel _ _

theorem isPositiveDefinite_iff :
    isPositiveDefinite a = true ↔ a.toMatrix.IsSymm ∧ ∀ j, 0 < pivot a (factor a) j := by
  rw [isPositiveDefinite_eq_true_iff, Grid.toMatrix_isSymm_iff]
  refine and_congr_left fun _ ↦ forall₂_congr fun i j ↦ imp_congr_right fun _ ↦ ?_
  rw [beq_iff_eq, eq_comm]

theorem isCholeskyFactor_factor (hA : a.toMatrix.IsSymm) (hp : ∀ j, 0 < pivot a (factor a) j) :
    IsCholeskyFactor a.toMatrix (factor a).toMatrix where
  lower := factor_lower a
  diagonal_pos j := factor_self_pos (hp j)
  mul_transpose := by
    refine eq_mul_transpose hA (factor_lower a) fun j k hkj ↦ ?_
    obtain rfl | hkj := eq_or_lt_of_le hkj
    · have hsq : factor a k k * factor a k k = pivot a (factor a) k := by
        rw [factor_self, max_eq_left (hp k).le, Real.mul_self_sqrt (hp k).le]
      have hrow := factor_pivot_eq a k
      rw [← hsq] at hrow
      exact hrow
    · exact factor_row_eq hkj (factor_self_pos (hp k)).ne'

noncomputable def leadingRows (a : Grid ℝ n n) (j : Fin n) : Matrix (Fin n) (Fin n) ℝ :=
  of fun i k ↦ if i ≤ j then factor a i k else (1 : Matrix (Fin n) (Fin n) ℝ) i k

theorem leadingRows_lower (a : Grid ℝ n n) (j : Fin n) : (leadingRows a j).IsLowerTriangular := by
  intro i k hik
  rw [leadingRows, of_apply]
  split
  case isTrue => exact factor_lower a hik
  case isFalse => exact one_apply_ne (OrderDual.toDual_lt_toDual.1 hik).ne

/-- With positive pivots before it, the pivot `j` is what the factor misses of the leading block. -/
theorem leadingRows_mul_transpose (hp : ∀ k, k < j → 0 < pivot a (factor a) k)
    (hj : factor a j j = 0) {i k : Fin n} (hki : k ≤ i) (hi : i ≤ j) :
    (leadingRows a j * (leadingRows a j)ᵀ + single j j (pivot a (factor a) j)) i k =
      a.toMatrix i k := by
  have hrows : ∀ i, i ≤ j → ∀ k, leadingRows a j i k = factor a i k := fun i hi k ↦ if_pos hi
  rw [Matrix.add_apply, lower_mul_transpose_apply (leadingRows_lower a j)]
  simp only [hrows i hi, hrows k (hki.trans hi)]
  obtain rfl | hki := eq_or_lt_of_le hki
  · obtain rfl | hkj := eq_or_lt_of_le hi
    · rw [hj, mul_zero, add_zero, single_apply_same]
      exact factor_pivot_eq a k
    · have hsq : factor a k k * factor a k k = pivot a (factor a) k := by
        rw [factor_self, max_eq_left (hp k hkj).le, Real.mul_self_sqrt (hp k hkj).le]
      rw [single_apply_of_row_ne hkj.ne', add_zero, hsq]
      exact factor_pivot_eq a k
  · have hkj := hki.trans_le hi
    rw [single_apply_of_col_ne _ _ hkj.ne', add_zero]
    exact factor_row_eq hki (factor_self_pos (hp k hkj)).ne'

theorem exists_vecMul_leadingRows {j : Fin n} (hfactor : factor a j j = 0) :
    ∃ x : Fin n → ℝ, x ≠ 0 ∧ x ᵥ* leadingRows a j = 0 := by
  have hzero : leadingRows a j j j = 0 := by
    rw [leadingRows, of_apply, if_pos le_rfl, hfactor]
  have hdet : (leadingRows a j).det = 0 := by
    rw [det_of_isLowerTriangular _ (leadingRows_lower a j)]
    exact Finset.prod_eq_zero (Finset.mem_univ j) hzero
  exact exists_vecMul_eq_zero_iff.2 hdet

/-- Beyond row `j` the leading rows are those of the identity. -/
theorem le_of_vecMul_leadingRows {j k : Fin n} {x : Fin n → ℝ} (hx : x ᵥ* leadingRows a j = 0)
    (hxk : x k ≠ 0) : k ≤ j := by
  by_contra hkj
  have hcol : ∀ i, i ≠ k → x i * leadingRows a j i k = 0 := fun i hik ↦ by
    by_cases hij : i ≤ j
    · have hlt := OrderDual.toDual_lt_toDual.2 (hij.trans_lt (not_le.1 hkj))
      rw [leadingRows_lower a j hlt, mul_zero]
    · rw [leadingRows, of_apply, if_neg hij, one_apply_ne hik, mul_zero]
  have hsum : ∑ i, x i * leadingRows a j i k = 0 := congrFun hx k
  rw [Finset.sum_eq_single k (fun i _ ↦ hcol i) (fun h ↦ absurd (Finset.mem_univ k) h),
    leadingRows, of_apply, if_neg hkj, one_apply_eq, mul_one] at hsum
  exact hxk hsum

/-- A pivot that is not positive is clamped, and a vector that the clamped rows annihilate shows that
the matrix is not positive definite. -/
theorem pivot_pos (hA : a.toMatrix.IsSymm)
    (hpos : ∀ x : Fin n → ℝ, x ≠ 0 → 0 < x ⬝ᵥ a.toMatrix *ᵥ x) (j : Fin n) :
    0 < pivot a (factor a) j := by
  induction j using WellFoundedLT.induction with
  | ind j ih =>
    by_contra hj
    have hj := not_lt.1 hj
    have hfactor : factor a j j = 0 := by
      rw [factor_self, max_eq_right hj, Real.sqrt_zero]
    -- On this vector the form comes to the pivot alone.
    obtain ⟨x, hx, hxl⟩ := exists_vecMul_leadingRows hfactor
    have hsymm : (leadingRows a j * (leadingRows a j)ᵀ +
        single j j (pivot a (factor a) j)).IsSymm := by
      rw [Matrix.IsSymm, transpose_add, transpose_mul, transpose_transpose, transpose_single]
    have hentry := fun i k ↦ leadingRows_mul_transpose ih hfactor (i := i) (k := k)
    have hform : x ⬝ᵥ a.toMatrix *ᵥ x = pivot a (factor a) j * (x j * x j) :=
      calc
        x ⬝ᵥ a.toMatrix *ᵥ x = x ⬝ᵥ (leadingRows a j * (leadingRows a j)ᵀ +
            single j j (pivot a (factor a) j)) *ᵥ x := by
          refine dotProduct_mulVec_congr fun i k hi hk ↦ ?_
          obtain hik | hki := le_total i k
          · rw [← hA.apply, ← hsymm.apply, hentry k i hik (le_of_vecMul_leadingRows hxl hk)]
          · rw [hentry i k hki (le_of_vecMul_leadingRows hxl hi)]
        _ = pivot a (factor a) j * (x j * x j) := by
          rw [add_mulVec, dotProduct_add, dotProduct_mul_transpose, hxl, dotProduct_zero, zero_add,
            single_mulVec_eq, dotProduct_smul, dotProduct_single, smul_eq_mul]
          ring
    refine absurd (hpos x hx) (not_lt.2 ?_)
    rw [hform]
    exact mul_nonpos_of_nonpos_of_nonneg hj (mul_self_nonneg _)

theorem isCholeskyFactor_of_isPositiveDefinite (h : isPositiveDefinite (.ofMatrix A) = true) :
    IsCholeskyFactor A (factor (.ofMatrix A)).toMatrix := by
  obtain ⟨hA, hp⟩ := isPositiveDefinite_iff.1 h
  have hfactor := isCholeskyFactor_factor hA hp
  rwa [Grid.toMatrix_ofMatrix] at hfactor

theorem isPositiveDefinite_of_dotProduct_pos (hA : A.IsSymm)
    (h : ∀ x : Fin n → ℝ, x ≠ 0 → 0 < x ⬝ᵥ A *ᵥ x) : isPositiveDefinite (.ofMatrix A) = true := by
  rw [← Grid.toMatrix_ofMatrix A] at hA h
  exact isPositiveDefinite_iff.2 ⟨hA, pivot_pos hA h⟩

theorem isPositiveDefinite_of_isCholeskyFactor (h : IsCholeskyFactor A L) :
    isPositiveDefinite (.ofMatrix A) = true :=
  isPositiveDefinite_of_dotProduct_pos h.isSymm fun _ ↦ h.dotProduct_pos

end CholeskyFactor

end DenseDecomp
