import Mathlib.Data.Real.Basic
import DenseDecomp.Cholesky.Substitution
import DenseDecomp.Proofs.Cholesky.PositiveDefinite

namespace DenseDecomp.CholeskyFactor

open Matrix Scalar

variable [DivisionByZero] {n m : ℕ} {l : Grid ℝ n n} {b x y : Grid ℝ n m}

theorem subtractWhere_real (p : Fin n → Prop) [DecidablePred p] (f : Fin n → ℝ) (x : ℝ) :
    subtractWhere p f x = x - ∑ i, if p i then f i else 0 := by
  induction n with
  | zero => exact (sub_zero x).symm
  | succ n ih =>
    have h := ih (fun i ↦ p i.castSucc) (fun i ↦ f i.castSucc)
    rw [subtractWhere] at h
    rw [subtractWhere, Fin.foldl_succ_last, Fin.sum_univ_castSucc, h]
    by_cases hp : p (Fin.last n)
    · rw [if_pos hp, if_pos hp]
      ring
    · rw [if_neg hp, if_neg hp, add_zero]

theorem row_solved {p : Fin n → Prop} [DecidablePred p] {f : Fin n → ℝ} {u d : ℝ} (hd : d ≠ 0) :
    (∑ i, if p i then f i else 0) + subtractWhere p f u / d * d = u := by
  rw [div_of_ne_zero _ hd, subtractWhere_real]
  have hcancel := div_mul_cancel₀ (u - ∑ i, if p i then f i else 0) hd
  exact (congrArg _ hcancel).trans (add_sub_cancel _ _)

theorem forwardRow_of_ne {i k : Fin n} (hik : i ≠ k) (j : Fin m) :
    forwardRow l x k i j = x i j := by
  rw [forwardRow, Grid.ofFn_apply, if_neg hik]

theorem backwardRow_of_ne {i k : Fin n} (hik : i ≠ k) (j : Fin m) :
    backwardRow l k x i j = x i j := by
  rw [backwardRow, Grid.ofFn_apply, if_neg hik]

theorem forward_row (hl : ∀ k, l k k ≠ 0) (b : Grid ℝ n m) (k : Fin n) (j : Fin m) :
    (∑ i, if i < k then forward l b i j * l k i else 0) + forward l b k j * l k k = b k j := by
  have h := foldl_invariant
    (fun t x ↦ (∀ k : Fin n, k.val < t → ∀ j : Fin m,
      (∑ i, if i < k then x i j * l k i else 0) + x k j * l k k = b k j) ∧
        ∀ k : Fin n, t ≤ k.val → ∀ j, x k j = b k j) (f := forwardRow l) (b := b)
    ⟨fun _ hk ↦ absurd hk (Nat.not_lt_zero _), fun _ _ _ ↦ rfl⟩
    (fun t x h ↦ by
      refine ⟨fun k hk j ↦ ?_, fun k hk j ↦ ?_⟩
      · have hbefore : (∑ i, if i < k then forwardRow l x t i j * l k i else 0) =
            ∑ i, if i < k then x i j * l k i else 0 :=
          Finset.sum_congr rfl fun i _ ↦ ite_congr rfl
            (fun hi ↦ by rw [forwardRow_of_ne (by omega)]) fun _ ↦ rfl
        rw [hbefore]
        obtain rfl | hkt := eq_or_ne k t
        · rw [forwardRow, Grid.ofFn_apply, if_pos rfl, row_solved (hl k), h.2 k le_rfl]
        · rw [forwardRow_of_ne hkt, h.1 k (by omega)]
      · rw [forwardRow_of_ne (by omega), h.2 k (by omega)])
  exact h.1 k k.isLt j

theorem backward_row (hl : ∀ k, l k k ≠ 0) (y : Grid ℝ n m) (k : Fin n) (j : Fin m) :
    (∑ i, if k < i then backward l y i j * l i k else 0) + backward l y k j * l k k = y k j := by
  have h := foldr_invariant
    (fun t x ↦ (∀ k : Fin n, t ≤ k.val → ∀ j : Fin m,
      (∑ i, if k < i then x i j * l i k else 0) + x k j * l k k = y k j) ∧
        ∀ k : Fin n, k.val < t → ∀ j, x k j = y k j) (f := backwardRow l) (b := y)
    ⟨fun k hk ↦ absurd k.isLt (not_lt.2 hk), fun _ _ _ ↦ rfl⟩
    (fun t x h ↦ by
      refine ⟨fun k hk j ↦ ?_, fun k hk j ↦ ?_⟩
      · have hafter : (∑ i, if k < i then backwardRow l t x i j * l i k else 0) =
            ∑ i, if k < i then x i j * l i k else 0 :=
          Finset.sum_congr rfl fun i _ ↦ ite_congr rfl
            (fun hi ↦ by rw [backwardRow_of_ne (by omega)]) fun _ ↦ rfl
        rw [hafter]
        obtain rfl | hkt := eq_or_ne k t
        · rw [backwardRow, Grid.ofFn_apply, if_pos rfl, row_solved (hl k),
            h.2 k (Nat.lt_succ_self _)]
        · rw [backwardRow_of_ne hkt, h.1 k (by omega)]
      · rw [backwardRow_of_ne (by omega), h.2 k (by omega)])
  exact h.1 k (Nat.zero_le _) j

theorem mul_forward (hlow : l.toMatrix.IsLowerTriangular) (hl : ∀ k, l k k ≠ 0)
    (b : Grid ℝ n m) : l.toMatrix * (forward l b).toMatrix = b.toMatrix := by
  ext k j
  have h := sum_eq_sum_ite_add (p := (· < k)) (f := fun i ↦ forward l b i j * l k i) (lt_irrefl k)
    fun i hi hik ↦ by
      have hzero : l k i = 0 :=
        hlow (OrderDual.toDual_lt_toDual.2 (lt_of_le_of_ne (not_lt.1 hi) hik.symm))
      rw [hzero, mul_zero]
  rw [forward_row hl] at h
  rw [Matrix.mul_apply]
  simpa only [Grid.toMatrix_apply, mul_comm] using h

theorem transpose_mul_backward (hlow : l.toMatrix.IsLowerTriangular) (hl : ∀ k, l k k ≠ 0)
    (y : Grid ℝ n m) : l.toMatrixᵀ * (backward l y).toMatrix = y.toMatrix := by
  ext k j
  have h := sum_eq_sum_ite_add (p := (k < ·)) (f := fun i ↦ backward l y i j * l i k) (lt_irrefl k)
    fun i hi hik ↦ by
      have hzero : l i k = 0 :=
        hlow (OrderDual.toDual_lt_toDual.2 (lt_of_le_of_ne (not_lt.1 hi) hik))
      rw [hzero, mul_zero]
  rw [backward_row hl] at h
  rw [Matrix.mul_apply]
  simpa only [Grid.toMatrix_apply, transpose_apply, mul_comm] using h

theorem mul_substitute {A : Matrix (Fin n) (Fin n) ℝ} (h : IsCholeskyFactor A l.toMatrix)
    (b : Grid ℝ n m) : A * (substitute l b).toMatrix = b.toMatrix := by
  have hl : ∀ k, l k k ≠ 0 := fun k ↦ (h.diagonal_pos k).ne'
  calc
    A * (substitute l b).toMatrix =
        l.toMatrix * (l.toMatrixᵀ * (backward l (forward l b)).toMatrix) := by
      rw [← Matrix.mul_assoc, h.mul_transpose, substitute]
    _ = b.toMatrix := by rw [transpose_mul_backward h.lower hl, mul_forward h.lower hl]

end DenseDecomp.CholeskyFactor
