import Mathlib.Data.Real.Basic
import Mathlib.LinearAlgebra.Matrix.DotProduct
import Mathlib.LinearAlgebra.Matrix.NonsingularInverse
import Mathlib.Tactic.FieldSimp
import Mathlib.Tactic.LinearCombination

namespace DenseDecomp

open Matrix

variable {n : ℕ}

/-- One orthogonal matrix takes the basis `V`, and the matrix `M` written in it, to `V'` and
`M'`. -/
def Rebases (V M V' M' : Matrix (Fin n) (Fin n) ℝ) : Prop :=
  ∃ Q : Matrix (Fin n) (Fin n) ℝ, Q * Qᵀ = 1 ∧ V' = V * Q ∧ M' = Qᵀ * M * Q

theorem eq_of_lower {M N : Matrix (Fin n) (Fin n) ℝ} (hM : Mᵀ = M) (hN : Nᵀ = N)
    (h : ∀ i j, j ≤ i → M i j = N i j) : M = N := by
  ext i j
  obtain hij | hij := le_total j i
  · exact h i j hij
  · rw [← hM, ← hN]
    exact h j i hij

namespace Rebases

variable {V M V' M' V'' M'' : Matrix (Fin n) (Fin n) ℝ}

theorem refl (V M : Matrix (Fin n) (Fin n) ℝ) : Rebases V M V M :=
  ⟨1, by simp, by simp, by simp⟩

theorem trans (h : Rebases V M V' M') (h' : Rebases V' M' V'' M'') : Rebases V M V'' M'' := by
  obtain ⟨Q, hQ, rfl, rfl⟩ := h
  obtain ⟨R, hR, rfl, rfl⟩ := h'
  refine ⟨Q * R, ?_, by rw [mul_assoc], by simp only [transpose_mul, mul_assoc]⟩
  calc
    Q * R * (Q * R)ᵀ = Q * (R * Rᵀ) * Qᵀ := by simp only [transpose_mul, mul_assoc]
    _ = 1 := by rw [hR, mul_one, hQ]

theorem conj_eq (h : Rebases V M V' M') : V' * M' * V'ᵀ = V * M * Vᵀ := by
  obtain ⟨Q, hQ, rfl, rfl⟩ := h
  calc
    V * Q * (Qᵀ * M * Q) * (V * Q)ᵀ = V * (Q * Qᵀ) * M * (Q * Qᵀ) * Vᵀ := by
      simp only [transpose_mul, mul_assoc]
    _ = V * M * Vᵀ := by rw [hQ, mul_one, mul_one]

theorem gram_eq (h : Rebases V M V' M') : V' * V'ᵀ = V * Vᵀ := by
  obtain ⟨Q, hQ, rfl, -⟩ := h
  calc
    V * Q * (V * Q)ᵀ = V * (Q * Qᵀ) * Vᵀ := by simp only [transpose_mul, mul_assoc]
    _ = V * Vᵀ := by rw [hQ, mul_one]

theorem permute (V : Matrix (Fin n) (Fin n) ℝ) (d : Fin n → ℝ) (σ : Equiv.Perm (Fin n)) :
    Rebases V (diagonal d) (V.submatrix id σ) (diagonal (d ∘ σ)) := by
  have hmul : ∀ M : Matrix (Fin n) (Fin n) ℝ,
      M * (1 : Matrix (Fin n) (Fin n) ℝ).submatrix id σ = M.submatrix id σ :=
    fun M ↦ mul_submatrix_one (Equiv.refl _) σ M
  have hleft : ∀ M : Matrix (Fin n) (Fin n) ℝ,
      ((1 : Matrix (Fin n) (Fin n) ℝ).submatrix id σ)ᵀ * M = M.submatrix σ id := fun M ↦ by
    rw [transpose_submatrix, transpose_one]
    exact one_submatrix_mul σ (Equiv.refl _) M
  refine ⟨(1 : Matrix (Fin n) (Fin n) ℝ).submatrix id σ, ?_, (hmul V).symm, ?_⟩
  · rw [mul_eq_one_comm, hleft, submatrix_submatrix]
    exact submatrix_one_equiv σ
  · rw [hleft, hmul, submatrix_submatrix]
    exact (submatrix_diagonal_equiv d σ).symm

end Rebases

section Rotation

variable {j k : Fin n} {c s : ℝ}

def planeRotation (j k : Fin n) (c s : ℝ) : Matrix (Fin n) (Fin n) ℝ :=
  of fun a b ↦
    if b = j then c * (1 : Matrix (Fin n) (Fin n) ℝ) a j - s * (1 : Matrix (Fin n) (Fin n) ℝ) a k
    else if b = k then
      s * (1 : Matrix (Fin n) (Fin n) ℝ) a j + c * (1 : Matrix (Fin n) (Fin n) ℝ) a k
    else (1 : Matrix (Fin n) (Fin n) ℝ) a b

theorem mul_planeRotation (M : Matrix (Fin n) (Fin n) ℝ) (a b : Fin n) :
    (M * planeRotation j k c s) a b =
      if b = j then c * M a j - s * M a k else if b = k then s * M a j + c * M a k else M a b := by
  have hone : ∀ l, ∑ x, M a x * (1 : Matrix (Fin n) (Fin n) ℝ) x l = M a l := fun l ↦ by
    rw [← Matrix.mul_apply, mul_one]
  have hmul : ∀ t l, ∑ x, M a x * (t * (1 : Matrix (Fin n) (Fin n) ℝ) x l) = t * M a l :=
    fun t l ↦ by rw [← hone l, Finset.mul_sum]; exact Finset.sum_congr rfl fun x _ ↦ by ring
  simp only [Matrix.mul_apply, planeRotation, of_apply]
  split_ifs with hj hk
  · simp only [mul_sub, Finset.sum_sub_distrib, hmul]
  · simp only [mul_add, Finset.sum_add_distrib, hmul]
  · exact hone b

theorem planeRotation_transpose_mul (M : Matrix (Fin n) (Fin n) ℝ) (a b : Fin n) :
    ((planeRotation j k c s)ᵀ * M) a b =
      if a = j then c * M j b - s * M k b else if a = k then s * M j b + c * M k b else M a b := by
  rw [← transpose_apply ((planeRotation j k c s)ᵀ * M), transpose_mul, transpose_transpose,
    mul_planeRotation]
  rfl

theorem planeRotation_mul_transpose (hjk : j ≠ k) (h : c * c + s * s = 1) :
    planeRotation j k c s * (planeRotation j k c s)ᵀ = 1 := by
  rw [mul_eq_one_comm]
  ext a b
  rw [planeRotation_transpose_mul]
  simp only [planeRotation, of_apply, one_apply]
  by_cases haj : a = j <;> by_cases hak : a = k <;> by_cases hbj : b = j <;>
    by_cases hbk : b = k <;> simp_all [eq_comm] <;> linarith

/-- A rotation does not change a diagonal matrix with equal entries on both of its axes. -/
theorem planeRotation_conj_diagonal (hjk : j ≠ k) (h : c * c + s * s = 1) {w : Fin n → ℝ}
    (hw : w j = w k) :
    (planeRotation j k c s)ᵀ * diagonal w * planeRotation j k c s = diagonal w := by
  have hcomm : diagonal w * planeRotation j k c s = planeRotation j k c s * diagonal w := by
    ext a b
    rw [diagonal_mul, mul_diagonal]
    simp only [planeRotation, of_apply, one_apply]
    by_cases haj : a = j <;> by_cases hak : a = k <;> by_cases hbj : b = j <;>
      by_cases hbk : b = k <;> by_cases hab : a = b <;> simp_all [mul_comm]
  rw [mul_assoc, hcomm, ← mul_assoc, mul_eq_one_comm.1 (planeRotation_mul_transpose hjk h), one_mul]

end Rotation

section Reflection

variable {u : Fin n → ℝ}

noncomputable def reflection (u : Fin n → ℝ) : Matrix (Fin n) (Fin n) ℝ :=
  1 - (2 / (u ⬝ᵥ u)) • vecMulVec u u

theorem reflection_zero : reflection (0 : Fin n → ℝ) = 1 := by
  simp [reflection]

theorem reflection_coefficient {half : ℝ} (hu : u ⬝ᵥ u = 2 * half) : 2 / (u ⬝ᵥ u) = half⁻¹ := by
  rw [hu, div_mul_eq_div_div, div_self two_ne_zero, one_div]

theorem reflection_transpose (u : Fin n → ℝ) : (reflection u)ᵀ = reflection u := by
  rw [reflection, transpose_sub, transpose_one, transpose_smul, transpose_vecMulVec]

theorem reflection_mul_self (u : Fin n → ℝ) : reflection u * reflection u = 1 := by
  by_cases hu : u ⬝ᵥ u = 0
  · rw [reflection, hu, div_zero, zero_smul, sub_zero, one_mul]
  · have h : (2 / (u ⬝ᵥ u)) * (2 / (u ⬝ᵥ u)) * (u ⬝ᵥ u) = 2 / (u ⬝ᵥ u) + 2 / (u ⬝ᵥ u) := by
      field_simp
      norm_num
    rw [reflection, sub_mul, one_mul, mul_sub, mul_one, smul_mul_smul_comm,
      vecMulVec_mul_vecMulVec, vecMulVec_smul, smul_smul, h, add_smul]
    abel

theorem reflection_mul_apply (M : Matrix (Fin n) (Fin n) ℝ) (a b : Fin n) :
    (reflection u * M) a b = M a b - u a * (2 / (u ⬝ᵥ u) * ∑ k, u k * M k b) := by
  rw [reflection, sub_mul, one_mul, smul_mul_assoc, vecMulVec_mul, Matrix.sub_apply,
    Matrix.smul_apply, vecMulVec_apply, smul_eq_mul]
  simp only [vecMul, dotProduct]
  ring

theorem mul_reflection_apply (M : Matrix (Fin n) (Fin n) ℝ) (a b : Fin n) :
    (M * reflection u) a b = M a b - (2 / (u ⬝ᵥ u) * ∑ k, M a k * u k) * u b := by
  rw [reflection, mul_sub, mul_one, mul_smul_comm, mul_vecMulVec, Matrix.sub_apply,
    Matrix.smul_apply, vecMulVec_apply, smul_eq_mul]
  simp only [mulVec, dotProduct]
  ring

/-- A reflection hangs on the direction of its vector only. -/
theorem reflection_smul {a : ℝ} (ha : a ≠ 0) (u : Fin n → ℝ) :
    reflection (a • u) = reflection u := by
  have hc : 2 / (a * (a * (u ⬝ᵥ u))) * (a * a) = 2 / (u ⬝ᵥ u) := by
    by_cases hu : u ⬝ᵥ u = 0
    · simp only [hu, mul_zero, div_zero, zero_mul]
    · field_simp
  rw [reflection, reflection, smul_dotProduct, dotProduct_smul, vecMulVec_smul, smul_vecMulVec,
    smul_smul, smul_smul, smul_eq_mul, smul_eq_mul, mul_assoc, hc]

theorem Rebases.reflect (V M : Matrix (Fin n) (Fin n) ℝ) (u : Fin n → ℝ) :
    Rebases V M (V * reflection u) (reflection u * M * reflection u) :=
  ⟨reflection u, by rw [reflection_transpose, reflection_mul_self], rfl, by
    rw [reflection_transpose]⟩

noncomputable def reflectionProduct (M : Matrix (Fin n) (Fin n) ℝ) (u : Fin n → ℝ) (h : ℝ) :
    Fin n → ℝ :=
  fun a ↦ (∑ k, M a k * u k) / h

noncomputable def reflectionUpdate (M : Matrix (Fin n) (Fin n) ℝ) (u : Fin n → ℝ) (h : ℝ) :
    Fin n → ℝ :=
  fun a ↦ reflectionProduct M u h a - (∑ k, reflectionProduct M u h k * u k) / (h + h) * u a

/-- Applied to both sides of a symmetric matrix, a reflection subtracts `u qᵀ + q uᵀ`. -/
theorem reflection_conj_apply {M : Matrix (Fin n) (Fin n) ℝ} (hM : Mᵀ = M) {h : ℝ}
    (hu : u ⬝ᵥ u = 2 * h) (a b : Fin n) :
    (reflection u * M * reflection u) a b =
      M a b - (u b * reflectionUpdate M u h a + reflectionUpdate M u h b * u a) := by
  have hl : u ᵥ* M = M *ᵥ u := by rw [← vecMul_transpose, hM]
  have hc : 2 / (u ⬝ᵥ u) = 1 / h := by rw [reflection_coefficient hu, one_div]
  have hp : reflectionProduct M u h = (1 / h) • M *ᵥ u := by
    funext k
    rw [Pi.smul_apply, smul_eq_mul, one_div_mul_eq_div]
    rfl
  have hd : ∑ k, reflectionProduct M u h k * u k = reflectionProduct M u h ⬝ᵥ u := rfl
  have he : reflection u * M * reflection u =
      M - vecMulVec u (reflectionProduct M u h) - vecMulVec (reflectionProduct M u h) u +
        ((1 / h) * (reflectionProduct M u h ⬝ᵥ u)) • vecMulVec u u := by
    rw [reflection, hc, sub_mul, one_mul, mul_sub, mul_one, sub_mul, smul_mul_assoc, vecMulVec_mul,
      hl, mul_smul_comm, mul_vecMulVec, smul_mul_smul_comm, vecMulVec_mul_vecMulVec, vecMulVec_smul,
      smul_smul, hp, vecMulVec_smul, smul_vecMulVec, smul_dotProduct, smul_eq_mul, ← mul_assoc]
    abel
  rw [he, reflectionUpdate, reflectionUpdate, hd]
  simp only [Matrix.add_apply, Matrix.sub_apply, Matrix.smul_apply, vecMulVec_apply, smul_eq_mul]
  field_simp
  ring

theorem reflection_conj_transpose {M : Matrix (Fin n) (Fin n) ℝ} (hM : Mᵀ = M) :
    (reflection u * M * reflection u)ᵀ = reflection u * M * reflection u := by
  rw [transpose_mul, transpose_mul, reflection_transpose, hM, mul_assoc]

section Householder

variable {y : Fin n → ℝ} {c : Fin n} {g scale : ℝ} {p : Fin n → Prop} [DecidablePred p]
  {f : Fin n → ℝ}

noncomputable def scaledPart (p : Fin n → Prop) [DecidablePred p] (scale : ℝ) (f : Fin n → ℝ) :
    Fin n → ℝ :=
  fun k ↦ if p k then f k / scale else 0

theorem scaledPart_length {z : Fin n → ℝ} (hz : ∀ k, p k → z k = f k / scale) :
    (∑ k, if p k then z k * z k else 0) = scaledPart p scale f ⬝ᵥ scaledPart p scale f := by
  refine Finset.sum_congr rfl fun k _ ↦ ?_
  by_cases hk : p k
  · simp only [hk, if_true, scaledPart, hz k hk]
  · simp only [hk, if_false, scaledPart, mul_zero]

theorem scaledPart_ne_zero (hs : scale = ∑ k, if p k then |f k| else 0) (hne : scale ≠ 0) :
    scaledPart p scale f ≠ 0 := by
  intro h
  apply hne
  rw [hs]
  refine Finset.sum_eq_zero fun k _ ↦ ?_
  by_cases hk : p k
  · have hk' := congrFun h k
    simp only [scaledPart, hk, if_true, Pi.zero_apply, div_eq_zero_iff, hne, or_false] at hk'
    rw [if_pos hk, hk', abs_zero]
  · rw [if_neg hk]

theorem householder_dotProduct (y : Fin n → ℝ) (c : Fin n) (g : ℝ) :
    y ⬝ᵥ (y - Pi.single c g) = y ⬝ᵥ y - y c * g := by
  rw [dotProduct_sub, dotProduct_single]

theorem householder_dotProduct_self (hg : g * g = y ⬝ᵥ y) :
    (y - Pi.single c g) ⬝ᵥ (y - Pi.single c g) = 2 * (y ⬝ᵥ y - y c * g) := by
  rw [sub_dotProduct, householder_dotProduct, single_dotProduct, Pi.sub_apply, Pi.single_eq_same]
  linear_combination hg

theorem householder_half_pos (hy : y ≠ 0) (hg : y c * g ≤ 0) : 0 < y ⬝ᵥ y - y c * g := by
  have h : 0 < y ⬝ᵥ y := lt_of_le_of_ne (Finset.sum_nonneg fun k _ ↦ mul_self_nonneg (y k))
    (Ne.symm fun h ↦ hy (dotProduct_self_eq_zero.1 h))
  linarith

end Householder

end Reflection

end DenseDecomp
