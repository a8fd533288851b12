import Mathlib.Data.Real.Basic
import Mathlib.Algebra.Order.Ring.Abs
import DenseDecomp.Proofs.Band

namespace DenseDecomp

open Matrix

variable {n : ℕ}

/-- A matrix of trace zero that takes no vector of the unit ball further than `c`. -/
structure Residual (c : ℝ) (E : Matrix (Fin n) (Fin n) ℝ) : Prop where
  trace_eq : E.trace = 0
  bound : ∀ x y, x ⬝ᵥ x ≤ 1 → y ⬝ᵥ y ≤ 1 → |x ⬝ᵥ E *ᵥ y| ≤ c

namespace Residual

variable {c c' : ℝ} {E E' V : Matrix (Fin n) (Fin n) ℝ}

theorem zero : Residual 0 (0 : Matrix (Fin n) (Fin n) ℝ) where
  trace_eq := trace_zero _ _
  bound x y _ _ := by rw [zero_mulVec, dotProduct_zero, abs_zero]

theorem mono (h : Residual c E) (hc : c ≤ c') : Residual c' E where
  trace_eq := h.trace_eq
  bound x y hx hy := (h.bound x y hx hy).trans hc

theorem add (h : Residual c E) (h' : Residual c' E') : Residual (c + c') (E + E') where
  trace_eq := by rw [trace_add, h.trace_eq, h'.trace_eq, add_zero]
  bound x y hx hy := by
    rw [add_mulVec, dotProduct_add]
    exact (abs_add_le _ _).trans (add_le_add (h.bound x y hx hy) (h'.bound x y hx hy))

theorem conj (hV : V * Vᵀ = 1) (h : Residual c E) : Residual c (V * E * Vᵀ) where
  trace_eq := by rw [trace_mul_comm, ← mul_assoc, mul_eq_one_comm.1 hV, one_mul, h.trace_eq]
  bound x y hx hy := by
    have hball : ∀ z : Fin n → ℝ, z ⬝ᵥ z ≤ 1 → (Vᵀ *ᵥ z) ⬝ᵥ (Vᵀ *ᵥ z) ≤ 1 := fun z hz ↦ by
      rwa [dotProduct_mulVec, vecMul_transpose, mulVec_mulVec, hV, one_mulVec]
    have hmove : x ⬝ᵥ (V * E * Vᵀ) *ᵥ y = (Vᵀ *ᵥ x) ⬝ᵥ E *ᵥ (Vᵀ *ᵥ y) := by
      rw [mul_assoc, ← mulVec_mulVec, ← mulVec_mulVec, dotProduct_mulVec, ← mulVec_transpose V x]
    rw [hmove]
    exact h.bound _ _ (hball x hx) (hball y hy)

end Residual

/-- Written in the orthogonal basis `V`, the matrix `M` differs from `A` by a residual. -/
structure Approximates (A : Matrix (Fin n) (Fin n) ℝ) (c : ℝ) (V M : Matrix (Fin n) (Fin n) ℝ) :
    Prop where
  orthogonal : V * Vᵀ = 1
  residual : Residual c (A - V * M * Vᵀ)

namespace Approximates

variable {c c' : ℝ} {A V M V' M' : Matrix (Fin n) (Fin n) ℝ}

theorem rebase (h : Approximates A c V M) (hr : Rebases V M V' M') : Approximates A c V' M' where
  orthogonal := hr.gram_eq.trans h.orthogonal
  residual := by
    rw [hr.conj_eq]
    exact h.residual

theorem mono (h : Approximates A c V M) (hc : c ≤ c') : Approximates A c' V M :=
  ⟨h.orthogonal, h.residual.mono hc⟩

theorem replace (h : Approximates A c V M) (hm : Residual c' (M - M')) :
    Approximates A (c + c') V M' where
  orthogonal := h.orthogonal
  residual := by
    have hsplit : A - V * M' * Vᵀ = A - V * M * Vᵀ + V * (M - M') * Vᵀ := by
      rw [mul_sub, sub_mul, sub_add_sub_cancel]
    rw [hsplit]
    exact h.residual.add (hm.conj h.orthogonal)

theorem trace_eq (h : Approximates A c V M) : M.trace = A.trace := by
  have htrace := h.residual.trace_eq
  rw [trace_sub, trace_mul_comm, ← mul_assoc, mul_eq_one_comm.1 h.orthogonal, one_mul] at htrace
  exact (sub_eq_zero.1 htrace).symm

theorem eigenvectors_le (h : Approximates A c V M) (i j : Fin n) :
    |(A * V - V * M) i j| ≤ c := by
  have hV : Vᵀ * V = 1 := mul_eq_one_comm.1 h.orthogonal
  have hmul : A * V - V * M = (A - V * M * Vᵀ) * V := by
    rw [sub_mul, mul_assoc (V * M), hV, mul_one]
  have hentry : (A * V - V * M) i j = Pi.single i 1 ⬝ᵥ (A - V * M * Vᵀ) *ᵥ V.col j := by
    rw [hmul, single_dotProduct, one_mul]
    rfl
  have hrow : (Pi.single i 1 : Fin n → ℝ) ⬝ᵥ Pi.single i 1 ≤ 1 := by
    rw [single_dotProduct, Pi.single_eq_same, one_mul]
  have hcol : V.col j ⬝ᵥ V.col j ≤ 1 := by
    have h := congrFun (congrFun hV j) j
    rw [one_apply_eq] at h
    exact h.le
  rw [hentry]
  exact h.residual.bound _ _ hrow hcol

end Approximates

section Link

theorem add_mul_le_one {a b a' b' : ℝ} (h : a * a + b * b ≤ 1) (h' : a' * a' + b' * b' ≤ 1) :
    |a * b' + b * a'| ≤ 1 := by
  have hsq : (a * b' + b * a') * (a * b' + b * a') ≤ (a * a + b * b) * (a' * a' + b' * b') := by
    linarith [mul_self_nonneg (a * a' - b * b')]
  have hle : (a * a + b * b) * (a' * a' + b' * b') ≤ 1 :=
    mul_le_one₀ h (add_nonneg (mul_self_nonneg a') (mul_self_nonneg b')) h'
  exact abs_le_one_iff_mul_self_le_one.2 (hsq.trans hle)

variable {k : Fin n} {x : ℝ}

theorem tridiagonal_single (k : Fin n) (x : ℝ) :
    tridiagonal 0 (Pi.single k.castSucc x) =
      x • (vecMulVec (Pi.single k.castSucc 1) (Pi.single k.succ 1) +
        vecMulVec (Pi.single k.succ 1) (Pi.single k.castSucc 1)) := by
  refine eq_of_lower (band_transpose _ _ _) ?_ fun i j hji ↦ ?_
  · rw [transpose_smul, transpose_add, transpose_vecMulVec, transpose_vecMulVec,
      add_comm (vecMulVec _ _)]
  · have hjk : ¬ (j = k.succ ∧ i = k.castSucc) := by
      rintro ⟨rfl, rfl⟩
      exact absurd hji (not_le.2 Fin.castSucc_lt_succ)
    rw [Matrix.smul_apply, Matrix.add_apply, vecMulVec_apply, vecMulVec_apply, smul_eq_mul]
    simp only [Pi.single_apply, mul_ite, mul_one, mul_zero, ← ite_and, hjk, if_false, zero_add]
    by_cases hij : j = k.castSucc ∧ i = k.succ
    · obtain ⟨rfl, rfl⟩ := hij
      rw [tridiagonal, band_succ (by simp), Pi.single_eq_same, if_pos ⟨rfl, rfl⟩]
    · rw [if_neg hij, tridiagonal]
      obtain rfl | hji := eq_or_lt_of_le hji
      · exact band_self _ _ _ j
      · obtain h | h | h : j.val + 1 = i.val ∨ j.val + 2 = i.val ∨ j.val + 2 < i.val := by omega
        · have hj : j ≠ k.castSucc := fun hj ↦ hij ⟨hj, Fin.ext (by rw [← h, hj]; rfl)⟩
          rw [band_succ h, Pi.single_eq_of_ne hj]
        · exact band_skip h
        · exact band_far h

theorem dotProduct_link (k : Fin n) (x : ℝ) (u v : Fin (n + 1) → ℝ) :
    u ⬝ᵥ tridiagonal 0 (Pi.single k.castSucc x) *ᵥ v =
      x * (u k.castSucc * v k.succ + u k.succ * v k.castSucc) := by
  rw [tridiagonal_single, smul_mulVec, add_mulVec, vecMulVec_mulVec, vecMulVec_mulVec]
  simp only [op_smul_eq_smul, dotProduct_add, dotProduct_smul, smul_eq_mul, single_dotProduct,
    dotProduct_single, one_mul, mul_one]
  ring

theorem residual_link (k : Fin n) (x : ℝ) :
    Residual |x| (tridiagonal 0 (Pi.single k.castSucc x)) where
  trace_eq := Finset.sum_eq_zero fun i _ ↦ band_self _ _ _ i
  bound u v hu hv := by
    have htwo : ∀ w : Fin (n + 1) → ℝ, w ⬝ᵥ w ≤ 1 →
        w k.castSucc * w k.castSucc + w k.succ * w k.succ ≤ 1 := fun w hw ↦ by
      refine le_trans ?_ hw
      have h := Finset.sum_le_univ_sum_of_nonneg (s := {k.castSucc, k.succ})
        (fun i ↦ mul_self_nonneg (w i))
      rwa [Finset.sum_pair Fin.castSucc_lt_succ.ne] at h
    rw [dotProduct_link, abs_mul]
    exact mul_le_of_le_one_right (abs_nonneg x) (add_mul_le_one (htwo u hu) (htwo v hv))

end Link

end DenseDecomp
