import Mathlib.Data.Real.Basic
import DenseDecomp.Proofs.GridMatrix
import DenseDecomp.Proofs.Tridiagonal.Reduction

namespace DenseDecomp

open Matrix Scalar

variable {n : ℕ}

namespace Tridiagonal

def lead (t : Tridiagonal ℝ n) (i : ℕ) : Matrix (Fin n) (Fin n) ℝ :=
  of fun k l ↦
    if k.val < i ∧ l.val < i then t.basis k l else (1 : Matrix (Fin n) (Fin n) ℝ) k l

/-- What holds once the reflections of the rows up to `i` are multiplied into the basis of the
reduced matrix `r`. -/
structure Accumulated (F : ℕ → Matrix (Fin (n + 1)) (Fin (n + 1)) ℝ) (r : Tridiagonal ℝ (n + 1))
    (i : ℕ) (t : Tridiagonal ℝ (n + 1)) : Prop where
  orthogonal : t.lead i * (t.lead i)ᵀ = 1
  conj_eq : t.lead i * F 0 * (t.lead i)ᵀ = F i
  kept : ∀ k l : Fin (n + 1), i < l ∨ (i ≤ k ∧ (l.val = i ∨ k.val < n)) → t.basis k l = r.basis k l
  column_clear : ∀ k l : Fin (n + 1), l.val = i → k < l → t.basis k l = 0
  last_row : ∀ l : Fin (n + 1), l.val < i → t.basis (Fin.last n) l = r.basis l l
  diag_eq : t.diag = r.diag
  below_eq : t.below = r.below

theorem lead_zero (t : Tridiagonal ℝ n) : t.lead 0 = 1 := by
  ext k l
  simp only [lead, of_apply, Nat.not_lt_zero, false_and, if_false]

theorem lead_of_not_lt {t : Tridiagonal ℝ n} {i : ℕ} {k l : Fin n} (h : ¬ (k.val < i ∧ l.val < i)) :
    t.lead i k l = (1 : Matrix (Fin n) (Fin n) ℝ) k l := if_neg h

section Step

variable {c : Fin n} {r t : Tridiagonal ℝ (n + 1)}
  {F : ℕ → Matrix (Fin (n + 1)) (Fin (n + 1)) ℝ}

theorem Accumulated.start : Accumulated F r 0 r where
  orthogonal := by rw [lead_zero, transpose_one, mul_one]
  conj_eq := by rw [lead_zero, transpose_one, mul_one, one_mul]
  kept _ _ _ := rfl
  column_clear k l hl hk := absurd hk (by omega)
  last_row l hl := absurd hl (Nat.not_lt_zero _)
  diag_eq := rfl
  below_eq := rfl

theorem Accumulated.column_eq (h : Accumulated F r c t) {k : Fin (n + 1)} (hk : k ≤ c.castSucc) :
    t.basis k c.succ = r.vector c.succ k := by
  have hlt : k < c.succ := lt_of_le_of_lt hk Fin.castSucc_lt_succ
  rw [vector, if_pos hlt, h.kept k c.succ (Or.inl (by simp))]

theorem Accumulated.lead_eq [DivisionByZero] (hr : Reduced F 0 r) (h : Accumulated F r c t)
    {k l : Fin (n + 1)} (hk : k ≤ c.castSucc) (hl : l ≤ c.castSucc) :
    t.basis.set c.castSucc c.castSucc 1 k l = t.lead c k l := by
  rw [Grid.set_apply, lead, of_apply]
  obtain rfl | hk := eq_or_lt_of_le hk <;> obtain rfl | hl := eq_or_lt_of_le hl
  · simp
  · have hl' : l.val < c := hl
    rw [if_neg (fun h ↦ hl.ne h.2), if_neg (by simp), one_apply_ne hl.ne',
      h.kept _ _ (Or.inr ⟨le_rfl, Or.inr c.isLt⟩), hr.clear _ _ (by simp; omega) hl]
  · rw [if_neg (fun h ↦ hk.ne h.1), if_neg (by simp), one_apply_ne hk.ne,
      h.column_clear _ _ rfl hk]
  · rw [if_neg (fun h ↦ hk.ne h.1), if_pos ⟨hk, hl⟩]

theorem Accumulated.sum_eq [DivisionByZero] (hr : Reduced F 0 r) (h : Accumulated F r c t)
    {l : Fin (n + 1)} (hl : l ≤ c.castSucc) :
    (∑ k, if k ≤ c.castSucc then
      t.basis k c.succ * t.basis.set c.castSucc c.castSucc 1 k l else 0) =
      ∑ k, r.vector c.succ k * t.lead c k l := by
  refine Finset.sum_congr rfl fun k _ ↦ ?_
  by_cases hk : k ≤ c.castSucc
  · rw [if_pos hk, h.column_eq hk, h.lead_eq hr hk hl]
  · have hk' : ¬ k < c.succ := fun h ↦ hk (Fin.le_castSucc_iff.2 h)
    rw [if_neg hk, vector, if_neg hk', zero_mul]

variable [DivisionByZero]

theorem accumulate_basis_of_gt {k l : Fin (n + 1)} (h₁ : ¬ (k = Fin.last n ∧ l = c.castSucc))
    (h₂ : c.succ < l ∨ c.castSucc < k) : (accumulate t c).basis k l = t.basis k l := by
  rw [Fin.lt_def, Fin.lt_def, Fin.val_castSucc, Fin.val_succ] at h₂
  have h₃ : ¬ (k ≤ c.castSucc ∧ l ≤ c.castSucc) := by
    rw [Fin.le_def, Fin.le_def, Fin.val_castSucc]
    omega
  have h₄ : ¬ (k ≤ c.castSucc ∧ l = c.succ) := by
    rw [Fin.le_def, Fin.ext_iff, Fin.val_castSucc, Fin.val_succ]
    omega
  simp only [accumulate, Grid.ofFn_apply, h₁, h₃, h₄, if_false]

theorem accumulate_basis_of_le (hr : Reduced F 0 r) (h : Accumulated F r c t) {k l : Fin (n + 1)}
    (hk : k ≤ c.castSucc) (hl : l ≤ c.castSucc) :
    (accumulate t c).basis k l = (reflection (r.vector c.succ) * t.lead c) k l := by
  have hlast : ¬ (k = Fin.last n ∧ l = c.castSucc) := by
    rintro ⟨rfl, -⟩
    exact absurd hk (not_le.2 (Fin.castSucc_lt_last c))
  have hhalf : 2 * t.diag c.succ = r.vector c.succ ⬝ᵥ r.vector c.succ := by
    rw [h.diag_eq, hr.diag_eq _ (by simp)]
  rw [reflection_mul_apply, accumulate, Grid.ofFn_apply, if_neg hlast, if_pos ⟨hk, hl⟩,
    h.lead_eq hr hk hl]
  by_cases hd : t.diag c.succ = 0
  · rw [hd, if_pos (beq_self_eq_true _)]
    rw [hd, mul_zero, eq_comm, dotProduct_self_eq_zero] at hhalf
    rw [hhalf, Pi.zero_apply, zero_mul, sub_zero]
  · rw [if_neg (by rwa [beq_iff_eq]), Tuple.ofFn_apply, sumWhere_real, div_of_ne_zero _ hd]
    simp only [Grid.column_apply]
    rw [h.sum_eq hr hl, h.column_eq hk, ← hhalf, div_mul_eq_div_div, div_self two_ne_zero]
    ring

theorem accumulate_lead (hr : Reduced F 0 r) (h : Accumulated F r c t) :
    (accumulate t c).lead (c + 1) = reflection (r.vector c.succ) * t.lead c := by
  ext k l
  by_cases hkl : k ≤ c.castSucc ∧ l ≤ c.castSucc
  · rw [← accumulate_basis_of_le hr h hkl.1 hkl.2, lead, of_apply, if_pos]
    exact ⟨Nat.lt_succ_of_le hkl.1, Nat.lt_succ_of_le hkl.2⟩
  · have hkl' : ¬ (k.val < c + 1 ∧ l.val < c + 1) := fun h ↦
      hkl ⟨Nat.le_of_lt_succ h.1, Nat.le_of_lt_succ h.2⟩
    have hv : ∀ m, c.castSucc < m → r.vector c.succ m = 0 := fun m hm ↦
      if_neg (not_lt.2 (Fin.castSucc_lt_iff_succ_le.1 hm))
    rw [lead_of_not_lt hkl', reflection_mul_apply, lead_of_not_lt (by omega)]
    by_cases hk : k ≤ c.castSucc
    · have hl : c.castSucc < l := not_le.1 fun h ↦ hkl ⟨hk, h⟩
      have hsum : ∑ m, r.vector c.succ m * t.lead c m l = 0 := Finset.sum_eq_zero fun m _ ↦ by
        have hl' : c.val < l.val := hl
        rw [lead_of_not_lt (by omega)]
        obtain rfl | hm := eq_or_ne m l
        · rw [hv m hl, zero_mul]
        · rw [one_apply_ne hm, mul_zero]
      rw [hsum, mul_zero, mul_zero, sub_zero]
    · rw [hv k (not_le.1 hk), zero_mul, sub_zero]

theorem Accumulated.accumulate (hr : Reduced F 0 r) (h : Accumulated F r c t) :
    Accumulated F r (c + 1) (accumulate t c) where
  orthogonal := by
    rw [accumulate_lead hr h, transpose_mul, reflection_transpose, mul_assoc, ← mul_assoc _ _ᵀ,
      h.orthogonal, one_mul, reflection_mul_self]
  conj_eq := by
    have hF := hr.conj_eq c.succ (by simp)
    rw [Fin.val_succ, Nat.add_sub_cancel] at hF
    calc
      (Tridiagonal.accumulate t c).lead (c + 1) * F 0 * ((Tridiagonal.accumulate t c).lead (c + 1))ᵀ
        = reflection (r.vector c.succ) * (t.lead c * F 0 * (t.lead c)ᵀ) *
            reflection (r.vector c.succ) := by
          rw [accumulate_lead hr h, transpose_mul, reflection_transpose]
          simp only [mul_assoc]
      _ = reflection (r.vector c.succ) * reflection (r.vector c.succ) * F (c + 1) *
            (reflection (r.vector c.succ) * reflection (r.vector c.succ)) := by
          rw [h.conj_eq, hF]
          simp only [mul_assoc]
      _ = F (c + 1) := by rw [reflection_mul_self, one_mul, mul_one]
  kept k l hkl := by
    have hlast : ¬ (k = Fin.last n ∧ l = c.castSucc) := by
      rw [Fin.ext_iff, Fin.ext_iff, Fin.val_last, Fin.val_castSucc]
      omega
    rw [accumulate_basis_of_gt hlast, h.kept k l (by omega)]
    rw [Fin.lt_def, Fin.lt_def, Fin.val_castSucc, Fin.val_succ]
    omega
  column_clear k l hl hk := by
    obtain rfl : l = c.succ := Fin.ext hl
    have hkc : k ≤ c.castSucc := Fin.le_castSucc_iff.2 hk
    have h₁ : ¬ (k = Fin.last n ∧ c.succ = c.castSucc) := fun h ↦ (Fin.castSucc_lt_succ).ne' h.2
    have h₂ : ¬ (k ≤ c.castSucc ∧ c.succ ≤ c.castSucc) := fun h ↦
      not_le.2 Fin.castSucc_lt_succ h.2
    rw [Tridiagonal.accumulate, Grid.ofFn_apply, if_neg h₁, if_neg h₂, if_pos ⟨hkc, rfl⟩]
  last_row l hl := by
    obtain hlc | hlc := eq_or_lt_of_le (Nat.le_of_lt_succ hl)
    · obtain rfl : l = c.castSucc := Fin.ext hlc
      rw [Tridiagonal.accumulate, Grid.ofFn_apply, if_pos ⟨rfl, rfl⟩,
        h.kept _ _ (Or.inr ⟨le_rfl, Or.inl rfl⟩)]
    · have hlast : ¬ (Fin.last n = Fin.last n ∧ l = c.castSucc) := fun h ↦
        hlc.ne (congrArg Fin.val h.2)
      rw [accumulate_basis_of_gt hlast (Or.inr (Fin.castSucc_lt_last c)), h.last_row l hlc]
  diag_eq := h.diag_eq
  below_eq := h.below_eq

end Step

def matrix (t : Tridiagonal ℝ n) : Matrix (Fin n) (Fin n) ℝ :=
  of fun i j ↦
    if i = j then t.diag i
    else if i.val + 1 = j.val then t.below j
    else if j.val + 1 = i.val then t.below i
    else 0

variable [DivisionByZero] {r t : Tridiagonal ℝ (n + 1)}
  {F : ℕ → Matrix (Fin (n + 1)) (Fin (n + 1)) ℝ}

theorem Accumulated.finish_basis (h : Accumulated F r n t) :
    (finish t).basis.toMatrix = t.lead n := by
  ext k l
  rw [Grid.toMatrix_apply, finish, Grid.ofFn_apply]
  by_cases hk : k = Fin.last n
  · have hk' : ¬ (k.val < n ∧ l.val < n) := by rw [hk]; simp
    rw [if_pos hk, lead_of_not_lt hk', one_apply, hk]
    simp only [eq_comm]
  · have hkn : k.val < n := Fin.val_lt_last hk
    rw [if_neg hk]
    by_cases hl : l = Fin.last n
    · have hl' : ¬ (k.val < n ∧ l.val < n) := by rw [hl]; simp
      rw [lead_of_not_lt hl', one_apply_ne (fun h ↦ hk (h.trans hl)),
        h.column_clear k l (by rw [hl, Fin.val_last]) (by rw [hl]; exact hkn)]
    · rw [lead, of_apply, if_pos ⟨hkn, Fin.val_lt_last hl⟩]

theorem Accumulated.finish_matrix (hr : Reduced F 0 r) (h : Accumulated F r n t) :
    (finish t).matrix = F 0 := by
  have hdiag : ∀ k, (finish t).diag k = r.basis k k := fun k ↦ by
    rw [finish, Grid.row_apply]
    by_cases hk : k = Fin.last n
    · rw [hk, h.kept _ _ (Or.inr ⟨le_rfl, Or.inl rfl⟩)]
    · rw [h.last_row k (Fin.val_lt_last hk)]
  have hbelow : ∀ k : Fin (n + 1), 0 < k.val → (finish t).below k = r.below k := fun k hk ↦ by
    rw [finish, Tuple.set_apply, if_neg (Fin.pos_iff_ne_zero.1 hk), h.below_eq]
  rw [hr.form_eq]
  ext k l
  simp only [matrix, form, of_apply]
  by_cases hkl : k = l
  · subst hkl
    simp only [if_true, hdiag, lowerEntry, lt_irrefl, ite_self]
  · have h₀ : ¬ (k.val ≤ 0 ∧ l.val ≤ 0) := by omega
    rw [if_neg hkl, if_neg h₀, if_neg hkl]
    by_cases hk : k.val + 1 = l.val
    · rw [if_pos hk, if_pos hk, hbelow l (by omega)]
    · rw [if_neg hk, if_neg hk]
      by_cases hl : l.val + 1 = k.val
      · rw [if_pos hl, if_pos hl, hbelow k (by omega)]
      · rw [if_neg hl, if_neg hl]

theorem ofSymmetric_conj {a : Grid ℝ (n + 1) (n + 1)} (ha : a.toMatrixᵀ = a.toMatrix) :
    (ofSymmetric a).basis.toMatrix * (ofSymmetric a).basis.toMatrixᵀ = 1 ∧
      (ofSymmetric a).basis.toMatrix * (ofSymmetric a).matrix * (ofSymmetric a).basis.toMatrixᵀ =
        a.toMatrix := by
  obtain ⟨F, hF, hr⟩ := exists_reduced ha (fun _ _ ↦ rfl)
  have h : Accumulated F (reduce a) n (Fin.foldl n accumulate (reduce a)) :=
    foldl_invariant _ Accumulated.start fun c t h ↦ h.accumulate hr
  rw [ofSymmetric, h.finish_matrix hr, h.finish_basis]
  exact ⟨h.orthogonal, h.conj_eq.trans hF⟩

end Tridiagonal

end DenseDecomp
