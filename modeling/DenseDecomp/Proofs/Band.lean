import Mathlib.Data.Real.Basic
import DenseDecomp.Proofs.ChangeOfBasis

namespace DenseDecomp

open Matrix

variable {n : ℕ}

def band (d e b : Fin n → ℝ) : Matrix (Fin n) (Fin n) ℝ :=
  of fun i j ↦
    if i = j then d i
    else if j.val + 1 = i.val then e j
    else if i.val + 1 = j.val then e i
    else if j.val + 2 = i.val then b j
    else if i.val + 2 = j.val then b i
    else 0

def tridiagonal (d e : Fin n → ℝ) : Matrix (Fin n) (Fin n) ℝ := band d e 0

section Band

variable {d e b d' e' b' : Fin n → ℝ} {i j : Fin n}

theorem band_self (d e b : Fin n → ℝ) (i : Fin n) : band d e b i i = d i := if_pos rfl

theorem band_succ (h : j.val + 1 = i.val) : band d e b i j = e j := by
  rw [band, of_apply, if_neg (by omega), if_pos h]

theorem band_skip (h : j.val + 2 = i.val) : band d e b i j = b j := by
  rw [band, of_apply, if_neg (by omega), if_neg (by omega), if_neg (by omega), if_pos h]

theorem band_far (h : j.val + 2 < i.val) : band d e b i j = 0 := by
  rw [band, of_apply, if_neg (by omega), if_neg (by omega), if_neg (by omega), if_neg (by omega),
    if_neg (by omega)]

theorem band_transpose (d e b : Fin n → ℝ) : (band d e b)ᵀ = band d e b := by
  ext i j
  rw [transpose_apply, band, of_apply, of_apply]
  obtain rfl | hij := eq_or_ne i j
  · rfl
  · rw [if_neg hij, if_neg hij.symm]
    split_ifs <;> first | rfl | omega

theorem band_congr (hd : ∀ i, d i = d' i) (he : ∀ i : Fin n, i.val + 1 < n → e i = e' i)
    (hb : ∀ i : Fin n, i.val + 2 < n → b i = b' i) : band d e b = band d' e' b' := by
  refine eq_of_lower (band_transpose d e b) (band_transpose d' e' b') fun i j hji ↦ ?_
  obtain rfl | hji := eq_or_lt_of_le hji
  · rw [band_self, band_self, hd]
  · obtain h | h | h : j.val + 1 = i.val ∨ j.val + 2 = i.val ∨ j.val + 2 < i.val := by omega
    · rw [band_succ h, band_succ h, he j (by omega)]
    · rw [band_skip h, band_skip h, hb j (by omega)]
    · rw [band_far h, band_far h]

theorem band_add_diagonal (d e b w : Fin n → ℝ) :
    band (fun i ↦ d i + w i) e b = band d e b + diagonal w := by
  ext i j
  rw [Matrix.add_apply, band, of_apply, band, of_apply]
  obtain rfl | hij := eq_or_ne i j
  · rw [if_pos rfl, if_pos rfl, diagonal_apply_eq]
  · rw [if_neg hij, if_neg hij, diagonal_apply_ne _ hij, add_zero]

theorem band_diagonal (d : Fin n → ℝ) : band d 0 0 = diagonal d := by
  ext i j
  rw [band, of_apply, diagonal_apply]
  simp only [Pi.zero_apply, ite_self]

theorem band_add (d e b d' e' b' : Fin n → ℝ) :
    band d e b + band d' e' b' = band (d + d') (e + e') (b + b') := by
  ext i j
  rw [Matrix.add_apply]
  simp only [band, of_apply, Pi.add_apply]
  split_ifs <;> first | rfl | exact add_zero 0

end Band

section Rotate

variable {d e b d' e' b' : Fin (n + 1) → ℝ} {k : Fin n} {c s : ℝ}

/-- What a rotation of the axes `k` and `k + 1` makes of a band matrix whose only bulge stands
between `k` and `k + 2`: the bulge moves up by one index. -/
structure Chases (k : Fin n) (c s : ℝ) (d e b d' e' b' : Fin (n + 1) → ℝ) : Prop where
  bulge : ∀ i, i ≠ k.castSucc → b i = 0
  bulge_up : ∀ i : Fin (n + 1), i.val + 1 ≠ k → b' i = 0
  diag_of_ne : ∀ i, i ≠ k.castSucc → i ≠ k.succ → d' i = d i
  link_of_ne : ∀ i : Fin (n + 1), i.val + 1 ≠ k → i ≠ k.castSucc → i ≠ k.succ → e' i = e i
  diag_castSucc : d' k.castSucc =
    c * (c * d k.castSucc - s * e k.castSucc) - s * (c * e k.castSucc - s * d k.succ)
  diag_succ : d' k.succ =
    s * (s * d k.castSucc + c * e k.castSucc) + c * (s * e k.castSucc + c * d k.succ)
  link_castSucc : e' k.castSucc =
    s * (c * d k.castSucc - s * e k.castSucc) + c * (c * e k.castSucc - s * d k.succ)
  link_succ : e' k.succ = s * b k.castSucc + c * e k.succ
  cleared : c * b k.castSucc - s * e k.succ = 0
  link_pred : ∀ i : Fin (n + 1), i.val + 1 = k → e' i = c * e i
  bulge_pred : ∀ i : Fin (n + 1), i.val + 1 = k → b' i = s * e i

theorem planeRotation_conj_apply (M : Matrix (Fin n) (Fin n) ℝ) (j k a b : Fin n) :
    ((planeRotation j k c s)ᵀ * M * planeRotation j k c s) a b =
      if b = j then
        if a = j then c * (c * M j j - s * M k j) - s * (c * M j k - s * M k k)
        else if a = k then c * (s * M j j + c * M k j) - s * (s * M j k + c * M k k)
        else c * M a j - s * M a k
      else if b = k then
        if a = j then s * (c * M j j - s * M k j) + c * (c * M j k - s * M k k)
        else if a = k then s * (s * M j j + c * M k j) + c * (s * M j k + c * M k k)
        else s * M a j + c * M a k
      else if a = j then c * M j b - s * M k b
      else if a = k then s * M j b + c * M k b
      else M a b := by
  rw [mul_planeRotation]
  simp only [planeRotation_transpose_mul]
  split_ifs <;> rfl

namespace Chases

variable {i j : Fin (n + 1)}

theorem below_castSucc (h : Chases k c s d e b d' e' b') (hi : k.succ < i) :
    band d' e' b' i k.castSucc = c * band d e b i k.castSucc - s * band d e b i k.succ := by
  have hv : k.val + 1 < i.val := hi
  have hb' : b' k.castSucc = 0 := h.bulge_up _ (by simp)
  obtain hv | hv := Nat.eq_or_lt_of_le hv
  · have h₁ : k.castSucc.val + 2 = i.val := by simp; omega
    have h₂ : k.succ.val + 1 = i.val := by simp; omega
    rw [band_skip h₁, band_skip h₁, band_succ h₂, hb', h.cleared]
  · have h₁ : k.castSucc.val + 2 < i.val := by simp; omega
    have hfar : band d e b i k.succ = 0 := by
      obtain h₂ | h₂ : k.succ.val + 2 = i.val ∨ k.succ.val + 2 < i.val := by simp; omega
      · rw [band_skip h₂, h.bulge _ Fin.castSucc_lt_succ.ne']
      · rw [band_far h₂]
    rw [band_far h₁, band_far h₁, hfar, mul_zero, mul_zero, sub_zero]

theorem below_succ (h : Chases k c s d e b d' e' b') (hi : k.succ < i) :
    band d' e' b' i k.succ = s * band d e b i k.castSucc + c * band d e b i k.succ := by
  have hv : k.val + 1 < i.val := hi
  have hb' : b' k.succ = 0 := h.bulge_up _ (by simp; omega)
  have hb : b k.succ = 0 := h.bulge _ Fin.castSucc_lt_succ.ne'
  obtain hv | hv := Nat.eq_or_lt_of_le hv
  · have h₁ : k.castSucc.val + 2 = i.val := by simp; omega
    have h₂ : k.succ.val + 1 = i.val := by simp; omega
    rw [band_skip h₁, band_succ h₂, band_succ h₂, h.link_succ]
  · have h₁ : k.castSucc.val + 2 < i.val := by simp; omega
    obtain h₂ | h₂ : k.succ.val + 2 = i.val ∨ k.succ.val + 2 < i.val := by simp; omega
    · rw [band_far h₁, band_skip h₂, band_skip h₂, hb, hb', mul_zero, mul_zero, add_zero]
    · rw [band_far h₁, band_far h₂, band_far h₂, mul_zero, mul_zero, add_zero]

theorem castSucc_before (h : Chases k c s d e b d' e' b') (hj : j < k.castSucc) :
    band d' e' b' k.castSucc j = c * band d e b k.castSucc j - s * band d e b k.succ j := by
  have hv : j.val < k.val := hj
  have hb : b j = 0 := h.bulge _ hj.ne
  obtain h₁ | h₁ : j.val + 1 = k.castSucc.val ∨ j.val + 1 < k.val := by simp; omega
  · have h₂ : j.val + 2 = k.succ.val := by simp; simpa using h₁
    rw [band_succ h₁, band_succ h₁, band_skip h₂, hb, mul_zero, sub_zero, h.link_pred j h₁]
  · have h₂ : j.val + 2 < k.succ.val := by simp; omega
    have hb' : b' j = 0 := h.bulge_up _ h₁.ne
    rw [band_far h₂, mul_zero, sub_zero]
    obtain h₃ | h₃ : j.val + 2 = k.castSucc.val ∨ j.val + 2 < k.castSucc.val := by simp; omega
    · rw [band_skip h₃, band_skip h₃, hb, hb', mul_zero]
    · rw [band_far h₃, band_far h₃, mul_zero]

theorem succ_before (h : Chases k c s d e b d' e' b') (hj : j < k.castSucc) :
    band d' e' b' k.succ j = s * band d e b k.castSucc j + c * band d e b k.succ j := by
  have hv : j.val < k.val := hj
  have hb : b j = 0 := h.bulge _ hj.ne
  obtain h₁ | h₁ : j.val + 1 = k.castSucc.val ∨ j.val + 1 < k.val := by simp; omega
  · have h₂ : j.val + 2 = k.succ.val := by simp; simpa using h₁
    rw [band_succ h₁, band_skip h₂, band_skip h₂, hb, mul_zero, add_zero, h.bulge_pred j h₁]
  · have h₂ : j.val + 2 < k.succ.val := by simp; omega
    rw [band_far h₂, band_far h₂, mul_zero, add_zero]
    obtain h₃ | h₃ : j.val + 2 = k.castSucc.val ∨ j.val + 2 < k.castSucc.val := by simp; omega
    · rw [band_skip h₃, hb, mul_zero]
    · rw [band_far h₃, mul_zero]

theorem elsewhere (h : Chases k c s d e b d' e' b') (hji : j ≤ i) (hi₁ : i ≠ k.castSucc)
    (hi₂ : i ≠ k.succ) (hj₁ : j ≠ k.castSucc) (hj₂ : j ≠ k.succ) :
    band d' e' b' i j = band d e b i j := by
  have hv₁ : i.val ≠ k.val := fun h ↦ hi₁ (Fin.ext h)
  have hv₂ : i.val ≠ k.val + 1 := fun h ↦ hi₂ (Fin.ext h)
  obtain rfl | hji := eq_or_lt_of_le hji
  · rw [band_self, band_self, h.diag_of_ne _ hi₁ hi₂]
  · obtain h₁ | h₁ | h₁ : j.val + 1 = i.val ∨ j.val + 2 = i.val ∨ j.val + 2 < i.val := by omega
    · rw [band_succ h₁, band_succ h₁, h.link_of_ne j (by omega) hj₁ hj₂]
    · rw [band_skip h₁, band_skip h₁, h.bulge j hj₁, h.bulge_up j (by omega)]
    · rw [band_far h₁, band_far h₁]

theorem band_eq (h : Chases k c s d e b d' e' b') :
    band d' e' b' =
      (planeRotation k.castSucc k.succ c s)ᵀ * band d e b * planeRotation k.castSucc k.succ c s := by
  have hsymm : ((planeRotation k.castSucc k.succ c s)ᵀ * band d e b *
      planeRotation k.castSucc k.succ c s)ᵀ =
        (planeRotation k.castSucc k.succ c s)ᵀ * band d e b * planeRotation k.castSucc k.succ c s := by
    simp only [transpose_mul, transpose_transpose, band_transpose, mul_assoc]
  have hne : k.castSucc ≠ k.succ := Fin.castSucc_lt_succ.ne
  have hab : band d e b k.succ k.castSucc = e k.castSucc := band_succ (by simp)
  have hba : band d e b k.castSucc k.succ = e k.castSucc := by
    rw [← band_transpose, transpose_apply, hab]
  refine eq_of_lower (band_transpose d' e' b') hsymm fun i j hji ↦ ?_
  rw [planeRotation_conj_apply, hab, hba, band_self, band_self]
  -- The columns of both axes come first, then their rows before the first of them.
  by_cases hj₁ : j = k.castSucc
  · subst hj₁
    rw [if_pos rfl]
    by_cases hi₁ : i = k.castSucc
    · rw [hi₁, if_pos rfl, band_self, h.diag_castSucc]
    · by_cases hi₂ : i = k.succ
      · rw [hi₂, if_neg hne.symm, if_pos rfl, band_succ (by simp), h.link_castSucc]
        ring
      · rw [if_neg hi₁, if_neg hi₂]
        exact h.below_castSucc (lt_of_le_of_ne (Fin.castSucc_lt_iff_succ_le.1
          (lt_of_le_of_ne hji (Ne.symm hi₁))) (Ne.symm hi₂))
  · rw [if_neg hj₁]
    by_cases hj₂ : j = k.succ
    · subst hj₂
      have hi₁ : i ≠ k.castSucc := (lt_of_lt_of_le Fin.castSucc_lt_succ hji).ne'
      rw [if_pos rfl, if_neg hi₁]
      by_cases hi₂ : i = k.succ
      · rw [hi₂, if_pos rfl, band_self, h.diag_succ]
      · rw [if_neg hi₂]
        exact h.below_succ (lt_of_le_of_ne hji (Ne.symm hi₂))
    · rw [if_neg hj₂]
      by_cases hi₁ : i = k.castSucc
      · subst hi₁
        rw [if_pos rfl]
        exact h.castSucc_before (lt_of_le_of_ne hji hj₁)
      · rw [if_neg hi₁]
        by_cases hi₂ : i = k.succ
        · subst hi₂
          rw [if_pos rfl]
          exact h.succ_before (lt_of_le_of_ne
            (Fin.le_castSucc_iff.2 (lt_of_le_of_ne hji hj₂)) hj₁)
        · rw [if_neg hi₂]
          exact h.elsewhere hji hi₁ hi₂ hj₁ hj₂

end Chases

end Rotate

end DenseDecomp
