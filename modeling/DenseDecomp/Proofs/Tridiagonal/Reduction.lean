import Mathlib.Data.Real.Basic
import DenseDecomp.Eigen.Tridiagonal
import DenseDecomp.Proofs.ChangeOfBasis
import DenseDecomp.Proofs.ExactArithmetic
import DenseDecomp.Proofs.Loop

namespace DenseDecomp

open Matrix Scalar

variable {n : ℕ}

namespace Tridiagonal

def form (t : Tridiagonal ℝ n) (j : ℕ) : Matrix (Fin n) (Fin n) ℝ :=
  of fun k l ↦
    if k.val ≤ j ∧ l.val ≤ j then lowerEntry t.basis k l
    else if k = l then t.basis k k
    else if k.val + 1 = l.val then t.below l
    else if l.val + 1 = k.val then t.below k
    else 0

def vector (t : Tridiagonal ℝ n) (i : Fin n) : Fin n → ℝ :=
  fun k ↦ if k < i then t.basis k i else 0

theorem lowerEntry_comm (a : Grid ℝ n n) (i j : Fin n) : lowerEntry a i j = lowerEntry a j i := by
  obtain h | rfl | h := lt_trichotomy i j
  · simp only [lowerEntry, h, h.asymm, if_true, if_false]
  · rfl
  · simp only [lowerEntry, h, h.asymm, if_true, if_false]

theorem form_transpose (t : Tridiagonal ℝ n) (j : ℕ) : (t.form j)ᵀ = t.form j := by
  ext k l
  simp only [transpose_apply, form, of_apply, and_comm (a := l.val ≤ j), lowerEntry_comm _ l k]
  by_cases hkl : k = l
  · simp only [hkl]
  · rw [if_neg hkl, if_neg (Ne.symm hkl)]
    by_cases hk : k.val + 1 = l.val
    · have hl : ¬ l.val + 1 = k.val := by omega
      simp only [hk, hl, if_true, if_false]
    · simp only [hk, if_false]

theorem form_self (t : Tridiagonal ℝ n) (j : ℕ) (k : Fin n) : t.form j k k = t.basis k k := by
  simp only [form, of_apply, lowerEntry, if_true, lt_irrefl, ite_self]

theorem form_of_gt {t : Tridiagonal ℝ n} {j : ℕ} {k l : Fin n} (hk : j < k) (hl : l < k) :
    t.form j k l = if l.val + 1 = k.val then t.below k else 0 := by
  have h₁ : ¬ (k.val ≤ j ∧ l.val ≤ j) := by omega
  have h₂ : ¬ k.val + 1 = l.val := by omega
  simp only [form, of_apply, h₁, h₂, hl.ne', if_false]

def Reflection.head (c : Fin n) (r : Reflection ℝ (n + 1)) : Fin (n + 1) → ℝ :=
  fun k ↦ if k < c.succ then r.vector k else 0

section Row

variable {c : Fin n} {x : Tuple ℝ (n + 1)} {scale : ℝ}

theorem scaledRow_castSucc :
    scaledPart (· < c.succ) scale x c.castSucc = x c.castSucc / scale :=
  if_pos Fin.castSucc_lt_succ

theorem scaledRow_length : (∑ k, if k < c.succ then
    (if k < c.succ then x k / scale else x k) * (if k < c.succ then x k / scale else x k) else 0) =
    scaledPart (· < c.succ) scale x ⬝ᵥ scaledPart (· < c.succ) scale x :=
  scaledPart_length fun _ hk ↦ if_pos hk

variable [DivisionByZero]

noncomputable def rowImage (c : Fin n) (y : Fin (n + 1) → ℝ) : ℝ :=
  negateIf (0 < y c.castSucc) √(y ⬝ᵥ y)

theorem rowImage_mul_self (y : Fin (n + 1) → ℝ) : rowImage c y * rowImage c y = y ⬝ᵥ y := by
  have hlen : 0 ≤ y ⬝ᵥ y := Finset.sum_nonneg fun k _ ↦ mul_self_nonneg (y k)
  rw [rowImage, negateIf_mul_self, Real.mul_self_sqrt hlen]

theorem Reflection.ofRow_eq (hne : scale ≠ 0) :
    (Reflection.ofRow c scale x).half = scaledPart (· < c.succ) scale x ⬝ᵥ scaledPart (· < c.succ) scale x -
        scaledPart (· < c.succ) scale x c.castSucc * rowImage c (scaledPart (· < c.succ) scale x) ∧
      (Reflection.ofRow c scale x).image = scale * rowImage c (scaledPart (· < c.succ) scale x) ∧
      ∀ k, k < c.succ → (Reflection.ofRow c scale x).vector k = scaledPart (· < c.succ) scale x k -
        (Pi.single c.castSucc (rowImage c (scaledPart (· < c.succ) scale x)) : Fin (n + 1) → ℝ) k := by
  have hc : c.castSucc < c.succ := Fin.castSucc_lt_succ
  simp only [Reflection.ofRow, Tuple.ofFn_apply, sumWhere_real, div_of_ne_zero _ hne, sqrt_real,
    scaledRow_length, hc, if_true, Tuple.set_apply]
  refine ⟨by rw [rowImage, scaledRow_castSucc], by rw [rowImage, scaledRow_castSucc],
    fun k hk ↦ ?_⟩
  by_cases hkc : k = c.castSucc
  · rw [hkc, if_pos rfl, Pi.single_eq_same, rowImage, scaledRow_castSucc]
  · rw [if_neg hkc, if_pos hk, Pi.single_eq_of_ne hkc, sub_zero, scaledPart, if_pos hk]

theorem Reflection.half_pos (hs : scale = ∑ k, if k < c.succ then |x k| else 0)
    (hne : scale ≠ 0) : 0 < (Reflection.ofRow c scale x).half := by
  rw [(Reflection.ofRow_eq hne).1]
  exact householder_half_pos (scaledPart_ne_zero hs hne)
    (mul_negateIf_pos_nonpos _ (Real.sqrt_nonneg _))

theorem Reflection.ofRow_spec (c : Fin n) (x : Tuple ℝ (n + 1)) (hne : scale ≠ 0) :
    let r := Reflection.ofRow c scale x
    r.head c ⬝ᵥ r.head c = 2 * r.half ∧ (∑ k, x k * r.head c k) = scale * r.half ∧
      ∀ j, j < c.succ → x j - scale * r.head c j = if j = c.castSucc then r.image else 0 := by
  intro r
  obtain ⟨hhalf, himage, hvector⟩ := Reflection.ofRow_eq (x := x) (c := c) hne
  set y := scaledPart (· < c.succ) scale x with hy
  have hx : ∀ k, k < c.succ → x k = scale * y k := fun k hk ↦ by
    rw [hy, scaledPart, if_pos hk, mul_div_cancel₀ _ hne]
  have huy : r.head c = y - Pi.single c.castSucc (rowImage c y) := by
    funext k
    by_cases hk : k < c.succ
    · rw [Reflection.head, if_pos hk, hvector k hk, Pi.sub_apply]
    · have hkc : k ≠ c.castSucc := fun h ↦ hk (h ▸ Fin.castSucc_lt_succ)
      rw [Reflection.head, if_neg hk, Pi.sub_apply, Pi.single_eq_of_ne hkc, hy, scaledPart,
        if_neg hk, sub_zero]
  refine ⟨?_, ?_, fun j hj ↦ ?_⟩
  · rw [huy, hhalf, householder_dotProduct_self (rowImage_mul_self y)]
  · have hxy : ∀ k, x k * r.head c k = scale * (y k * r.head c k) := fun k ↦ by
      by_cases hk : k < c.succ
      · rw [hx k hk, mul_assoc]
      · rw [Reflection.head, if_neg hk, mul_zero, mul_zero, mul_zero]
    rw [hhalf, ← householder_dotProduct, ← huy, Finset.sum_congr rfl fun k _ ↦ hxy k,
      ← Finset.mul_sum, dotProduct]
  · rw [hx j hj, huy, himage, Pi.sub_apply, mul_sub, sub_sub_cancel, Pi.single_apply, mul_ite,
      mul_zero]

end Row

section Reflect

variable {c : Fin n} {scale : ℝ} {t : Tridiagonal ℝ (n + 1)}

theorem form_of_le {k l : Fin (n + 1)} (hk : k ≤ c.succ) (hl : l ≤ c.succ) :
    t.form (c + 1) k l = lowerEntry t.basis k l :=
  if_pos ⟨hk, hl⟩

theorem head_of_not_lt {r : Reflection ℝ (n + 1)} {j : Fin (n + 1)} (hj : ¬ j < c.succ) :
    r.head c j = 0 := if_neg hj

theorem form_mul_head (r : Reflection ℝ (n + 1)) {j : Fin (n + 1)} (hj : j < c.succ) :
    (∑ k, if k < c.succ then lowerEntry t.basis j k * r.vector k else 0) =
      ∑ k, t.form (c + 1) j k * r.head c k := by
  refine Finset.sum_congr rfl fun k _ ↦ ?_
  by_cases hk : k < c.succ
  · rw [if_pos hk, form_of_le hj.le hk.le, Reflection.head, if_pos hk]
  · rw [if_neg hk, head_of_not_lt hk, mul_zero]

theorem form_mul_head_mul_head (r : Reflection ℝ (n + 1)) (x : Tuple ℝ (n + 1)) :
    (∑ j, if j < c.succ then
      (if j < c.succ then
        (∑ k, if k < c.succ then lowerEntry t.basis j k * r.vector k else 0) / r.half
      else x j) * r.vector j else 0) =
      ∑ j, reflectionProduct (t.form (c + 1)) (r.head c) r.half j * r.head c j := by
  refine Finset.sum_congr rfl fun j _ ↦ ?_
  by_cases hj : j < c.succ
  · rw [if_pos hj, if_pos hj, form_mul_head r hj, reflectionProduct, Reflection.head, if_pos hj]
  · rw [if_neg hj, head_of_not_lt hj, mul_zero]

/-- The rows that are reduced already do not meet the reflection. -/
theorem reflectionUpdate_of_gt (r : Reflection ℝ (n + 1)) {k : Fin (n + 1)} (hk : c.succ < k) :
    reflectionUpdate (t.form (c + 1)) (r.head c) r.half k = 0 := by
  have hci : (c.succ : Fin (n + 1)).val = c + 1 := Fin.val_succ c
  have hsum : ∑ l, t.form (c + 1) k l * r.head c l = 0 :=
    Finset.sum_eq_zero fun l _ ↦ by
      by_cases hl : l < c.succ
      · rw [form_of_gt (by omega) (hl.trans hk), if_neg (by omega), zero_mul]
      · rw [head_of_not_lt hl, mul_zero]
  rw [reflectionUpdate, reflectionProduct, hsum, head_of_not_lt hk.not_gt, mul_zero, sub_zero,
    zero_div]

variable [DivisionByZero]

theorem reflectRow_basis (hh : 0 < (Reflection.ofRow c scale t.diag).half) (k l : Fin (n + 1)) :
    let r := Reflection.ofRow c scale t.diag
    let q := reflectionUpdate (t.form (c + 1)) (r.head c) r.half
    (reflectRow c scale t).basis k l =
      if k < c.succ ∧ l ≤ k then t.basis k l - (r.head c l * q k + q l * r.head c k)
      else if k = c.succ ∧ l < c.succ then 0
      else if k < c.succ ∧ l = c.succ then r.head c k
      else t.basis k l := by
  intro r q
  have hhead : ∀ j, j < c.succ → r.vector j = r.head c j := fun j hj ↦ (if_pos hj).symm
  simp only [reflectRow, Grid.ofFn_apply, Tuple.ofFn_apply, sumWhere_real, div_of_ne_zero _ hh.ne',
    div_of_ne_zero _ (add_pos hh hh).ne', form_mul_head_mul_head]
  by_cases hk : k < c.succ ∧ l ≤ k
  · have hl : l < c.succ := lt_of_le_of_lt hk.2 hk.1
    simp only [hk, hl, and_self, if_true, form_mul_head _ hk.1, form_mul_head _ hl]
    rw [hhead k hk.1, hhead l hl]
    rfl
  · rw [if_neg hk, if_neg hk]
    by_cases hki : k < c.succ ∧ l = c.succ
    · rw [hhead k hki.1]
    · simp only [hki, if_false]

theorem vector_reflectRow (hh : 0 < (Reflection.ofRow c scale t.diag).half) :
    (reflectRow c scale t).vector c.succ = (Reflection.ofRow c scale t.diag).head c := by
  funext k
  by_cases hk : k < c.succ
  · have h₁ : ¬ (k < c.succ ∧ c.succ ≤ k) := fun h ↦ absurd h.2 (not_le.2 hk)
    have h₂ : ¬ (k = c.succ ∧ c.succ < c.succ) := fun h ↦ lt_irrefl _ h.2
    rw [vector, if_pos hk, reflectRow_basis hh, if_neg h₁, if_neg h₂, if_pos ⟨hk, rfl⟩]
  · rw [vector, if_neg hk, head_of_not_lt hk]

theorem reflectRow_below_of_le {k : Fin (n + 1)} (hk : c.succ ≤ k) :
    (reflectRow c scale t).below k =
      if k = c.succ then (Reflection.ofRow c scale t.diag).image else t.below k := by
  simp only [reflectRow, Tuple.set_apply, Tuple.ofFn_apply, not_lt.2 hk, if_false]

theorem reflectionUpdate_succ (hrow : ∀ l, l < c.succ → t.diag l = t.basis c.succ l)
    (hs : scale = ∑ k, if k < c.succ then |t.diag k| else 0) (hne : scale ≠ 0) :
    reflectionUpdate (t.form (c + 1)) ((Reflection.ofRow c scale t.diag).head c)
      (Reflection.ofRow c scale t.diag).half c.succ = scale := by
  have hh := Reflection.half_pos hs hne
  obtain ⟨-, hxu, -⟩ := Reflection.ofRow_spec c t.diag hne
  have hsum : ∑ k, t.form (c + 1) c.succ k * (Reflection.ofRow c scale t.diag).head c k =
      ∑ k, t.diag k * (Reflection.ofRow c scale t.diag).head c k :=
    Finset.sum_congr rfl fun k _ ↦ by
      by_cases hk : k < c.succ
      · rw [hrow k hk, form_of_le le_rfl hk.le, lowerEntry, if_neg hk.not_gt]
      · rw [head_of_not_lt hk, mul_zero, mul_zero]
  rw [reflectionUpdate, reflectionProduct, hsum, hxu, head_of_not_lt (lt_irrefl _), mul_zero,
    sub_zero, mul_div_assoc, div_self hh.ne', mul_one]

theorem reflectRow_form (hrow : ∀ l, l < c.succ → t.diag l = t.basis c.succ l)
    (hs : scale = ∑ k, if k < c.succ then |t.diag k| else 0) (hne : scale ≠ 0) :
    (reflectRow c scale t).form c = reflection ((reflectRow c scale t).vector c.succ) *
      t.form (c + 1) * reflection ((reflectRow c scale t).vector c.succ) := by
  have hh := Reflection.half_pos hs hne
  obtain ⟨huu, -, himg⟩ := Reflection.ofRow_spec c t.diag hne
  rw [vector_reflectRow hh]
  refine eq_of_lower (form_transpose _ _) (reflection_conj_transpose (form_transpose _ _))
    fun k l hlk ↦ ?_
  rw [reflection_conj_apply (form_transpose _ _) huu]
  have hbasis := reflectRow_basis hh
  have hq := reflectionUpdate_succ hrow hs hne
  set r := Reflection.ofRow c scale t.diag
  have hci : (c.succ : Fin (n + 1)).val = c + 1 := Fin.val_succ c
  -- Above the reduced row the matrix is updated, in it only one entry is left.
  obtain hk | rfl | hk := lt_trichotomy k c.succ
  · have hl : l < c.succ := lt_of_le_of_lt hlk hk
    have hkc : k.val ≤ c ∧ l.val ≤ c := by omega
    rw [form_of_le hk.le hl.le, form, of_apply, if_pos hkc, lowerEntry, lowerEntry,
      if_neg (not_lt.2 hlk), if_neg (not_lt.2 hlk), hbasis, if_pos ⟨hk, hlk⟩]
  · obtain rfl | hl := eq_or_lt_of_le hlk
    · rw [form_self, form_self, head_of_not_lt (lt_irrefl _), hbasis]
      simp only [lt_irrefl, false_and, and_false, if_false, zero_mul, mul_zero, add_zero, sub_zero]
    · have hlc : l.val + 1 = c.succ.val ↔ l = c.castSucc := by
        rw [Fin.ext_iff, Fin.val_castSucc]
        omega
      rw [form_of_gt (by omega) hl, reflectRow_below_of_le le_rfl, if_pos rfl, hq,
        head_of_not_lt (lt_irrefl _), mul_zero, add_zero, form_of_le le_rfl hl.le, lowerEntry,
        if_neg hl.not_gt, ← hrow l hl, mul_comm (r.head c l), himg l hl]
      simp only [hlc, r]
  · rw [reflectionUpdate_of_gt r hk, head_of_not_lt hk.not_gt, mul_zero, mul_zero, add_zero,
      sub_zero]
    obtain rfl | hl := eq_or_lt_of_le hlk
    · rw [form_self, form_self, hbasis]
      simp only [hk.not_gt, hk.ne', false_and, if_false]
    · rw [form_of_gt (by omega) hl, form_of_gt (by omega) hl, reflectRow_below_of_le hk.le,
        if_neg hk.ne']

end Reflect

/-- What holds of a matrix on its way to tridiagonal form, whose rows above `j` are reduced: `F i`
is the matrix that was left when row `i` was about to be reduced. -/
structure Reduced (F : ℕ → Matrix (Fin (n + 1)) (Fin (n + 1)) ℝ) (j : ℕ)
    (t : Tridiagonal ℝ (n + 1)) : Prop where
  form_eq : F j = t.form j
  conj_eq : ∀ i : Fin (n + 1), j < i →
    F (i - 1) = reflection (t.vector i) * F i * reflection (t.vector i)
  diag_eq : ∀ i : Fin (n + 1), j < i → 2 * t.diag i = t.vector i ⬝ᵥ t.vector i
  clear : ∀ i k : Fin (n + 1), j < i → k < i → t.basis i k = 0
  row_eq : ∀ i k : Fin (n + 1), i.val = j → k ≤ i → t.diag k = t.basis i k

variable [DivisionByZero] {c : Fin n} {t : Tridiagonal ℝ (n + 1)}
  {F : ℕ → Matrix (Fin (n + 1)) (Fin (n + 1)) ℝ}

theorem reduceRow_basis_of_lt {k l : Fin (n + 1)} (h : c.succ < k ∨ c.succ < l) :
    (reduceRow c t).basis k l = t.basis k l := by
  have h₁ : ¬ (k = c.succ ∧ l < c.succ) := by omega
  have h₂ : ¬ (k < c.succ ∧ l = c.succ) := by omega
  have h₃ : ¬ (k < c.succ ∧ l ≤ k) := by omega
  rw [reduceRow]
  split
  · simp only [clearRow, Grid.ofFn_apply, h₁, h₂, or_self, if_false]
  · simp only [reflectRow, Grid.ofFn_apply, h₁, h₂, h₃, if_false]

theorem reduceRow_diag_of_lt {k : Fin (n + 1)} (h : c.succ < k) :
    (reduceRow c t).diag k = t.diag k := by
  rw [reduceRow]
  split
  · simp only [clearRow, Tuple.ofFn_apply, h.not_gt, h.ne', if_false]
  · simp only [reflectRow, Tuple.ofFn_apply, h.not_gt, h.ne', if_false]

theorem reduceRow_diag_of_gt {k : Fin (n + 1)} (h : k < c.succ) :
    (reduceRow c t).diag k = (reduceRow c t).basis c.castSucc k := by
  have h₁ : ¬ ((c.castSucc = c.succ ∧ k < c.succ) ∨ (c.castSucc < c.succ ∧ k = c.succ)) := by
    rw [Fin.ext_iff, Fin.val_castSucc, Fin.val_succ]
    omega
  rw [reduceRow]
  split
  · rw [clearRow, Tuple.ofFn_apply, Grid.ofFn_apply, if_pos h, if_neg h₁]
  · simp only [reflectRow, Tuple.ofFn_apply, h, if_true]

theorem reduceRow_basis_succ {k : Fin (n + 1)} (h : k < c.succ) :
    (reduceRow c t).basis c.succ k = 0 := by
  have h₁ : ¬ (c.succ < c.succ ∧ k ≤ c.succ) := fun h' ↦ lt_irrefl _ h'.1
  rw [reduceRow]
  split
  · simp only [clearRow, Grid.ofFn_apply, h, and_self, true_or, if_true]
  · simp only [reflectRow, Grid.ofFn_apply, h, h₁, and_self, if_true, if_false]

theorem vector_reduceRow_of_lt {i : Fin (n + 1)} (h : c.succ < i) :
    (reduceRow c t).vector i = t.vector i := by
  funext k
  rw [vector, vector, reduceRow_basis_of_lt (Or.inr h)]

theorem clearRow_form (hrow : ∀ l, l < c.succ → t.diag l = t.basis c.succ l)
    (hs : ∑ k, (if k < c.succ then |t.diag k| else 0) = 0) :
    (clearRow c t).form c = t.form (c + 1) := by
  have hzero : ∀ k, k < c.succ → t.diag k = 0 := by
    intro k hk
    have h := (Finset.sum_eq_zero_iff_of_nonneg fun k _ ↦ by
      split
      · exact abs_nonneg _
      · exact le_rfl).1 hs k (Finset.mem_univ k)
    rwa [if_pos hk, abs_eq_zero] at h
  refine eq_of_lower (form_transpose _ _) (form_transpose _ _) fun k l hlk ↦ ?_
  have hci : (c.succ : Fin (n + 1)).val = c + 1 := Fin.val_succ c
  have hbasis : ¬ (k = c.succ ∧ l < c.succ) → (clearRow c t).basis k l = t.basis k l := by
    intro h
    have h₂ : ¬ (k < c.succ ∧ l = c.succ) := by omega
    simp only [clearRow, Grid.ofFn_apply, h, h₂, or_self, if_false]
  obtain rfl | hl := eq_or_lt_of_le hlk
  · rw [form_self, form_self, hbasis (by omega)]
  · obtain hk | rfl | hk := lt_trichotomy k c.succ
    · have hkc : k.val ≤ c ∧ l.val ≤ c := by omega
      rw [form_of_le hk.le (hl.trans hk).le, form, of_apply, if_pos hkc, lowerEntry, lowerEntry,
        if_neg hl.not_gt, if_neg hl.not_gt, hbasis (by omega)]
    · rw [form_of_gt (by omega) hl, form_of_le le_rfl hl.le, lowerEntry, if_neg hl.not_gt,
        ← hrow l hl, hzero l hl, clearRow, Tuple.set_apply, if_pos rfl,
        hzero _ Fin.castSucc_lt_succ, ite_self]
    · rw [form_of_gt (by omega) hl, form_of_gt (by omega) hl, clearRow, Tuple.set_apply,
        if_neg hk.ne']

theorem reduceRow_form (hrow : ∀ l, l < c.succ → t.diag l = t.basis c.succ l) :
    (reduceRow c t).form c = reflection ((reduceRow c t).vector c.succ) * t.form (c + 1) *
        reflection ((reduceRow c t).vector c.succ) ∧
      2 * (reduceRow c t).diag c.succ =
        (reduceRow c t).vector c.succ ⬝ᵥ (reduceRow c t).vector c.succ := by
  have hscale : (sumWhere (· < c.succ) fun k ↦ Scalar.abs (t.diag k)) =
      ∑ k, if k < c.succ then |t.diag k| else 0 := sumWhere_real _ _
  by_cases hs : (∑ k, if k < c.succ then |t.diag k| else 0) = 0
  · have he : reduceRow c t = clearRow c t := by
      rw [reduceRow, hscale, hs, if_pos (beq_self_eq_true _)]
    have hv : (clearRow c t).vector c.succ = 0 := by
      funext k
      by_cases hk : k < c.succ
      · rw [vector, if_pos hk, clearRow, Grid.ofFn_apply, if_pos (Or.inr ⟨hk, rfl⟩), Pi.zero_apply]
      · rw [vector, if_neg hk, Pi.zero_apply]
    rw [he, hv, reflection_zero, one_mul, mul_one, dotProduct_zero, clearRow_form hrow hs]
    refine ⟨rfl, ?_⟩
    simp only [clearRow, Tuple.ofFn_apply, lt_irrefl, if_false, if_true, mul_zero]
  · have he : reduceRow c t =
        reflectRow c (∑ k, if k < c.succ then |t.diag k| else 0) t := by
      rw [reduceRow, hscale, if_neg (by rwa [beq_iff_eq])]
    rw [he]
    refine ⟨reflectRow_form hrow rfl hs, ?_⟩
    rw [vector_reflectRow (Reflection.half_pos rfl hs), (Reflection.ofRow_spec c t.diag hs).1]
    simp only [reflectRow, Tuple.ofFn_apply, lt_irrefl, if_false, if_true]

theorem Reduced.start {a : Grid ℝ (n + 1) (n + 1)} {A : Matrix (Fin (n + 1)) (Fin (n + 1)) ℝ}
    (hA : Aᵀ = A) (ha : ∀ i j, a i j = A i j) : Reduced (fun _ ↦ A) n (Tridiagonal.start a) where
  form_eq := by
    refine eq_of_lower hA (form_transpose _ _) fun k l hlk ↦ ?_
    have h : k.val ≤ n ∧ l.val ≤ n := by omega
    rw [form, of_apply, if_pos h, lowerEntry, if_neg (not_lt.2 hlk), Tridiagonal.start, ha]
  conj_eq i hi := absurd i.isLt (by omega)
  diag_eq i hi := absurd i.isLt (by omega)
  clear i k hi _ := absurd i.isLt (by omega)
  row_eq i k hi _ := by
    rw [Tridiagonal.start, Grid.row_apply, show i = Fin.last n from Fin.ext hi]

theorem Reduced.reduceRow (h : Reduced F (c + 1) t) :
    Reduced (fun i ↦ if i = c then (reduceRow c t).form c else F i) c (reduceRow c t) where
  form_eq := if_pos rfl
  conj_eq i hi := by
    obtain ⟨hform, -⟩ := reduceRow_form fun l hl ↦ h.row_eq c.succ l rfl hl.le
    rw [if_neg hi.ne']
    obtain hic | hic := eq_or_lt_of_le (show c.val + 1 ≤ i.val from hi)
    · obtain rfl : c.succ = i := Fin.ext hic
      rw [if_pos (by simp), Fin.val_succ, h.form_eq, hform]
    · have hci : c.succ < i := hic
      rw [if_neg (by omega), vector_reduceRow_of_lt hci, h.conj_eq i hic]
  diag_eq i hi := by
    obtain ⟨-, hdiag⟩ := reduceRow_form fun l hl ↦ h.row_eq c.succ l rfl hl.le
    obtain hic | hic := eq_or_lt_of_le (show c.val + 1 ≤ i.val from hi)
    · obtain rfl : c.succ = i := Fin.ext hic
      exact hdiag
    · have hci : c.succ < i := hic
      rw [vector_reduceRow_of_lt hci, reduceRow_diag_of_lt hci, h.diag_eq i hic]
  clear i k hi hk := by
    obtain hic | hic := eq_or_lt_of_le (show c.val + 1 ≤ i.val from hi)
    · obtain rfl : c.succ = i := Fin.ext hic
      exact reduceRow_basis_succ hk
    · rw [reduceRow_basis_of_lt (Or.inl hic), h.clear i k hic hk]
  row_eq i k hi hk := by
    obtain rfl : i = c.castSucc := Fin.ext hi
    exact reduceRow_diag_of_gt (lt_of_le_of_lt hk Fin.castSucc_lt_succ)

theorem exists_reduced {a : Grid ℝ (n + 1) (n + 1)} {A : Matrix (Fin (n + 1)) (Fin (n + 1)) ℝ}
    (hA : Aᵀ = A) (ha : ∀ i j, a i j = A i j) :
    ∃ F, F n = A ∧ Reduced F 0 (Tridiagonal.reduce a) := by
  refine foldr_invariant (fun j t ↦ ∃ F, F n = A ∧ Reduced F j t)
    ⟨fun _ ↦ A, rfl, Reduced.start hA ha⟩ fun c t ⟨F, hF, h⟩ ↦ ?_
  exact ⟨_, by rw [if_neg c.isLt.ne', hF], h.reduceRow⟩

end Tridiagonal

end DenseDecomp
