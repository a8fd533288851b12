import Mathlib.Data.Real.Basic
import DenseDecomp.Eigen.Hessenberg
import DenseDecomp.Proofs.ChangeOfBasis
import DenseDecomp.Proofs.DiagonalSum
import DenseDecomp.Proofs.ExactArithmetic
import DenseDecomp.Proofs.Loop

namespace DenseDecomp.Hessenberg

open Matrix Scalar

variable {n : ℕ}

def tail (m : Fin n) (u : Tuple ℝ n) : Fin n → ℝ := fun i ↦ if m ≤ i then u i else 0

theorem scaledColumn_length {m : Fin n} {scale : ℝ} {f z : Fin n → ℝ} :
    (∑ k, if m ≤ k then
      (if m ≤ k then f k / scale else z k) * (if m ≤ k then f k / scale else z k) else 0) =
      scaledPart (m ≤ ·) scale f ⬝ᵥ scaledPart (m ≤ ·) scale f :=
  scaledPart_length fun _ hk ↦ if_pos hk

theorem scaledColumn_self {m : Fin n} {scale : ℝ} {f : Fin n → ℝ} :
    scaledPart (m ≤ ·) scale f m = f m / scale := if_pos le_rfl

noncomputable def columnVector (m : Fin n) (scale g : ℝ) (f z : Fin n → ℝ) : Tuple ℝ n :=
  (Tuple.ofFn fun i ↦ if m ≤ i then f i / scale else z i).set m (f m / scale - g)

theorem tail_columnVector {m : Fin n} {scale g : ℝ} {f z : Fin n → ℝ} :
    tail m (columnVector m scale g f z) = scaledPart (m ≤ ·) scale f - Pi.single m g := by
  funext i
  rw [tail, columnVector, Tuple.set_apply, Tuple.ofFn_apply, Pi.sub_apply, scaledPart]
  by_cases hi : i = m
  · rw [hi, if_pos le_rfl, if_pos rfl, if_pos le_rfl, Pi.single_eq_same]
  · rw [if_neg hi, Pi.single_eq_of_ne hi, sub_zero]
    by_cases him : m ≤ i
    · rw [if_pos him, if_pos him, if_pos him]
    · rw [if_neg him, if_neg him]

section Column

variable (s : Hessenberg ℝ (n + 1)) (c : Fin n)

noncomputable def columnScale : ℝ := ∑ i, if c.succ ≤ i then |s.form i c.castSucc| else 0

noncomputable def scaledColumn : Fin (n + 1) → ℝ :=
  scaledPart (c.succ ≤ ·) (s.columnScale c) fun i ↦ s.form i c.castSucc

noncomputable def columnHead : ℝ :=
  if 0 < s.scaledColumn c c.succ then -√(s.scaledColumn c ⬝ᵥ s.scaledColumn c)
  else √(s.scaledColumn c ⬝ᵥ s.scaledColumn c)

noncomputable def columnHalf : ℝ :=
  s.scaledColumn c ⬝ᵥ s.scaledColumn c - s.scaledColumn c c.succ * s.columnHead c

noncomputable def reflectionVector : Tuple ℝ (n + 1) :=
  columnVector c.succ (s.columnScale c) (s.columnHead c) (fun i ↦ s.form i c.castSucc) s.heads

theorem scaledPart_column : scaledPart (c.succ ≤ ·) (s.columnScale c) (fun i ↦ s.form i c.castSucc) =
    s.scaledColumn c := rfl

theorem div_columnScale :
    s.form c.succ c.castSucc / s.columnScale c = s.scaledColumn c c.succ := by
  rw [scaledColumn, scaledColumn_self]

theorem columnHead_mul_self :
    s.columnHead c * s.columnHead c = s.scaledColumn c ⬝ᵥ s.scaledColumn c := by
  have hnonneg : 0 ≤ s.scaledColumn c ⬝ᵥ s.scaledColumn c :=
    Finset.sum_nonneg fun k _ ↦ mul_self_nonneg (s.scaledColumn c k)
  have hroot := Real.mul_self_sqrt hnonneg
  rw [columnHead]
  split
  · rw [neg_mul_neg, hroot]
  · exact hroot

variable {s c}

theorem columnHalf_pos (hne : s.columnScale c ≠ 0) : 0 < s.columnHalf c := by
  refine householder_half_pos (scaledPart_ne_zero rfl hne) ?_
  have hroot := Real.sqrt_nonneg (s.scaledColumn c ⬝ᵥ s.scaledColumn c)
  rw [columnHead]
  split
  case isTrue hpos => exact mul_nonpos_of_nonneg_of_nonpos hpos.le (neg_nonpos.2 hroot)
  case isFalse hpos => exact mul_nonpos_of_nonpos_of_nonneg (not_lt.1 hpos) hroot

end Column

variable [DivisionByZero]

/-- How column `c` is reduced: `u` is the vector of the reflection, which differs from the scaled
column `y` in its head alone. -/
structure ColumnReflection (c : Fin n) (s t : Hessenberg ℝ (n + 1)) (scale : ℝ)
    (y : Fin (n + 1) → ℝ) (u : Tuple ℝ (n + 1)) (half g : ℝ) : Prop where
  scale_ne : scale ≠ 0
  scaled : y = scaledPart (c.succ ≤ ·) scale fun i ↦ s.form i c.castSucc
  half_eq : half = y ⬝ᵥ y - y c.succ * g
  half_pos : 0 < half
  length : g * g = y ⬝ᵥ y
  tail_eq : tail c.succ u = y - Pi.single c.succ g
  before_eq : ∀ i, i < c.succ → u i = s.heads i
  result : t = ⟨(reflectColumns c.succ u half (reflectRows c.succ u half s.form)).set
    c.succ c.castSucc (scale * g), u.set c.succ (u c.succ * scale)⟩

theorem sumWhere_columnScale (s : Hessenberg ℝ (n + 1)) (c : Fin n) :
    (sumWhere (c.succ ≤ ·) fun i ↦ Scalar.abs (s.form i c.castSucc)) = s.columnScale c :=
  sumWhere_real _ _

theorem negateIf_columnHead (s : Hessenberg ℝ (n + 1)) (c : Fin n) :
    negateIf (0 < s.scaledColumn c c.succ) √(s.scaledColumn c ⬝ᵥ s.scaledColumn c) =
      s.columnHead c := rfl

theorem reduceColumn_eq_self {s : Hessenberg ℝ (n + 1)} {c : Fin n} (h : s.columnScale c = 0) :
    s.reduceColumn c = s := if_pos (beq_iff_eq.2 ((sumWhere_columnScale s c).trans h))

theorem reduceColumn_eq {s : Hessenberg ℝ (n + 1)} {c : Fin n} (hne : s.columnScale c ≠ 0) :
    s.reduceColumn c = ⟨(reflectColumns c.succ (s.reflectionVector c) (s.columnHalf c)
      (reflectRows c.succ (s.reflectionVector c) (s.columnHalf c) s.form)).set c.succ c.castSucc
        (s.columnScale c * s.columnHead c),
      (s.reflectionVector c).set c.succ (s.reflectionVector c c.succ * s.columnScale c)⟩ := by
  rw [reduceColumn]
  simp only [sumWhere_columnScale, beq_iff_eq, hne, if_false, sumWhereDown_real, Tuple.ofFn_apply,
    le_refl, if_true, div_of_ne_zero _ hne, sqrt_real, scaledColumn_length, scaledPart_column,
    div_columnScale, negateIf_columnHead, reflectionVector, columnVector, columnHalf]

theorem columnReflection_reduceColumn {s : Hessenberg ℝ (n + 1)} {c : Fin n}
    (hne : s.columnScale c ≠ 0) :
    ColumnReflection c s (s.reduceColumn c) (s.columnScale c) (s.scaledColumn c)
      (s.reflectionVector c) (s.columnHalf c) (s.columnHead c) where
  scale_ne := hne
  scaled := rfl
  half_eq := rfl
  half_pos := columnHalf_pos hne
  length := columnHead_mul_self s c
  tail_eq := tail_columnVector
  before_eq i hi := by
    rw [reflectionVector, columnVector, Tuple.set_apply, if_neg hi.ne, Tuple.ofFn_apply,
      if_neg (not_le.2 hi)]
  result := reduceColumn_eq hne

theorem ColumnReflection.tail_length {c : Fin n} {s t : Hessenberg ℝ (n + 1)} {scale : ℝ}
    {y : Fin (n + 1) → ℝ} {u : Tuple ℝ (n + 1)} {half g : ℝ}
    (h : ColumnReflection c s t scale y u half g) :
    tail c.succ u ⬝ᵥ tail c.succ u = 2 * half := by
  rw [h.tail_eq, householder_dotProduct_self h.length, h.half_eq]

theorem sumWhereDown_tail (m : Fin n) (u : Tuple ℝ n) {half : ℝ} (hh : half ≠ 0) (f : Fin n → ℝ) :
    (sumWhereDown (m ≤ ·) fun k ↦ u k * f k) / half = half⁻¹ * ∑ k, tail m u k * f k := by
  have hterm : ∀ k, (if m ≤ k then u k * f k else 0) = tail m u k * f k := fun k ↦ by
    rw [tail, ite_mul, zero_mul]
  rw [div_of_ne_zero _ hh, sumWhereDown_real, Finset.sum_congr rfl fun k _ ↦ hterm k]
  exact (div_eq_inv_mul _ _)

theorem reflectRows_apply (m : Fin n) (u : Tuple ℝ n) {half : ℝ} (hh : half ≠ 0) (h : Grid ℝ n n)
    {i j : Fin n} (hj : m ≤ j) : reflectRows m u half h i j =
      h i j - (∑ k, half⁻¹ * tail m u k * h k j) * tail m u i := by
  rw [reflectRows, Grid.ofFn_apply, Tuple.ofFn_apply, sumWhereDown_tail m u hh, Finset.mul_sum]
  simp only [mul_assoc]
  by_cases hi : m ≤ i
  · rw [if_pos ⟨hi, hj⟩, tail, if_pos hi]
  · rw [if_neg (fun h ↦ hi h.1), tail, if_neg hi, mul_zero, sub_zero]

theorem reflectColumns_apply (m : Fin n) (u : Tuple ℝ n) {half : ℝ} (hh : half ≠ 0)
    (h : Grid ℝ n n) (i j : Fin n) : reflectColumns m u half h i j =
      h i j - (∑ k, tail m u k * h i k) * (half⁻¹ * tail m u j) := by
  rw [reflectColumns, Grid.ofFn_apply, Tuple.ofFn_apply, sumWhereDown_tail m u hh]
  by_cases hj : m ≤ j
  · rw [if_pos hj, tail, if_pos hj]
    ring
  · rw [if_neg hj, tail, if_neg hj, mul_zero, mul_zero, sub_zero]

theorem diagonalSum_reduceColumn (s : Hessenberg ℝ (n + 1)) (c : Fin n) :
    diagonalSum (fun _ ↦ True) (s.reduceColumn c).form = diagonalSum (fun _ ↦ True) s.form := by
  by_cases hne : s.columnScale c = 0
  · rw [reduceColumn_eq_self hne]
  · have h := columnReflection_reduceColumn hne
    obtain ⟨u, hu⟩ : ∃ u, u = s.reflectionVector c := ⟨_, rfl⟩
    obtain ⟨half, hhalf⟩ : ∃ half, half = s.columnHalf c := ⟨_, rfl⟩
    rw [← hu, ← hhalf] at h
    have hhalf := h.half_pos.ne'
    have hset : diagonalSum (fun _ ↦ True) (s.reduceColumn c).form = diagonalSum (fun _ ↦ True)
        (reflectColumns c.succ u half (reflectRows c.succ u half s.form)) := by
      rw [h.result]
      exact diagonalSum_congr fun i _ ↦ Grid.set_apply_self Fin.castSucc_lt_succ.ne' _ i
    rw [hset]
    refine diagonalSum_reflect (a := tail c.succ u) (c := half⁻¹ • tail c.succ u) ?_
      (fun i hi ↦ absurd trivial hi) (fun i j hij ↦ ?_)
      (fun i ↦ reflectColumns_apply _ _ hhalf _ i i)
    · rw [dotProduct_smul, h.tail_length, smul_eq_mul, mul_comm 2, inv_mul_cancel_left₀ hhalf]
    · by_cases hj : c.succ ≤ j
      · exact reflectRows_apply _ _ hhalf _ hj
      · obtain hj' | rfl := hij
        · exact absurd (if_neg hj) hj'
        · rw [reflectRows, Grid.ofFn_apply, if_neg (fun h ↦ hj h.1), tail, if_neg hj, mul_zero,
            sub_zero]

theorem diagonalSum_reduce (a : Grid ℝ (n + 1) (n + 1)) :
    diagonalSum (fun _ ↦ True) (reduce a).form = diagonalSum (fun _ ↦ True) a := by
  refine foldl_invariant (fun _ (s : Hessenberg ℝ (n + 1)) ↦
    diagonalSum (fun _ ↦ True) s.form = diagonalSum (fun _ ↦ True) a) rfl fun c s h ↦ ?_
  split
  case isTrue => rw [diagonalSum_reduceColumn, h]
  case isFalse => exact h

end DenseDecomp.Hessenberg
