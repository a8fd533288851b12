import Mathlib.Data.Real.Basic
import DenseDecomp.Proofs.Hessenberg.Reflections

namespace DenseDecomp.Hessenberg

open Matrix Scalar

variable {n : ℕ} {F : ℕ → Matrix (Fin (n + 1)) (Fin (n + 1)) ℝ} {r : Hessenberg ℝ (n + 1)}
  {c : Fin n} {p : Tuple ℝ (n + 1) × Grid ℝ (n + 1) (n + 1)}

/-- What holds once the reflections of the columns from `t` on are multiplied into the basis. The
heads of the vectors that are still to come are as the reduction left them. -/
structure Accumulated (F : ℕ → Matrix (Fin (n + 1)) (Fin (n + 1)) ℝ) (r : Hessenberg ℝ (n + 1))
    (t : ℕ) (p : Tuple ℝ (n + 1) × Grid ℝ (n + 1) (n + 1)) : Prop where
  orthogonal : p.2.toMatrix * p.2.toMatrixᵀ = 1
  conj_eq : p.2.toMatrix * F n * p.2.toMatrixᵀ = F t
  heads_eq : ∀ i : Fin (n + 1), i.val ≤ t → p.1 i = r.heads i
  column_eq : ∀ i j : Fin (n + 1), j.val ≤ t →
    p.2 i j = (1 : Matrix (Fin (n + 1)) (Fin (n + 1)) ℝ) i j

def restored (form : Grid ℝ (n + 1) (n + 1)) (c : Fin n) (x : Tuple ℝ (n + 1)) : Tuple ℝ (n + 1) :=
  Tuple.ofFn fun i ↦ if c.succ < i then form i c.castSucc else x i

theorem tail_restored (hc : c.succ < Fin.last n) (hsub : r.form c.succ c.castSucc ≠ 0)
    {x : Tuple ℝ (n + 1)} (hx : x c.succ = r.heads c.succ) :
    tail c.succ (restored r.form c x) = r.vector c := by
  funext i
  rw [tail, restored, Tuple.ofFn_apply]
  obtain hi | rfl | hi := lt_trichotomy i c.succ
  · rw [if_neg (not_le.2 hi), vector_of_lt r hi]
  · rw [if_pos le_rfl, if_neg (lt_irrefl _), hx, vector, if_pos ⟨hc, hsub, le_rfl⟩, if_pos rfl]
  · rw [if_pos hi.le, if_pos hi, vector, if_pos ⟨hc, hsub, hi.le⟩, if_neg hi.ne']

/-- A column that was passed over has no vector to be multiplied in. -/
theorem Accumulated.skip (hr : Reduced F n r) (hc : ¬ c.succ < Fin.last n)
    (h : Accumulated F r (c + 1) p) : Accumulated F r c p where
  orthogonal := h.orthogonal
  conj_eq := by
    rw [h.conj_eq, hr.step c c.isLt, vector_of_skipped fun h' ↦ absurd h' hc, reflection_zero,
      one_mul, mul_one]
  heads_eq i hi := h.heads_eq i (hi.trans (Nat.le_succ _))
  column_eq i j hj := h.column_eq i j (hj.trans (Nat.le_succ _))

variable [DivisionByZero]

theorem accumulateColumn_of_ne (hsub : r.form c.succ c.castSucc ≠ 0)
    (hhead : p.1 c.succ ≠ 0) : accumulateColumn r.form c p = (restored r.form c p.1,
      Grid.ofFn fun i j ↦ if c.succ ≤ i ∧ c.succ ≤ j then p.2 i j +
        (r.form c.succ c.castSucc * p.1 c.succ)⁻¹ *
          (∑ k, tail c.succ (restored r.form c p.1) k * p.2 k j) * restored r.form c p.1 i
      else p.2 i j) := by
  have hu : restored r.form c p.1 c.succ = p.1 c.succ := by
    rw [restored, Tuple.ofFn_apply, if_neg (lt_irrefl _)]
  have hsum : ∀ j, (sumWhere (c.succ ≤ ·) fun k ↦ restored r.form c p.1 k * p.2 k j) =
      ∑ k, tail c.succ (restored r.form c p.1) k * p.2 k j := fun j ↦ by
    rw [sumWhere_real]
    refine Finset.sum_congr rfl fun k _ ↦ ?_
    rw [tail, ite_mul, zero_mul]
  have hstep : accumulateColumn r.form c p = (restored r.form c p.1,
      Grid.ofFn fun i j ↦ if c.succ ≤ i ∧ c.succ ≤ j then
        p.2 i j + (Tuple.ofFn fun j ↦ (sumWhere (c.succ ≤ ·) fun k ↦
          restored r.form c p.1 k * p.2 k j) / restored r.form c p.1 c.succ /
            r.form c.succ c.castSucc) j * restored r.form c p.1 i else p.2 i j) :=
    if_neg fun h ↦ hsub (beq_iff_eq.1 h)
  rw [hstep]
  refine congrArg _ (congrArg _ (funext₂ fun i j ↦ if_congr Iff.rfl ?_ rfl))
  rw [Tuple.ofFn_apply, hsum, hu, div_of_ne_zero _ hhead, div_of_ne_zero _ hsub, mul_inv,
    div_eq_mul_inv, div_eq_mul_inv]
  ring

/-- The step multiplies the basis by the reflection that cleared the column. -/
theorem Accumulated.toMatrix_accumulateColumn (hr : Reduced F n r) (hc : c.succ < Fin.last n)
    (h : Accumulated F r (c + 1) p) :
    (accumulateColumn r.form c p).2.toMatrix = reflection (r.vector c) * p.2.toMatrix := by
  by_cases hsub : r.form c.succ c.castSucc = 0
  · rw [accumulateColumn, if_pos (beq_iff_eq.2 hsub), vector_of_skipped fun _ ↦ hsub,
      reflection_zero, one_mul]
  have hhead : p.1 c.succ = r.heads c.succ := h.heads_eq _ le_rfl
  have hvector : tail c.succ (restored r.form c p.1) = r.vector c := tail_restored hc hsub hhead
  have hv : r.vector c c.succ = r.heads c.succ := by
    rw [vector, if_pos ⟨hc, hsub, le_rfl⟩, if_pos rfl]
  have hhalf : r.vector c ⬝ᵥ r.vector c = 2 * -(r.form c.succ c.castSucc * p.1 c.succ) := by
    rw [hr.length c c.isLt, hv, hhead]
    ring
  ext i j
  rw [accumulateColumn_of_ne hsub (hhead ▸ hr.head_ne c c.isLt hc hsub), reflection_mul_apply,
    reflection_coefficient hhalf, Grid.toMatrix_apply, Grid.ofFn_apply, hvector]
  by_cases hj : c.succ ≤ j
  · by_cases hi : c.succ ≤ i
    · have hu : restored r.form c p.1 i = r.vector c i := by rw [← hvector, tail, if_pos hi]
      rw [if_pos ⟨hi, hj⟩, hu, inv_neg]
      simp only [Grid.toMatrix_apply]
      ring
    · rw [if_neg fun h ↦ hi h.1, vector_of_lt r (not_le.1 hi), zero_mul, sub_zero]
      rfl
  · have hj' : j.val ≤ c + 1 := (Fin.lt_def.1 (not_le.1 hj)).le
    have hsum : ∑ k, r.vector c k * p.2.toMatrix k j = 0 := Finset.sum_eq_zero fun k _ ↦ by
      rw [Grid.toMatrix_apply, h.column_eq k j hj']
      obtain rfl | hk := eq_or_ne k j
      · rw [vector_of_lt r (not_le.1 hj), zero_mul]
      · rw [one_apply_ne hk, mul_zero]
    rw [if_neg fun h ↦ hj h.2, hsum, mul_zero, mul_zero, sub_zero]
    rfl

theorem accumulateColumn_heads (form : Grid ℝ (n + 1) (n + 1)) {i : Fin (n + 1)}
    (hi : i ≤ c.succ) : (accumulateColumn form c p).1 i = p.1 i := by
  rw [accumulateColumn]
  split
  case isTrue => rfl
  case isFalse => rw [Tuple.ofFn_apply, if_neg (not_lt.2 hi)]

theorem accumulateColumn_column (form : Grid ℝ (n + 1) (n + 1)) (i : Fin (n + 1))
    {j : Fin (n + 1)} (hj : j < c.succ) : (accumulateColumn form c p).2 i j = p.2 i j := by
  rw [accumulateColumn]
  split
  case isTrue => rfl
  case isFalse => rw [Grid.ofFn_apply, if_neg fun h ↦ (not_le.2 hj) h.2]

theorem Accumulated.accumulateColumn (hr : Reduced F n r) (hc : c.succ < Fin.last n)
    (h : Accumulated F r (c + 1) p) : Accumulated F r c (accumulateColumn r.form c p) where
  orthogonal := by
    rw [h.toMatrix_accumulateColumn hr hc, transpose_mul, reflection_transpose, mul_assoc,
      ← mul_assoc _ _ᵀ, h.orthogonal, one_mul, reflection_mul_self]
  conj_eq := by
    rw [h.toMatrix_accumulateColumn hr hc, transpose_mul, reflection_transpose]
    calc
      reflection (r.vector c) * p.2.toMatrix * F n * (p.2.toMatrixᵀ * reflection (r.vector c)) =
          reflection (r.vector c) * (p.2.toMatrix * F n * p.2.toMatrixᵀ) *
            reflection (r.vector c) := by simp only [mul_assoc]
      _ = reflection (r.vector c) * reflection (r.vector c) * F c *
            (reflection (r.vector c) * reflection (r.vector c)) := by
        rw [h.conj_eq, hr.step c c.isLt]
        simp only [mul_assoc]
      _ = F c := by rw [reflection_mul_self, one_mul, mul_one]
  heads_eq i hi := by
    have hi' : i.val ≤ c + 1 := hi.trans (Nat.le_succ _)
    rw [accumulateColumn_heads r.form hi', h.heads_eq i hi']
  column_eq i j hj := by
    rw [accumulateColumn_column r.form i (Nat.lt_succ_of_le hj),
      h.column_eq i j (hj.trans (Nat.le_succ _))]

theorem toMatrix_unit : (unit : Grid ℝ n n).toMatrix = 1 := by
  ext i j
  rw [Grid.toMatrix_apply, unit, Grid.ofFn_apply, one_apply]

theorem Accumulated.start : Accumulated F r n (r.heads, unit) where
  orthogonal := by rw [toMatrix_unit, transpose_one, mul_one]
  conj_eq := by rw [toMatrix_unit, transpose_one, mul_one, one_mul]
  heads_eq _ _ := rfl
  column_eq i j _ := congrFun (congrFun toMatrix_unit i) j

theorem Reduced.accumulated (hr : Reduced F n r) :
    Accumulated F r 0 (Fin.foldr n
      (fun c p ↦ if c.succ < Fin.last n then Hessenberg.accumulateColumn r.form c p else p)
      (r.heads, unit)) := by
  refine foldr_invariant (Accumulated F r) .start fun c p h ↦ ?_
  split
  case isTrue hc => exact h.accumulateColumn hr hc
  case isFalse hc => exact h.skip hr hc

end DenseDecomp.Hessenberg
