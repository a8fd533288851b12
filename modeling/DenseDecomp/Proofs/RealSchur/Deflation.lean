import Mathlib.Data.Fintype.BigOperators
import Mathlib.Data.Real.Basic
import Mathlib.Tactic.LinearCombination
import DenseDecomp.Proofs.ExactArithmetic
import DenseDecomp.RealSchur.Deflation

namespace DenseDecomp.RealSchur

open Scalar

variable {n : ℕ}

/-- The eigenvalues of the rows from `top` on, which are settled, and the diagonal entries of the
rows above them with the shift added back. -/
def eigenvalueSum (top : ℕ) (s : RealSchur ℝ n) : ℝ :=
  ∑ i : Fin n, if i.val < top then s.form i i + s.shift else s.re i

theorem eigenvalueSum_zero (s : RealSchur ℝ n) : eigenvalueSum 0 s = ∑ i, s.re i :=
  Finset.sum_congr rfl fun i _ ↦ if_neg (Nat.not_lt_zero i)

structure SettlesPair (a b : Fin n) (s s' : RealSchur ℝ n) : Prop where
  shift : s'.shift = s.shift
  form : ∀ i, i ≠ a → i ≠ b → s'.form i i = s.form i i
  re : ∀ i, i ≠ a → i ≠ b → s'.re i = s.re i
  trace : s'.re a + s'.re b = s.form a a + s.shift + (s.form b b + s.shift)

variable {a b : Fin n}

theorem SettlesPair.eigenvalueSum_eq (hab : a.val + 1 = b.val) {s s' : RealSchur ℝ n}
    (h : SettlesPair a b s s') : eigenvalueSum a s' = eigenvalueSum (b + 1) s := by
  have hlt : a.val < b + 1 := by omega
  have hba : ¬ b.val < a := by omega
  have hne : a ≠ b := fun heq ↦ by
    rw [heq] at hab
    omega
  rw [← sub_eq_zero, eigenvalueSum, eigenvalueSum, ← Finset.sum_sub_distrib,
    Fintype.sum_eq_add a b hne]
  · rw [if_neg (lt_irrefl _), if_pos hlt, if_neg hba, if_pos b.val.lt_succ_self]
    linear_combination h.trace
  · rintro i ⟨hia, hib⟩
    have hiff : i.val < a ↔ i.val < b + 1 := by
      have hia' := Fin.val_ne_of_ne hia
      have hib' := Fin.val_ne_of_ne hib
      omega
    rw [h.form i hia hib, h.re i hia hib, h.shift, if_congr hiff rfl rfl, sub_self]

theorem set_set_apply (x y : ℝ) (v : Tuple ℝ n) {i : Fin n} (ha : i ≠ a) (hb : i ≠ b) :
    (v.set a x).set b y i = v i := by
  rw [Tuple.set_apply, if_neg hb, Tuple.set_apply, if_neg ha]

variable [DivisionByZero]

theorem eigenvalueSum_deflateOne (b : Fin n) (s : RealSchur ℝ n) :
    eigenvalueSum b (s.deflateOne b) = eigenvalueSum (b + 1) s := by
  refine Finset.sum_congr rfl fun i _ ↦ ?_
  rw [deflateOne, Tuple.set_apply, Grid.set_apply]
  by_cases hi : i = b
  · rw [hi, if_neg (lt_irrefl _), if_pos rfl, if_pos b.val.lt_succ_self]
  · have hiff : i.val < b ↔ i.val < b + 1 := by
      have hib := Fin.val_ne_of_ne hi
      omega
    have hform : ¬ (i = b ∧ i = b) := fun h ↦ hi h.1
    rw [if_neg hi, if_neg hform, if_congr hiff rfl rfl]

theorem unshiftPair_apply_self (s : RealSchur ℝ n) {i : Fin n} (ha : i ≠ a) (hb : i ≠ b) :
    s.unshiftPair a b i i = s.form i i := by
  rw [unshiftPair, Grid.set_apply, if_neg (fun h ↦ ha h.1), Grid.set_apply,
    if_neg (fun h ↦ hb h.1)]

theorem rotate_apply_self (g : Grid ℝ n n) (c d : ℝ) {i : Fin n} (ha : i ≠ a) (hb : i ≠ b)
    (p q : Fin n → Prop) [DecidablePred p] [DecidablePred q] :
    (g.rotateRows a b c d p).rotateColumns a b c d q i i = g i i := by
  rw [Grid.rotateColumns, Grid.ofFn_apply, if_neg ha, if_neg hb, ite_self, Grid.rotateRows,
    Grid.ofFn_apply, if_neg ha, if_neg hb, ite_self]

/-- The roots of a block lie at the distances `z` and `-w / z` from its trailing entry, so that their
product is `-w`, and their sum the difference of its diagonal entries. -/
theorem splitPair_settles (hab : a ≠ b) {z w : ℝ} {s : RealSchur ℝ n}
    (hzero : z = 0 → s.form a a = s.form b b)
    (hw : w = z * (z - (s.form a a - s.form b b))) :
    SettlesPair a b s (s.splitPair a b z w) where
  shift := rfl
  form i ha hb := by
    rw [splitPair, rotate_apply_self _ _ _ ha hb, unshiftPair_apply_self s ha hb]
  re i ha hb := by
    rw [splitPair, set_set_apply _ _ _ ha hb]
  trace := by
    rw [splitPair, Tuple.set_apply, if_neg hab, Tuple.set_apply, if_pos rfl, Tuple.set_apply,
      if_pos rfl]
    simp only [beq_iff_eq]
    split
    case isTrue hz =>
      rw [hzero hz, hz]
      ring
    case isFalse hz =>
      have hquot : w / z = z - (s.form a a - s.form b b) := by
        rw [div_of_ne_zero _ hz]
        exact (div_eq_iff hz).2 (hw.trans (mul_comm _ _))
      rw [hquot]
      ring

theorem deflatePair_settles (hab : a ≠ b) (s : RealSchur ℝ n) :
    SettlesPair a b s (s.deflatePair a b) := by
  have htwo : (2.0 : ℝ) = 2 := by norm_num
  obtain ⟨p, hp⟩ : ∃ p, p = (s.form a a - s.form b b) / 2.0 := ⟨_, rfl⟩
  have hdiff : s.form a a - s.form b b = 2 * p := by
    rw [hp, htwo, div_of_ne_zero _ two_ne_zero]
    exact (mul_div_cancel₀ _ two_ne_zero).symm
  obtain ⟨w, hw⟩ : ∃ w, w = s.form b a * s.form a b := ⟨_, rfl⟩
  obtain ⟨root, hroot⟩ : ∃ root, root = Scalar.sqrt (Scalar.abs (p * p + w)) := ⟨_, rfl⟩
  have hnonneg : 0 ≤ root := hroot.trans_ge (Real.sqrt_nonneg _)
  rw [deflatePair]
  simp only [← hp, ← hw, ← hroot]
  split
  case isTrue hq =>
    have hsq : root * root = p * p + w := by
      rw [hroot, sqrt_real, abs_real, abs_of_nonneg hq, Real.mul_self_sqrt hq]
    split
    case isTrue hp₀ =>
      refine splitPair_settles hab (fun hz ↦ ?_) ?_
      · have hpz : p = 0 := by linarith
        rw [← sub_eq_zero, hdiff, hpz, mul_zero]
      · rw [hdiff]
        linear_combination -hsq
    case isFalse hp₀ =>
      -- The root is taken away from a negative number here, so that the distance is not zero.
      refine splitPair_settles hab (fun hz ↦ ?_) ?_
      · exact absurd hz (sub_neg.2 ((not_le.1 hp₀).trans_le hnonneg)).ne
      · rw [hdiff]
        linear_combination -hsq
  case isFalse =>
    refine ⟨rfl, fun i ha hb ↦ unshiftPair_apply_self s ha hb, fun i ha hb ↦
      set_set_apply _ _ _ ha hb, ?_⟩
    rw [Tuple.set_apply, if_neg hab, Tuple.set_apply, if_pos rfl, Tuple.set_apply, if_pos rfl]
    linear_combination -hdiff

end DenseDecomp.RealSchur
