import Mathlib.Data.List.FinRange
import Mathlib.Order.Fin.Basic
import DenseDecomp.Cholesky.Factor
import DenseDecomp.Proofs.Loop

namespace DenseDecomp.CholeskyFactor

open Scalar

variable {α : Type} [Scalar α] {n : ℕ} {a l l' : Grid α n n} {j k : Fin n}

theorem pivot_congr (h : ∀ i, i < j → l j i = l' j i) : pivot a l j = pivot a l' j := by
  rw [pivot, pivot]
  congr 1
  exact sumWhere_congr fun i hi ↦ by rw [h i hi]

theorem belowEntry_congr (hk : ∀ i, i ≤ k → l k i = l' k i) (hj : ∀ i, i < k → l j i = l' j i) :
    belowEntry a l j k = belowEntry a l' j k := by
  rw [belowEntry, belowEntry, hk k le_rfl]
  congr 2
  exact sumWhere_congr fun i hi ↦ by rw [hk i (le_of_lt hi), hj i hi]

structure RowFilled (a l : Grid α n n) (j : Fin n) : Prop where
  above : ∀ i, j < i → l j i = 0
  diagonal : l j j = sqrt (maxNum (pivot a l j) 0)
  below : ∀ k, k < j → l j k = belowEntry a l j k

theorem RowFilled.congr (h : RowFilled a l j) (heq : ∀ i, i ≤ j → ∀ k, l' i k = l i k) :
    RowFilled a l' j where
  above i hi := by rw [heq j le_rfl, h.above i hi]
  diagonal := by rw [heq j le_rfl, h.diagonal, pivot_congr fun i _ ↦ heq j le_rfl i]
  below k hk := by
    rw [heq j le_rfl, h.below k hk]
    exact belowEntry_congr (fun i _ ↦ (heq k (le_of_lt hk) i).symm) fun i _ ↦ (heq j le_rfl i).symm

/-- What holds when row `j` is filled as far as column `t`. -/
structure RowBelow (a l : Grid α n n) (j : Fin n) (t : ℕ) (l' : Grid α n n) : Prop where
  other : ∀ i, i ≠ j → ∀ k, l' i k = l i k
  kept : ∀ k : Fin n, j ≤ k ∨ t ≤ k.val → l' j k = l j k
  below : ∀ k, k < j → k.val < t → l' j k = belowEntry a l' j k

theorem RowBelow.set (h : RowBelow a l j k l') (hk : k < j) :
    RowBelow a l j (k + 1) (l'.set j k (belowEntry a l' j k)) := by
  have hset : ∀ i m, (i ≠ j ∨ m ≠ k) → l'.set j k (belowEntry a l' j k) i m = l' i m :=
    fun i m him ↦ by rw [Grid.set_apply, if_neg (not_and_or.2 him)]
  refine ⟨fun i hi m ↦ ?_, fun m hm ↦ ?_, fun m hm hmt ↦ ?_⟩
  · rw [hset i m (Or.inl hi), h.other i hi]
  · have hmk : m ≠ k := fun h ↦ by
      rw [h] at hm
      omega
    rw [hset j m (Or.inr hmk), h.kept m (hm.imp_right fun h ↦ by omega)]
  · have hrow : ∀ i, i ≠ k → l'.set j k (belowEntry a l' j k) j i = l' j i :=
      fun i hi ↦ hset j i (Or.inr hi)
    have hother : ∀ i, l'.set j k (belowEntry a l' j k) m i = l' m i :=
      fun i ↦ hset m i (Or.inl (ne_of_lt hm))
    obtain rfl | hmk := eq_or_ne m k
    · rw [Grid.set_apply, if_pos ⟨rfl, rfl⟩]
      exact belowEntry_congr (fun i _ ↦ (hother i).symm) fun i hi ↦ (hrow i (ne_of_lt hi)).symm
    · have hlt : m.val < k.val := by omega
      rw [hrow m hmk, h.below m hm hlt]
      exact belowEntry_congr (fun i _ ↦ (hother i).symm)
        fun i hi ↦ (hrow i (by omega)).symm

theorem exists_fillRow (a l : Grid α n n) (j : Fin n) :
    ∃ l', RowBelow a l j n l' ∧ fillRow a l j = l'.set j j (sqrt (maxNum (pivot a l' j) 0)) := by
  refine ⟨_, ?_, rfl⟩
  refine foldl_invariant (fun t l' ↦ RowBelow a l j t l')
    ⟨fun _ _ _ ↦ rfl, fun _ _ ↦ rfl, fun _ _ ht ↦ absurd ht (Nat.not_lt_zero _)⟩ fun k l' h ↦ ?_
  by_cases hk : k < j
  · rw [if_pos hk]
    exact h.set hk
  · rw [if_neg hk]
    exact ⟨h.other, fun m hm ↦ h.kept m (hm.imp_right fun h ↦ by omega),
      fun m hm _ ↦ h.below m hm (by omega)⟩

theorem fillRow_of_ne (a l : Grid α n n) {i j : Fin n} (hi : i ≠ j) (k : Fin n) :
    fillRow a l j i k = l i k := by
  obtain ⟨l', h, heq⟩ := exists_fillRow a l j
  rw [heq, Grid.set_apply, if_neg (fun h ↦ hi h.1), h.other i hi]

theorem rowFilled_fillRow (a : Grid α n n) (hzero : ∀ k, l j k = 0) :
    RowFilled a (fillRow a l j) j := by
  obtain ⟨l', h, heq⟩ := exists_fillRow a l j
  have hset : ∀ i k, (i ≠ j ∨ k ≠ j) → fillRow a l j i k = l' i k := fun i k hik ↦ by
    rw [heq, Grid.set_apply, if_neg (not_and_or.2 hik)]
  refine ⟨fun i hi ↦ ?_, ?_, fun k hk ↦ ?_⟩
  · rw [hset j i (Or.inr (ne_of_gt hi)), h.kept i (Or.inl (le_of_lt hi)), hzero]
  · have hpivot : pivot a (fillRow a l j) j = pivot a l' j :=
      pivot_congr fun i hi ↦ hset j i (Or.inr (ne_of_lt hi))
    rw [hpivot, heq, Grid.set_apply, if_pos ⟨rfl, rfl⟩]
  · rw [hset j k (Or.inr (ne_of_lt hk)), h.below k hk k.isLt]
    exact belowEntry_congr (fun i _ ↦ (hset k i (Or.inl (ne_of_lt hk))).symm)
      fun i hi ↦ (hset j i (Or.inr (ne_of_lt (lt_trans hi hk)))).symm

theorem rowFilled_factor (a : Grid α n n) (j : Fin n) : RowFilled a (factor a) j := by
  have h := foldl_invariant (fun t l ↦ (∀ j : Fin n, j.val < t → RowFilled a l j) ∧
      ∀ j : Fin n, t ≤ j.val → ∀ k, l j k = 0) (f := fillRow a) (b := Grid.ofFn fun _ _ ↦ 0)
    ⟨fun _ hj ↦ absurd hj (Nat.not_lt_zero _), fun _ _ _ ↦ Grid.ofFn_apply _ _ _⟩
    (fun i l h ↦ by
      refine ⟨fun j hj ↦ ?_, fun j hj k ↦ ?_⟩
      · obtain rfl | hne := eq_or_ne j i
        · exact rowFilled_fillRow a (h.2 j le_rfl)
        · exact (h.1 j (by omega)).congr fun m hm k ↦
            fillRow_of_ne a l (fun hmi ↦ by omega) k
      · rw [fillRow_of_ne a l (by omega), h.2 j (by omega)])
  exact h.1 j j.isLt

theorem isPositiveDefinite_eq_true_iff (a : Grid α n n) :
    isPositiveDefinite a = true ↔
      (∀ i j : Fin n, j < i → (a j i == a i j) = true) ∧ ∀ j, 0 < pivot a (factor a) j := by
  simp only [isPositiveDefinite, List.all_eq_true, List.mem_finRange, forall_const, Bool.and_eq_true,
    decide_eq_true_eq, Bool.or_eq_true, Bool.not_eq_true', decide_eq_false_iff_not]
  constructor
  · exact fun h ↦ ⟨fun i j hij ↦ ((h i).1 j).resolve_left (not_not_intro hij), fun j ↦ (h j).2⟩
  · exact fun h j ↦ ⟨fun i ↦ or_iff_not_imp_left.2 fun hij ↦ h.1 j i (not_not.1 hij), h.2 j⟩

end DenseDecomp.CholeskyFactor
