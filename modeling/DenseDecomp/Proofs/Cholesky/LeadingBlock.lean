import Mathlib.Order.Fin.Basic
import DenseDecomp.Proofs.Cholesky.Recurrence

namespace DenseDecomp

namespace Scalar

variable {α : Type} [Scalar α] {k n : ℕ}

/-- A sum over indices before `k` does not know how many come after. -/
theorem sumWhere_castLE (hk : k ≤ n) {p : Fin n → Prop} [DecidablePred p]
    (hp : ∀ i, p i → i.val < k) (f : Fin n → α) :
    sumWhere p f = sumWhere (fun i : Fin k ↦ p (i.castLE hk)) fun i ↦ f (i.castLE hk) := by
  induction n with
  | zero =>
    obtain rfl : k = 0 := Nat.le_zero.1 hk
    rfl
  | succ n ih =>
    obtain rfl | hlt := Nat.eq_or_lt_of_le hk
    · rfl
    · have hkn : k ≤ n := Nat.le_of_lt_succ hlt
      have hlast : ¬ p (Fin.last n) := fun h ↦ absurd (hp _ h) (not_lt.2 hkn)
      have hbefore := ih hkn (p := fun i ↦ p i.castSucc) (fun i hi ↦ hp i.castSucc hi)
        fun i ↦ f i.castSucc
      rw [sumWhere, Fin.foldl_succ_last, if_neg hlast]
      exact hbefore

end Scalar

def Grid.lead {α : Type} {k n : ℕ} (hk : k ≤ n) (g : Grid α n n) : Grid α k k :=
  Grid.ofFn fun i j ↦ g (i.castLE hk) (j.castLE hk)

theorem Grid.lead_apply {α : Type} {k n : ℕ} (hk : k ≤ n) (g : Grid α n n) (i j : Fin k) :
    g.lead hk i j = g (i.castLE hk) (j.castLE hk) := Grid.ofFn_apply _ i j

namespace CholeskyFactor

open Scalar

variable {α : Type} [Scalar α] {k n : ℕ} {a a' l l' : Grid α n n}

/-- The recurrence leaves no choice. -/
theorem eq_of_rowFilled (h : ∀ j, RowFilled a l j) (h' : ∀ j, RowFilled a l' j) : l = l' := by
  have hrows : ∀ i j, l i j = l' i j := by
    intro i
    induction i using WellFoundedLT.induction with
    | ind i ih =>
      have hbefore : ∀ j, j < i → l i j = l' i j := by
        intro j
        induction j using WellFoundedLT.induction with
        | ind j ihj =>
          intro hj
          rw [(h i).below j hj, (h' i).below j hj]
          exact belowEntry_congr (fun m _ ↦ ih j hj m) fun m hm ↦ ihj m hm (hm.trans hj)
      intro j
      obtain hj | rfl | hj := lt_trichotomy j i
      · exact hbefore j hj
      · rw [(h j).diagonal, (h' j).diagonal, pivot_congr hbefore]
      · rw [(h i).above j hj, (h' i).above j hj]
  exact Grid.ext hrows

theorem pivot_lead (hk : k ≤ n) (a l : Grid α n n) (j : Fin k) :
    pivot (a.lead hk) (l.lead hk) j = pivot a l (j.castLE hk) := by
  rw [pivot, pivot, sumWhere_castLE hk (fun i hi ↦ (Fin.lt_def.1 hi).trans j.isLt)]
  simp only [Grid.lead_apply]
  rfl

theorem belowEntry_lead (hk : k ≤ n) (a l : Grid α n n) (j i : Fin k) :
    belowEntry (a.lead hk) (l.lead hk) j i = belowEntry a l (j.castLE hk) (i.castLE hk) := by
  rw [belowEntry, belowEntry, sumWhere_castLE hk (fun m hm ↦ (Fin.lt_def.1 hm).trans i.isLt)]
  simp only [Grid.lead_apply]
  rfl

theorem RowFilled.lead (hk : k ≤ n) {j : Fin k} (h : RowFilled a l (j.castLE hk)) :
    RowFilled (a.lead hk) (l.lead hk) j where
  above i hi := by rw [Grid.lead_apply, h.above _ hi]
  diagonal := by rw [Grid.lead_apply, h.diagonal, pivot_lead]
  below i hi := by rw [Grid.lead_apply, h.below _ hi, belowEntry_lead]

theorem lead_factor (hk : k ≤ n) (a : Grid α n n) : (factor a).lead hk = factor (a.lead hk) :=
  eq_of_rowFilled (fun _ ↦ (rowFilled_factor a _).lead hk) (rowFilled_factor (a.lead hk))

/-- Of a row, the recurrence reads the entries up to the diagonal. -/
theorem RowFilled.of_lower {j : Fin n} (h : RowFilled a l j) (heq : ∀ i, i ≤ j → a j i = a' j i) :
    RowFilled a' l j where
  above := h.above
  diagonal := by rw [h.diagonal, pivot, pivot, heq j le_rfl]
  below i hi := by rw [h.below i hi, belowEntry, belowEntry, heq i (le_of_lt hi)]

theorem factor_congr (h : ∀ i j, j ≤ i → a i j = a' i j) : factor a = factor a' :=
  eq_of_rowFilled (fun j ↦ (rowFilled_factor a j).of_lower fun i hi ↦ h j i hi)
    (rowFilled_factor a')

end CholeskyFactor

end DenseDecomp
