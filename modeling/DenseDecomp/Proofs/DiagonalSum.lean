import Mathlib.Data.Real.Basic
import Mathlib.Data.Matrix.Mul
import Mathlib.Tactic.LinearCombination
import DenseDecomp.Grid

namespace DenseDecomp

variable {n : ℕ}

theorem Grid.set_apply_self {g : Grid ℝ n n} {i j : Fin n} (h : i ≠ j) (a : ℝ) (l : Fin n) :
    g.set i j a l l = g l l := by
  rw [Grid.set_apply, if_neg]
  rintro ⟨rfl, rfl⟩
  exact h rfl

def diagonalSum (S : Fin n → Prop) [DecidablePred S] (f : Fin n → Fin n → ℝ) : ℝ :=
  ∑ i, if S i then f i i else 0

variable {S : Fin n → Prop} [DecidablePred S] {f g h : Fin n → Fin n → ℝ}

theorem diagonalSum_congr (heq : ∀ i, S i → g i i = f i i) : diagonalSum S g = diagonalSum S f :=
  Finset.sum_congr rfl fun i _ ↦ ite_congr rfl (heq i) fun _ ↦ rfl

/-- The updates `f - a (cᵀ f)` and then `g - (g a) cᵀ` with `a ⬝ c = 2` are a similarity, and need to
be made in no more entries than the diagonal depends on. -/
theorem diagonalSum_reflect {a c : Fin n → ℝ} (hac : a ⬝ᵥ c = 2)
    (hS : ∀ i, ¬ S i → a i = 0 ∧ c i = 0)
    (hrow : ∀ i j, a j ≠ 0 ∨ i = j → g i j = f i j - (∑ k, c k * f k j) * a i)
    (hcol : ∀ i, h i i = g i i - (∑ k, a k * g i k) * c i) :
    diagonalSum S h = diagonalSum S f := by
  -- Where `a` vanishes the row update need not have been made.
  have hentry : ∀ i k, a k * g i k * c i =
      a k * (c i * f i k) - a k * (∑ l, c l * f l k) * (a i * c i) := fun i k ↦ by
    by_cases hk : a k = 0
    · rw [hk]
      ring
    · rw [hrow i k (Or.inl hk)]
      ring
  have hcross : ∑ i, (∑ k, a k * g i k) * c i = -∑ k, (∑ l, c l * f l k) * a k :=
    calc
      ∑ i, (∑ k, a k * g i k) * c i = ∑ k, ∑ i, a k * g i k * c i := by
        simp only [Finset.sum_mul]
        exact Finset.sum_comm
      _ = ∑ k, (a k * (∑ i, c i * f i k) - a k * (∑ l, c l * f l k) * (a ⬝ᵥ c)) := by
        refine Finset.sum_congr rfl fun k _ ↦ ?_
        simp only [hentry, Finset.sum_sub_distrib, ← Finset.mul_sum]
        rfl
      _ = -∑ k, (∑ l, c l * f l k) * a k := by
        rw [← Finset.sum_neg_distrib, hac]
        exact Finset.sum_congr rfl fun k _ ↦ by ring
  have hterm : ∀ i, (if S i then h i i else 0) =
      (if S i then f i i else 0) - (∑ l, c l * f l i) * a i - (∑ k, a k * g i k) * c i :=
    fun i ↦ by
      split
      case isTrue => rw [hcol, hrow i i (Or.inr rfl)]
      case isFalse hi => rw [(hS i hi).1, (hS i hi).2, mul_zero, mul_zero, sub_zero, sub_zero]
  calc
    diagonalSum S h = diagonalSum S f - (∑ i, (∑ l, c l * f l i) * a i) -
        ∑ i, (∑ k, a k * g i k) * c i := by
      rw [diagonalSum, Finset.sum_congr rfl fun i _ ↦ hterm i, Finset.sum_sub_distrib,
        Finset.sum_sub_distrib, diagonalSum]
    _ = diagonalSum S f := by
      rw [hcross]
      ring

end DenseDecomp
