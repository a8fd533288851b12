import Mathlib.Data.Real.Basic
import DenseDecomp.Proofs.DiagonalSum
import DenseDecomp.Proofs.ExactArithmetic
import DenseDecomp.RealSchur.Sweep

namespace DenseDecomp.RealSchur

open Matrix Scalar

variable {n : ℕ}

namespace Reflector

variable {t : Reflector ℝ n}

def spread (t : Reflector ℝ n) (a b c : ℝ) : Fin n → ℝ :=
  Pi.single t.i a + Pi.single t.j b + t.third.elim 0 fun k ↦ Pi.single k c

def Touches (t : Reflector ℝ n) (l : Fin n) : Prop := l = t.i ∨ l = t.j ∨ some l = t.third

structure Ordered (t : Reflector ℝ n) : Prop where
  second : t.i < t.j
  third : ∀ k, t.third = some k → t.j < k

theorem Ordered.le (h : t.Ordered) {l : Fin n} (hl : t.Touches l) : t.i ≤ l := by
  obtain rfl | rfl | hl := hl
  · exact le_rfl
  · exact h.second.le
  · exact (h.second.trans (h.third l hl.symm)).le

theorem spread_dotProduct (a b c : ℝ) (v : Fin n → ℝ) :
    t.spread a b c ⬝ᵥ v = a * v t.i + b * v t.j + t.third.elim 0 fun k ↦ c * v k := by
  rw [spread, add_dotProduct, add_dotProduct, single_dotProduct, single_dotProduct]
  congr 1
  cases t.third with
  | none => exact zero_dotProduct v
  | some k => exact single_dotProduct v c k

theorem spread_apply (h : t.Ordered) (a b c : ℝ) (l : Fin n) : t.spread a b c l =
    if l = t.i then a else if l = t.j then b else if some l = t.third then c else 0 := by
  have hthird : (t.third.elim 0 fun k ↦ Pi.single k c : Fin n → ℝ) l =
      if some l = t.third then c else 0 := by
    cases t.third with
    | none => rfl
    | some k => simp only [Option.elim_some, Pi.single_apply, Option.some_inj]
  rw [spread, Pi.add_apply, Pi.add_apply, hthird, Pi.single_apply, Pi.single_apply]
  by_cases hi : l = t.i
  · have hj : l ≠ t.j := fun hj ↦ h.second.ne (hi.symm.trans hj)
    have hk : some l ≠ t.third := fun hk ↦
      (h.second.trans (h.third l hk.symm)).ne' hi
    rw [if_pos hi, if_neg hj, if_neg hk, if_pos hi, add_zero, add_zero]
  · rw [if_neg hi, if_neg hi, zero_add]
    by_cases hj : l = t.j
    · have hk : some l ≠ t.third := fun hk ↦ (h.third l hk.symm).ne' hj
      rw [if_pos hj, if_neg hk, if_pos hj, add_zero]
    · rw [if_neg hj, if_neg hj, zero_add]

theorem ite_spread (h : t.Ordered) (v f a b c : ℝ) (l : Fin n) :
    (if l = t.i then v - f * a else if l = t.j then v - f * b
      else if some l = t.third then v - f * c else v) = v - f * t.spread a b c l := by
  rw [spread_apply h]
  split
  case isTrue => rfl
  case isFalse =>
    split
    case isTrue => rfl
    case isFalse =>
      split
      case isTrue => rfl
      case isFalse => rw [mul_zero, sub_zero]

theorem spread_of_not_touches (h : t.Ordered) (a b c : ℝ) {l : Fin n} (hl : ¬ t.Touches l) :
    t.spread a b c l = 0 := by
  obtain ⟨hi, hj, hk⟩ : l ≠ t.i ∧ l ≠ t.j ∧ some l ≠ t.third := by
    simpa only [Touches, not_or] using hl
  rw [spread_apply h, if_neg hi, if_neg hj, if_neg hk]

theorem spread_dotProduct_spread (h : t.Ordered) (a b c a' b' c' : ℝ) :
    t.spread a b c ⬝ᵥ t.spread a' b' c' = a * a' + b * b' + t.third.elim 0 fun _ ↦ c * c' := by
  rw [spread_dotProduct, spread_apply h, if_pos rfl, spread_apply h, if_neg h.second.ne', if_pos rfl]
  cases hk : t.third with
  | none => rfl
  | some k =>
    have hjk := h.third k hk
    rw [Option.elim_some, Option.elim_some, spread_apply h, if_neg (h.second.trans hjk).ne',
      if_neg hjk.ne', if_pos hk.symm]

theorem match_third (a b c : ℝ) (v : Fin n → ℝ) :
    (match t.third with
      | some k => a * v t.i + b * v t.j + c * v k
      | none => a * v t.i + b * v t.j) = t.spread a b c ⬝ᵥ v := by
  rw [spread_dotProduct]
  cases t.third with
  | none => exact (add_zero _).symm
  | some k => rfl

variable [DivisionByZero]

theorem applyRows_apply (h : t.Ordered) (g : Grid ℝ n n) (i l : Fin n) : t.applyRows g i l =
    if t.i ≤ l then g i l - (t.spread 1 t.q t.r ⬝ᵥ fun k ↦ g k l) * t.spread t.x t.y t.z i
    else g i l := by
  have hf := match_third (t := t) 1 t.q t.r fun k ↦ g k l
  rw [one_mul] at hf
  rw [applyRows, Grid.ofFn_apply, Tuple.ofFn_apply]
  refine if_congr Iff.rfl ((ite_spread h _ _ _ _ _ i).trans ?_) rfl
  exact congrArg (g i l - · * t.spread t.x t.y t.z i) hf

theorem applyColumns_apply (h : t.Ordered) (p : Fin n → Prop) [DecidablePred p] (g : Grid ℝ n n)
    (i l : Fin n) : t.applyColumns p g i l =
    if p i then g i l - (t.spread t.x t.y t.z ⬝ᵥ g i) * t.spread 1 t.q t.r l else g i l := by
  have hf := match_third (t := t) t.x t.y t.z (g i)
  have hite := ite_spread h (g i l) (t.spread t.x t.y t.z ⬝ᵥ g i) 1 t.q t.r l
  rw [mul_one, ← hf] at hite
  rw [← hf, applyColumns, Grid.ofFn_apply, Tuple.ofFn_apply]
  exact if_congr Iff.rfl hite rfl

/-- Both halves of a reflection that squares to the identity keep the diagonal sum of any rows that
contain the rows of the reflection. -/
theorem diagonalSum_apply (h : t.Ordered)
    (htwo : t.x + t.y * t.q + (t.third.elim 0 fun _ ↦ t.z * t.r) = 2) {S : Fin n → Prop}
    [DecidablePred S] (hS : ∀ l, t.Touches l → S l) {p : Fin n → Prop} [DecidablePred p]
    (hp : ∀ l, t.Touches l → p l) (g : Grid ℝ n n) :
    diagonalSum S (t.applyColumns p (t.applyRows g)) = diagonalSum S g := by
  refine diagonalSum_reflect (a := t.spread t.x t.y t.z) (c := t.spread 1 t.q t.r)
    (g := t.applyRows g) ?_ (fun i hi ↦ ?_) (fun i j hij ↦ ?_) fun i ↦ ?_
  · rw [spread_dotProduct_spread h, mul_one, htwo]
  · have hnot : ¬ t.Touches i := fun ht ↦ hi (hS i ht)
    exact ⟨spread_of_not_touches h _ _ _ hnot, spread_of_not_touches h _ _ _ hnot⟩
  · rw [applyRows_apply h]
    split
    case isTrue => rfl
    case isFalse hj =>
      have hzero := spread_of_not_touches h t.x t.y t.z fun ht ↦ hj (h.le ht)
      obtain hne | rfl := hij
      · exact absurd hzero hne
      · rw [hzero, mul_zero, sub_zero]
  · rw [applyColumns_apply h]
    split
    case isTrue => rfl
    case isFalse hi =>
      rw [spread_of_not_touches h 1 t.q t.r fun ht ↦ hi (hp i ht), mul_zero, sub_zero]

end Reflector

end DenseDecomp.RealSchur
