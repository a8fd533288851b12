import Mathlib.Data.Matrix.Mul
import Mathlib.Algebra.Field.Basic
import Mathlib.Tactic.LinearCombination

namespace DenseDecomp

open Matrix

variable {K : Type} [Field K] {n : ℕ} {A : Matrix (Fin n) (Fin n) K} {x : Fin n → K} {top : ℕ}
  {i j : Fin n}

def segment (m b : Fin n) (e : Fin n → K) : Fin n → K := fun k ↦ if m ≤ k ∧ k ≤ b then e k else 0

section Segment

variable {m b : Fin n} {e e' : Fin n → K}

theorem segment_cons (hm : m.val = i + 1) (hib : i ≤ b) (he : ∀ k, i < k → e' k = e k) :
    segment i b e' = Function.update (segment m b e) i (e' i) := by
  ext k
  rw [segment]
  obtain rfl | hki := eq_or_ne k i
  · rw [Function.update_self, if_pos ⟨le_rfl, hib⟩]
  rw [Function.update_of_ne hki, segment]
  by_cases hik : i < k
  · have hmk : m ≤ k := Fin.le_def.2 (hm.trans_le hik)
    simp only [he k hik, hik.le, hmk]
  · have hlt : k < i := lt_of_le_of_ne (not_lt.1 hik) hki
    have hmk : k < m := hlt.trans (Fin.lt_def.2 (by omega))
    rw [if_neg fun hk ↦ absurd hk.1 (not_le.2 hlt), if_neg fun hk ↦ absurd hk.1 (not_le.2 hmk)]

theorem segment_cons_pair (hij : i.val + 1 = j.val) (hm : m.val = j + 1) (hjb : j ≤ b)
    (he : ∀ k, j < k → e' k = e k) :
    segment i b e' = Function.update (Function.update (segment m b e) i (e' i)) j (e' j) := by
  have hlt : i < j := Fin.lt_def.2 (by omega)
  rw [segment_cons hij.symm (hlt.le.trans hjb) fun _ _ ↦ rfl, segment_cons hm hjb he,
    Function.update_comm hlt.ne']

theorem segment_self : segment b b e = Function.update (0 : Fin n → K) b (e b) := by
  ext k
  rw [segment]
  obtain rfl | hkb := eq_or_ne k b
  · rw [Function.update_self, if_pos ⟨le_rfl, le_rfl⟩]
  · rw [Function.update_of_ne hkb, if_neg fun hk ↦ hkb (le_antisymm hk.2 hk.1), Pi.zero_apply]

theorem segment_pair (hij : i.val + 1 = j.val) :
    segment i j e = Function.update (Function.update (0 : Fin n → K) i (e i)) j (e j) := by
  have hlt : i < j := Fin.lt_def.2 (by omega)
  rw [segment_cons hij.symm hlt.le fun _ _ ↦ rfl, segment_self, Function.update_comm hlt.ne']

theorem segment_of_mul {c : K} (he : ∀ k, m ≤ k → k ≤ b → e' k = c * e k) :
    segment m b e' = c • segment m b e := by
  ext k
  rw [Pi.smul_apply, smul_eq_mul, segment, segment]
  split
  case isTrue hk => exact he k hk.1 hk.2
  case isFalse => exact (mul_zero c).symm

end Segment

/-- A solution of `A x = 0` as far as the rows from `top` on go. The entries above them are left
open. -/
structure Solves (A : Matrix (Fin n) (Fin n) K) (top : ℕ) (x : Fin n → K) : Prop where
  above : ∀ k : Fin n, k.val < top → x k = 0
  row : ∀ k : Fin n, top ≤ k.val → (A *ᵥ x) k = 0

theorem mulVec_update (A : Matrix (Fin n) (Fin n) K) (hx : x i = 0) (c : K) (k : Fin n) :
    (A *ᵥ Function.update x i c) k = (A *ᵥ x) k + A k i * c := by
  have hsum : Function.update x i c = x + Pi.single i c := by
    ext j
    obtain rfl | hji := eq_or_ne j i
    · rw [Function.update_self, Pi.add_apply, Pi.single_eq_same, hx, zero_add]
    · rw [Function.update_of_ne hji, Pi.add_apply, Pi.single_eq_of_ne hji, add_zero]
  rw [hsum, mulVec_add, Pi.add_apply, mulVec_single]
  rfl

namespace Solves

theorem zero : Solves A top 0 where
  above _ _ := rfl
  row k _ := by rw [mulVec_zero, Pi.zero_apply]

/-- One row more, whose unknown no lower row contains. -/
theorem single (h : Solves A (i + 1) x) (hbelow : ∀ k, i < k → A k i = 0) {c : K}
    (hc : A i i * c = -(A *ᵥ x) i) : Solves A i (Function.update x i c) := by
  have hi : x i = 0 := h.above i i.val.lt_succ_self
  constructor
  · intro k hk
    rw [Function.update_of_ne (Fin.ne_of_lt hk)]
    exact h.above k (hk.trans i.val.lt_succ_self)
  · intro k hk
    rw [mulVec_update A hi]
    obtain rfl | hik := eq_or_lt_of_le (Fin.le_def.2 hk)
    · rw [hc, add_neg_cancel]
    · rw [h.row k hik, hbelow k hik, zero_mul, add_zero]

theorem block (hij : i.val + 1 = j.val) (h : Solves A (j + 1) x)
    (hbelow : ∀ k, j < k → A k i = 0 ∧ A k j = 0) {c d : K}
    (hi : A i i * c + A i j * d = -(A *ᵥ x) i) (hj : A j i * c + A j j * d = -(A *ᵥ x) j) :
    Solves A i (Function.update (Function.update x i c) j d) := by
  have hne : j ≠ i := fun heq ↦ by
    rw [heq] at hij
    omega
  have hxi : x i = 0 := h.above i (by omega)
  have hxj : Function.update x i c j = 0 := by
    rw [Function.update_of_ne hne]
    exact h.above j j.val.lt_succ_self
  constructor
  · intro k hk
    have hki : k ≠ i := Fin.ne_of_lt hk
    have hkj : k ≠ j := Fin.ne_of_lt (Fin.lt_def.2 (by omega))
    rw [Function.update_of_ne hkj, Function.update_of_ne hki]
    exact h.above k (by omega)
  · intro k hk
    rw [mulVec_update A hxj, mulVec_update A hxi, add_assoc]
    obtain rfl | hik := eq_or_lt_of_le (Fin.le_def.2 hk)
    · rw [hi, add_neg_cancel]
    · obtain rfl | hjk := eq_or_ne k j
      · rw [hj, add_neg_cancel]
      · have hjk : j < k := by
          rw [Fin.lt_def] at hik ⊢
          rw [ne_eq, Fin.ext_iff] at hjk
          omega
        obtain ⟨hki, hkj⟩ := hbelow k hjk
        rw [h.row k hjk, hki, hkj, zero_mul, zero_mul, add_zero, add_zero]

theorem smul (h : Solves A top x) (c : K) : Solves A top (c • x) where
  above k hk := by rw [Pi.smul_apply, h.above k hk, smul_zero]
  row k hk := by rw [mulVec_smul, Pi.smul_apply, h.row k hk, smul_zero]

theorem mulVec_eq_zero (h : Solves A 0 x) : A *ᵥ x = 0 := funext fun k ↦ h.row k k.val.zero_le

end Solves

section Block

variable {a b c d r s u v : K}

/-- With the first unknown from Cramer's rule, the upper row of a block implies the lower one. -/
theorem lower_of_upper (hb : b ≠ 0) (hu : (a * d - b * c) * u = b * s - d * r)
    (hrow : a * u + b * v = -r) : c * u + d * v = -s := by
  refine mul_left_cancel₀ hb ?_
  linear_combination d * hrow - hu

theorem upper_of_lower (hd : d ≠ 0) (hu : (a * d - b * c) * u = b * s - d * r)
    (hrow : c * u + d * v = -s) : a * u + b * v = -r := by
  refine mul_left_cancel₀ hd ?_
  linear_combination b * hrow + hu

end Block

end DenseDecomp
