import Mathlib.Data.Real.Basic
import DenseDecomp.DenseMatrix.Algebra
import DenseDecomp.Proofs.ExactArithmetic
import DenseDecomp.Proofs.GridMatrix
import DenseDecomp.Proofs.Loop

namespace DenseDecomp

namespace Tuple

variable {α : Type} {n : ℕ}

theorem toArray_eq_ofFn (x : Tuple α n) : x.toArray = Array.ofFn x := by
  refine Array.ext (by rw [size_toArray, Array.size_ofFn]) fun i hi _ ↦ ?_
  rw [Array.getElem_ofFn]
  rfl

theorem ofArray?_toArray (x : Tuple α n) : ofArray? n x.toArray = some x :=
  dif_pos x.size_toArray

end Tuple

namespace DenseMatrix

open Matrix

variable {r c n : ℕ}

def ofMatrix (A : Matrix (Fin r) (Fin c) ℝ) : DenseMatrix ℝ := ofGrid (.ofMatrix A)

theorem ofGrid_eq_ofMatrix (g : Grid ℝ r c) : ofGrid g = ofMatrix g.toMatrix := by
  rw [ofMatrix, Grid.ofMatrix_toMatrix]

theorem data_ofGrid_column {α : Type} (g : Grid α r 1) :
    (ofGrid g).data = Array.ofFn fun i ↦ g i 0 := by
  refine Array.ext (by rw [size_ofGrid, Array.size_ofFn, mul_one]) fun i hi hi' ↦ ?_
  have hr : i < r := by rwa [Array.size_ofFn] at hi'
  have hi₀ : (⟨i, hr⟩ : Fin r).val * 1 + (0 : Fin 1).val < (ofGrid g).data.size := by simpa using hi
  have h := getElem_ofGrid g ⟨i, hr⟩ 0 hi₀
  simp only [Array.getElem_ofFn, ← h]
  simp only [mul_one, Fin.val_zero, add_zero]

theorem allocate_eq_ok_iff {α : Type} {r c : ℕ} :
    (allocate r c : Outcome α Unit) = .ok () ↔
      0 < r ∧ 0 < c ∧ Size.entryBytes * (r * c) < Size.byteBound := by
  rw [allocate, Except.bind_eq_ok]
  constructor
  · rintro ⟨_, hshape, h⟩
    obtain ⟨hr, hc⟩ := Size.checkShape_eq_ok_iff.1 hshape
    obtain ⟨k, hk, h⟩ := Except.bind_eq_ok.1 h
    obtain ⟨-, rfl⟩ := Size.mul_eq_ok_iff.1 hk
    rw [Size.reserve] at h
    split at h
    case isTrue hfits => exact ⟨hr, hc, hfits⟩
    case isFalse => cases h
  · rintro ⟨hr, hc, hfits⟩
    refine ⟨(), Size.checkShape_eq_ok_iff.2 ⟨hr, hc⟩, Except.bind_eq_ok.2 ⟨r * c, ?_, if_pos hfits⟩⟩
    exact Size.mul_eq_ok_iff.2 ⟨Size.lt_wordBound hfits, rfl⟩

theorem entry_ofGrid {α : Type} [Scalar α] (g : Grid α r c) (i : Fin r) (j : Fin c) :
    (ofGrid g).entry i j = g i j := by
  have h := lt_size_ofGrid g i.isLt j.isLt
  have hcols : (ofGrid g).cols = c := rfl
  rw [← getElem_ofGrid g i j h, entry, hcols, Array.getD_eq_getD_getElem?,
    Array.getElem?_eq_getElem h, Option.getD_some]

theorem entry_ofGrid_of_lt {α : Type} [Scalar α] (g : Grid α r c) {i j : ℕ} (hi : i < r)
    (hj : j < c) : (ofGrid g).entry i j = g ⟨i, hi⟩ ⟨j, hj⟩ :=
  entry_ofGrid g ⟨i, hi⟩ ⟨j, hj⟩

theorem isSymmetric_ofGrid_iff {α : Type} [Scalar α] (g : Grid α n n) :
    (ofGrid g).isSymmetric = true ↔ ∀ i j : Fin n, j < i → (g i j == g j i) = true := by
  rw [isSymmetric, Bool.and_eq_true, List.all_eq_true]
  simp only [List.mem_range, List.all_eq_true]
  constructor
  · rintro ⟨-, h⟩ i j hij
    rw [← entry_ofGrid, ← entry_ofGrid]
    exact h i i.isLt j hij
  · refine fun h ↦ ⟨beq_self_eq_true n, fun i hi j hj ↦ ?_⟩
    have hlt : j < n := lt_trans hj hi
    have hin : i < n := hi
    rw [entry_ofGrid_of_lt g hin hlt, entry_ofGrid_of_lt g hlt hin]
    exact h ⟨i, hi⟩ ⟨j, hlt⟩ hj

theorem isSymmetric_ofMatrix_iff [DivisionByZero] (A : Matrix (Fin n) (Fin n) ℝ) :
    (ofMatrix A).isSymmetric = true ↔ A.IsSymm := by
  have hsymm := Grid.toMatrix_isSymm_iff (g := .ofMatrix A)
  rw [Grid.toMatrix_ofMatrix] at hsymm
  rw [ofMatrix, isSymmetric_ofGrid_iff, hsymm]
  simp only [beq_iff_eq]

end DenseMatrix

end DenseDecomp
