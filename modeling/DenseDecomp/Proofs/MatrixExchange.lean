import DenseDecomp.Proofs.Indexed.Exchange
import DenseDecomp.Proofs.WellFormedValues
import DenseDecomp.Scalar.Binary64

namespace DenseDecomp

open DenseMatrix

variable {α : Type} {r c : ℕ}

structure ColumnMajor.Holds (x : ColumnMajor α) (g : Grid α r c) : Prop where
  rows_eq : x.rows = r
  cols_eq : x.cols = c
  getElem?_eq : ∀ (i : Fin r) (j : Fin c), x.data[i.val + j.val * r]? = some (g i j)

structure Strided.Holds (x : Strided α) (g : Grid α r c) : Prop where
  rows_eq : x.rows = r
  cols_eq : x.cols = c
  exists_getElem? : ∀ (i : Fin r) (j : Fin c), ∃ k : ℕ,
    (k : ℤ) = x.origin + i.val * x.rowStride + j.val * x.colStride ∧ x.data[k]? = some (g i j)

namespace Strided

variable {x : Strided α} {g : Grid α r c}

theorem Holds.reverseRows (h : x.Holds g) :
    x.reverseRows.Holds (Grid.ofFn fun i j ↦ g i.rev j) where
  rows_eq := h.rows_eq
  cols_eq := h.cols_eq
  exists_getElem? i j := by
    obtain ⟨k, hk, hentry⟩ := h.exists_getElem? i.rev j
    have hrev : ((i.rev : ℕ) : ℤ) = (x.rows : ℤ) - 1 - i.val := by
      rw [Fin.val_rev, h.rows_eq]
      omega
    refine ⟨k, ?_, ?_⟩
    · change (k : ℤ) = x.origin + (x.rows - 1) * x.rowStride + i.val * -x.rowStride +
        j.val * x.colStride
      rw [hk, hrev]
      ring
    · rw [Grid.ofFn_apply]
      exact hentry

end Strided

namespace DenseMatrix

section Rows

variable {rows : Array (Array α)}

end Rows

section Read

variable (g : Grid α r c)

theorem getElem?_ofGrid (i : Fin r) (j : Fin c) :
    (ofGrid g).data[i.val * c + j.val]? = some (g i j) := by
  have h := lt_size_ofGrid g i.isLt j.isLt
  rw [Array.getElem?_eq_getElem h, getElem_ofGrid]

variable {g}

end Read

end DenseMatrix

variable [Scalar α] {g : Grid α r c}

namespace ColumnMajor

variable {x : ColumnMajor α}

end ColumnMajor

namespace Strided

variable {x : Strided α}

end Strided

namespace DenseMatrix

end DenseMatrix

end DenseDecomp
