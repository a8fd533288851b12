import Mathlib.Data.Real.Basic
import DenseDecomp.Eigen.Decomposition
import DenseDecomp.Proofs.Cholesky.Decomposition
import DenseDecomp.Proofs.MatrixStorage

namespace DenseDecomp

variable {α : Type} {n : ℕ}

namespace DenseMatrix

/-- A matrix that exists in memory: its buffer is one that can be reserved. -/
structure Held (a : DenseMatrix α) : Prop extends a.WellFormed where
  fits : Size.entryBytes * (a.rows * a.cols) < Size.byteBound

theorem Held.allocate_eq {a : DenseMatrix α} (h : a.Held) :
    (allocate a.rows a.cols : Outcome α Unit) = .ok () :=
  allocate_eq_ok_iff.2 ⟨h.rows_pos, h.cols_pos, h.fits⟩

theorem Held.rows_add_lt {a : DenseMatrix α} (h : a.Held) : a.rows + 3 < Size.wordBound := by
  have hle : a.rows ≤ a.rows * a.cols := Nat.le_mul_of_pos_right _ h.cols_pos
  have hfits := h.fits
  rw [Size.entryBytes, Size.byteBound] at hfits
  rw [Size.wordBound]
  omega

theorem exists_toGrid {a : DenseMatrix α} {r c : ℕ} (h : a.data.size = r * c) :
    ∃ g, a.toGrid r c = .ok g := by
  rw [toGrid, dif_pos h]
  exact ⟨_, rfl⟩

theorem Held.exists_square {a : DenseMatrix α} (h : a.Held) (hsq : a.rows = a.cols) :
    ∃ n data, a = ⟨n + 1, n + 1, data⟩ ∧ data.size = (n + 1) * (n + 1) := by
  obtain ⟨r, c, data⟩ := a
  obtain rfl : r = c := hsq
  obtain ⟨n, rfl⟩ := Nat.exists_eq_succ_of_ne_zero h.rows_pos.ne'
  exact ⟨n, data, rfl, h.size_eq⟩

theorem WellFormed.exists_ofGrid {a : DenseMatrix α} (h : a.WellFormed) :
    ∃ g : Grid α a.rows a.cols, a = .ofGrid g := by
  obtain ⟨r, c, data⟩ := a
  have hsize : data.size = r * c := h.size_eq
  have hlt : ∀ (i : Fin r) (j : Fin c), i.val * c + j.val < data.size := fun i j ↦ by
    rw [hsize]
    exact mul_add_lt i.isLt j.isLt
  refine ⟨Grid.ofFn fun i j ↦ have := hlt i j; data[i.val * c + j.val],
    congrArg (DenseMatrix.mk r c) (Array.ext ?_ fun k hk hk' ↦ ?_)⟩
  · rw [Array.size_ofFn, hsize]
  · simp only [Array.getElem_ofFn, Grid.ofFn_apply, Nat.div_add_mod']

theorem WellFormed.exists_ofGrid_square {a : DenseMatrix α} (h : a.WellFormed) (hsq : a.rows = a.cols) :
    ∃ (n : ℕ) (g : Grid α n n), a = .ofGrid g := by
  obtain ⟨n, m, data⟩ := a
  obtain rfl : n = m := hsq
  obtain ⟨g, hg⟩ := h.exists_ofGrid
  exact ⟨n, g, hg⟩

theorem held_ofGrid {r c : ℕ} (g : Grid α r c) (hr : 0 < r) (hc : 0 < c)
    (hfits : Size.entryBytes * (r * c) < Size.byteBound) : (ofGrid g).Held where
  rows_pos := hr
  cols_pos := hc
  size_eq := size_ofGrid g
  size_lt := Size.lt_wordBound hfits
  fits := hfits

/-- An array that is read as a column exists in memory together with the matrix it belongs to. -/
theorem held_column {b : Array α} (hn : 0 < n) (hfits : Size.entryBytes * (n * n) < Size.byteBound)
    (hb : b.size = n) : (⟨n, 1, b⟩ : DenseMatrix α).Held := by
  have hle : n * 1 ≤ n * n := Nat.mul_le_mul_left n hn
  have hlt : Size.entryBytes * (n * 1) < Size.byteBound :=
    (Nat.mul_le_mul_left _ hle).trans_lt hfits
  exact ⟨⟨hn, Nat.one_pos, hb.trans (mul_one n).symm, Size.lt_wordBound hlt⟩, hlt⟩

theorem ofArray_eq {r c : ℕ} {data : Array α} (h : (⟨r, c, data⟩ : DenseMatrix α).Held) :
    (ofArray r c data : Outcome α (DenseMatrix α)) = .ok ⟨r, c, data⟩ :=
  Except.bind_eq_ok.2 ⟨(), Size.checkShape_eq_ok_iff.2 ⟨h.rows_pos, h.cols_pos⟩,
    Except.bind_eq_ok.2 ⟨r * c, Size.mul_eq_ok_iff.2 ⟨h.size_lt, rfl⟩, if_pos h.size_eq⟩⟩

end DenseMatrix

structure Cholesky.Held (c : Cholesky α) : Prop extends c.factor.Held where
  square : c.factor.rows = c.factor.cols

namespace Cholesky

variable [Scalar α] {a : DenseMatrix α} {c : Cholesky α}

theorem decompose_cases (ha : a.Held) (hsq : a.rows = a.cols) :
    ∃ c : Cholesky α, (decompose a).outcome = .ok c ∧ c.Held := by
  obtain ⟨n, g, rfl⟩ := ha.exists_ofGrid_square hsq
  exact ⟨_, decompose_ofGrid_eq_ok_iff.2 ⟨⟨ha.rows_pos, ha.fits⟩, rfl⟩,
    DenseMatrix.held_ofGrid _ ha.rows_pos ha.cols_pos ha.fits, rfl⟩

theorem held_of_decompose (ha : a.Held) (h : (decompose a).outcome = .ok c) : c.Held := by
  by_cases hsq : a.rows = a.cols
  · obtain ⟨d, hd, hheld⟩ := decompose_cases ha hsq
    obtain rfl : d = c := Except.ok.inj (hd.symm.trans h)
    exact hheld
  · rw [decompose, if_neg hsq] at h
    cases h

omit [Scalar α] in
theorem Held.fits_square (hc : c.Held) :
    Size.entryBytes * (c.dimension * c.dimension) < Size.byteBound := by
  have h := hc.fits
  rwa [← hc.square] at h

end Cholesky

namespace EigenDecomposition

variable [Scalar α]

/-- Nothing but the iteration can end the decomposition of a matrix that exists. -/
theorem exists_decompose_eq {data : Array α}
    (h : (⟨n + 1, n + 1, data⟩ : DenseMatrix α).Held) : ∃ g : Grid α (n + 1) (n + 1),
      (⟨n + 1, n + 1, data⟩ : DenseMatrix α).toGrid (n + 1) (n + 1) = .ok g ∧
      ∀ config, decompose config ⟨n + 1, n + 1, data⟩ =
        if (⟨n + 1, n + 1, data⟩ : DenseMatrix α).isSymmetric then
          (Run.emit (.symmetricInput (n + 1)) >>= fun _ ↦
            Spectrum.ofSymmetric config g >>= fun s ↦ pure (ofSpectrum true s))
        else
          (Run.emit (.generalInput (n + 1)) >>= fun _ ↦
            Spectrum.ofGeneral config g >>= fun s ↦ pure (ofSpectrum false s)) := by
  obtain ⟨g, hg⟩ := DenseMatrix.exists_toGrid (a := ⟨n + 1, n + 1, data⟩) h.size_eq
  have halloc : (DenseMatrix.allocate (n + 1) (n + 1) : Outcome α Unit) = .ok () := h.allocate_eq
  refine ⟨g, hg, fun config ↦ ?_⟩
  rw [decompose, if_pos rfl]
  simp only [hg, halloc, Run.ofOutcome_ok_bind]

end EigenDecomposition

end DenseDecomp
