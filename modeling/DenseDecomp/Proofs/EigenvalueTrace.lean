import Mathlib.Data.Real.Basic
import DenseDecomp.Proofs.GeneralSpectrum
import DenseDecomp.Proofs.SymmetricSpectrum

namespace DenseDecomp.EigenDecomposition

open Matrix Scalar

variable {n : ℕ}

theorem sum_re_ofSpectrum (symmetric : Bool) (t : Spectrum ℝ n) :
    (ofSpectrum symmetric t).re.sum = ∑ i, t.re i := by
  rw [ofSpectrum, Tuple.toArray_eq_ofFn, ← Array.sum_toList, Array.toList_ofFn, List.sum_ofFn]

variable [DivisionByZero] {config : EigenConfig} {A : Matrix (Fin (n + 1)) (Fin (n + 1)) ℝ}
  {x : EigenDecomposition ℝ}

/-- The eigenvalues sum up to the trace, whichever way they were found. -/
theorem decompose_sum_re (h : (decompose config (.ofMatrix A)).outcome = .ok x) :
    x.re.sum = A.trace := by
  by_cases hA : A.IsSymm
  · obtain ⟨t, ht, rfl⟩ := (decompose_eq_ok_iff_of_isSymm hA).1 h
    obtain ⟨s, -, hdiag⟩ := Spectrum.diagonalizes_ofSymmetric hA ht
    rw [sum_re_ofSpectrum, ← hdiag.approximates.trace_eq, trace_diagonal]
  · obtain ⟨-, t, ht, rfl⟩ := (decompose_eq_ok_iff_of_not_isSymm hA).1 h
    rw [sum_re_ofSpectrum, Spectrum.sum_re_of_ofGeneral ht, Grid.toMatrix_ofMatrix]

omit [DivisionByZero] in
theorem decompose_sum_re_two :
    letI : DivisionByZero := ⟨fun _ ↦ 0⟩
    ∃ x : EigenDecomposition ℝ,
      (decompose .unlimited (.ofMatrix !![1, 2; -3, 4])).outcome = .ok x ∧ x.re.sum = 5 := by
  let : DivisionByZero := ⟨fun _ ↦ 0⟩
  have hA : ¬ (!![1, 2; -3, 4] : Matrix (Fin 2) (Fin 2) ℝ).IsSymm := fun h ↦ by
    have hentry : (2 : ℝ) = -3 := h.apply 1 0
    norm_num at hentry
  have hfits : (DenseMatrix.allocate 2 2 : Outcome ℝ Unit) = .ok () :=
    DenseMatrix.allocate_eq_ok_iff.2 (by decide)
  obtain ⟨r, hr⟩ : ∃ r, r = Hessenberg.reduce (.ofMatrix !![(1 : ℝ), 2; -3, 4]) := ⟨_, rfl⟩
  obtain ⟨s, hs⟩ := RealSchur.exists_settle_two .unlimited (RealSchur.hessenbergNorm r.form) 0
    (.ofHessenberg r.form r.basis)
  obtain ⟨t, ht⟩ := Spectrum.exists_ofHessenberg hs
  rw [hr] at ht
  have hx : (decompose .unlimited (.ofMatrix !![1, 2; -3, 4])).outcome = .ok _ :=
    (decompose_eq_ok_iff_of_not_isSymm hA).2 ⟨hfits, t, ht, rfl⟩
  refine ⟨_, hx, (decompose_sum_re hx).trans ?_⟩
  rw [trace_fin_two_of]
  norm_num

end DenseDecomp.EigenDecomposition
