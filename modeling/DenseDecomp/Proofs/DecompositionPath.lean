import Mathlib.Data.Real.Basic
import DenseDecomp.Eigen.Decomposition
import DenseDecomp.Proofs.MatrixStorage

namespace DenseDecomp

open Matrix Scalar

variable {n : ℕ} {config : EigenConfig}

namespace EigenDecomposition

section BlockDiagonal

variable {α : Type} [Scalar α]

theorem blockDiagonal_eq {x : EigenDecomposition α} {re im : Tuple α n}
    (hn : x.dimension = n) (hre : Tuple.ofArray? n x.re = some re)
    (him : Tuple.ofArray? n x.im = some im) (hfits : Size.entryBytes * (n * n) < Size.byteBound) :
    x.blockDiagonal = .ok (.ofGrid (Spectrum.blockDiagonal re im)) := by
  subst hn
  have hlength : (Size.mul x.dimension x.dimension : Outcome α ℕ) =
      .ok (x.dimension * x.dimension) :=
    Size.mul_eq_ok_iff.2 ⟨Size.lt_wordBound hfits, rfl⟩
  have hreserve : (Size.reserve (x.dimension * x.dimension) : Outcome α Unit) = .ok () :=
    if_pos hfits
  simp only [blockDiagonal, hlength, bind, Except.bind, hreserve, hre, him]

theorem blockDiagonal_ofSpectrum (symmetric : Bool) (s : Spectrum α n)
    (hfits : Size.entryBytes * (n * n) < Size.byteBound) :
    (ofSpectrum symmetric s).blockDiagonal = .ok (.ofGrid (Spectrum.blockDiagonal s.re s.im)) :=
  blockDiagonal_eq (x := ofSpectrum symmetric s) s.re.size_toArray s.re.ofArray?_toArray
    s.im.ofArray?_toArray hfits

end BlockDiagonal

section Decompose

variable [DivisionByZero] {A : Matrix (Fin (n + 1)) (Fin (n + 1)) ℝ} {x : EigenDecomposition ℝ}

theorem decompose_ofMatrix (A : Matrix (Fin (n + 1)) (Fin (n + 1)) ℝ) :
    decompose config (.ofMatrix A) =
      if (DenseMatrix.ofMatrix A).isSymmetric then do
        Run.emit (.symmetricInput (n + 1))
        let s ← Spectrum.ofSymmetric config (.ofMatrix A)
        return ofSpectrum true s
      else do
        Run.emit (.generalInput (n + 1))
        Run.ofOutcome (DenseMatrix.allocate (n + 1) (n + 1))
        let s ← Spectrum.ofGeneral config (.ofMatrix A)
        return ofSpectrum false s := by
  have hgrid : (DenseMatrix.ofMatrix A).toGrid (n + 1) (n + 1) = .ok (.ofMatrix A) :=
    DenseMatrix.toGrid_ofGrid _
  have hrows : (DenseMatrix.ofMatrix A).rows = n + 1 := rfl
  have hcols : (DenseMatrix.ofMatrix A).cols = n + 1 := rfl
  rw [decompose, hcols]
  simp only [hrows, if_true, hgrid, Run.ofOutcome_ok_bind]

theorem decompose_eq_ok_iff_of_isSymm (hA : A.IsSymm) :
    (decompose config (.ofMatrix A)).outcome = .ok x ↔
      ∃ s, (Spectrum.ofSymmetric config (.ofMatrix A)).outcome = .ok s ∧
        ofSpectrum true s = x := by
  rw [decompose_ofMatrix, if_pos ((DenseMatrix.isSymmetric_ofMatrix_iff A).2 hA),
    Run.outcome_emit_bind, Run.outcome_bind_pure_eq_ok]

theorem decompose_eq_ok_iff_of_not_isSymm (hA : ¬ A.IsSymm) :
    (decompose config (.ofMatrix A)).outcome = .ok x ↔
      (DenseMatrix.allocate (n + 1) (n + 1) : Outcome ℝ Unit) = .ok () ∧
        ∃ s, (Spectrum.ofGeneral config (.ofMatrix A)).outcome = .ok s ∧
          ofSpectrum false s = x := by
  rw [decompose_ofMatrix, if_neg (fun h ↦ hA ((DenseMatrix.isSymmetric_ofMatrix_iff A).1 h)),
    Run.outcome_emit_bind, Run.outcome_bind_eq_ok]
  constructor
  · rintro ⟨_, halloc, h⟩
    exact ⟨halloc, Run.outcome_bind_pure_eq_ok.1 h⟩
  · rintro ⟨halloc, h⟩
    exact ⟨(), halloc, Run.outcome_bind_pure_eq_ok.2 h⟩

end Decompose

end EigenDecomposition

end DenseDecomp
