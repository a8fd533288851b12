import DenseDecomp.Eigen.Pairs
import DenseDecomp.Eigen.Hessenberg
import DenseDecomp.Eigen.ImplicitQL
import DenseDecomp.RealSchur.BackSubstitution
import DenseDecomp.RealSchur.Iteration

namespace DenseDecomp

open Scalar

/-- The eigenvalues `re + i im` of a matrix, and its eigenvectors as columns. A conjugate pair owns
two columns, for the real and the imaginary part. -/
structure Spectrum (α : Type) (n : Nat) where
  vectors : Grid α n n
  re : Tuple α n
  im : Tuple α n

namespace Spectrum

variable {α : Type} [Scalar α] {n : Nat}

def ofSymmetric (config : EigenConfig) (a : Grid α (n + 1) (n + 1)) :
    Run (Failure α) (Spectrum α (n + 1)) := do
  let s ← ImplicitQL.diagonalize config (.ofSymmetric a)
  let sorted := (EigenPairs.mk s.diag s.basis).sortAscending
  return ⟨sorted.vectors, sorted.values, s.link⟩

/-- The columns of `h`, of which the upper triangle is read, in the basis `v`. -/
def changeBasis (v h : Grid α n n) : Grid α n n :=
  Grid.ofFn fun i j ↦ sumWhere (· ≤ j) fun k ↦ v i k * h k j

def ofHessenberg (config : EigenConfig) (form basis : Grid α n n) :
    Run (Failure α) (Spectrum α n) := do
  let norm := RealSchur.hessenbergNorm form
  let s ← RealSchur.settle config norm n (Nat.le_refl n) 0 (.ofHessenberg form basis)
  if norm == 0 then return ⟨s.basis, s.re, s.im⟩
  else
    let x ← Run.ofOutcome (RealSchur.BackSubstitution.eigenvectors ⟨s.re, s.im, norm⟩ s.form)
    return ⟨changeBasis s.basis x, s.re, s.im⟩

def ofGeneral (config : EigenConfig) (a : Grid α (n + 1) (n + 1)) :
    Run (Failure α) (Spectrum α (n + 1)) :=
  let h := Hessenberg.reduce a
  ofHessenberg config h.form h.basis

/-- The block diagonal matrix `D` of `A V = V D`: a pair stands in it as `[λ, μ; -μ, λ]`. -/
def blockDiagonal (re im : Tuple α n) : Grid α n n :=
  Grid.ofFn fun i j ↦
    if i = j then re i
    else if 0 < im i then if i.val + 1 = j.val then im i else 0
    else if im i < 0 then if j.val + 1 = i.val then im i else 0
    else 0

end Spectrum

end DenseDecomp
