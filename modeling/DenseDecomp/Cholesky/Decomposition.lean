import DenseDecomp.Cholesky.Factor
import DenseDecomp.Cholesky.Substitution
import DenseDecomp.DenseMatrix.Basic
import DenseDecomp.Run

namespace DenseDecomp

structure Cholesky (α : Type) where
  factor : DenseMatrix α
  isSpd : Bool

namespace Cholesky

variable {α : Type} [Scalar α]

structure WellFormed (c : Cholesky α) : Prop where
  factor : c.factor.WellFormed
  square : c.factor.rows = c.factor.cols

def dimension (c : Cholesky α) : Nat := c.factor.rows

def decompose (a : DenseMatrix α) : Run (Failure α) (Cholesky α) :=
  if a.rows = a.cols then do
    let n := a.rows
    Run.ofOutcome (DenseMatrix.allocate n n)
    let g ← Run.ofOutcome (a.toGrid n n)
    let isSpd := CholeskyFactor.isPositiveDefinite g
    if isSpd then pure () else Run.emit (.notPositiveDefinite n)
    return ⟨.ofGrid (CholeskyFactor.factor g), isSpd⟩
  else .ofOutcome (refuse (.notSquare a.rows a.cols))

/-- A right-hand side with a wrong number of rows is refused before the matrix is looked at. -/
def solve (c : Cholesky α) (b : DenseMatrix α) : Outcome α (DenseMatrix α) := do
  let n := c.dimension
  if b.rows = n then
    if c.isSpd then
      let l ← c.factor.toGrid n n
      let x ← b.toGrid n b.cols
      .ok (.ofGrid (CholeskyFactor.substitute l x))
    else refuse .notPositiveDefinite
  else refuse (.dimensionMismatch n n b.rows b.cols)

def solveVector (c : Cholesky α) (b : Array α) : Outcome α (Array α) := do
  let n := c.dimension
  if b.size = n then
    let x ← c.solve (← DenseMatrix.ofArray n 1 b)
    .ok x.data
  else refuse (.dimensionMismatch n n b.size 1)

def inverse (c : Cholesky α) : Outcome α (DenseMatrix α) := do
  c.solve (← DenseMatrix.identity c.dimension)

def determinant (c : Cholesky α) : Outcome α α := do
  if c.isSpd then
    let d ← c.factor.diagonal
    .ok (d.foldl (fun acc x ↦ acc * (x * x)) 1)
  else refuse .notPositiveDefinite

end Cholesky

end DenseDecomp
