import DenseDecomp.DenseMatrix.Algebra
import DenseDecomp.Eigen.Spectrum

namespace DenseDecomp

structure EigenDecomposition (α : Type) where
  vectors : DenseMatrix α
  re : Array α
  im : Array α
  symmetric : Bool

namespace EigenDecomposition

variable {α : Type} [Scalar α]

structure WellFormed (x : EigenDecomposition α) : Prop where
  vectors : x.vectors.WellFormed
  square : x.vectors.rows = x.vectors.cols
  re_size : x.re.size = x.vectors.rows
  im_size : x.im.size = x.vectors.rows

def dimension (x : EigenDecomposition α) : Nat := x.re.size

def ofSpectrum {n : Nat} (symmetric : Bool) (s : Spectrum α n) : EigenDecomposition α where
  vectors := .ofGrid s.vectors
  re := s.re.toArray
  im := s.im.toArray
  symmetric

def decompose (config : EigenConfig) (a : DenseMatrix α) : Run (Failure α) (EigenDecomposition α) :=
  if a.rows = a.cols then
    match a.rows with
    | 0 => .ofOutcome (abort .subtractOverflow)
    | n + 1 => do
      if a.isSymmetric then
        Run.emit (.symmetricInput (n + 1))
        let g ← Run.ofOutcome (a.toGrid (n + 1) (n + 1))
        let s ← Spectrum.ofSymmetric config g
        return ofSpectrum true s
      else
        Run.emit (.generalInput (n + 1))
        Run.ofOutcome (DenseMatrix.allocate (n + 1) (n + 1))
        let g ← Run.ofOutcome (a.toGrid (n + 1) (n + 1))
        let s ← Spectrum.ofGeneral config g
        return ofSpectrum false s
  else .ofOutcome (refuse (.notSquare a.rows a.cols))

def values (x : EigenDecomposition α) : Array (α × α) := Array.zip x.re x.im

def blockDiagonal (x : EigenDecomposition α) : Outcome α (DenseMatrix α) := do
  let n := x.dimension
  let length ← Size.mul n n
  Size.reserve length
  match Tuple.ofArray? n x.re, Tuple.ofArray? n x.im with
  | some re, some im => .ok (.ofGrid (Spectrum.blockDiagonal re im))
  | _, _ => abort (.offsetOutOfBounds n x.im.size)

end EigenDecomposition

end DenseDecomp
