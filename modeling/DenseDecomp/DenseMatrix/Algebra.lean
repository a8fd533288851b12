import DenseDecomp.DenseMatrix.Basic

namespace DenseDecomp.DenseMatrix

open Scalar

variable {α : Type} [Scalar α]

def entry (m : DenseMatrix α) (i j : Nat) : α := m.data.getD (i * m.cols + j) 0

def isSymmetric (m : DenseMatrix α) : Bool :=
  m.isSquare && (List.range m.rows).all fun i ↦
    (List.range i).all fun j ↦ m.entry i j == m.entry j i

def transpose (m : DenseMatrix α) : DenseMatrix α :=
  ofGrid (Grid.ofFn fun (j : Fin m.cols) (i : Fin m.rows) ↦ m.entry i j)

def multiply (a b : DenseMatrix α) : Outcome α (DenseMatrix α) :=
  if a.cols = b.rows then do
    let length ← Size.mul a.rows b.cols
    Size.reserve length
    .ok (ofGrid (Grid.ofFn fun (i : Fin a.rows) (j : Fin b.cols) ↦
      sumWhere (n := a.cols) (fun _ ↦ True) fun k ↦ a.entry i k * b.entry k j))
  else refuse (.dimensionMismatch a.rows a.cols b.rows b.cols)

def sub (a b : DenseMatrix α) : Outcome α (DenseMatrix α) :=
  if a.shape = b.shape then .ok ⟨a.rows, a.cols, Array.zipWith (· - ·) a.data b.data⟩
  else refuse (.dimensionMismatch a.rows a.cols b.rows b.cols)

def scale (m : DenseMatrix α) (factor : α) : DenseMatrix α :=
  { m with data := m.data.map (· * factor) }

def maxAbs (m : DenseMatrix α) : α :=
  m.data.foldl (fun acc x ↦ maxNum acc (abs x)) 0

def frobeniusNorm (m : DenseMatrix α) : α :=
  sqrt (m.data.foldl (fun acc x ↦ acc + x * x) 0)

instance : BEq (DenseMatrix α) where
  beq a b := a.shape == b.shape && a.data == b.data

end DenseDecomp.DenseMatrix
