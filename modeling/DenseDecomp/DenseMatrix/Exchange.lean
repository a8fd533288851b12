import DenseDecomp.DenseMatrix.Algebra

namespace DenseDecomp

/-- A matrix stored column by column: entry `(i, j)` stands at offset `i + j * rows`. -/
structure ColumnMajor (α : Type) where
  rows : Nat
  cols : Nat
  data : Array α

/-- A matrix seen through strides: entry `(i, j)` stands at
`origin + i * rowStride + j * colStride`. A negative stride walks the buffer backwards. -/
structure Strided (α : Type) where
  rows : Nat
  cols : Nat
  origin : Int
  rowStride : Int
  colStride : Int
  data : Array α

variable {α : Type} [Scalar α]

namespace ColumnMajor

def entry (m : ColumnMajor α) (i j : Nat) : α := m.data.getD (i + j * m.rows) 0

def ofRowSlice (rows cols : Nat) (data : Array α) : ColumnMajor α where
  rows
  cols
  data := Array.ofFn fun k : Fin (rows * cols) ↦ data.getD (k % rows * cols + k / rows) 0

def ofDense (m : DenseMatrix α) : ColumnMajor α := ofRowSlice m.rows m.cols m.data

def toDense (m : ColumnMajor α) : Outcome α (DenseMatrix α) := do
  DenseMatrix.allocate m.rows m.cols
  .ok (.ofGrid (Grid.ofFn fun (i : Fin m.rows) (j : Fin m.cols) ↦ m.entry i j))

end ColumnMajor

namespace Strided

def entry (m : Strided α) (i j : Nat) : α :=
  m.data.getD (m.origin + i * m.rowStride + j * m.colStride).toNat 0

def byRows (rows cols : Nat) (data : Array α) : Strided α := ⟨rows, cols, 0, cols, 1, data⟩

def byColumns (rows cols : Nat) (data : Array α) : Strided α := ⟨rows, cols, 0, 1, rows, data⟩

def reverseRows (m : Strided α) : Strided α :=
  { m with origin := m.origin + (m.rows - 1 : Int) * m.rowStride, rowStride := -m.rowStride }

def ofFn (rows cols : Nat) (f : Nat → Nat → α) : Strided α :=
  byRows rows cols (Array.ofFn fun k : Fin (rows * cols) ↦ f (k / cols) (k % cols))

def ofDense (m : DenseMatrix α) : Strided α := ofFn m.rows m.cols m.entry

def toDense (m : Strided α) : Outcome α (DenseMatrix α) := do
  Size.checkShape m.rows m.cols
  let _ ← Size.mul m.rows m.cols
  .ok (.ofGrid (Grid.ofFn fun (i : Fin m.rows) (j : Fin m.cols) ↦ m.entry i j))

end Strided

end DenseDecomp
