import DenseDecomp.Grid
import DenseDecomp.Scalar
import DenseDecomp.Size

namespace DenseDecomp

structure DenseMatrix (α : Type) where
  rows : Nat
  cols : Nat
  data : Array α

namespace DenseMatrix

variable {α : Type}

/-- The buffer holds exactly one entry for each position of a nonempty shape. The product is that of
the naturals, so a shape whose product leaves the machine word has no matrix. -/
structure WellFormed (m : DenseMatrix α) : Prop where
  rows_pos : 0 < m.rows
  cols_pos : 0 < m.cols
  size_eq : m.data.size = m.rows * m.cols
  size_lt : m.rows * m.cols < Size.wordBound

def shape (m : DenseMatrix α) : Nat × Nat := (m.rows, m.cols)

def isSquare (m : DenseMatrix α) : Bool := m.rows == m.cols

theorem mul_add_lt {r c i j : Nat} (hi : i < r) (hj : j < c) : i * c + j < r * c :=
  calc
    i * c + j < i * c + c := Nat.add_lt_add_left hj _
    _ = (i + 1) * c := (Nat.succ_mul i c).symm
    _ ≤ r * c := Nat.mul_le_mul_right c hi

theorem mul_add_div {i j c : Nat} (hj : j < c) : (i * c + j) / c = i := by
  rw [Nat.mul_comm, Nat.mul_add_div (Nat.zero_lt_of_lt hj), Nat.div_eq_of_lt hj]
  rfl

theorem mul_add_mod {i j c : Nat} (hj : j < c) : (i * c + j) % c = j := by
  rw [Nat.mul_comm, Nat.mul_add_mod, Nat.mod_eq_of_lt hj]

theorem mul_add_inj {i j k l c : Nat} (hj : j < c) (hl : l < c) (h : i * c + j = k * c + l) :
    i = k ∧ j = l := by
  constructor
  · rw [← mul_add_div (i := i) hj, h, mul_add_div hl]
  · rw [← mul_add_mod (i := i) hj, h, mul_add_mod hl]

theorem cols_pos_of_lt {r c k : Nat} (h : k < r * c) : 0 < c :=
  Nat.pos_of_ne_zero fun hc ↦ by simp [hc] at h

theorem div_lt_rows {r c k : Nat} (h : k < r * c) : k / c < r :=
  Nat.div_lt_of_lt_mul (Nat.mul_comm r c ▸ h)

def address (m : DenseMatrix α) (i j : Nat) : Outcome α Nat := do
  let start ← Size.mul i m.cols
  Size.add start j

def get (m : DenseMatrix α) (i j : Nat) : Outcome α α :=
  if i < m.rows ∧ j < m.cols then do
    let k ← m.address i j
    match m.data[k]? with
    | some x => .ok x
    | none => abort (.offsetOutOfBounds k m.data.size)
  else abort (.indexOutOfBounds i j m.rows m.cols)

def set (m : DenseMatrix α) (i j : Nat) (x : α) : Outcome α (DenseMatrix α) :=
  if i < m.rows ∧ j < m.cols then do
    let k ← m.address i j
    if h : k < m.data.size then .ok { m with data := m.data.set k x }
    else abort (.offsetOutOfBounds k m.data.size)
  else abort (.indexOutOfBounds i j m.rows m.cols)

def row (m : DenseMatrix α) (i : Nat) : Outcome α (Array α) :=
  if i < m.rows then do
    let start ← m.address i 0
    let stop ← Size.add start m.cols
    if stop ≤ m.data.size then .ok (m.data.extract start stop)
    else abort (.offsetOutOfBounds stop m.data.size)
  else abort (.rowOutOfBounds i m.rows)

def column (m : DenseMatrix α) (j : Nat) : Outcome α (Array α) := do
  let xs ← (List.range m.rows).mapM fun i ↦ m.get i j
  .ok xs.toArray

def diagonal (m : DenseMatrix α) : Outcome α (Array α) := do
  let xs ← (List.range (min m.rows m.cols)).mapM fun i ↦ m.get i i
  .ok xs.toArray

def ofGrid {r c : Nat} (g : Grid α r c) : DenseMatrix α where
  rows := r
  cols := c
  data := Array.ofFn fun k : Fin (r * c) ↦
    g ⟨k / c, div_lt_rows k.isLt⟩ ⟨k % c, Nat.mod_lt _ (cols_pos_of_lt k.isLt)⟩

def toGrid (m : DenseMatrix α) (r c : Nat) : Outcome α (Grid α r c) :=
  if h : m.data.size = r * c then
    .ok <| Grid.ofFn fun i j ↦
      have : i * c + j < m.data.size := h ▸ mul_add_lt i.isLt j.isLt
      m.data[i * c + j]
  else abort (.offsetOutOfBounds (r * c) m.data.size)

theorem size_ofGrid {r c : Nat} (g : Grid α r c) : (ofGrid g).data.size = r * c :=
  Array.size_ofFn

theorem lt_size_ofGrid {r c i j : Nat} (g : Grid α r c) (hi : i < r) (hj : j < c) :
    i * c + j < (ofGrid g).data.size := by
  rw [size_ofGrid]
  exact mul_add_lt hi hj

theorem getElem_ofGrid {r c : Nat} (g : Grid α r c) (i : Fin r) (j : Fin c)
    (h : i * c + j < (ofGrid g).data.size) : (ofGrid g).data[i * c + j] = g i j := by
  simp only [ofGrid, Array.getElem_ofFn, mul_add_div j.isLt, mul_add_mod j.isLt]

theorem toGrid_ofGrid {r c : Nat} (g : Grid α r c) : (ofGrid g).toGrid r c = .ok g := by
  simp only [toGrid, size_ofGrid, dite_true]
  congr 1
  ext i j
  rw [Grid.ofFn_apply, getElem_ofGrid]

section Construct

def ofArray (rows cols : Nat) (data : Array α) : Outcome α (DenseMatrix α) := do
  Size.checkShape rows cols
  let expected ← Size.mul rows cols
  if data.size = expected then .ok ⟨rows, cols, data⟩
  else refuse (.dataLength expected data.size)

/-- The first row gives the width; a shorter or longer row below it is reported with the totals. -/
def ofRows (rows : Array (Array α)) : Outcome α (DenseMatrix α) := do
  let n := rows.size
  let m := (rows[0]?.map Array.size).getD 0
  Size.checkShape n m
  let expected ← Size.mul n m
  if rows.any (fun row ↦ row.size != m) then
    refuse (.dataLength expected (rows.foldl (fun total row ↦ total + row.size) 0))
  else .ok ⟨n, m, rows.flatMap id⟩

def allocate (rows cols : Nat) : Outcome α Unit := do
  Size.checkShape rows cols
  let length ← Size.mul rows cols
  Size.reserve length

variable [Scalar α]

def zeros (rows cols : Nat) : Outcome α (DenseMatrix α) := do
  allocate rows cols
  .ok ⟨rows, cols, Array.replicate (rows * cols) 0⟩

def identity (n : Nat) : Outcome α (DenseMatrix α) := do
  allocate n n
  .ok (ofGrid (Grid.ofFn (m := n) (n := n) fun i j ↦ if i = j then 1 else 0))

def ofDiagonal (xs : Array α) : Outcome α (DenseMatrix α) := do
  allocate xs.size xs.size
  .ok (ofGrid (Grid.ofFn fun i j : Fin xs.size ↦ if i = j then xs[i] else 0))

end Construct

end DenseMatrix

end DenseDecomp
