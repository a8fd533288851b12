import DenseDecomp.Grid
import DenseDecomp.Scalar

namespace DenseDecomp

open Scalar

/-- A symmetric tridiagonal matrix and the orthogonal basis it is written in. `below i` links the
indices `i - 1` and `i`. While a reduction runs, `diag` also holds the row it works on. -/
structure Tridiagonal (α : Type) (n : Nat) where
  basis : Grid α n n
  diag : Tuple α n
  below : Tuple α n

namespace Tridiagonal

variable {α : Type} [Scalar α] {n : Nat}

def lowerEntry (a : Grid α n n) (i j : Fin n) : α := if i < j then a j i else a i j

def clearRow (c : Fin n) (t : Tridiagonal α (n + 1)) : Tridiagonal α (n + 1) :=
  let i := c.succ
  { basis := Grid.ofFn fun k j ↦
      if (k = i ∧ j < i) ∨ (k < i ∧ j = i) then 0 else t.basis k j
    diag := Tuple.ofFn fun j ↦
      if j < i then t.basis c.castSucc j else if j = i then 0 else t.diag j
    below := t.below.set i (t.diag c.castSucc) }

/-- The reflection `1 - u uᵀ / half` that leaves of a row its last entry, which becomes `image`.
Here `half` is half of the squared length of `u = vector`. -/
structure Reflection (α : Type) (n : Nat) where
  vector : Tuple α n
  half : α
  image : α

def Reflection.ofRow (c : Fin n) (scale : α) (x : Tuple α (n + 1)) : Reflection α (n + 1) :=
  let u := Tuple.ofFn fun k ↦ if k < c.succ then x k / scale else x k
  let length := sumWhere (· < c.succ) fun k ↦ u k * u k
  let f := u c.castSucc
  let g := negateIf (0 < f) (sqrt length)
  { vector := u.set c.castSucc (f - g), half := length - f * g, image := scale * g }

/-- Applies the reflection to both sides of the leading block. Its vector `u` stays in the column
above the diagonal entry, for `accumulate`. -/
def reflectRow (c : Fin n) (scale : α) (t : Tridiagonal α (n + 1)) : Tridiagonal α (n + 1) :=
  let i := c.succ
  let r := Reflection.ofRow c scale t.diag
  let u := r.vector
  let product := Tuple.ofFn fun j ↦
    if j < i then (sumWhere (· < i) fun k ↦ lowerEntry t.basis j k * u k) / r.half
    else t.below j
  let twice := (sumWhere (· < i) fun j ↦ product j * u j) / (r.half + r.half)
  let q := Tuple.ofFn fun j ↦ if j < i then product j - twice * u j else product j
  let basis := Grid.ofFn fun k j ↦
    if k < i ∧ j ≤ k then t.basis k j - (u j * q k + q j * u k)
    else if k = i ∧ j < i then 0
    else if k < i ∧ j = i then u k
    else t.basis k j
  { basis
    diag := Tuple.ofFn fun j ↦
      if j < i then basis c.castSucc j else if j = i then r.half else t.diag j
    below := q.set i r.image }

def reduceRow (c : Fin n) (t : Tridiagonal α (n + 1)) : Tridiagonal α (n + 1) :=
  let scale := sumWhere (· < c.succ) fun k ↦ abs (t.diag k)
  if scale == 0 then clearRow c t else reflectRow c scale t

def accumulate (t : Tridiagonal α (n + 1)) (c : Fin n) : Tridiagonal α (n + 1) :=
  let i := c.castSucc
  let h := t.diag c.succ
  let v := t.basis.set i i 1
  let u := t.basis.column c.succ
  let g := Tuple.ofFn fun j ↦ sumWhere (· ≤ i) fun k ↦ u k * v k j
  let basis := Grid.ofFn fun k j ↦
    if k = Fin.last n ∧ j = i then t.basis i i
    else if k ≤ i ∧ j ≤ i then if h == 0 then v k j else v k j - g j * (u k / h)
    else if k ≤ i ∧ j = c.succ then 0
    else t.basis k j
  { t with basis }

def start (a : Grid α (n + 1) (n + 1)) : Tridiagonal α (n + 1) where
  basis := a
  diag := a.row (Fin.last n)
  below := Tuple.fill 0

def finish (t : Tridiagonal α (n + 1)) : Tridiagonal α (n + 1) where
  basis := Grid.ofFn fun k j ↦
    if k = Fin.last n then if j = Fin.last n then 1 else 0 else t.basis k j
  diag := t.basis.row (Fin.last n)
  below := t.below.set 0 0

def reduce (a : Grid α (n + 1) (n + 1)) : Tridiagonal α (n + 1) :=
  Fin.foldr n reduceRow (start a)

def ofSymmetric (a : Grid α (n + 1) (n + 1)) : Tridiagonal α (n + 1) :=
  finish (Fin.foldl n accumulate (reduce a))

end Tridiagonal

end DenseDecomp
