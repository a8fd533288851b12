import DenseDecomp.Grid
import DenseDecomp.Scalar

namespace DenseDecomp.CholeskyFactor

open Scalar

variable {α : Type} [Scalar α] {n : Nat}

def pivot (a l : Grid α n n) (j : Fin n) : α :=
  a j j - sumWhere (· < j) fun k ↦ l j k * l j k

def belowEntry (a l : Grid α n n) (j k : Fin n) : α :=
  (a j k - sumWhere (· < k) fun i ↦ l k i * l j i) / l k k

/-- Fills row `j` from left to right; a pivot that is not positive is clamped to zero. -/
def fillRow (a l : Grid α n n) (j : Fin n) : Grid α n n :=
  let l := Fin.foldl n (fun l k ↦ if k < j then l.set j k (belowEntry a l j k) else l) l
  l.set j j (sqrt (maxNum (pivot a l j) 0))

/-- The lower triangular factor `L` of `A = L Lᵀ`, of which only the lower triangle of `A` is read.
It is defined for every square matrix. -/
def factor (a : Grid α n n) : Grid α n n :=
  Fin.foldl n (fillRow a) (Grid.ofFn fun _ _ ↦ 0)

def isPositiveDefinite (a : Grid α n n) : Bool :=
  let l := factor a
  (List.finRange n).all fun j ↦
    ((List.finRange n).all fun k ↦ !(decide (k < j)) || a k j == a j k) &&
      decide (0 < pivot a l j)

end DenseDecomp.CholeskyFactor
