import DenseDecomp.Grid
import DenseDecomp.Scalar

namespace DenseDecomp.CholeskyFactor

open Scalar

variable {α : Type} [Scalar α] {n m : Nat}

def subtractWhere (p : Fin n → Prop) [DecidablePred p] (f : Fin n → α) (x : α) : α :=
  Fin.foldl n (fun acc i ↦ if p i then acc - f i else acc) x

def forwardRow (l : Grid α n n) (x : Grid α n m) (k : Fin n) : Grid α n m :=
  Grid.ofFn fun i j ↦
    if i = k then subtractWhere (· < k) (fun i ↦ x i j * l k i) (x k j) / l k k else x i j

def backwardRow (l : Grid α n n) (k : Fin n) (x : Grid α n m) : Grid α n m :=
  Grid.ofFn fun i j ↦
    if i = k then subtractWhere (k < ·) (fun i ↦ x i j * l i k) (x k j) / l k k else x i j

def forward (l : Grid α n n) (b : Grid α n m) : Grid α n m := Fin.foldl n (forwardRow l) b

def backward (l : Grid α n n) (y : Grid α n m) : Grid α n m := Fin.foldr n (backwardRow l) y

def substitute (l : Grid α n n) (b : Grid α n m) : Grid α n m := backward l (forward l b)

end DenseDecomp.CholeskyFactor
