import DenseDecomp.Grid
import DenseDecomp.Scalar

namespace DenseDecomp

open Scalar

/-- A matrix on its way to upper Hessenberg form. Below the first subdiagonal `form` keeps what the
reflections leave there: the entries of their vectors. The head of each vector is in `heads`. -/
structure Hessenberg (α : Type) (n : Nat) where
  form : Grid α n n
  heads : Tuple α n

namespace Hessenberg

variable {α : Type} [Scalar α] {n : Nat}

def reflectRows (m : Fin n) (u : Tuple α n) (half : α) (h : Grid α n n) : Grid α n n :=
  let f := Tuple.ofFn fun j ↦ (sumWhereDown (m ≤ ·) fun i ↦ u i * h i j) / half
  Grid.ofFn fun i j ↦ if m ≤ i ∧ m ≤ j then h i j - f j * u i else h i j

def reflectColumns (m : Fin n) (u : Tuple α n) (half : α) (h : Grid α n n) : Grid α n n :=
  let f := Tuple.ofFn fun i ↦ (sumWhereDown (m ≤ ·) fun j ↦ u j * h i j) / half
  Grid.ofFn fun i j ↦ if m ≤ j then h i j - f i * u j else h i j

def reduceColumn (s : Hessenberg α (n + 1)) (c : Fin n) : Hessenberg α (n + 1) :=
  let m := c.succ
  let scale := sumWhere (m ≤ ·) fun i ↦ abs (s.form i c.castSucc)
  if scale == 0 then s
  else
    let x := Tuple.ofFn fun i ↦ if m ≤ i then s.form i c.castSucc / scale else s.heads i
    let length := sumWhereDown (m ≤ ·) fun i ↦ x i * x i
    let g := negateIf (0 < x m) (sqrt length)
    let half := length - x m * g
    let u := x.set m (x m - g)
    { form := (reflectColumns m u half (reflectRows m u half s.form)).set m c.castSucc (scale * g)
      heads := u.set m (u m * scale) }

def reduce (a : Grid α (n + 1) (n + 1)) : Hessenberg α (n + 1) :=
  Fin.foldl n (fun s c ↦ if c.succ < Fin.last n then s.reduceColumn c else s)
    ⟨a, Tuple.fill 0⟩

/-- Multiplies the reflection of column `c` into the basis. Two divisions in turn do not underflow
where the product of the divisors would. -/
def accumulateColumn (form : Grid α (n + 1) (n + 1)) (c : Fin n)
    (t : Tuple α (n + 1) × Grid α (n + 1) (n + 1)) : Tuple α (n + 1) × Grid α (n + 1) (n + 1) :=
  let m := c.succ
  let sub := form m c.castSucc
  if sub == 0 then t
  else
    let v := t.2
    let u := Tuple.ofFn fun i ↦ if m < i then form i c.castSucc else t.1 i
    let g := Tuple.ofFn fun j ↦ (sumWhere (m ≤ ·) fun i ↦ u i * v i j) / u m / sub
    (u, Grid.ofFn fun i j ↦ if m ≤ i ∧ m ≤ j then v i j + g j * u i else v i j)

def unit : Grid α n n := Grid.ofFn fun i j ↦ if i = j then 1 else 0

def basis (s : Hessenberg α (n + 1)) : Grid α (n + 1) (n + 1) :=
  (Fin.foldr n
    (fun c t ↦ if c.succ < Fin.last n then accumulateColumn s.form c t else t)
    (s.heads, unit)).2

end Hessenberg

end DenseDecomp
