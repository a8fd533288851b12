import DenseDecomp.Run
import DenseDecomp.RealSchur.Deflation

namespace DenseDecomp.RealSchur

open Scalar

/-- Two shifts at once, as the roots of `(x - t) * (y - t) = w`. -/
structure DoubleShift (α : Type) where
  x : α
  y : α
  w : α

variable {α : Type} [Scalar α] {n : Nat}

def trailingShift (h : Grid α n n) (a b : Fin n) : DoubleShift α :=
  ⟨h b b, h a a, h b a * h a b⟩

def moveOrigin (b : Fin n) (x : α) (s : RealSchur α n) : RealSchur α n :=
  { s with
    form := Grid.ofFn fun i j ↦ if i = j ∧ i ≤ b then s.form i j - x else s.form i j
    shift := s.shift + x }

def nearRoot? (t : DoubleShift α) : Option α :=
  let half := (t.y - t.x) / 2.0
  let square := half * half + t.w
  if 0 < square then some (t.x - t.w / (half + negateIf (t.y < t.x) (sqrt square))) else none

/-- The shift of the next sweep. After ten and after thirty iterations without a root it is
replaced, lest the iteration go round in a circle. -/
def nextShift (done : Nat) (c a b : Fin n) (s : RealSchur α n) :
    List Event × DoubleShift α × RealSchur α n :=
  let t := trailingShift s.form a b
  if done = 10 then
    let s := s.moveOrigin b t.x
    let size := abs (s.form b a) + abs (s.form a c)
    let x := 0.75 * size
    ([.exceptionalShift b], ⟨x, x, (-0.4375) * size * size⟩, s)
  else if done = 30 then
    match nearRoot? t with
    | some x => ([.secondExceptionalShift b], ⟨0.964, 0.964, 0.964⟩, s.moveOrigin b x)
    | none => ([], t, s)
  else ([], t, s)

end DenseDecomp.RealSchur
