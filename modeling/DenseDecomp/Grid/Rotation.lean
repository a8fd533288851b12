import DenseDecomp.Grid
import DenseDecomp.Scalar

namespace DenseDecomp.Grid

variable {α : Type} [Scalar α] {m n : Nat}

def rotateColumns (j k : Fin n) (cos sin : α) (p : Fin m → Prop) [DecidablePred p]
    (g : Grid α m n) : Grid α m n :=
  ofFn fun r l ↦
    if p r then
      if l = j then cos * g r j - sin * g r k
      else if l = k then sin * g r j + cos * g r k
      else g r l
    else g r l

def rotateRows (i k : Fin m) (cos sin : α) (p : Fin n → Prop) [DecidablePred p]
    (g : Grid α m n) : Grid α m n :=
  ofFn fun r l ↦
    if p l then
      if r = i then cos * g i l - sin * g k l
      else if r = k then sin * g i l + cos * g k l
      else g r l
    else g r l

section Columns

variable {j k l : Fin n} {cos sin : α} {p : Fin m → Prop} [DecidablePred p] {g : Grid α m n}
  {r : Fin m}

theorem rotateColumns_of_ne (hj : l ≠ j) (hk : l ≠ k) :
    g.rotateColumns j k cos sin p r l = g r l := by
  rw [rotateColumns, ofFn_apply, if_neg hj, if_neg hk, ite_self]

theorem rotateColumns_left (h : p r) :
    g.rotateColumns j k cos sin p r j = cos * g r j - sin * g r k := by
  rw [rotateColumns, ofFn_apply, if_pos h, if_pos rfl]

theorem rotateColumns_right (h : p r) (hkj : k ≠ j) :
    g.rotateColumns j k cos sin p r k = sin * g r j + cos * g r k := by
  rw [rotateColumns, ofFn_apply, if_pos h, if_neg hkj, if_pos rfl]

end Columns

end DenseDecomp.Grid
