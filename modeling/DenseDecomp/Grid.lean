import DenseDecomp.Tuple

namespace DenseDecomp

structure Grid (α : Type) (m n : Nat) where
  rows : Tuple (Tuple α n) m

namespace Grid

variable {α : Type} {m n : Nat}

def get (g : Grid α m n) (i : Fin m) (j : Fin n) : α := g.rows i j

instance : CoeFun (Grid α m n) (fun _ ↦ Fin m → Fin n → α) := ⟨get⟩

def ofFn (f : Fin m → Fin n → α) : Grid α m n := ⟨Tuple.ofFn fun i ↦ Tuple.ofFn (f i)⟩

@[simp] theorem ofFn_apply (f : Fin m → Fin n → α) (i : Fin m) (j : Fin n) :
    ofFn f i j = f i j := by
  simp only [ofFn, get, Tuple.ofFn_apply]

@[ext] theorem ext {g h : Grid α m n} (w : ∀ i j, g i j = h i j) : g = h := by
  obtain ⟨g⟩ := g
  obtain ⟨h⟩ := h
  congr 1
  exact Tuple.ext fun i ↦ Tuple.ext fun j ↦ w i j

@[simp] theorem ofFn_eta (g : Grid α m n) : ofFn g.get = g :=
  ext fun i j ↦ ofFn_apply _ i j

def set (g : Grid α m n) (i : Fin m) (j : Fin n) (x : α) : Grid α m n :=
  ⟨g.rows.set i ((g.rows i).set j x)⟩

theorem set_apply (g : Grid α m n) (i : Fin m) (j : Fin n) (x : α) (k : Fin m) (l : Fin n) :
    g.set i j x k l = if k = i ∧ l = j then x else g k l := by
  simp only [set, get, Tuple.set_apply]
  by_cases hi : k = i
  · subst hi
    simp only [if_true, Tuple.set_apply, true_and]
  · simp only [hi, if_false, false_and]

def row (g : Grid α m n) (i : Fin m) : Tuple α n := g.rows i

def column (g : Grid α m n) (j : Fin n) : Tuple α m := Tuple.ofFn fun i ↦ g i j

def swapColumns (g : Grid α m n) (j k : Fin n) : Grid α m n :=
  ofFn fun i l ↦ g i (if l = j then k else if l = k then j else l)

@[simp] theorem row_apply (g : Grid α m n) (i : Fin m) (j : Fin n) : g.row i j = g i j := rfl

@[simp] theorem column_apply (g : Grid α m n) (i : Fin m) (j : Fin n) : g.column j i = g i j :=
  Tuple.ofFn_apply _ i

end Grid

end DenseDecomp
