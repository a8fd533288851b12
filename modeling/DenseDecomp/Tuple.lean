namespace DenseDecomp

structure Tuple (α : Type) (n : Nat) where
  entries : Vector α n

namespace Tuple

variable {α : Type} {n : Nat}

def get (x : Tuple α n) (i : Fin n) : α := x.entries[i]

instance : CoeFun (Tuple α n) (fun _ ↦ Fin n → α) := ⟨get⟩

def ofFn (f : Fin n → α) : Tuple α n := ⟨Vector.ofFn f⟩

@[simp] theorem ofFn_apply (f : Fin n → α) (i : Fin n) : ofFn f i = f i := by
  simp [ofFn, get]

@[ext] theorem ext {x y : Tuple α n} (w : ∀ i, x i = y i) : x = y := by
  obtain ⟨x⟩ := x
  obtain ⟨y⟩ := y
  congr 1
  ext i hi
  exact w ⟨i, hi⟩

@[simp] theorem ofFn_eta (x : Tuple α n) : ofFn x.get = x :=
  ext fun i ↦ ofFn_apply _ i

def fill (a : α) : Tuple α n := ofFn fun _ ↦ a

@[simp] theorem fill_apply (a : α) (i : Fin n) : (fill a : Tuple α n) i = a :=
  ofFn_apply _ i

def set (x : Tuple α n) (i : Fin n) (a : α) : Tuple α n := ⟨x.entries.set i a i.isLt⟩

theorem set_apply (x : Tuple α n) (i : Fin n) (a : α) (j : Fin n) :
    x.set i a j = if j = i then a else x j := by
  simp only [set, get, Fin.getElem_fin, Vector.getElem_set, Fin.ext_iff, eq_comm]

def ofArray? (n : Nat) (xs : Array α) : Option (Tuple α n) :=
  if h : xs.size = n then some ⟨⟨xs, h⟩⟩ else none

def toArray (x : Tuple α n) : Array α := x.entries.toArray

@[simp] theorem size_toArray (x : Tuple α n) : x.toArray.size = n := x.entries.size_toArray

end Tuple

end DenseDecomp
