import DenseDecomp.Grid
import DenseDecomp.Scalar

namespace DenseDecomp

structure EigenPairs (α : Type) (n : Nat) where
  values : Tuple α n
  vectors : Grid α n n

namespace EigenPairs

variable {α : Type} {n : Nat}

def swap (s : EigenPairs α n) (i k : Fin n) : EigenPairs α n where
  values := Tuple.ofFn fun j ↦ s.values (if j = i then k else if j = k then i else j)
  vectors := s.vectors.swapColumns i k

variable [Scalar α]

def leastFrom (s : EigenPairs α n) (i : Fin n) : Fin n :=
  Fin.foldl n (fun k j ↦ if i < j ∧ s.values j < s.values k then j else k) i

def sortAscending (s : EigenPairs α n) : EigenPairs α n :=
  Fin.foldl n (fun s i ↦ s.swap i (s.leastFrom i)) s

end EigenPairs

end DenseDecomp
