import Mathlib.Data.Real.Basic
import DenseDecomp.Grid.Rotation
import DenseDecomp.Proofs.ChangeOfBasis
import DenseDecomp.Proofs.ExactArithmetic

namespace DenseDecomp.Grid

open Matrix

variable {m n : ℕ}

def toMatrix (g : Grid ℝ m n) : Matrix (Fin m) (Fin n) ℝ := of fun i j ↦ g i j

@[simp] theorem toMatrix_apply (g : Grid ℝ m n) (i : Fin m) (j : Fin n) :
    g.toMatrix i j = g i j := rfl

def ofMatrix (A : Matrix (Fin m) (Fin n) ℝ) : Grid ℝ m n := ofFn fun i j ↦ A i j

@[simp] theorem ofMatrix_apply (A : Matrix (Fin m) (Fin n) ℝ) (i : Fin m) (j : Fin n) :
    ofMatrix A i j = A i j := ofFn_apply _ i j

@[simp] theorem toMatrix_ofMatrix (A : Matrix (Fin m) (Fin n) ℝ) : (ofMatrix A).toMatrix = A := by
  ext i j
  rw [toMatrix_apply, ofMatrix_apply]

@[simp] theorem ofMatrix_toMatrix (g : Grid ℝ m n) : ofMatrix g.toMatrix = g := by
  ext i j
  rw [ofMatrix_apply, toMatrix_apply]

theorem toMatrix_isSymm_iff {g : Grid ℝ n n} :
    g.toMatrix.IsSymm ↔ ∀ i j, j < i → g i j = g j i := by
  refine IsSymm.ext_iff.trans ⟨fun h i j _ ↦ h j i, fun h i j ↦ ?_⟩
  obtain hij | rfl | hij := lt_trichotomy i j
  · exact h j i hij
  · rfl
  · exact (h i j hij).symm

section ReadOn

variable {P : Fin m → Fin n → Prop} [∀ i j, Decidable (P i j)] {g : Grid ℝ m n} {i : Fin m}
  {j : Fin n}

/-- The matrix that has the entries of a grid at the positions `P` and is zero elsewhere, whatever
the grid holds there. -/
def readOn (P : Fin m → Fin n → Prop) [∀ i j, Decidable (P i j)] (g : Grid ℝ m n) :
    Matrix (Fin m) (Fin n) ℝ :=
  of fun i j ↦ if P i j then g i j else 0

theorem readOn_of (h : P i j) : g.readOn P i j = g i j := if_pos h

theorem readOn_of_not (h : ¬ P i j) : g.readOn P i j = 0 := if_neg h

def hessenberg (g : Grid ℝ n n) : Matrix (Fin n) (Fin n) ℝ :=
  g.readOn fun i j ↦ i.val ≤ j.val + 1

end ReadOn

theorem toMatrix_rotateColumns [DivisionByZero] (g : Grid ℝ n n) (j k : Fin n) (c s : ℝ) :
    (g.rotateColumns j k c s fun _ ↦ True).toMatrix = g.toMatrix * planeRotation j k c s := by
  ext a b
  rw [mul_planeRotation, toMatrix_apply, rotateColumns, ofFn_apply, if_pos trivial]
  rfl

end DenseDecomp.Grid
