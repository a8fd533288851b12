import Mathlib.Data.Real.Basic
import DenseDecomp.Proofs.Eigenvectors.HomogeneousSystem
import DenseDecomp.Proofs.GridMatrix
import DenseDecomp.RealSchur.BackSubstitution

namespace DenseDecomp.RealSchur.BackSubstitution

open Matrix Scalar

variable {n : ℕ}

/-- The blocks on the diagonal of a form: single real eigenvalues, and pairs of rows whose
characteristic polynomial has the conjugate roots `re ± i im`. -/
structure Blocks.Describes (B : Blocks ℝ n) (h : Grid ℝ n n) : Prop where
  single : ∀ i, B.im i = 0 → h i i = B.re i
  upper : ∀ i, 0 < B.im i → ∃ j : Fin n, i.val + 1 = j.val ∧ B.im j = -B.im i ∧
    B.re j = B.re i ∧ ∀ x : ℝ,
      (x - h i i) * (x - h j j) - h i j * h j i = (x - B.re i) ^ 2 + B.im i ^ 2
  lower : ∀ j, B.im j < 0 → ∃ i : Fin n, i.val + 1 = j.val ∧ 0 < B.im i

noncomputable def quasiTriangular (B : Blocks ℝ n) (h : Grid ℝ n n) : Matrix (Fin n) (Fin n) ℝ :=
  of fun i j ↦ if i ≤ j ∨ j.val + 1 = i.val ∧ B.im i < 0 then h i j else 0

def upperTriangle (g : Grid ℝ n n) : Matrix (Fin n) (Fin n) ℝ :=
  of fun i j ↦ if i ≤ j then g i j else 0

variable {B : Blocks ℝ n} {h f g : Grid ℝ n n} {i j k : Fin n}

theorem upperTriangle_congr (hj : ∀ i, f i j = g i j) (i : Fin n) :
    upperTriangle f i j = upperTriangle g i j := congrArg (ite _ · 0) (hj i)

theorem quasiTriangular_of_le (hij : i ≤ j) : quasiTriangular B h i j = h i j := if_pos (.inl hij)

theorem quasiTriangular_lower (hij : i.val + 1 = j.val) (hj : B.im j < 0) :
    quasiTriangular B h j i = h j i := if_pos (.inr ⟨hij, hj⟩)

namespace Blocks.Describes

/-- The upper row of a pair determines the lower one. -/
theorem pair (hB : B.Describes h) (hi : 0 < B.im i) (hij : i.val + 1 = j.val) :
    B.im j = -B.im i ∧ B.re j = B.re i ∧
      ∀ x : ℝ, (x - h i i) * (x - h j j) - h i j * h j i = (x - B.re i) ^ 2 + B.im i ^ 2 := by
  obtain ⟨k, hik, hk⟩ := hB.upper i hi
  obtain rfl : k = j := Fin.ext (by omega)
  exact hk

theorem lower_neg (hB : B.Describes h) (hi : 0 < B.im i) (hij : i.val + 1 = j.val) :
    B.im j < 0 := by
  rw [(hB.pair hi hij).1]
  exact neg_neg_of_pos hi

theorem upper_of_lower (hB : B.Describes h) (hij : i.val + 1 = j.val) (hj : B.im j < 0) :
    0 < B.im i := by
  obtain ⟨k, hkj, hk⟩ := hB.lower j hj
  obtain rfl : k = i := Fin.ext (by omega)
  exact hk

/-- No pair ends in the first row. -/
theorem ne_zero_of_neg (hB : B.Describes h) (hj : B.im j < 0) : j.val ≠ 0 := by
  obtain ⟨i, hij, -⟩ := hB.lower j hj
  omega

theorem below (hB : B.Describes h) (hi : ¬ 0 < B.im i) (hik : i < k) :
    quasiTriangular B h k i = 0 := by
  refine if_neg ?_
  rintro (hki | ⟨hki, hk⟩)
  · exact absurd hki (not_le.2 hik)
  · exact hi (hB.upper_of_lower hki hk)

theorem below_pair (hB : B.Describes h) (hij : i.val + 1 = j.val) (hj : B.im j < 0) (hjk : j < k) :
    quasiTriangular B h k i = 0 ∧ quasiTriangular B h k j = 0 := by
  refine ⟨if_neg ?_, hB.below hj.le.not_gt hjk⟩
  have hlt := Fin.lt_def.1 hjk
  rw [Fin.le_def]
  omega

end Blocks.Describes

end DenseDecomp.RealSchur.BackSubstitution
