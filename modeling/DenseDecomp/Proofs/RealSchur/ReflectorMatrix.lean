import Mathlib.Data.Real.Basic
import DenseDecomp.Proofs.GridMatrix
import DenseDecomp.Proofs.RealSchur.Reflector

namespace DenseDecomp.RealSchur.Reflector

open Matrix Scalar

variable {n : ℕ} {t : Reflector ℝ n}

def vector (t : Reflector ℝ n) : Fin n → ℝ := t.spread 1 t.q t.r

/-- What makes the two halves of a reflector one reflection. -/
structure Balanced (t : Reflector ℝ n) : Prop where
  ordered : t.Ordered
  y_eq : t.y = t.x * t.q
  z_eq : t.z = t.x * t.r
  two : t.x + t.y * t.q + (t.third.elim 0 fun _ ↦ t.z * t.r) = 2

theorem spread_smul (a b c x : ℝ) : t.spread (x * a) (x * b) (x * c) = x • t.spread a b c := by
  funext l
  rw [Pi.smul_apply, smul_eq_mul, spread, spread]
  cases t.third with
  | none => simp only [Pi.add_apply, Pi.single_apply, Option.elim_none, Pi.zero_apply, mul_add,
      mul_ite, mul_zero]
  | some k => simp only [Pi.add_apply, Pi.single_apply, Option.elim_some, mul_add, mul_ite, mul_zero]

theorem spread_dotProduct_congr {a b c : ℝ} {v w : Fin n → ℝ} (h : ∀ l, t.Touches l → v l = w l) :
    t.spread a b c ⬝ᵥ v = t.spread a b c ⬝ᵥ w := by
  rw [spread_dotProduct, spread_dotProduct, h t.i (Or.inl rfl), h t.j (Or.inr (Or.inl rfl))]
  congr 1
  cases hk : t.third with
  | none => rfl
  | some k => exact congrArg (c * ·) (h k (Or.inr (Or.inr hk.symm)))

theorem spread_dotProduct_eq_zero {a b c : ℝ} {v : Fin n → ℝ} (h : ∀ l, t.Touches l → v l = 0) :
    t.spread a b c ⬝ᵥ v = 0 := by
  rw [spread_dotProduct_congr (w := 0) h, dotProduct_zero]

theorem Balanced.spread_eq (h : t.Balanced) : t.spread t.x t.y t.z = t.x • t.vector := by
  rw [h.y_eq, h.z_eq, vector, ← spread_smul, mul_one]

theorem Balanced.coefficient (h : t.Balanced) : 2 / (t.vector ⬝ᵥ t.vector) = t.x := by
  have htwo : t.x * (t.vector ⬝ᵥ t.vector) = 2 := by
    rw [← smul_eq_mul, ← smul_dotProduct, ← h.spread_eq, vector,
      spread_dotProduct_spread h.ordered, mul_one, h.two]
  rw [← htwo, mul_div_assoc, div_self, mul_one]
  intro hzero
  rw [hzero, mul_zero] at htwo
  exact two_ne_zero htwo.symm

theorem Balanced.reflection_mul (h : t.Balanced) (M : Matrix (Fin n) (Fin n) ℝ) (a b : Fin n) :
    (reflection t.vector * M) a b =
      M a b - (t.vector ⬝ᵥ fun k ↦ M k b) * t.spread t.x t.y t.z a := by
  rw [reflection_mul_apply, h.coefficient, h.spread_eq, Pi.smul_apply, smul_eq_mul, dotProduct]
  ring

theorem Balanced.mul_reflection (h : t.Balanced) (M : Matrix (Fin n) (Fin n) ℝ) (a b : Fin n) :
    (M * reflection t.vector) a b =
      M a b - (t.spread t.x t.y t.z ⬝ᵥ M a) * t.vector b := by
  rw [mul_reflection_apply, h.coefficient, h.spread_eq, smul_dotProduct, smul_eq_mul, dotProduct]
  simp only [mul_comm]

variable [DivisionByZero]

theorem Balanced.toMatrix_applyColumns (h : t.Balanced) (g : Grid ℝ n n) :
    (t.applyColumns (fun _ ↦ True) g).toMatrix = g.toMatrix * reflection t.vector := by
  ext a b
  rw [h.mul_reflection, Grid.toMatrix_apply, applyColumns_apply h.ordered, if_pos trivial]
  rfl

theorem applyRows_of_lt (h : t.Ordered) {g : Grid ℝ n n} (a : Fin n) {b : Fin n} (hb : b < t.i) :
    t.applyRows g a b = g a b := by
  rw [applyRows_apply h, if_neg (not_le.2 hb)]

theorem applyRows_of_not_touches (h : t.Ordered) {g : Grid ℝ n n} {a : Fin n} (ha : ¬ t.Touches a)
    (b : Fin n) : t.applyRows g a b = g a b := by
  rw [applyRows_apply h, spread_of_not_touches h _ _ _ ha, mul_zero, sub_zero, ite_self]

end DenseDecomp.RealSchur.Reflector
