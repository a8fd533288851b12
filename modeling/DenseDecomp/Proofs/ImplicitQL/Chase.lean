import Mathlib.Data.Real.Basic
import DenseDecomp.Eigen.ImplicitQL
import DenseDecomp.Proofs.Band
import DenseDecomp.Proofs.ExactArithmetic

namespace DenseDecomp.ImplicitQL.Chase

open Matrix Scalar

variable {n : ℕ}

def form (t : Chase ℝ n) (k : ℕ) : Matrix (Fin n) (Fin n) ℝ :=
  band (fun i ↦ if i.val = k then t.cos * t.carried else t.diag i)
    (fun i ↦ if i.val = k then t.sin * t.carried
      else if i.val + 1 = k then t.cos * t.link i else t.link i)
    (fun i ↦ if i.val + 1 = k then t.sin * t.link i else 0)

theorem link_rotate_of_ne {α : Type} [Scalar α] {t : Chase α (n + 1)} {k : Fin n} {i : Fin (n + 1)}
    (hi : i ≠ k.succ) : (t.rotate k).link i = t.link i := by
  rw [Chase.rotate, Tuple.set_apply, if_neg hi]

variable [DivisionByZero] {t : Chase ℝ (n + 1)} {k : Fin n}

noncomputable def radius (k : Fin n) (t : Chase ℝ (n + 1)) : ℝ :=
  hypot t.carried (t.link k.castSucc)

theorem radius_ne_zero (h : t.link k.castSucc ≠ 0) : t.radius k ≠ 0 := by
  apply ne_of_gt
  exact Real.sqrt_pos.2 (add_pos_of_nonneg_of_pos (mul_self_nonneg _) (mul_self_pos.2 h))

theorem radius_mul_self (k : Fin n) (t : Chase ℝ (n + 1)) : t.radius k * t.radius k =
    t.carried * t.carried + t.link k.castSucc * t.link k.castSucc :=
  Real.mul_self_sqrt (add_nonneg (mul_self_nonneg _) (mul_self_nonneg _))

theorem exists_radius (h : t.link k.castSucc ≠ 0) :
    ∃ r, r ≠ 0 ∧ (t.rotate k).cos * r = t.carried ∧ (t.rotate k).sin * r = t.link k.castSucc ∧
      (t.rotate k).cos * (t.rotate k).cos + (t.rotate k).sin * (t.rotate k).sin = 1 ∧
      (t.rotate k).link = t.link.set k.succ (t.sin * r) := by
  have hr := radius_ne_zero h
  have hcos : (t.rotate k).cos * t.radius k = t.carried := by
    rw [mul_comm]
    exact mul_div_of_ne_zero t.carried hr
  have hsin : (t.rotate k).sin * t.radius k = t.link k.castSucc := by
    rw [mul_comm]
    exact mul_div_of_ne_zero (t.link k.castSucc) hr
  refine ⟨_, hr, hcos, hsin, mul_right_cancel₀ (mul_ne_zero hr hr) ?_, rfl⟩
  linear_combination hcos * ((t.rotate k).cos * t.radius k + t.carried) +
    hsin * ((t.rotate k).sin * t.radius k + t.link k.castSucc) - radius_mul_self k t

theorem rotate_form (h : t.link k.castSucc ≠ 0) :
    (t.rotate k).form k =
      (planeRotation k.castSucc k.succ (t.rotate k).cos (t.rotate k).sin)ᵀ * t.form (k + 1) *
        planeRotation k.castSucc k.succ (t.rotate k).cos (t.rotate k).sin := by
  obtain ⟨r, hr, hcos, hsin, hunit, hlink⟩ := exists_radius h
  have hcarried : (t.rotate k).carried =
      (t.rotate k).cos * t.diag k.castSucc - (t.rotate k).sin * (t.cos * t.link k.castSucc) := rfl
  have hdiag : (t.rotate k).diag = t.diag.set k.succ (t.cos * t.carried + (t.rotate k).sin *
      ((t.rotate k).cos * (t.cos * t.link k.castSucc) + (t.rotate k).sin * t.diag k.castSucc)) := rfl
  have hk₁ : k.succ.val = k.val + 1 := Fin.val_succ k
  have hk₂ : k.castSucc.val = k.val := Fin.val_castSucc k
  have hset : ∀ (x : Tuple ℝ (n + 1)) a (i : Fin (n + 1)), i.val ≠ k.val + 1 →
      x.set k.succ a i = x i := fun x a i hi ↦ by
    rw [Tuple.set_apply, if_neg (fun h ↦ hi (congrArg Fin.val h))]
  refine Chases.band_eq ⟨?bulge, ?bulge_up, ?diag_of_ne, ?link_of_ne, ?diag_castSucc, ?diag_succ,
    ?link_castSucc, ?link_succ, ?cleared, ?link_pred, ?bulge_pred⟩
  case bulge =>
    intro i hi
    rw [if_neg (fun h ↦ hi (Fin.ext (by omega)))]
  case bulge_up =>
    intro i hi
    rw [if_neg hi]
  case diag_of_ne =>
    intro i hi₁ hi₂
    have hv₁ : i.val ≠ k.val := fun h ↦ hi₁ (Fin.ext h)
    have hv₂ : i.val ≠ k.val + 1 := fun h ↦ hi₂ (Fin.ext h)
    rw [if_neg hv₁, if_neg hv₂, hdiag, hset _ _ _ hv₂]
  case link_of_ne =>
    intro i hi hi₁ hi₂
    have hv₁ : i.val ≠ k.val := fun h ↦ hi₁ (Fin.ext h)
    have hv₂ : i.val ≠ k.val + 1 := fun h ↦ hi₂ (Fin.ext h)
    rw [if_neg hv₁, if_neg hi, if_neg hv₂, if_neg (by omega), hlink, hset _ _ _ hv₂]
  case diag_castSucc =>
    simp only [hk₁, hk₂, if_true, (Nat.lt_succ_self _).ne, if_false]
    rw [hcarried, ← hcos, ← hsin]
    ring
  case diag_succ =>
    simp only [hk₁, hk₂, if_true, Nat.succ_ne_self, (Nat.lt_succ_self _).ne, if_false, hdiag,
      Tuple.set_apply]
    rw [← hcos, ← hsin]
    linear_combination (-t.cos * (t.rotate k).cos * r) * hunit
  case link_castSucc =>
    simp only [hk₁, hk₂, if_true, (Nat.lt_succ_self _).ne, if_false]
    rw [hcarried, ← hcos, ← hsin]
    ring
  case link_succ =>
    have hk₃ : ¬ k.val + 1 + 1 = k.val := by omega
    simp only [hk₁, hk₂, hk₃, if_true, Nat.succ_ne_self, if_false, hlink, Tuple.set_apply]
    rw [← hcos, ← hsin]
    linear_combination (-t.sin * r) * hunit
  case cleared =>
    simp only [hk₁, hk₂, if_true]
    rw [← hcos, ← hsin]
    ring
  case link_pred =>
    intro i hi
    rw [if_neg (by omega), if_pos hi, if_neg (by omega), if_neg (by omega), hlink,
      hset _ _ _ (by omega)]
  case bulge_pred =>
    intro i hi
    rw [if_pos hi, if_neg (by omega), if_neg (by omega), hlink, hset _ _ _ (by omega)]

end DenseDecomp.ImplicitQL.Chase
