import Mathlib.Data.Real.Basic
import DenseDecomp.Proofs.ImplicitQL.Sweep
import DenseDecomp.Proofs.Residual

namespace DenseDecomp

open Matrix Scalar

variable {n : ℕ}

section Run

variable {α : Type}

namespace ImplicitQL

variable [Scalar α]

theorem converge_invariant {config : EigenConfig} {c : Fin n} {m : Fin (n + 1)}
    {P : ImplicitQL α (n + 1) → Prop}
    (hsweep : ∀ s, P s → ¬ s.Negligible c.castSucc → P (s.sweep c m))
    {s s' : ImplicitQL α (n + 1)} {done sweeps : ℕ} (hs : P s)
    (h : converge config c m done s = .ok (sweeps, s')) : P s' ∧ s'.Negligible c.castSucc := by
  fun_induction converge config c m done s with
  | case1 done s hsmall =>
    cases h
    exact ⟨hs, hsmall⟩
  | case2 done s hlarge ih =>
    obtain ⟨e, heq⟩ | ⟨hd, heq⟩ := config.attempt_cases done _ _ _
    · cases heq.symm.trans h
    · exact ih hd (hsweep s hs hlarge) (heq.symm.trans h)

variable {s : ImplicitQL α (n + 1)} {l : Fin (n + 1)}

theorem le_blockEnd (s : ImplicitQL α (n + 1)) (l : Fin (n + 1)) : l ≤ s.blockEnd l := by
  rw [blockEnd]
  split
  case h_1 k hk =>
    have h := List.find?_some hk
    exact (of_decide_eq_true h).1
  case h_2 => exact Fin.le_last l

theorem negligible_blockEnd (h : s.blockEnd l ≠ Fin.last n) : s.Negligible (s.blockEnd l) := by
  rw [blockEnd] at h ⊢
  split
  case h_1 k hk =>
    have h := List.find?_some hk
    exact (of_decide_eq_true h).2
  case h_2 hk =>
    rw [hk] at h
    exact absurd rfl h

theorem not_negligible_of_lt_blockEnd {i : Fin (n + 1)} (hl : l ≤ i) (hi : i < s.blockEnd l) :
    ¬ s.Negligible i := by
  have hin : i.val < n := lt_of_lt_of_le (Fin.lt_def.1 hi) (Nat.le_of_lt_succ (s.blockEnd l).isLt)
  obtain ⟨k, rfl⟩ : ∃ k : Fin n, k.castSucc = i := ⟨⟨i, hin⟩, rfl⟩
  intro hsmall
  rw [blockEnd] at hi
  split at hi
  case h_1 k' hk' =>
    have h := not_of_lt_find? hk' (Fin.castSucc_lt_castSucc_iff.1 hi)
    exact of_decide_eq_false h ⟨hl, hsmall⟩
  case h_2 hnone =>
    have h := List.find?_eq_none.1 hnone k (List.mem_finRange k)
    exact h (decide_eq_true ⟨hl, hsmall⟩)

end ImplicitQL

end Run

namespace ImplicitQL

section Drop

variable {s : ImplicitQL ℝ (n + 1)} {m : Fin (n + 1)}

theorem drop_of_link_eq_zero (h : s.link m = 0) : s.drop m = s := by
  have hlink : s.link.set m 0 = s.link := Tuple.ext fun i ↦ by
    rw [Tuple.set_apply]
    split
    case isTrue hi => rw [hi, h]
    case isFalse => rfl
  rw [drop, hlink]

theorem drop_last_form (s : ImplicitQL ℝ (n + 1)) (l : ℕ) :
    (s.drop (Fin.last n)).form l = s.form l :=
  band_congr (fun _ ↦ rfl) (fun i hi ↦ by
    rw [drop, Tuple.set_apply, if_neg]
    rintro rfl
    rw [Fin.val_last] at hi
    omega) (fun _ _ ↦ rfl)

theorem drop_residual (s : ImplicitQL ℝ (n + 1)) (k : Fin n) (l : ℕ) :
    Residual |s.link k.castSucc| (s.form l - (s.drop k.castSucc).form l) := by
  have h : s.form l =
      (s.drop k.castSucc).form l + tridiagonal 0 (Pi.single k.castSucc (s.link k.castSucc)) := by
    rw [form, form, tridiagonal, tridiagonal, tridiagonal, band_add]
    refine band_congr (fun i ↦ (add_zero _).symm) (fun i _ ↦ ?_) (fun i _ ↦ (add_zero _).symm)
    rw [Pi.add_apply, drop, Tuple.set_apply]
    by_cases hi : i = k.castSucc
    · rw [if_pos hi, hi, Pi.single_eq_same, zero_add]
    · rw [if_neg hi, Pi.single_eq_of_ne hi, add_zero]
  rw [h, add_sub_cancel_left]
  exact residual_link k _

end Drop

section Block

variable [DivisionByZero] {s₀ s : ImplicitQL ℝ (n + 1)} {c : Fin n} {m : Fin (n + 1)}

theorem negligible_iff {i : Fin (n + 1)} :
    s.Negligible i ↔ |s.link i| ≤ epsilon * s.magnitude := not_lt

theorem negligible_of_link_eq_zero (hmag : 0 ≤ s.magnitude) {i : Fin (n + 1)} (h : s.link i = 0) :
    s.Negligible i := by
  rw [negligible_iff, h, abs_zero]
  exact mul_nonneg epsilon_nonneg hmag

/-- What the sweeps of the block from `c` to `m` preserve. -/
structure Block (c : Fin n) (m : Fin (n + 1)) (s₀ s : ImplicitQL ℝ (n + 1)) : Prop where
  magnitude_eq : s.magnitude = s₀.magnitude
  rebases : Rebases s₀.basis.toMatrix ((s₀.drop m).form c) s.basis.toMatrix ((s.drop m).form c)
  link_ne : ∀ i, c.castSucc < i → i < m → s.link i ≠ 0
  link_before : ∀ i, i < c.castSucc → s.link i = 0
  link_end : s.Negligible c.castSucc → s.link m = 0

theorem Block.start (hmag : 0 ≤ s.magnitude) (hc : c.castSucc < s.blockEnd c.castSucc)
    (hbefore : ∀ i, i < c.castSucc → s.link i = 0) : Block c (s.blockEnd c.castSucc) s s where
  magnitude_eq := rfl
  rebases := Rebases.refl _ _
  link_ne _ hci hi h₀ :=
    not_negligible_of_lt_blockEnd hci.le hi (negligible_of_link_eq_zero hmag h₀)
  link_before := hbefore
  link_end h := absurd h (not_negligible_of_lt_blockEnd le_rfl hc)

theorem Block.sweep (hcm : c.castSucc < m) (hmag : 0 ≤ s₀.magnitude) (h : Block c m s₀ s)
    (hlarge : ¬ s.Negligible c.castSucc) : Block c m s₀ (s.sweep c m) := by
  have hlink : ∀ i, c.castSucc ≤ i → i < m → s.link i ≠ 0 := fun i hci him ↦ by
    obtain rfl | hci := eq_or_lt_of_le hci
    · exact fun h₀ ↦ hlarge (negligible_of_link_eq_zero (h.magnitude_eq ▸ hmag) h₀)
    · exact h.link_ne i hci him
  have hbefore : ∀ i : Fin (n + 1), i.val + 1 = c → s.link i = 0 := fun i hi ↦
    h.link_before i (Fin.lt_def.2 (by rw [Fin.val_castSucc]; omega))
  have hend := sweep_link_end hcm hlink
  refine ⟨h.magnitude_eq, h.rebases.trans ?_, fun i ↦ sweep_link_ne hcm hlink, fun i hi ↦ ?_,
    fun _ ↦ hend⟩
  · rw [drop_of_link_eq_zero hend]
    exact sweep_rebases hcm hlink hbefore
  · rw [sweep_link_of_lt hcm hlink hi]
    exact h.link_before i hi

end Block

end ImplicitQL

end DenseDecomp
