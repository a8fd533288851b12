import Mathlib.Data.Real.Basic
import DenseDecomp.Proofs.Loop
import DenseDecomp.Proofs.RealSchur.Deflation
import DenseDecomp.Proofs.RealSchur.Sweep
import DenseDecomp.RealSchur.Iteration

namespace DenseDecomp.RealSchur

open Scalar

variable {n : ℕ}

section Course

variable {α : Type} [Scalar α] {config : EigenConfig} {norm : α} {top done : ℕ} {ht : top ≤ n}
  {s : RealSchur α n} {a b c : Fin n}

theorem settle_zero {ht : 0 ≤ n} : settle config norm 0 ht done s = pure s := by
  rw [settle, dif_pos rfl]

theorem settle_of_single (hb : b.val + 1 = top) (hl : blockStart norm s.form b b.isLt = b) :
    settle config norm top ht done s =
      (settle config norm b b.isLt.le 0 (s.deflateOne b)).after [.realRoot b done] := by
  obtain rfl := hb
  rw [settle, dif_neg (Nat.succ_ne_zero _)]
  exact dif_pos hl

theorem settle_of_pair (hb : b.val + 1 = top) (hab : a.val + 1 = b.val)
    (hl : blockStart norm s.form b b.isLt = a) :
    settle config norm top ht done s =
      (settle config norm a a.isLt.le 0 (s.deflatePair a b)).after [.rootPair a done] := by
  obtain ⟨a, ha⟩ := a
  obtain ⟨b, hb'⟩ := b
  obtain rfl : a + 1 = b := hab
  obtain rfl := hb
  rw [settle, dif_neg (Nat.succ_ne_zero _)]
  simp only [Nat.add_sub_cancel, hl]
  rw [dif_neg (by omega), dif_pos trivial]
  rfl

theorem settle_of_block {l : ℕ} (hb : b.val + 1 = top) (hca : c.val + 1 = a.val)
    (hab : a.val + 1 = b.val) (hl : blockStart norm s.form b b.isLt = l) (hlb : l + 2 ≤ b) :
    settle config norm top ht done s =
      config.attempt done (abs ((s.nextShift done c a b).2.2.form b a))
        (fun e ↦ ⟨(s.nextShift done c a b).1, .error e⟩) fun _ ↦
          (settle config norm top ht (done + 1)
            ((s.nextShift done c a b).2.2.sweep l b.isLt hlb (s.nextShift done c a b).2.1)).after
              (s.nextShift done c a b).1 := by
  obtain ⟨c, hc⟩ := c
  obtain ⟨a, ha⟩ := a
  obtain ⟨b, hb'⟩ := b
  obtain rfl : c + 1 = a := hca
  obtain rfl : c + 1 + 1 = b := hab
  obtain rfl := hb
  dsimp only at hlb
  rw [settle, dif_neg (Nat.succ_ne_zero _)]
  simp only [Nat.add_sub_cancel, hl]
  rw [dif_neg (by omega), dif_neg (by omega)]
  rfl

/-- Induction along the iteration: a single root, a pair, or a sweep of the block that is left. -/
@[elab_as_elim]
theorem settle_induction {motive : (top : ℕ) → top ≤ n → ℕ → RealSchur α n → Prop} (norm : α)
    (zero : ∀ done s, motive 0 (Nat.zero_le n) done s)
    (single : ∀ (b : Fin n) done s, blockStart norm s.form b b.isLt = b →
      motive b b.isLt.le 0 (s.deflateOne b) → motive (b + 1) b.isLt done s)
    (pair : ∀ (a b : Fin n) done s, a.val + 1 = b.val → blockStart norm s.form b b.isLt = a →
      motive a a.isLt.le 0 (s.deflatePair a b) → motive (b + 1) b.isLt done s)
    (block : ∀ (c a b : Fin n) (l done : ℕ) s (_ : c.val + 1 = a.val) (_ : a.val + 1 = b.val)
      (_ : blockStart norm s.form b b.isLt = l) (hlb : l + 2 ≤ b.val),
      (done + 1 < EigenConfig.counterBound → motive (b + 1) b.isLt (done + 1)
        ((s.nextShift done c a b).2.2.sweep l b.isLt hlb (s.nextShift done c a b).2.1)) →
      motive (b + 1) b.isLt done s)
    (top : ℕ) (ht : top ≤ n) (done : ℕ) (s : RealSchur α n) : motive top ht done s := by
  fun_induction settle ⟨none⟩ norm top ht done s with
  | case1 done s ht => exact zero done s
  | case2 top ht done s h₀ b l hl hlb ih =>
    obtain ⟨top, rfl⟩ := Nat.exists_eq_succ_of_ne_zero h₀
    exact single b done s hlb ih
  | case3 top ht done s h₀ b l hl h₁ hlb ih =>
    obtain ⟨top, rfl⟩ := Nat.exists_eq_succ_of_ne_zero h₀
    have hb : b.val = top := rfl
    have htop : top.succ - 2 = l := by omega
    refine pair ⟨l, by omega⟩ b done s hlb rfl ?_
    simpa only [htop] using ih
  | case4 top ht done s h₀ b l hl h₁ h₂ a events t s₁ hshifted ih =>
    obtain ⟨top, rfl⟩ := Nat.exists_eq_succ_of_ne_zero h₀
    have hb : b.val = top := rfl
    refine block ⟨b - 2, by omega⟩ a b l done s ?_ ?_ rfl (by omega) fun hd ↦ ?_
    · dsimp only [a]
      omega
    · dsimp only [a]
      omega
    · rw [hshifted]
      exact ih hd

end Course

section Invariant

variable {α : Type} [Scalar α]

theorem settle_invariant {config : EigenConfig} {norm : α} {P : ℕ → RealSchur α n → Prop}
    (hone : ∀ (b : Fin n) s, P (b + 1) s → blockStart norm s.form b b.isLt = b →
      P b (s.deflateOne b))
    (hpair : ∀ (a b : Fin n) s, P (b + 1) s → blockStart norm s.form b b.isLt = a →
      a.val + 1 = b → P a (s.deflatePair a b))
    (hshift : ∀ done (c a b : Fin n) s, P (b + 1) s → P (b + 1) (s.nextShift done c a b).2.2)
    (hsweep : ∀ (b : Fin n) l (hl : l + 2 ≤ b.val) t s, P (b + 1) s →
      P (b + 1) (s.sweep l b.isLt hl t))
    {top : ℕ} {ht : top ≤ n} {done : ℕ} {s s' : RealSchur α n} (hs : P top s)
    (h : (settle config norm top ht done s).outcome = .ok s') : P 0 s' := by
  fun_induction settle config norm top ht done s with
  | case1 done s ht =>
    obtain rfl := Except.ok.inj h
    exact hs
  | case2 top ht done s h₀ b l hl hlb ih =>
    rw [Run.outcome_after] at h
    have hb : b.val + 1 = top := Nat.sub_add_cancel (Nat.pos_of_ne_zero h₀)
    rw [← hb] at hs
    exact ih (hone b s hs hlb) h
  | case3 top ht done s h₀ b l hl h₁ hlb ih =>
    rw [Run.outcome_after] at h
    have hb : b.val + 1 = top := Nat.sub_add_cancel (Nat.pos_of_ne_zero h₀)
    have hl' : top - 2 = l := by omega
    rw [← hb] at hs
    refine ih ?_ h
    rw [hl']
    exact hpair ⟨l, by omega⟩ b s hs rfl hlb
  | case4 top ht done s h₀ b l hl h₁ h₂ a events t s₁ hshifted ih =>
    obtain ⟨e, heq⟩ | ⟨hd, heq⟩ := config.attempt_cases done (Scalar.abs (s₁.form b a))
      (fun e ↦ (⟨events, .error e⟩ : Run (Failure α) (RealSchur α n))) (fun _ ↦
        (settle config norm top ht (done + 1) (s₁.sweep l b.isLt (by omega) t)).after events)
    · rw [heq] at h
      cases h
    · rw [heq, Run.outcome_after] at h
      have hb : b.val + 1 = top := Nat.sub_add_cancel (Nat.pos_of_ne_zero h₀)
      rw [← hb] at hs
      have hs₁ := hshift done ⟨b - 2, by omega⟩ a b s hs
      rw [hshifted] at hs₁
      have hswept := hsweep b l (by omega) t s₁ hs₁
      rw [hb] at hswept
      exact ih hd hswept h

theorem exists_settle_zero (config : EigenConfig) (norm : α) {ht : 0 ≤ n} (done : ℕ)
    (s : RealSchur α n) : ∃ s', (settle config norm 0 ht done s).outcome = .ok s' := by
  rw [settle, dif_pos rfl]
  exact ⟨s, rfl⟩

theorem exists_settle_one (config : EigenConfig) (norm : α) {ht : 1 ≤ n} (done : ℕ)
    (s : RealSchur α n) : ∃ s', (settle config norm 1 ht done s).outcome = .ok s' := by
  have hl : blockStart norm s.form 0 ht = 0 := rfl
  rw [settle, dif_neg one_ne_zero, dif_pos hl, Run.outcome_after]
  exact exists_settle_zero config norm 0 _

theorem exists_settle_two (config : EigenConfig) (norm : α) {ht : 2 ≤ n} (done : ℕ)
    (s : RealSchur α n) : ∃ s', (settle config norm 2 ht done s).outcome = .ok s' := by
  have hle := blockStart_le norm s.form 1 ht
  rw [settle, dif_neg two_ne_zero]
  by_cases h₁ : blockStart norm s.form 1 ht = 1
  · rw [dif_pos h₁, Run.outcome_after]
    exact exists_settle_one config norm 0 _
  · have h₂ : blockStart norm s.form 1 ht + 1 = 1 := by omega
    rw [dif_neg h₁, dif_pos h₂, Run.outcome_after]
    exact exists_settle_zero config norm 0 _

end Invariant

theorem Keeps.eigenvalueSum_eq {top : ℕ} {s s' : RealSchur ℝ n} (h : Keeps (·.val < top) s s') :
    eigenvalueSum top s' = eigenvalueSum top s := by
  have hsplit (t : RealSchur ℝ n) : eigenvalueSum top t = diagonalSum (·.val < top) t.form +
      ∑ i : Fin n, if i.val < top then t.shift else t.re i := by
    rw [eigenvalueSum, diagonalSum, ← Finset.sum_add_distrib]
    refine Finset.sum_congr rfl fun i _ ↦ ?_
    split
    case isTrue => rfl
    case isFalse => rw [zero_add]
  rw [hsplit, hsplit, h.diagonal, h.shift, h.re]

variable [DivisionByZero]

theorem eigenvalueSum_moveOrigin (b : Fin n) (x : ℝ) (s : RealSchur ℝ n) :
    eigenvalueSum (b + 1) (s.moveOrigin b x) = eigenvalueSum (b + 1) s := by
  refine Finset.sum_congr rfl fun i _ ↦ ?_
  rw [moveOrigin, Grid.ofFn_apply]
  split
  case isTrue hi =>
    rw [if_pos ⟨rfl, Fin.le_def.2 (Nat.le_of_lt_succ hi)⟩]
    ring
  case isFalse => rfl

theorem nextShift_eq (done : ℕ) (c a b : Fin n) (s : RealSchur ℝ n) :
    (s.nextShift done c a b).2.2 = s ∨ ∃ x, (s.nextShift done c a b).2.2 = s.moveOrigin b x := by
  rw [nextShift]
  split
  case isTrue => exact Or.inr ⟨_, rfl⟩
  case isFalse =>
    split
    case isTrue =>
      split
      case h_1 x _ => exact Or.inr ⟨x, rfl⟩
      case h_2 => exact Or.inl rfl
    case isFalse => exact Or.inl rfl

/-- Neither a sweep, nor a shift, nor the way in which a block is settled changes the trace. -/
theorem sum_re_of_settle {config : EigenConfig} {norm : ℝ} {top : ℕ} {ht : top ≤ n} {done : ℕ}
    {s s' : RealSchur ℝ n} (h : (settle config norm top ht done s).outcome = .ok s') :
    ∑ i, s'.re i = eigenvalueSum top s := by
  have hzero : eigenvalueSum 0 s' = eigenvalueSum top s := by
    refine settle_invariant (P := fun t r ↦ eigenvalueSum t r = eigenvalueSum top s)
      (fun b r hr _ ↦ ?_) (fun a b r hr _ hab ↦ ?_) (fun done c a b r hr ↦ ?_)
      (fun b l hl t r hr ↦ ?_) rfl h
    · rw [eigenvalueSum_deflateOne, hr]
    · have hne : a ≠ b := fun heq ↦ by
        rw [heq] at hab
        omega
      rw [(deflatePair_settles hne r).eigenvalueSum_eq hab, hr]
    · obtain h | ⟨x, h⟩ := nextShift_eq done c a b r
      · rw [h, hr]
      · rw [h, eigenvalueSum_moveOrigin, hr]
    · rw [(sweep_keeps (fun i ↦ Nat.lt_succ_of_le) hl t r).eigenvalueSum_eq, hr]
  rw [← hzero, eigenvalueSum_zero]

def FirstNonneg (s : RealSchur ℝ n) : Prop := ∀ i : Fin n, i.val = 0 → 0 ≤ s.im i

theorem firstNonneg_ofHessenberg (form basis : Grid ℝ n n) :
    (ofHessenberg form basis).FirstNonneg := fun i _ ↦ by
  rw [ofHessenberg, Tuple.fill_apply]

theorem firstNonneg_splitPair {s : RealSchur ℝ n} (h : s.FirstNonneg) (a b : Fin n) (z w : ℝ) :
    (s.splitPair a b z w).FirstNonneg := fun i hi ↦ by
  rw [splitPair, Tuple.set_apply, Tuple.set_apply]
  split
  case isTrue => exact le_rfl
  case isFalse =>
    split
    case isTrue => exact le_rfl
    case isFalse => exact h i hi

theorem firstNonneg_deflatePair {s : RealSchur ℝ n} (h : s.FirstNonneg) {a b : Fin n}
    (hab : a.val + 1 = b) : (s.deflatePair a b).FirstNonneg := by
  rw [deflatePair]
  split
  case isTrue => exact firstNonneg_splitPair h a b _ _
  case isFalse =>
    intro i hi
    have hib : i ≠ b := fun heq ↦ by
      rw [← heq] at hab
      omega
    rw [Tuple.set_apply, if_neg hib, Tuple.set_apply]
    split
    case isTrue => exact Real.sqrt_nonneg _
    case isFalse => exact h i hi

theorem firstNonneg_settle {config : EigenConfig} {norm : ℝ} {top : ℕ} {ht : top ≤ n} {done : ℕ}
    {s s' : RealSchur ℝ n} (hs : s.FirstNonneg)
    (h : (settle config norm top ht done s).outcome = .ok s') : s'.FirstNonneg := by
  refine settle_invariant (P := fun _ r ↦ r.FirstNonneg)
    (fun b r hr _ ↦ ?_) (fun a b r hr _ hab ↦ ?_) (fun done c a b r hr ↦ ?_)
    (fun b l hl t r hr ↦ ?_) hs h
  · intro i hi
    rw [deflateOne, Tuple.set_apply]
    split
    case isTrue => exact le_rfl
    case isFalse => exact hr i hi
  · exact firstNonneg_deflatePair hr hab
  · obtain h | ⟨x, h⟩ := nextShift_eq done c a b r
    · rwa [h]
    · rwa [h]
  · rwa [FirstNonneg, (sweep_keeps (S := (·.val ≤ b)) (fun _ h ↦ h) hl t r).im]

theorem eigenvalueSum_ofHessenberg (form basis : Grid ℝ n n) :
    eigenvalueSum n (ofHessenberg form basis) = diagonalSum (fun _ ↦ True) form := by
  refine Finset.sum_congr rfl fun i _ ↦ ?_
  rw [if_pos i.isLt, if_pos trivial]
  exact add_zero _

end DenseDecomp.RealSchur
