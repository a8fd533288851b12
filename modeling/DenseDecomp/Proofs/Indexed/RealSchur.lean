import Mathlib.Data.Real.Basic
import DenseDecomp.RealSchur.Iteration
import DenseDecomp.Proofs.Indexed.Deflation
import DenseDecomp.Proofs.Indexed.DoubleSweep

namespace DenseDecomp.Indexed

open Scalar

variable {α : Type} [Scalar α] {n : ℕ}

def settleRows (config : EigenConfig) (norm : α) (top done : ℕ) (s : RealSchur α n) :
    Run (Failure α) (RealSchur α n) :=
  if top = 0 then pure s
  else do
    let b ← Run.ofOutcome (Size.sub top 1)
    let l ← Run.ofOutcome (startSearch norm s.form b)
    if l = b then
      let s ← Run.ofOutcome (deflateOne b s)
      Run.emit (.realRoot b done)
      settleRows config norm (top - 1) 0 s
    else if l + 1 = b then
      let (a, s) ← Run.ofOutcome (deflatePair b s)
      Run.emit (.rootPair a done)
      let _ ← Run.ofOutcome (Size.sub top 2)
      settleRows config norm (top - 2) 0 s
    else
      let (events, t, s) ← Run.ofOutcome (nextShift done b s)
      let corner ← Run.ofOutcome (do s.form.read b (← Size.sub b 1))
      config.attempt done (abs corner) (fun e ↦ ⟨events, .error e⟩) fun _ ↦
        (Run.ofOutcome (doubleSweep l b t s) >>= fun s ↦
          settleRows config norm top (done + 1) s).after events
termination_by top * (EigenConfig.counterBound + 1) + (EigenConfig.counterBound - done)
decreasing_by all_goals
  simp only [EigenConfig.counterBound] at *
  omega

variable {config : EigenConfig} {norm : α}

omit [Scalar α] in
theorem emit_bind {β : Type} (e : Event) (r : Run (Failure α) β) :
    (Run.emit e >>= fun _ ↦ r) = r.after [e] := rfl

/-- No step leaves the matrix or the lists of eigenvalues, however many sweeps there are. -/
theorem settleRows_eq (hn : n + 3 < Size.wordBound) (top : ℕ) (ht : top ≤ n) (done : ℕ)
    (s : RealSchur α n) :
    settleRows config norm top done s = s.settle config norm top ht done := by
  fun_induction RealSchur.settle config norm top ht done s with
  | case1 done s ht => rw [settleRows, if_pos rfl]
  | case2 top ht done s h₀ b l hl hlb ih =>
    have hsub : (Size.sub top 1 : Outcome α ℕ) = .ok b := Size.sub_of_le (by omega)
    have hsearch : startSearch norm s.form b = .ok l := startSearch_eq b b.isLt
    rw [settleRows, if_neg h₀, hsub, Run.ofOutcome_ok_bind, hsearch, Run.ofOutcome_ok_bind,
      if_pos hlb, deflateOne_eq, Run.ofOutcome_ok_bind, emit_bind, ih]
  | case3 top ht done s h₀ b l hl h₁ hlb ih =>
    have hsub : (Size.sub top 1 : Outcome α ℕ) = .ok b := Size.sub_of_le (by omega)
    have htwo : (Size.sub top 2 : Outcome α ℕ) = .ok (top - 2) := by
      have hb : b.val = top - 1 := rfl
      exact Size.sub_of_le (by omega)
    have hsearch : startSearch norm s.form b = .ok l := startSearch_eq b b.isLt
    have hpair : deflatePair b s = .ok (l, s.deflatePair ⟨l, by omega⟩ b) :=
      deflatePair_eq (a := ⟨l, by omega⟩) hlb
    rw [settleRows, if_neg h₀, hsub, Run.ofOutcome_ok_bind, hsearch, Run.ofOutcome_ok_bind,
      if_neg h₁, if_pos hlb, hpair, Run.ofOutcome_ok_bind]
    simp only
    rw [htwo, Run.ofOutcome_ok_bind, emit_bind, ih]
  | case4 top ht done s h₀ b l hl h₁ h₂ a events t s₁ hshifted ih =>
    have hsub : (Size.sub top 1 : Outcome α ℕ) = .ok b := Size.sub_of_le (by omega)
    have ha : (Size.sub b 1 : Outcome α ℕ) = .ok a := Size.sub_of_le (by omega)
    have hsearch : startSearch norm s.form b = .ok l := startSearch_eq b b.isLt
    have hab : a.val + 1 = b.val := Nat.sub_add_cancel (by omega)
    have hca : (⟨b - 2, by omega⟩ : Fin n).val + 1 = a.val :=
      show b.val - 2 + 1 = b.val - 1 by omega
    have hshift : nextShift done b s = .ok (events, t, s₁) := by
      rw [nextShift_eq done hab hca, hshifted]
    rw [settleRows, if_neg h₀, hsub, Run.ofOutcome_ok_bind, hsearch, Run.ofOutcome_ok_bind,
      if_neg h₁, if_neg h₂, hshift, Run.ofOutcome_ok_bind]
    simp only
    rw [ha, Outcome.ok_bind, Grid.read_fin, Run.ofOutcome_ok_bind]
    refine congrArg _ (funext fun hd ↦ ?_)
    rw [doubleSweep_eq hn b.isLt (by omega), Run.ofOutcome_ok_bind, ih hd]

end DenseDecomp.Indexed
