import DenseDecomp.Eigen.Config
import DenseDecomp.RealSchur.Sweep

namespace DenseDecomp.RealSchur

open Scalar

variable {α : Type} [Scalar α] {n : Nat}

/-- Settles the rows below `top`, from the last one up: a block of one or two rows at once, a larger
one after further sweeps. `done` counts the sweeps since the last root. -/
def settle (config : EigenConfig) (norm : α) (top : Nat) (ht : top ≤ n) (done : Nat)
    (s : RealSchur α n) : Run (Failure α) (RealSchur α n) :=
  if h₀ : top = 0 then pure s
  else
    let b : Fin n := ⟨top - 1, by omega⟩
    let l := blockStart norm s.form b b.isLt
    have hl : l ≤ b := blockStart_le norm s.form b b.isLt
    if h₁ : l = b then
      (settle config norm (top - 1) (by omega) 0 (s.deflateOne b)).after [.realRoot b done]
    else if h₂ : l + 1 = b then
      (settle config norm (top - 2) (by omega) 0 (s.deflatePair ⟨l, by omega⟩ b)).after
        [.rootPair l done]
    else
      let a : Fin n := ⟨b - 1, by omega⟩
      let (events, t, s) := s.nextShift done ⟨b - 2, by omega⟩ a b
      config.attempt done (abs (s.form b a)) (fun e ↦ ⟨events, .error e⟩) fun _ ↦
        (settle config norm top ht (done + 1) (s.sweep l b.isLt (by omega) t)).after events
termination_by top * (EigenConfig.counterBound + 1) + (EigenConfig.counterBound - done)
decreasing_by all_goals
  simp only [EigenConfig.counterBound] at *
  omega

end DenseDecomp.RealSchur
