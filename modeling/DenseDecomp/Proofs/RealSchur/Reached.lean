import DenseDecomp.Proofs.IterationLimit
import DenseDecomp.Proofs.RealSchur.SweepSteps

namespace DenseDecomp.RealSchur

open Scalar

variable {α : Type} [Scalar α] {n : ℕ}

/-- The active block of the rows `l, …, b`, with `c` and `a` before the last one, is too large to be
settled at once. -/
structure Block (norm : α) (s : RealSchur α n) (l : ℕ) (c a b : Fin n) : Prop where
  before : c.val + 1 = a.val
  last : a.val + 1 = b.val
  start : blockStart norm s.form b b.isLt = l
  rows : l + 2 ≤ b.val

def iterate (done l : ℕ) (c a b : Fin n) (hl : l + 2 ≤ b.val) (s : RealSchur α n) :
    RealSchur α n :=
  (s.nextShift done c a b).2.2.sweep l b.isLt hl (s.nextShift done c a b).2.1

/-- The states that a run from `s₀` goes through: the rows below `top` are settled, and `done`
iterations were made on those that are left. -/
inductive Reached (config : EigenConfig) (norm : α) (s₀ : RealSchur α n) :
    ℕ → ℕ → RealSchur α n → Prop
  | start : Reached config norm s₀ n 0 s₀
  | single {b : Fin n} {done : ℕ} {s : RealSchur α n} (h : Reached config norm s₀ (b + 1) done s)
      (hl : blockStart norm s.form b b.isLt = b) : Reached config norm s₀ b 0 (s.deflateOne b)
  | pair {a b : Fin n} {done : ℕ} {s : RealSchur α n} (h : Reached config norm s₀ (b + 1) done s)
      (hab : a.val + 1 = b.val) (hl : blockStart norm s.form b b.isLt = a) :
      Reached config norm s₀ a 0 (s.deflatePair a b)
  | sweep {c a b : Fin n} {l done : ℕ} {s : RealSchur α n}
      (h : Reached config norm s₀ (b + 1) done s) (hblock : Block norm s l c a b)
      (hallows : config.Allows done) :
      Reached config norm s₀ (b + 1) (done + 1) (s.iterate done l c a b hblock.rows)

variable {config : EigenConfig} {norm : α} {s₀ s : RealSchur α n} {l top done : ℕ} {c a b : Fin n}

theorem Block.settle_eq (h : Block norm s l c a b) (hallows : config.Allows done) :
    settle config norm (b + 1) b.isLt done s =
      (settle config norm (b + 1) b.isLt (done + 1) (s.iterate done l c a b h.rows)).after
        (s.nextShift done c a b).1 := by
  rw [settle_of_block rfl h.before h.last h.start h.rows]
  exact EigenConfig.attempt_of_allows hallows

theorem Block.settle_of_exhausted (h : Block norm s l c a b) {k : UInt32}
    (hk : config.maxIterations = some k) (hbound : done + 1 < EigenConfig.counterBound)
    (hle : k.toNat ≤ done) : (settle config norm (b + 1) b.isLt done s).outcome =
      .error (.error (.convergenceFailed k (abs ((s.nextShift done c a b).2.2.form b a)))) := by
  rw [settle_of_block rfl h.before h.last h.start h.rows,
    EigenConfig.attempt_of_exhausted hk hbound hle]

namespace Reached

theorem top_le (h : Reached config norm s₀ top done s) : top ≤ n := by
  cases h with
  | start => exact le_rfl
  | @single b => exact b.isLt.le
  | @pair a => exact a.isLt.le
  | @sweep c a b => exact b.isLt

theorem outcome_settle (h : Reached config norm s₀ top done s) :
    (settle config norm n le_rfl 0 s₀).outcome =
      (settle config norm top h.top_le done s).outcome := by
  induction h with
  | start => rfl
  | single h hl ih => rw [ih, settle_of_single rfl hl, Run.outcome_after]
  | pair h hab hl ih => rw [ih, settle_of_pair rfl hab hl, Run.outcome_after]
  | sweep h hblock hallows ih => rw [ih, hblock.settle_eq hallows, Run.outcome_after]

end Reached

end DenseDecomp.RealSchur
