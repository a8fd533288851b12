import DenseDecomp.Failure

namespace DenseDecomp

structure EigenConfig where
  maxIterations : Option UInt32
deriving DecidableEq

namespace EigenConfig

def unlimited : EigenConfig := ⟨none⟩

instance : Inhabited EigenConfig := ⟨unlimited⟩

def withMaxIterations (_ : EigenConfig) (k : UInt32) : EigenConfig := ⟨some k⟩

def withoutIterationLimit (_ : EigenConfig) : EigenConfig := ⟨none⟩

def counterBound : Nat := 0x100000000

/-- Goes on to one iteration more after `done` of them, unless the limit is reached. The failure
tells how much was left to annihilate. -/
def attempt {α β : Type} (c : EigenConfig) (done : Nat) (residual : α) (fail : Failure α → β)
    (next : done + 1 < counterBound → β) : β :=
  if h : done + 1 < counterBound then
    match c.maxIterations with
    | some k => if k.toNat ≤ done then fail (.error (.convergenceFailed k residual)) else next h
    | none => next h
  else fail (.fault .addOverflow)

end EigenConfig

end DenseDecomp
