namespace DenseDecomp

inductive Event where
  | notPositiveDefinite (size : Nat)
  | symmetricInput (size : Nat)
  | generalInput (size : Nat)
  | sweepsDone (index sweeps : Nat)
  | realRoot (index iterations : Nat)
  | rootPair (first iterations : Nat)
  | exceptionalShift (index : Nat)
  | secondExceptionalShift (index : Nat)
deriving DecidableEq

def Event.text : Event → String
  | .notPositiveDefinite n => s!"DEBUG Cholesky: {n}x{n} input is not symmetric positive definite"
  | .symmetricInput n => s!"DEBUG Eigen: {n}x{n} symmetric input, tridiagonal QL"
  | .generalInput n => s!"DEBUG Eigen: {n}x{n} nonsymmetric input, Hessenberg QR"
  | .sweepsDone i k => s!"TRACE QL: eigenvalue {i} converged after {k} sweeps"
  | .realRoot i k => s!"TRACE QR: real eigenvalue {i} after {k} iterations"
  | .rootPair i k => s!"TRACE QR: eigenvalue pair {i}..={i + 1} after {k} iterations"
  | .exceptionalShift i => s!"TRACE QR: exceptional shift at index {i}"
  | .secondExceptionalShift i => s!"TRACE QR: second exceptional shift at index {i}"

/-- A computation together with the events it reported; a failure keeps those that came before. -/
structure Run (ε β : Type) where
  log : List Event
  outcome : Except ε β

namespace Run

variable {ε δ β γ : Type}

def bind (r : Run ε β) (f : β → Run ε γ) : Run ε γ :=
  match r.outcome with
  | .ok b => ⟨r.log ++ (f b).log, (f b).outcome⟩
  | .error e => ⟨r.log, .error e⟩

instance : Monad (Run ε) where
  pure b := ⟨[], .ok b⟩
  bind := bind

def ofOutcome (x : Except ε β) : Run ε β := ⟨[], x⟩

def emit (e : Event) : Run ε Unit := ⟨[e], .ok ()⟩

def after (events : List Event) (r : Run ε β) : Run ε β := ⟨events ++ r.log, r.outcome⟩

def mapError (f : ε → δ) (r : Run ε β) : Run δ β := ⟨r.log, r.outcome.mapError f⟩

theorem bind_of_ok {r : Run ε β} {f : β → Run ε γ} {b : β} (h : r.outcome = .ok b) :
    r >>= f = ⟨r.log ++ (f b).log, (f b).outcome⟩ := by
  change bind r f = _
  simp only [bind, h]

theorem bind_of_error {r : Run ε β} {f : β → Run ε γ} {e : ε} (h : r.outcome = .error e) :
    r >>= f = ⟨r.log, .error e⟩ := by
  change bind r f = _
  simp only [bind, h]

end Run

end DenseDecomp
