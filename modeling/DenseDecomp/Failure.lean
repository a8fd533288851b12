namespace DenseDecomp

inductive Error (α : Type) where
  | invalidDimensions (rows cols : Nat)
  | dataLength (expected actual : Nat)
  | notSquare (rows cols : Nat)
  | dimensionMismatch (rows₁ cols₁ rows₂ cols₂ : Nat)
  | notPositiveDefinite
  | convergenceFailed (iterations : UInt32) (residual : α)

/-- A broken precondition: an index outside its range, or a size that does not fit its word. -/
inductive Fault where
  | indexOutOfBounds (i j rows cols : Nat)
  | rowOutOfBounds (i rows : Nat)
  | offsetOutOfBounds (offset length : Nat)
  | multiplyOverflow
  | addOverflow
  | subtractOverflow
  | capacityOverflow
deriving DecidableEq

inductive Failure (α : Type) where
  | error (e : Error α)
  | fault (f : Fault)

abbrev Outcome (α β : Type) := Except (Failure α) β

variable {α β : Type}

def refuse (e : Error α) : Outcome α β := .error (.error e)

def abort (f : Fault) : Outcome α β := .error (.fault f)

end DenseDecomp
