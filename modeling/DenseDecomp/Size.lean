import DenseDecomp.Failure

namespace DenseDecomp.Size

variable {α : Type}

def wordBound : Nat := 0x10000000000000000

def byteBound : Nat := 0x8000000000000000

def entryBytes : Nat := 8

def mul (a b : Nat) : Outcome α Nat :=
  if a * b < wordBound then .ok (a * b) else abort .multiplyOverflow

def add (a b : Nat) : Outcome α Nat :=
  if a + b < wordBound then .ok (a + b) else abort .addOverflow

def reserve (length : Nat) : Outcome α Unit :=
  if entryBytes * length < byteBound then .ok () else abort .capacityOverflow

def checkShape (rows cols : Nat) : Outcome α Unit :=
  if rows = 0 ∨ cols = 0 then refuse (.invalidDimensions rows cols) else .ok ()

/-- The length of a buffer that can be reserved is a word. -/
theorem lt_wordBound {length : Nat} (h : entryBytes * length < byteBound) : length < wordBound := by
  rw [entryBytes, byteBound] at h
  rw [wordBound]
  omega

theorem mul_eq_ok_iff {a b k : Nat} :
    (mul a b : Outcome α Nat) = .ok k ↔ a * b < wordBound ∧ k = a * b := by
  by_cases h : a * b < wordBound
  · simp [mul, h, eq_comm]
  · simp [mul, abort, h]

theorem checkShape_eq_ok_iff {rows cols : Nat} :
    (checkShape rows cols : Outcome α Unit) = .ok () ↔ 0 < rows ∧ 0 < cols := by
  by_cases h : rows = 0 ∨ cols = 0
  · simp only [checkShape, refuse, h, if_true, reduceCtorEq, false_iff]
    omega
  · simp only [checkShape, h, if_false, true_iff]
    omega

end DenseDecomp.Size
