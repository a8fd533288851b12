import DenseDecomp.Proofs.Indexed.Exchange

namespace DenseDecomp

open DenseMatrix Scalar

variable {α : Type} [Scalar α] {a b : DenseMatrix α}

def DenseMatrix.innerProduct (a b : DenseMatrix α) (i j : ℕ) : α :=
  sumWhere (n := a.cols) (fun _ ↦ True) fun k ↦ a.entry i k * b.entry k j

namespace Indexed

def innerProduct (a b : DenseMatrix α) (i j : ℕ) : Outcome α α :=
  ascending 0 a.cols (fun acc k ↦ do return acc + (← a.get i k) * (← b.get k j)) 0

def multiply (a b : DenseMatrix α) : Outcome α (DenseMatrix α) :=
  if a.cols = b.rows then do
    let length ← Size.mul a.rows b.cols
    Size.reserve length
    ascending 0 a.rows (fun out i ↦ ascending 0 b.cols
      (fun out j ↦ do out.set i j (← innerProduct a b i j)) out)
      ⟨a.rows, b.cols, Array.replicate length 0⟩
  else refuse (.dimensionMismatch a.rows a.cols b.rows b.cols)

theorem innerProduct_eq (ha : a.Held) (hb : b.Held) (h : a.cols = b.rows) {i j : ℕ}
    (hi : i < a.rows) (hj : j < b.cols) :
    innerProduct a b i j = .ok (a.innerProduct b i j) := by
  refine ascending_sum le_rfl (fun k ↦ ?_) fun k acc _ ↦ ?_
  · exact ⟨fun _ ↦ ⟨Nat.zero_le _, k.isLt⟩, fun _ ↦ trivial⟩
  · rw [ha.get_eq hi k.isLt, hb.get_eq (h ▸ k.isLt) hj]
    rfl

theorem multiply_eq (ha : a.Held) (hb : b.Held) : multiply a b = a.multiply b := by
  rw [multiply, DenseMatrix.multiply]
  split
  case isFalse => rfl
  case isTrue h =>
    cases hlength : (Size.mul a.rows b.cols : Outcome α ℕ) with
    | error e => rfl
    | ok length =>
      obtain ⟨hlt, rfl⟩ := Size.mul_eq_ok_iff.1 hlength
      rw [Outcome.ok_bind, Outcome.ok_bind]
      cases hreserve : (Size.reserve (a.rows * b.cols) : Outcome α Unit) with
      | error e => rfl
      | ok _ =>
        have hshape : (Size.checkShape a.rows b.cols : Outcome α Unit) = .ok () :=
          Size.checkShape_eq_ok_iff.2 ⟨ha.rows_pos, hb.cols_pos⟩
        have halloc : (allocate a.rows b.cols : Outcome α Unit) = .ok () := by
          rw [allocate, hshape, Outcome.ok_bind, hlength, Outcome.ok_bind, hreserve]
        have hzeros := zeros_eq_filledUpTo (a.innerProduct b) halloc
        rw [zeros, halloc, Outcome.ok_bind] at hzeros
        rw [Outcome.ok_bind, Outcome.ok_bind, Except.ok.inj hzeros]
        exact fill_eq (innerProduct a b) hlt fun i hi j hj ↦ innerProduct_eq ha hb h hi hj

end Indexed

end DenseDecomp
