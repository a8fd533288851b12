import Mathlib.Data.Real.Basic
import DenseDecomp.Proofs.Cholesky.Decomposition
import DenseDecomp.Proofs.Cholesky.Substitution

namespace DenseDecomp.Cholesky

open Matrix

variable {n m : ℕ}

section Storage

variable {α : Type} [Scalar α]

/-- The shape of the right-hand side is looked at first, then the flag. -/
theorem solve_eq (l : Grid α n n) (isSpd : Bool) (b : DenseMatrix α) :
    solve ⟨.ofGrid l, isSpd⟩ b =
      if b.rows = n then
        if isSpd then do
          let x ← b.toGrid n b.cols
          .ok (.ofGrid (CholeskyFactor.substitute l x))
        else refuse .notPositiveDefinite
      else refuse (.dimensionMismatch n n b.rows b.cols) := by
  have hstored : ∀ f : Grid α n n → Outcome α (DenseMatrix α),
      ((DenseMatrix.ofGrid l).toGrid n n >>= f) = f l := by
    intro f
    rw [DenseMatrix.toGrid_ofGrid]
    rfl
  refine if_congr Iff.rfl (if_congr Iff.rfl ?_ rfl) rfl
  exact hstored fun l ↦ b.toGrid n b.cols >>= fun x ↦
    .ok (.ofGrid (CholeskyFactor.substitute l x))

theorem solve_ofGrid (l : Grid α n n) (b : Grid α n m) :
    solve ⟨.ofGrid l, true⟩ (.ofGrid b) = .ok (.ofGrid (CholeskyFactor.substitute l b)) := by
  rw [solve_eq]
  refine (if_pos rfl).trans ((if_pos rfl).trans ?_)
  exact Except.bind_eq_ok.2 ⟨b, DenseMatrix.toGrid_ofGrid b, rfl⟩

theorem solveVector_ofFn (l : Grid α n n) (b : Fin n → α) (hn : 0 < n)
    (hfits : Size.entryBytes * (n * n) < Size.byteBound) :
    solveVector ⟨.ofGrid l, true⟩ (Array.ofFn b) =
      .ok (Array.ofFn fun i ↦
        CholeskyFactor.substitute l (Grid.ofFn fun i (_ : Fin 1) ↦ b i) i 0) := by
  have hcolumn : (⟨n, 1, Array.ofFn b⟩ : DenseMatrix α) =
      .ofGrid (Grid.ofFn fun i (_ : Fin 1) ↦ b i) := by
    have hdata := DenseMatrix.data_ofGrid_column (Grid.ofFn fun i (_ : Fin 1) ↦ b i)
    simp only [Grid.ofFn_apply] at hdata
    rw [← hdata]
    rfl
  have hmul : (Size.mul n 1 : Outcome α ℕ) = .ok n := by
    refine Size.mul_eq_ok_iff.2 ⟨?_, (mul_one n).symm⟩
    rw [mul_one]
    exact (Nat.le_mul_self n).trans_lt (Size.lt_wordBound hfits)
  have harray : (DenseMatrix.ofArray n 1 (Array.ofFn b) : Outcome α (DenseMatrix α)) =
      .ok (.ofGrid (Grid.ofFn fun i (_ : Fin 1) ↦ b i)) := by
    rw [← hcolumn]
    exact Except.bind_eq_ok.2 ⟨(), Size.checkShape_eq_ok_iff.2 ⟨hn, Nat.one_pos⟩,
      Except.bind_eq_ok.2 ⟨n, hmul, if_pos Array.size_ofFn⟩⟩
  refine (if_pos Array.size_ofFn).trans (Except.bind_eq_ok.2 ⟨_, harray,
    Except.bind_eq_ok.2 ⟨_, solve_ofGrid l _, ?_⟩⟩)
  rw [DenseMatrix.data_ofGrid_column]

theorem inverse_ofGrid (l : Grid α n n) (hn : 0 < n)
    (hfits : Size.entryBytes * (n * n) < Size.byteBound) :
    inverse ⟨.ofGrid l, true⟩ =
      .ok (.ofGrid (CholeskyFactor.substitute l (Grid.ofFn fun i j ↦ if i = j then 1 else 0))) := by
  refine Except.bind_eq_ok.2 ⟨.ofGrid (Grid.ofFn fun i j ↦ if i = j then 1 else 0), ?_,
    solve_ofGrid l _⟩
  exact Except.bind_eq_ok.2 ⟨(), DenseMatrix.allocate_eq_ok_iff.2 ⟨hn, hn, hfits⟩, rfl⟩

end Storage

section Exact

variable [DivisionByZero] {A : Matrix (Fin n) (Fin n) ℝ} {c : Cholesky ℝ}

theorem exists_factor (h : (decompose (.ofMatrix A)).outcome = .ok c) (hspd : c.isSpd = true) :
    ∃ l : Grid ℝ n n, c = ⟨.ofGrid l, true⟩ ∧ IsCholeskyFactor A l.toMatrix := by
  obtain ⟨-, rfl⟩ := decompose_eq_ok_iff.1 h
  exact ⟨_, congrArg _ hspd, CholeskyFactor.isCholeskyFactor_of_isPositiveDefinite hspd⟩

/-- With a positive definite matrix every right-hand side is solved. -/
theorem solve_spec (h : (decompose (.ofMatrix A)).outcome = .ok c) (hspd : c.isSpd = true) :
    (∀ (m : ℕ) (B : Matrix (Fin n) (Fin m) ℝ),
      ∃ X : Matrix (Fin n) (Fin m) ℝ, c.solve (.ofMatrix B) = .ok (.ofMatrix X) ∧ A * X = B) ∧
    (∀ b : Fin n → ℝ, ∃ x, c.solveVector (Array.ofFn b) = .ok (Array.ofFn x) ∧ A *ᵥ x = b) ∧
    ∃ Y : Matrix (Fin n) (Fin n) ℝ, c.inverse = .ok (.ofMatrix Y) ∧ A * Y = 1 ∧ Y * A = 1 := by
  obtain ⟨⟨hn, hfits⟩, -⟩ := decompose_eq_ok_iff.1 h
  obtain ⟨l, rfl, hl⟩ := exists_factor h hspd
  refine ⟨fun m B ↦ ?_, fun b ↦ ?_, ?_⟩
  · refine ⟨(CholeskyFactor.substitute l (.ofMatrix B)).toMatrix, ?_, ?_⟩
    · rw [← DenseMatrix.ofGrid_eq_ofMatrix]
      exact solve_ofGrid l (.ofMatrix B)
    · rw [CholeskyFactor.mul_substitute hl, Grid.toMatrix_ofMatrix]
  · refine ⟨_, solveVector_ofFn l b hn hfits, ?_⟩
    have hmul := CholeskyFactor.mul_substitute hl (Grid.ofFn fun i (_ : Fin 1) ↦ b i)
    funext i
    have hentry := congrFun (congrFun hmul i) 0
    rw [Matrix.mul_apply, Grid.toMatrix_apply, Grid.ofFn_apply] at hentry
    exact hentry
  · have hone : (Grid.ofFn fun i j : Fin n ↦ if i = j then (1 : ℝ) else 0).toMatrix = 1 := by
      ext i j
      rw [Grid.toMatrix_apply, Grid.ofFn_apply, one_apply]
    have hmul := CholeskyFactor.mul_substitute hl (Grid.ofFn fun i j : Fin n ↦ if i = j then 1 else 0)
    rw [hone] at hmul
    refine ⟨_, ?_, hmul, mul_eq_one_comm.1 hmul⟩
    rw [inverse_ofGrid l hn hfits, DenseMatrix.ofGrid_eq_ofMatrix]

omit [DivisionByZero] in
theorem solve_spec_three :
    letI : DivisionByZero := ⟨fun _ ↦ 0⟩
    ∃ (c : Cholesky ℝ) (x : Fin 3 → ℝ),
      (decompose (.ofMatrix !![4, 12, -16; 12, 37, -43; -16, -43, 98])).outcome = .ok c ∧
      c.isSpd = true ∧ c.solveVector (Array.ofFn ![0, 6, 39]) = .ok (Array.ofFn x) ∧
      !![4, 12, -16; 12, 37, -43; -16, -43, 98] *ᵥ x = ![0, 6, 39] := by
  let : DivisionByZero := ⟨fun _ ↦ 0⟩
  have hL := isCholeskyFactor_three
  have hspd := CholeskyFactor.isPositiveDefinite_of_isCholeskyFactor hL
  have hc : (decompose (.ofMatrix !![4, 12, -16; 12, 37, -43; -16, -43, 98])).outcome = .ok _ :=
    decompose_eq_ok_iff.2 ⟨⟨by decide, by decide⟩, rfl⟩
  obtain ⟨-, hvector, -⟩ := solve_spec hc hspd
  obtain ⟨x, hx, hAx⟩ := hvector ![0, 6, 39]
  exact ⟨_, x, hc, hspd, hx, hAx⟩

end Exact

end DenseDecomp.Cholesky
