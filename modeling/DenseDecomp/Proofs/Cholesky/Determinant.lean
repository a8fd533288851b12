import Mathlib.Data.Real.Basic
import Mathlib.LinearAlgebra.Matrix.Determinant.Basic
import DenseDecomp.Proofs.Cholesky.Solve
import DenseDecomp.Proofs.MatrixEntries

namespace DenseDecomp

open Matrix

variable {n : ℕ}

section Product

/-- Factors that are multiplied to a start value one at a time. -/
theorem foldl_mul_square_eq_prod (f : Fin n → ℝ) (x : ℝ) :
    (Array.ofFn f).foldl (fun acc y ↦ acc * (y * y)) x = x * ∏ i, f i * f i := by
  rw [← Array.foldl_toList, Array.toList_ofFn]
  induction n generalizing x with
  | zero => simp
  | succ n ih => rw [List.ofFn_succ, List.foldl_cons, ih, Fin.prod_univ_succ, mul_assoc]

end Product

theorem IsCholeskyFactor.det_eq {A L : Matrix (Fin n) (Fin n) ℝ} (h : IsCholeskyFactor A L) :
    A.det = ∏ i, L i i * L i i :=
  calc
    A.det = L.det * L.det := by rw [← h.mul_transpose, det_mul, det_transpose]
    _ = (∏ i, L i i) * ∏ i, L i i := by rw [det_of_isLowerTriangular L h.lower]
    _ = ∏ i, L i i * L i i := Finset.prod_mul_distrib.symm

namespace Cholesky

section Diagonal

variable {α : Type} [Scalar α]

theorem determinant_of_not_isSpd {c : Cholesky α} (hspd : c.isSpd = false) :
    c.determinant = refuse .notPositiveDefinite := by
  rw [determinant, hspd]
  rfl

theorem determinant_ofGrid (l : Grid α n n) (hl : (DenseMatrix.ofGrid l).Held) :
    determinant ⟨.ofGrid l, true⟩ =
      .ok ((Array.ofFn fun i ↦ l i i).foldl (fun acc x ↦ acc * (x * x)) 1) := by
  have hentry : (fun i : Fin n ↦ (DenseMatrix.ofGrid l).entry i i) = fun i ↦ l i i := by
    funext i
    exact DenseMatrix.entry_ofGrid l i i
  have hdiagonal := hl.diagonal_eq rfl
  rw [← hentry, determinant, hdiagonal]
  rfl

end Diagonal

variable [DivisionByZero] {A : Matrix (Fin n) (Fin n) ℝ} {c : Cholesky ℝ}

theorem determinant_of_isSpd (h : (decompose (.ofMatrix A)).outcome = .ok c)
    (hspd : c.isSpd = true) : c.determinant = .ok A.det := by
  obtain ⟨⟨hn, hfits⟩, -⟩ := decompose_eq_ok_iff.1 h
  obtain ⟨l, rfl, hl⟩ := exists_factor h hspd
  rw [determinant_ofGrid l (DenseMatrix.held_ofGrid l hn hn hfits)]
  apply congrArg
  calc
    (Array.ofFn fun i ↦ l i i).foldl (fun acc x ↦ acc * (x * x)) 1 = 1 * ∏ i, l i i * l i i :=
      foldl_mul_square_eq_prod (fun i ↦ l i i) 1
    _ = A.det := by
      rw [one_mul, hl.det_eq]
      rfl

/-- A determinant is given for the positive definite matrices, and it is the signed sum over all
permutations. -/
theorem determinant_spec (A : Matrix (Fin n) (Fin n) ℝ) :
    (0 < n → Size.entryBytes * (n * n) < Size.byteBound →
      ∃ c, (decompose (.ofMatrix A)).outcome = .ok c) ∧
    ∀ c, (decompose (.ofMatrix A)).outcome = .ok c →
      ((∃ x, c.determinant = .ok x) ↔
        A.IsSymm ∧ ∀ x : Fin n → ℝ, x ≠ 0 → 0 < x ⬝ᵥ A *ᵥ x) ∧
      ∀ x, c.determinant = .ok x →
        x = ∑ σ : Equiv.Perm (Fin n), (Equiv.Perm.sign σ : ℝ) * ∏ i, A (σ i) i := by
  refine ⟨fun hn hfits ↦ ⟨_, decompose_eq_ok_iff.2 ⟨⟨hn, hfits⟩, rfl⟩⟩, fun c hc ↦ ?_⟩
  obtain ⟨-, hflag⟩ := decompose_eq_ok_iff.1 hc
  have hspd : c.isSpd = CholeskyFactor.isPositiveDefinite (.ofMatrix A) :=
    congrArg Cholesky.isSpd hflag.symm
  cases h : c.isSpd with
  | false =>
    have hrefused := determinant_of_not_isSpd h
    refine ⟨⟨?_, ?_⟩, ?_⟩
    · rintro ⟨x, hx⟩
      exact nomatch hrefused.symm.trans hx
    · rintro ⟨hA, hpos⟩
      have hflag := CholeskyFactor.isPositiveDefinite_of_dotProduct_pos hA hpos
      exact nomatch h.symm.trans (hspd.trans hflag)
    · intro x hx
      exact nomatch hrefused.symm.trans hx
  | true =>
    have hdet := determinant_of_isSpd hc h
    obtain ⟨l, -, hl⟩ := exists_factor hc h
    refine ⟨⟨fun _ ↦ ⟨hl.isSymm, fun x ↦ hl.dotProduct_pos⟩, fun _ ↦ ⟨_, hdet⟩⟩, ?_⟩
    intro x hx
    rw [← Except.ok.inj (hdet.symm.trans hx)]
    exact det_apply' A

omit [DivisionByZero] in
theorem determinant_spec_three :
    letI : DivisionByZero := ⟨fun _ ↦ 0⟩
    ∃ c, (decompose (.ofMatrix !![4, 12, -16; 12, 37, -43; -16, -43, 98])).outcome = .ok c ∧
      c.determinant = .ok 36 := by
  let : DivisionByZero := ⟨fun _ ↦ 0⟩
  obtain ⟨hexists, hspec⟩ := determinant_spec !![4, 12, -16; 12, 37, -43; -16, -43, 98]
  obtain ⟨c, hc⟩ := hexists (by decide) (by decide)
  obtain ⟨hiff, hsum⟩ := hspec c hc
  have hL := isCholeskyFactor_three
  obtain ⟨x, hx⟩ := hiff.2 ⟨hL.isSymm, fun x ↦ hL.dotProduct_pos⟩
  have hx₃₆ : x = 36 := by
    rw [hsum x hx, ← det_apply', hL.det_eq, Fin.prod_univ_three]
    simp
    norm_num
  exact ⟨c, hc, hx₃₆ ▸ hx⟩

end Cholesky

end DenseDecomp
