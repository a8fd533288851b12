import Mathlib.Data.Real.Basic
import DenseDecomp.Cholesky.Decomposition
import DenseDecomp.Proofs.Cholesky.PositiveDefinite
import DenseDecomp.Proofs.MatrixStorage

namespace DenseDecomp.Cholesky

open Matrix

section Generic

variable {α : Type} {n : ℕ}

theorem outcome_report (n : ℕ) (isSpd : Bool) (c : Cholesky α) :
    (do
      if isSpd then pure () else Run.emit (.notPositiveDefinite n)
      return c : Run (Failure α) (Cholesky α)).outcome = .ok c := by
  cases isSpd with
  | false => rfl
  | true => rfl

theorem decompose_ofGrid_eq_ok_iff [Scalar α] {g : Grid α n n} {c : Cholesky α} :
    (decompose (.ofGrid g)).outcome = .ok c ↔
      (0 < n ∧ Size.entryBytes * (n * n) < Size.byteBound) ∧
        ⟨.ofGrid (CholeskyFactor.factor g), CholeskyFactor.isPositiveDefinite g⟩ = c := by
  have hgrid : (DenseMatrix.ofGrid g).toGrid n n = .ok g := DenseMatrix.toGrid_ofGrid g
  have hsquare : (DenseMatrix.ofGrid g).rows = (DenseMatrix.ofGrid g).cols := rfl
  rw [decompose, if_pos hsquare, Run.outcome_bind_eq_ok]
  constructor
  · rintro ⟨_, hsize, h⟩
    obtain ⟨g', hg, h⟩ := Run.outcome_bind_eq_ok.1 h
    obtain ⟨hn, -, hfits⟩ := DenseMatrix.allocate_eq_ok_iff.1 hsize
    obtain rfl : g = g' := Except.ok.inj (hgrid.symm.trans hg)
    exact ⟨⟨hn, hfits⟩, Except.ok.inj ((outcome_report _ _ _).symm.trans h)⟩
  · rintro ⟨⟨hn, hfits⟩, rfl⟩
    refine ⟨(), DenseMatrix.allocate_eq_ok_iff.2 ⟨hn, hn, hfits⟩, ?_⟩
    exact Run.outcome_bind_eq_ok.2 ⟨_, hgrid, outcome_report _ _ _⟩

end Generic

variable [DivisionByZero] {n : ℕ} {A : Matrix (Fin n) (Fin n) ℝ} {c : Cholesky ℝ}

theorem decompose_eq_ok_iff :
    (decompose (.ofMatrix A)).outcome = .ok c ↔
      (0 < n ∧ Size.entryBytes * (n * n) < Size.byteBound) ∧
        (⟨.ofGrid (CholeskyFactor.factor (.ofMatrix A)),
          CholeskyFactor.isPositiveDefinite (.ofMatrix A)⟩ : Cholesky ℝ) = c :=
  decompose_ofGrid_eq_ok_iff

/-- The flag decides positive definiteness, and what comes with it is the one triangular factor. -/
theorem decompose_spec (A : Matrix (Fin n) (Fin n) ℝ) :
    (0 < n → Size.entryBytes * (n * n) < Size.byteBound →
      ∃ c, (decompose (.ofMatrix A)).outcome = .ok c) ∧
    ∀ c, (decompose (.ofMatrix A)).outcome = .ok c →
      (c.isSpd = true ↔ A.IsSymm ∧ ∀ x : Fin n → ℝ, x ≠ 0 → 0 < x ⬝ᵥ A *ᵥ x) ∧
      (c.isSpd = true → ∃ L, c.factor = .ofMatrix L ∧ IsCholeskyFactor A L ∧
        ∀ L', IsCholeskyFactor A L' → L' = L) := by
  refine ⟨fun hn hfits ↦ ⟨_, decompose_eq_ok_iff.2 ⟨⟨hn, hfits⟩, rfl⟩⟩, fun c hc ↦ ?_⟩
  obtain ⟨-, rfl⟩ := decompose_eq_ok_iff.1 hc
  have hfactor := CholeskyFactor.isCholeskyFactor_of_isPositiveDefinite (A := A)
  refine ⟨⟨fun h ↦ ?_, fun h ↦ CholeskyFactor.isPositiveDefinite_of_dotProduct_pos h.1 h.2⟩,
    fun h ↦ ?_⟩
  · exact ⟨(hfactor h).isSymm, fun x ↦ (hfactor h).dotProduct_pos⟩
  · exact ⟨_, DenseMatrix.ofGrid_eq_ofMatrix _, hfactor h, fun L' ↦ (hfactor h).unique⟩

omit [DivisionByZero] in
theorem isCholeskyFactor_three :
    IsCholeskyFactor (!![4, 12, -16; 12, 37, -43; -16, -43, 98] : Matrix (Fin 3) (Fin 3) ℝ)
      !![2, 0, 0; 6, 1, 0; -8, 5, 3] := by
  refine ⟨fun i j hij ↦ ?_, fun i ↦ ?_, ?_⟩
  · fin_cases i <;> fin_cases j <;> first | rfl | exact absurd hij (by decide)
  · fin_cases i <;> simp
  · ext i j
    fin_cases i <;> fin_cases j <;> simp [Matrix.mul_apply, Fin.sum_univ_three] <;> norm_num

omit [DivisionByZero] in
theorem decompose_spec_three :
    letI : DivisionByZero := ⟨fun _ ↦ 0⟩
    ∃ c, (decompose (.ofMatrix !![4, 12, -16; 12, 37, -43; -16, -43, 98])).outcome = .ok c ∧
      c.isSpd = true ∧ c.factor = .ofMatrix !![2, 0, 0; 6, 1, 0; -8, 5, 3] := by
  let : DivisionByZero := ⟨fun _ ↦ 0⟩
  have hL := isCholeskyFactor_three
  obtain ⟨hexists, hspec⟩ := decompose_spec !![4, 12, -16; 12, 37, -43; -16, -43, 98]
  obtain ⟨c, hc⟩ := hexists (by decide) (by decide)
  obtain ⟨hiff, hfactor⟩ := hspec c hc
  have hspd : c.isSpd = true := hiff.2 ⟨hL.isSymm, fun x ↦ hL.dotProduct_pos⟩
  obtain ⟨L, hcL, -, hunique⟩ := hfactor hspd
  exact ⟨c, hc, hspd, by rw [hcL, hunique _ hL]⟩

end DenseDecomp.Cholesky
