import Mathlib.Data.Real.Basic
import DenseDecomp.Proofs.DecompositionPath
import DenseDecomp.Proofs.ImplicitQL.Diagonalization
import DenseDecomp.Proofs.Sorting

namespace DenseDecomp

open Matrix Scalar

variable {n : ℕ} {config : EigenConfig}

section Symmetric

variable [DivisionByZero] {A : Matrix (Fin (n + 1)) (Fin (n + 1)) ℝ}

/-- What the spectrum of a symmetric matrix amounts to, up to the links that were neglected. -/
structure Spectrum.Diagonalizes (A : Matrix (Fin (n + 1)) (Fin (n + 1)) ℝ) (c : ℝ)
    (t : Spectrum ℝ (n + 1)) : Prop where
  approximates : Approximates A c t.vectors.toMatrix (diagonal t.re)
  ascending : Monotone t.re
  real : ∀ i, t.im i = 0

theorem Spectrum.diagonalizes_ofSymmetric (hA : A.IsSymm) {t : Spectrum ℝ (n + 1)}
    (h : (Spectrum.ofSymmetric config (.ofMatrix A)).outcome = .ok t) :
    ∃ s, (ImplicitQL.diagonalize config (.ofSymmetric (.ofMatrix A))).outcome = .ok s ∧
      t.Diagonalizes A (2 * n * (epsilon * s.magnitude)) := by
  obtain ⟨s, hs, rfl⟩ := Run.outcome_bind_pure_eq_ok.1 h
  have hsymm : (Grid.ofMatrix A).toMatrixᵀ = (Grid.ofMatrix A).toMatrix := by
    rw [Grid.toMatrix_ofMatrix, hA.eq]
  obtain ⟨hV, hconj⟩ := Tridiagonal.ofSymmetric_conj hsymm
  obtain ⟨happrox, hlink⟩ := ImplicitQL.diagonalize_approximates hV hconj hs
  obtain ⟨⟨σ, hσ⟩, hsorted⟩ := EigenPairs.sorted_sortAscending ⟨s.diag, s.basis⟩
  rw [Grid.toMatrix_ofMatrix] at happrox
  refine ⟨s, hs, ?_, ?_, hlink⟩
  · have hvectors : (EigenPairs.mk s.diag s.basis).sortAscending.vectors.toMatrix =
        s.basis.toMatrix.submatrix id σ := by
      ext i j
      exact hσ.vectors_eq i j
    have hvalues : (EigenPairs.mk s.diag s.basis).sortAscending.values.get = s.diag.get ∘ σ :=
      funext hσ.values_eq
    rw [hvectors, hvalues]
    exact happrox.rebase (Rebases.permute _ _ σ)
  · intro i j hij
    have hcomparable : (EigenPairs.mk s.diag s.basis).Comparable :=
      ⟨fun _ _ h ↦ h.asymm, fun _ _ _ h h' ↦ not_lt.2 ((not_lt.1 h).trans (not_lt.1 h'))⟩
    exact not_lt.1 (hsorted hcomparable i j i.isLt hij)

end Symmetric

namespace EigenDecomposition

variable [DivisionByZero] {A : Matrix (Fin (n + 1)) (Fin (n + 1)) ℝ} {x : EigenDecomposition ℝ}

theorem blockDiagonal_of_real {m : ℕ} (re im : Tuple ℝ m) (him : ∀ i, im i = 0) :
    (Spectrum.blockDiagonal re im).toMatrix = diagonal re := by
  ext i j
  simp only [Grid.toMatrix_apply, Spectrum.blockDiagonal, Grid.ofFn_apply, him, lt_irrefl, if_false,
    diagonal_apply]

/-- The decomposition of a symmetric matrix: orthogonal eigenvectors, and ascending eigenvalues. The
links that the sweeps neglect are the only error. -/
theorem decompose_symmetric_spec (hA : A.IsSymm)
    (h : (decompose config (.ofMatrix A)).outcome = .ok x) :
    ∃ (V : Matrix (Fin (n + 1)) (Fin (n + 1)) ℝ) (d : Fin (n + 1) → ℝ) (s : ImplicitQL ℝ (n + 1)),
      (ImplicitQL.diagonalize config (.ofSymmetric (.ofMatrix A))).outcome = .ok s ∧
      x.vectors = .ofMatrix V ∧ x.re = Array.ofFn d ∧ x.im = Array.ofFn (fun _ : Fin (n + 1) ↦ 0) ∧
      (Size.entryBytes * ((n + 1) * (n + 1)) < Size.byteBound →
        x.blockDiagonal = .ok (.ofMatrix (diagonal d))) ∧
      Vᵀ * V = 1 ∧ Monotone d ∧
      ∀ i j, |(A * V - V * diagonal d) i j| ≤ 2 * √2 * n * (2 ^ 52)⁻¹ * s.magnitude := by
  obtain ⟨t, ht, rfl⟩ := (decompose_eq_ok_iff_of_isSymm hA).1 h
  obtain ⟨s, hs, happrox, hmono, hreal⟩ := Spectrum.diagonalizes_ofSymmetric hA ht
  refine ⟨t.vectors.toMatrix, t.re, s, hs, DenseMatrix.ofGrid_eq_ofMatrix _,
    Tuple.toArray_eq_ofFn _, ?_, fun hfits ↦ ?_, mul_eq_one_comm.1 happrox.orthogonal, hmono,
    fun i j ↦ ?_⟩
  · exact (Tuple.toArray_eq_ofFn _).trans (congrArg _ (funext hreal))
  · rw [blockDiagonal_ofSpectrum _ _ hfits, DenseMatrix.ofGrid_eq_ofMatrix,
      blockDiagonal_of_real _ _ hreal]
  · have hle := happrox.eigenvectors_le i j
    calc
      |(A * t.vectors.toMatrix - t.vectors.toMatrix * diagonal t.re) i j|
          ≤ 2 * n * (epsilon * s.magnitude) := hle
      _ ≤ √2 * (2 * n * (epsilon * s.magnitude)) :=
        le_mul_of_one_le_left ((abs_nonneg _).trans hle) (Real.one_le_sqrt.2 one_le_two)
      _ = 2 * √2 * n * (2 ^ 52)⁻¹ * s.magnitude := by
        rw [epsilon_real]
        ring

omit [DivisionByZero] in
theorem decompose_symmetric_spec_two :
    letI : DivisionByZero := ⟨fun _ ↦ 0⟩
    let A : Matrix (Fin 2) (Fin 2) ℝ := !![2, 1; 1, 3]
    ∃ (x : EigenDecomposition ℝ) (V : Matrix (Fin 2) (Fin 2) ℝ) (d : Fin 2 → ℝ)
      (s : ImplicitQL ℝ 2),
      (decompose .unlimited (.ofMatrix A)).outcome = .ok x ∧
      (ImplicitQL.diagonalize .unlimited (.ofSymmetric (.ofMatrix A))).outcome = .ok s ∧
      x.vectors = .ofMatrix V ∧ x.re = Array.ofFn d ∧ x.im = Array.ofFn (fun _ : Fin 2 ↦ 0) ∧
      x.blockDiagonal = .ok (.ofMatrix (diagonal d)) ∧ Vᵀ * V = 1 ∧ Monotone d ∧
      ∀ i j, |(A * V - V * diagonal d) i j| ≤ 2 * √2 * 1 * (2 ^ 52)⁻¹ * s.magnitude := by
  let : DivisionByZero := ⟨fun _ ↦ 0⟩
  intro A
  have hA : A.IsSymm := by
    ext i j
    fin_cases i <;> fin_cases j <;> rfl
  obtain ⟨s, hs⟩ := ImplicitQL.exists_diagonalize_two (.ofSymmetric (.ofMatrix A))
  have hx : (decompose .unlimited (.ofMatrix A)).outcome = .ok _ :=
    (decompose_eq_ok_iff_of_isSymm hA).2
      ⟨_, Run.outcome_bind_pure_eq_ok.2 ⟨s, hs, rfl⟩, rfl⟩
  obtain ⟨V, d, s', hs', hV, hd, him, hblock, horthogonal, hmono, hbound⟩ :=
    decompose_symmetric_spec hA hx
  refine ⟨_, V, d, s', hx, hs', hV, hd, him, hblock (by decide), horthogonal, hmono,
    fun i j ↦ ?_⟩
  have hle := hbound i j
  rwa [Nat.cast_one] at hle

end EigenDecomposition

end DenseDecomp
