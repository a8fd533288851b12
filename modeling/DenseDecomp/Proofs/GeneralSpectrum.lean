import Mathlib.Data.Real.Basic
import DenseDecomp.Eigen.Spectrum
import DenseDecomp.Proofs.GridMatrix
import DenseDecomp.Proofs.HessenbergReduction
import DenseDecomp.Proofs.RealSchur.Iteration

namespace DenseDecomp

open Scalar

variable {n : ℕ} {config : EigenConfig}

namespace RealSchur.BackSubstitution

variable {α : Type} [Scalar α] {B : Blocks α n}

theorem exists_column {b : Fin n} (hb : b.val = 0 → ¬ B.im b < 0) (h : Grid α n n) :
    ∃ g, column B b h = .ok g := by
  rw [column]
  split
  case isTrue => exact ⟨_, rfl⟩
  case isFalse =>
    split
    case isTrue hneg =>
      rw [dif_neg fun h₀ ↦ hb h₀ hneg]
      exact ⟨_, rfl⟩
    case isFalse => exact ⟨_, rfl⟩

/-- Only a pair without its upper row has no eigenvectors. -/
theorem exists_eigenvectors (hB : ∀ b : Fin n, b.val = 0 → ¬ B.im b < 0) (h : Grid α n n) :
    ∃ g, eigenvectors B h = .ok g :=
  Except.exists_foldlM (fun g b ↦ exists_column (hB b) g) _ h

end RealSchur.BackSubstitution

namespace Spectrum

section Path

variable {α : Type} [Scalar α] {form basis : Grid α n n} {s : RealSchur α n}

/-- The columns are those of the basis, or are taken from the axes to it. -/
theorem exists_settle_of_ofHessenberg {t : Spectrum α n}
    (h : (ofHessenberg config form basis).outcome = .ok t) :
    ∃ s, (RealSchur.settle config (RealSchur.hessenbergNorm form) n le_rfl 0
      (.ofHessenberg form basis)).outcome = .ok s ∧ t.re = s.re ∧ t.im = s.im ∧
      (t.vectors = s.basis ∨ ∃ x, t.vectors = changeBasis s.basis x) := by
  obtain ⟨s, hs, h⟩ := Run.outcome_bind_eq_ok.1 h
  refine ⟨s, hs, ?_⟩
  split at h
  case isTrue =>
    obtain rfl := Except.ok.inj h
    exact ⟨rfl, rfl, .inl rfl⟩
  case isFalse =>
    obtain ⟨x, -, rfl⟩ := Run.outcome_bind_pure_eq_ok.1 h
    exact ⟨rfl, rfl, .inr ⟨x, rfl⟩⟩

theorem ofHessenberg_of_norm_zero (hs : (RealSchur.settle config (RealSchur.hessenbergNorm form) n
      le_rfl 0 (.ofHessenberg form basis)).outcome = .ok s)
    (hnorm : (RealSchur.hessenbergNorm form == 0) = true) :
    (ofHessenberg config form basis).outcome = .ok ⟨s.basis, s.re, s.im⟩ :=
  Run.outcome_bind_eq_ok.2 ⟨s, hs, congrArg Run.outcome (if_pos hnorm)⟩

theorem ofHessenberg_of_eigenvectors (hs : (RealSchur.settle config (RealSchur.hessenbergNorm form) n
      le_rfl 0 (.ofHessenberg form basis)).outcome = .ok s)
    (hnorm : ¬ (RealSchur.hessenbergNorm form == 0) = true) {x : Grid α n n}
    (hx : RealSchur.BackSubstitution.eigenvectors ⟨s.re, s.im, RealSchur.hessenbergNorm form⟩ s.form =
      .ok x) :
    (ofHessenberg config form basis).outcome = .ok ⟨changeBasis s.basis x, s.re, s.im⟩ := by
  refine Run.outcome_bind_eq_ok.2 ⟨s, hs, ?_⟩
  exact (congrArg Run.outcome (if_neg hnorm)).trans (Run.outcome_bind_pure_eq_ok.2 ⟨x, hx, rfl⟩)

end Path

variable [DivisionByZero]

theorem exists_ofHessenberg {form basis : Grid ℝ n n} {s : RealSchur ℝ n}
    (hs : (RealSchur.settle config (RealSchur.hessenbergNorm form) n le_rfl 0
      (.ofHessenberg form basis)).outcome = .ok s) :
    ∃ t, (ofHessenberg config form basis).outcome = .ok t := by
  have hfirst : s.FirstNonneg :=
    RealSchur.firstNonneg_settle (RealSchur.firstNonneg_ofHessenberg form basis) hs
  by_cases hnorm : (RealSchur.hessenbergNorm form == 0) = true
  · exact ⟨_, ofHessenberg_of_norm_zero hs hnorm⟩
  · obtain ⟨x, hx⟩ := RealSchur.BackSubstitution.exists_eigenvectors
      (B := ⟨s.re, s.im, RealSchur.hessenbergNorm form⟩) (fun b hb ↦ not_lt.2 (hfirst b hb)) s.form
    exact ⟨_, ofHessenberg_of_eigenvectors hs hnorm hx⟩

theorem sum_re_of_ofGeneral {a : Grid ℝ (n + 1) (n + 1)} {t : Spectrum ℝ (n + 1)}
    (h : (ofGeneral config a).outcome = .ok t) : ∑ i, t.re i = a.toMatrix.trace := by
  obtain ⟨s, hs, hre, -⟩ := exists_settle_of_ofHessenberg h
  calc
    ∑ i, t.re i = ∑ i, s.re i := by rw [hre]
    _ = diagonalSum (fun _ ↦ True) (Hessenberg.reduce a).form := by
      rw [RealSchur.sum_re_of_settle hs, RealSchur.eigenvalueSum_ofHessenberg]
    _ = a.toMatrix.trace := by
      rw [Hessenberg.diagonalSum_reduce, diagonalSum]
      exact Finset.sum_congr rfl fun i _ ↦ if_pos trivial

end Spectrum

end DenseDecomp
