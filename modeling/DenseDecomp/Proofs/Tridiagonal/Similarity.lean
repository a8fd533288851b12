import Mathlib.Data.Real.Basic
import DenseDecomp.Proofs.Agreement
import DenseDecomp.Proofs.Tridiagonal.Accumulation

namespace DenseDecomp.Tridiagonal

open Matrix Scalar

variable {n : ℕ}

section Divisors

variable {α : Type} [Scalar α]

def rowDivisors (c : Fin n) (t : Tridiagonal α (n + 1)) : List α :=
  let scale := sumWhere (· < c.succ) fun k ↦ abs (t.diag k)
  if scale == 0 then []
  else
    let half := (Reflection.ofRow c scale t.diag).half
    [scale, half, half + half]

def reflectionDivisors (t : Tridiagonal α (n + 1)) (c : Fin n) : List α :=
  if t.diag c.succ == 0 then [] else [t.diag c.succ]

def traced (a : Grid α (n + 1) (n + 1)) : Tridiagonal α (n + 1) × List α :=
  Fin.foldl n (fun p c ↦ (accumulate p.1 c, p.2 ++ reflectionDivisors p.1 c))
    (Fin.foldr n (fun c p ↦ (reduceRow c p.1, p.2 ++ rowDivisors c p.1)) (start a, []))

end Divisors

section Quotient

variable (D D' : DivisionByZero) (c : Fin n) (t : Tridiagonal ℝ (n + 1))

theorem Reflection.ofRow_quotient {scale : ℝ} (x : Tuple ℝ (n + 1)) (hs : scale ≠ 0) :
    (letI : DivisionByZero := D; Reflection.ofRow c scale x) =
      (letI : DivisionByZero := D'; Reflection.ofRow c scale x) := by
  simp only [Reflection.ofRow, @div_of_ne_zero D _ _ hs, @div_of_ne_zero D' _ _ hs]
  rfl

theorem scale_eq [DivisionByZero] :
    (sumWhere (· < c.succ) fun k ↦ Scalar.abs (t.diag k)) =
      ∑ k, if k < c.succ then |t.diag k| else 0 := sumWhere_real _ _

theorem reduceRow_quotient : (letI : DivisionByZero := D; reduceRow c t) =
    (letI : DivisionByZero := D'; reduceRow c t) := by
  obtain ⟨scale, hscale⟩ : ∃ scale, scale = ∑ k, if k < c.succ then |t.diag k| else 0 := ⟨_, rfl⟩
  simp only [reduceRow, @scale_eq _ _ _ D, @scale_eq _ _ _ D', ← hscale, beq_iff_eq]
  by_cases hs : scale = 0
  · rw [if_pos hs, if_pos hs]
    rfl
  · have hhalf := (@Reflection.half_pos _ _ _ _ D hscale hs).ne'
    have htwice := (add_pos (@Reflection.half_pos _ _ _ _ D hscale hs)
      (@Reflection.half_pos _ _ _ _ D hscale hs)).ne'
    rw [if_neg hs, if_neg hs]
    simp only [reflectRow, Reflection.ofRow_quotient D' D c t.diag hs, @div_of_ne_zero D _ _ hhalf,
      @div_of_ne_zero D' _ _ hhalf, @div_of_ne_zero D _ _ htwice, @div_of_ne_zero D' _ _ htwice]
    rfl

theorem accumulate_quotient : (letI : DivisionByZero := D; accumulate t c) =
    (letI : DivisionByZero := D'; accumulate t c) := by
  by_cases h : t.diag c.succ = 0
  · simp only [accumulate, h, beq_self_eq_true, if_true]
  · simp only [accumulate, @div_of_ne_zero D _ _ h, @div_of_ne_zero D' _ _ h]
    rfl

theorem ofSymmetric_quotient (a : Grid ℝ (n + 1) (n + 1)) :
    (letI : DivisionByZero := D; ofSymmetric a) = (letI : DivisionByZero := D'; ofSymmetric a) := by
  have hreduce : (letI : DivisionByZero := D; @reduceRow ℝ _ n) =
      (letI : DivisionByZero := D'; @reduceRow ℝ _ n) := by
    funext c t
    exact reduceRow_quotient D D' c t
  have haccumulate : (letI : DivisionByZero := D; @accumulate ℝ _ n) =
      (letI : DivisionByZero := D'; @accumulate ℝ _ n) := by
    funext t c
    exact accumulate_quotient D D' c t
  simp only [ofSymmetric, reduce, hreduce, haccumulate]
  rfl

end Quotient

variable [DivisionByZero]

theorem ne_zero_of_mem_rowDivisors {c : Fin n} {t : Tridiagonal ℝ (n + 1)} {x : ℝ}
    (hx : x ∈ rowDivisors c t) : x ≠ 0 := by
  rw [rowDivisors, scale_eq] at hx
  split at hx
  case isTrue => cases hx
  case isFalse hs =>
    have hs := fun h ↦ hs (beq_iff_eq.2 h)
    have hhalf := Reflection.half_pos (c := c) (x := t.diag) rfl hs
    simp only [List.mem_cons, List.not_mem_nil, or_false] at hx
    rcases hx with rfl | rfl | rfl
    · exact hs
    · exact hhalf.ne'
    · exact (add_pos hhalf hhalf).ne'

theorem ne_zero_of_mem_reflectionDivisors {c : Fin n} {t : Tridiagonal ℝ (n + 1)} {x : ℝ}
    (hx : x ∈ reflectionDivisors t c) : x ≠ 0 := by
  rw [reflectionDivisors] at hx
  split at hx
  case isTrue => cases hx
  case isFalse h =>
    rw [List.mem_singleton.1 hx]
    exact fun h₀ ↦ h (beq_iff_eq.2 h₀)

theorem traces_traced (a : Grid ℝ (n + 1) (n + 1)) :
    Traces (traced a) (Fin.foldl n accumulate (reduce a)) := by
  have hreduce : Traces (Fin.foldr n (fun c p ↦ (reduceRow c p.1, p.2 ++ rowDivisors c p.1))
      (start a, [])) (reduce a) :=
    foldr_related (fun _ ↦ Traces) ⟨rfl, nofun⟩ fun c p t h ↦
      h.step (reduceRow c) fun _ ↦ ne_zero_of_mem_rowDivisors
  exact foldl_related (fun _ ↦ Traces) hreduce fun c p t h ↦
    h.step (accumulate · c) fun _ ↦ ne_zero_of_mem_reflectionDivisors

/-- The reduction of a symmetric matrix is an orthogonal similarity with a tridiagonal matrix. It
never divides by zero, and nothing hangs on what such a division would give. -/
theorem ofSymmetric_similar {a : Grid ℝ (n + 1) (n + 1)} (ha : a.toMatrixᵀ = a.toMatrix) :
    let t := ofSymmetric a
    let V := t.basis.toMatrix
    Vᵀ * V = 1 ∧ t.below 0 = 0 ∧ a.toMatrix = V * t.matrix * Vᵀ ∧
      finish (traced a).1 = t ∧ (∀ x ∈ (traced a).2, x ≠ 0) ∧
      ∀ D : DivisionByZero, (letI : DivisionByZero := D; ofSymmetric a) = t := by
  intro t V
  obtain ⟨horthogonal, hconj⟩ := ofSymmetric_conj ha
  obtain ⟨hrun, hdivisors⟩ := traces_traced a
  refine ⟨mul_eq_one_comm.1 horthogonal, ?_, hconj.symm, ?_, hdivisors, fun D ↦ ?_⟩
  · change Tuple.set _ 0 0 0 = 0
    rw [Tuple.set_apply, if_pos rfl]
  · rw [hrun]
    rfl
  · exact ofSymmetric_quotient D _ a

omit [DivisionByZero] in
/-- No entry of the matrix is zero, and both of its rows are reduced. -/
theorem ofSymmetric_similar_three :
    letI : DivisionByZero := ⟨fun _ ↦ 0⟩
    let a : Grid ℝ 3 3 := .ofMatrix !![2, 1, 3; 1, 4, 1; 3, 1, 5]
    let t := ofSymmetric a
    a.toMatrixᵀ = a.toMatrix ∧ t.basis.toMatrixᵀ * t.basis.toMatrix = 1 ∧ t.below 0 = 0 ∧
      a.toMatrix = t.basis.toMatrix * t.matrix * t.basis.toMatrixᵀ ∧
      ∀ x ∈ (traced a).2, x ≠ 0 := by
  let : DivisionByZero := ⟨fun _ ↦ 0⟩
  intro a t
  have ha : a.toMatrixᵀ = a.toMatrix := by
    rw [Grid.toMatrix_ofMatrix]
    ext i j
    fin_cases i <;> fin_cases j <;> rfl
  obtain ⟨horthogonal, hbelow, hconj, -, hdivisors, -⟩ := ofSymmetric_similar ha
  exact ⟨ha, horthogonal, hbelow, hconj, hdivisors⟩

end DenseDecomp.Tridiagonal
