import DenseDecomp.Proofs.Binary64.NotANumber
import DenseDecomp.Proofs.Cholesky.LeadingBlock
import DenseDecomp.Proofs.HeldMatrix
import DenseDecomp.Proofs.Indexed.Cholesky

namespace DenseDecomp

open Scalar DenseMatrix

variable {α : Type} {n n' k : ℕ}

namespace CholeskyFactor

theorem entry_factor_congr [Scalar α] {g : Grid α n n} {g' : Grid α n' n'} (hn : k ≤ n)
    (hn' : k ≤ n') (h : ∀ i j, j ≤ i → i < k → (ofGrid g).entry i j = (ofGrid g').entry i j)
    {i j : ℕ} (hi : i < k) (hj : j < k) :
    (ofGrid (factor g)).entry i j = (ofGrid (factor g')).entry i j := by
  have hentry : ∀ (l : Grid α n n) (l' : Grid α n' n') (i j : Fin k),
      (ofGrid l).entry i j = (ofGrid l').entry i j ↔ l.lead hn i j = l'.lead hn' i j := by
    intro l l' i j
    rw [Grid.lead_apply, Grid.lead_apply]
    rw [entry_ofGrid_of_lt l (i.isLt.trans_le hn) (j.isLt.trans_le hn)]
    rw [entry_ofGrid_of_lt l' (i.isLt.trans_le hn') (j.isLt.trans_le hn')]
    rfl
  have hlead : factor (g.lead hn) = factor (g'.lead hn') :=
    factor_congr fun i j hij ↦ (hentry g g' i j).1 (h i j hij i.isLt)
  rw [← lead_factor, ← lead_factor] at hlead
  exact (hentry _ _ ⟨i, hi⟩ ⟨j, hj⟩).2 (by rw [hlead])

/-- The flag is set for the symmetric matrices whose factor has a positive diagonal. -/
theorem isPositiveDefinite_iff_diagonal_pos (g : Grid Float n n) :
    isPositiveDefinite g = true ↔
      (ofGrid g).isSymmetric = true ∧ ∀ j, 0 < factor g j j := by
  rw [isPositiveDefinite_eq_true_iff, isSymmetric_ofGrid_iff]
  refine and_congr (forall₂_congr fun i j ↦ imp_congr_right fun _ ↦ ?_) (forall_congr' fun j ↦ ?_)
  · rw [Binary64.beq_comm]
  · rw [(rowFilled_factor g j).diagonal]
    exact Binary64.zero_lt_sqrt_maxNum_iff.symm

end CholeskyFactor

namespace Cholesky

/-- Where the lower triangles of two matrices agree, the leading blocks of their factors do, to the
bit: a factor takes a row of the matrix at a time, and only up to its diagonal. The flag that the
loops over the rows keep says in the end what the test of the whole matrix for symmetry says. -/
theorem decompose_lower {a a' : DenseMatrix Float} (ha : a.Held) (hsq : a.rows = a.cols)
    (ha' : a'.Held) (hsq' : a'.rows = a'.cols) (hk : k ≤ a.rows) (hk' : k ≤ a'.rows)
    (hlower : ∀ i j, j ≤ i → i < k → a.entry i j = a'.entry i j) :
    Indexed.cholesky a = decompose a ∧
    ∃ c c', (decompose a).outcome = .ok c ∧ (decompose a').outcome = .ok c' ∧
      c.Held ∧ c.factor.shape = a.shape ∧
      (∀ i j, i < k → j < k → c.factor.entry i j = c'.factor.entry i j) ∧
      (∀ i j, i < j → j < a.rows → c.factor.entry i j = 0.0) ∧
      (c.isSpd = true ↔ a.isSymmetric = true ∧ ∀ i < a.rows, 0.0 < c.factor.entry i i) := by
  obtain ⟨n, g, rfl⟩ := ha.exists_ofGrid_square hsq
  obtain ⟨n', g', rfl⟩ := ha'.exists_ofGrid_square hsq'
  refine ⟨Indexed.cholesky_eq _, _, _,
    decompose_ofGrid_eq_ok_iff.2 ⟨⟨ha.rows_pos, ha.fits⟩, rfl⟩,
    decompose_ofGrid_eq_ok_iff.2 ⟨⟨ha'.rows_pos, ha'.fits⟩, rfl⟩,
    ⟨held_ofGrid _ ha.rows_pos ha.cols_pos ha.fits, rfl⟩, rfl,
    fun i j hi hj ↦ CholeskyFactor.entry_factor_congr hk hk' hlower hi hj,
    fun i j hij hj ↦ ?_, ?_⟩
  · have hjn : j < n := hj
    rw [entry_ofGrid_of_lt _ (hij.trans hjn) hjn]
    exact (CholeskyFactor.rowFilled_factor g _).above _ hij
  · rw [CholeskyFactor.isPositiveDefinite_iff_diagonal_pos]
    refine and_congr_right fun _ ↦ ⟨fun h i hi ↦ ?_, fun h j ↦ ?_⟩
    · have hin : i < n := hi
      rw [entry_ofGrid_of_lt _ hin hin]
      exact h ⟨i, hin⟩
    · have hj := h j j.isLt
      rw [entry_ofGrid_of_lt _ j.isLt j.isLt] at hj
      exact hj

def lowerOfThree (i j : ℕ) : Float := if i = j then 4.0 else if i = 1 then 0.0 / 0.0 else 2.0

/-- A matrix of three rows and one of two, which differ above the diagonal. -/
theorem decompose_lower_three :
    let a : DenseMatrix Float := .ofGrid (.ofFn fun i j : Fin 3 ↦ lowerOfThree i j)
    let a' : DenseMatrix Float :=
      .ofGrid (.ofFn fun i j : Fin 2 ↦ if i < j then 7.0 else lowerOfThree i j)
    a.Held ∧ a'.Held ∧ (∀ i j, j ≤ i → i < 2 → a.entry i j = a'.entry i j) ∧
      ∃ c c', (decompose a).outcome = .ok c ∧ (decompose a').outcome = .ok c' ∧
        c.factor.entry 1 1 = c'.factor.entry 1 1 ∧ c.factor.entry 1 2 = 0.0 := by
  intro a a'
  have ha : a.Held := held_ofGrid _ (by decide) (by decide) (by decide)
  have ha' : a'.Held := held_ofGrid _ (by decide) (by decide) (by decide)
  have hlower : ∀ i j, j ≤ i → i < 2 → a.entry i j = a'.entry i j := by
    intro i j hj hi
    have hi₃ : i < 3 := by omega
    have hj₃ : j < 3 := by omega
    have hj₂ : j < 2 := by omega
    have hij : ¬ (⟨i, hi⟩ : Fin 2) < ⟨j, hj₂⟩ := not_lt.2 hj
    rw [entry_ofGrid_of_lt _ hi₃ hj₃, entry_ofGrid_of_lt _ hi hj₂, Grid.ofFn_apply, Grid.ofFn_apply,
      if_neg hij]
  obtain ⟨-, c, c', hc, hc', -, -, hlead, habove, -⟩ :=
    decompose_lower ha rfl ha' rfl (by decide) (by decide) hlower
  exact ⟨ha, ha', hlower, c, c', hc, hc', hlead 1 1 (by decide) (by decide),
    habove 1 2 (by decide) (by decide)⟩

end Cholesky

end DenseDecomp
