import Mathlib
import DenseDecomp.Proofs.Binary64.Order
import DenseDecomp.Proofs.Cholesky.Solve
import DenseDecomp.Proofs.HeldMatrix
import DenseDecomp.Proofs.Indexed.Cholesky
import DenseDecomp.Proofs.Indexed.Decomposition
import DenseDecomp.Proofs.SweepCount

namespace DenseDecomp

variable {α β γ : Type} {n m : ℕ}

/-- No index leaves its range and no size its word; the input may still be refused. -/
def Outcome.Faultless (r : Outcome α β) : Prop := ∀ f, r ≠ .error (.fault f)

namespace Outcome.Faultless

theorem ok (b : β) : Faultless (.ok b : Outcome α β) := nofun

theorem refuse (e : Error α) : Faultless (refuse e : Outcome α β) := nofun

theorem bind {r : Outcome α β} {f : β → Outcome α γ} (hr : r.Faultless)
    (hf : ∀ b, r = .ok b → Faultless (f b)) : Faultless (r >>= f) := by
  cases h : r with
  | ok b => exact hf b h
  | error e =>
    rintro e' he
    cases he
    exact hr _ h

theorem mapM {f : γ → Outcome α β} {l : List γ} (hf : ∀ c ∈ l, Faultless (f c)) :
    Faultless (l.mapM f) := by
  induction l with
  | nil => exact .ok _
  | cons c l ih =>
    rw [List.mapM_cons]
    refine (hf c List.mem_cons_self).bind fun b _ ↦ .bind ?_ fun bs _ ↦ .ok _
    exact ih fun c hc ↦ hf c (List.mem_cons_of_mem _ hc)

end Outcome.Faultless

open Outcome (Faultless)

namespace DenseMatrix

variable {a : DenseMatrix α}

theorem faultless_toGrid {r c : ℕ} (h : a.data.size = r * c) : Faultless (a.toGrid r c) := by
  rw [toGrid, dif_pos h]
  exact .ok _

theorem Held.faultless_get (h : a.Held) {i j : ℕ} (hi : i < a.rows) (hj : j < a.cols) :
    Faultless (a.get i j) := by
  obtain ⟨g, hg⟩ := h.exists_ofGrid
  rw [hg, get_ofGrid g h.size_lt, Grid.read_of_lt g hi hj]
  exact .ok _

theorem Held.faultless_diagonal (h : a.Held) : Faultless a.diagonal := by
  refine .bind (.mapM fun i hi ↦ ?_) fun xs _ ↦ .ok _
  have hi := List.mem_range.1 hi
  exact h.faultless_get (by omega) (by omega)

end DenseMatrix

namespace Cholesky

variable [Scalar α] {a : DenseMatrix α} {c : Cholesky α}

theorem faultless_decompose (ha : a.Held) : Faultless (decompose a).outcome := by
  by_cases hsq : a.rows = a.cols
  · obtain ⟨c, hc, -⟩ := decompose_cases ha hsq
    rw [hc]
    exact .ok _
  · rw [decompose, if_neg hsq]
    exact .refuse _

theorem Held.faultless_solve (hc : c.Held) {b : DenseMatrix α} (hb : b.Held) :
    Faultless (c.solve b) := by
  rw [solve]
  split
  case isTrue hrows =>
    split
    case isTrue =>
      refine .bind (DenseMatrix.faultless_toGrid ?_) fun l _ ↦
        .bind (DenseMatrix.faultless_toGrid ?_) fun x _ ↦ .ok _
      · rw [hc.size_eq, ← hc.square]
        rfl
      · rw [hb.size_eq, hrows]
    case isFalse => exact .refuse _
  case isFalse => exact .refuse _

theorem Held.faultless_solveVector (hc : c.Held) (b : Array α) : Faultless (c.solveVector b) := by
  rw [solveVector]
  split
  case isTrue hsize =>
    have hb : (⟨c.dimension, 1, b⟩ : DenseMatrix α).Held :=
      DenseMatrix.held_column hc.rows_pos hc.fits_square hsize
    simp only [DenseMatrix.ofArray_eq hb]
    exact (hc.faultless_solve hb).bind fun x _ ↦ .ok _
  case isFalse => exact .refuse _

theorem Held.faultless_inverse (hc : c.Held) : Faultless c.inverse := by
  have hidentity : (DenseMatrix.identity c.dimension : Outcome α (DenseMatrix α)) =
      .ok (.ofGrid (Grid.ofFn fun i j ↦ if i = j then 1 else 0)) :=
    Except.bind_eq_ok.2 ⟨(), DenseMatrix.allocate_eq_ok_iff.2
      ⟨hc.rows_pos, hc.rows_pos, hc.fits_square⟩, rfl⟩
  rw [inverse, hidentity]
  exact hc.faultless_solve (DenseMatrix.held_ofGrid _ hc.rows_pos hc.rows_pos hc.fits_square)

theorem Held.faultless_determinant (hc : c.Held) : Faultless c.determinant := by
  rw [determinant]
  split
  case isTrue => exact hc.faultless_diagonal.bind fun d _ ↦ .ok _
  case isFalse => exact .refuse _

end Cholesky

namespace EigenDecomposition

variable {config : EigenConfig} {a : DenseMatrix Float}

theorem eq_addOverflow_of_decompose (ha : a.Held) {f : Fault}
    (h : (decompose config a).outcome = .error (.fault f)) :
    f = .addOverflow ∧ ∃ c ∈ sweepCounts config a, c + 1 = EigenConfig.counterBound := by
  by_cases hsq : a.rows = a.cols
  · have hwithin := within_decompose config ha hsq
    obtain ⟨x, hx, -⟩ | ⟨e, c, hfail, hstop, hlog⟩ := hwithin.ends
    · cases hx.symm.trans h
    · obtain rfl := Except.error.inj (hfail.symm.trans h)
      obtain ⟨k, x, -, -, -, hconv⟩ | ⟨hlast, hfault⟩ := hstop
      · cases hconv
      · refine ⟨Failure.fault.inj hfault, c, ?_, hlast⟩
        rw [← hlog]
        exact List.mem_append_right _ List.mem_cons_self
  · rw [decompose, if_neg hsq] at h
    cases h

theorem exists_ofSpectrum_of_decompose (ha : a.Held) {x : EigenDecomposition Float}
    (h : (decompose config a).outcome = .ok x) :
    ∃ (t : Spectrum Float a.rows) (symmetric : Bool), x = ofSpectrum symmetric t ∧
      Size.entryBytes * (a.rows * a.rows) < Size.byteBound := by
  by_cases hsq : a.rows = a.cols
  · obtain ⟨n, data, rfl, hsize⟩ := ha.exists_square hsq
    obtain ⟨g, -, hdecompose⟩ := exists_decompose_eq ha
    rw [hdecompose] at h
    split at h
    case isTrue =>
      rw [Run.outcome_emit_bind] at h
      obtain ⟨t, -, rfl⟩ := Run.outcome_bind_pure_eq_ok.1 h
      exact ⟨t, true, rfl, ha.fits⟩
    case isFalse =>
      rw [Run.outcome_emit_bind] at h
      obtain ⟨t, -, rfl⟩ := Run.outcome_bind_pure_eq_ok.1 h
      exact ⟨t, false, rfl, ha.fits⟩
  · rw [decompose, if_neg hsq] at h
    cases h

theorem faultless_blockDiagonal (ha : a.Held) {x : EigenDecomposition Float}
    (h : (decompose config a).outcome = .ok x) : Faultless x.blockDiagonal := by
  obtain ⟨t, symmetric, rfl, hfits⟩ := exists_ofSpectrum_of_decompose ha h
  rw [blockDiagonal_ofSpectrum symmetric t hfits]
  exact .ok _

end EigenDecomposition

/-- A program all of whose indices and sizes are checked does what is asked, and no check fails. -/
structure Implements (program spec : Outcome α β) : Prop where
  eq : program = spec
  faultless : Faultless program

theorem Implements.of_eq {program spec : Outcome α β} (h : program = spec) (hspec : Faultless spec) :
    Implements program spec := ⟨h, h ▸ hspec⟩

/-- No decomposition of a matrix that exists meets an index or a size that is out of range, whatever
its shape and its entries. Only the counter of the sweeps can run over. -/
theorem faults_of_held (a : DenseMatrix Float) (ha : a.Held) :
    (∀ (r c : ℕ) (g : Grid Float r c), (DenseMatrix.ofGrid g).Held →
      (DenseMatrix.ofGrid g).Stores g) ∧
    (Indexed.cholesky a = Cholesky.decompose a ∧ Faultless (Indexed.cholesky a).outcome ∧
      ∀ c, (Indexed.cholesky a).outcome = .ok c →
        (∀ b : DenseMatrix Float, b.Held → Implements (Indexed.solve c b) (c.solve b)) ∧
        (∀ b : Array Float, Implements (Indexed.solveVector c b) (c.solveVector b)) ∧
        Implements (Indexed.inverse c) c.inverse ∧ Faultless c.determinant) ∧
    ∀ config : EigenConfig,
      Indexed.decompose config a = EigenDecomposition.decompose config a ∧
      (∀ f, (Indexed.decompose config a).outcome = .error (.fault f) →
        f = .addOverflow ∧ ∃ c ∈ EigenDecomposition.sweepCounts config a,
          c + 1 = EigenConfig.counterBound) ∧
      ∀ x, (Indexed.decompose config a).outcome = .ok x →
        Implements (Indexed.blockDiagonal x) x.blockDiagonal := by
  refine ⟨fun r c g hg ↦ DenseMatrix.stores_ofGrid g hg.size_lt, ?_, fun config ↦ ?_⟩
  · rw [Indexed.cholesky_eq]
    refine ⟨rfl, Cholesky.faultless_decompose ha, fun c hc ↦ ?_⟩
    have hheld := Cholesky.held_of_decompose ha hc
    exact ⟨fun b hb ↦ .of_eq (Indexed.solve_eq hheld b) (hheld.faultless_solve hb),
      fun b ↦ .of_eq (Indexed.solveVector_eq hheld b) (hheld.faultless_solveVector b),
      .of_eq (Indexed.inverse_eq hheld) hheld.faultless_inverse, hheld.faultless_determinant⟩
  · rw [Indexed.decompose_eq ha]
    refine ⟨rfl, fun f hf ↦ EigenDecomposition.eq_addOverflow_of_decompose ha hf, fun x hx ↦ ?_⟩
    have hblock : Indexed.blockDiagonal x = x.blockDiagonal :=
      Indexed.blockDiagonal_eq (fun _ ↦ Binary64.lt_asymm) x
    exact .of_eq hblock (EigenDecomposition.faultless_blockDiagonal ha hx)

theorem faults_of_held_three :
    let a : DenseMatrix Float := ⟨3, 3, #[0, -1, 0, 1, 0, 0, 0, 0, 2]⟩
    a.Held ∧ Faultless (Indexed.cholesky a).outcome ∧
      ∃ x, (EigenDecomposition.decompose .unlimited a).outcome = .ok x ∧
        Implements (Indexed.blockDiagonal x) x.blockDiagonal := by
  intro a
  have hheld : a.Held := ⟨⟨by decide, by decide, rfl, by decide⟩, by decide⟩
  obtain ⟨-, ⟨-, hcholesky, -⟩, heigen⟩ := faults_of_held a hheld
  obtain ⟨x, hx⟩ : ∃ x, (EigenDecomposition.decompose .unlimited a).outcome = .ok x := by
    decide +kernel
  obtain ⟨heq, -, hblock⟩ := heigen .unlimited
  exact ⟨hheld, hcholesky, x, hx, hblock x (heq ▸ hx)⟩

end DenseDecomp
