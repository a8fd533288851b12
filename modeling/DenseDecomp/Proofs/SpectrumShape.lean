import Mathlib
import DenseDecomp.Proofs.ConjugatePairs
import DenseDecomp.Proofs.DecompositionPath
import DenseDecomp.Proofs.HeldMatrix
import DenseDecomp.Proofs.ImplicitQL.Convergence
import DenseDecomp.Proofs.IterationLimit
import DenseDecomp.Proofs.Sorting

namespace DenseDecomp

open Scalar

variable {n : ℕ} {config : EigenConfig}

namespace ImplicitQL

section Links

variable {α : Type} [Scalar α] {c : Fin n} {m : Fin (n + 1)} {s t : ImplicitQL α (n + 1)}

theorem link_sweep {i : Fin (n + 1)} (hi : i < c.castSucc) (m : Fin (n + 1))
    (s : ImplicitQL α (n + 1)) : (s.sweep c m).link i = s.link i := by
  have hic := Fin.lt_def.1 hi
  rw [Fin.val_castSucc] at hic
  have hne : i ≠ c.castSucc := hi.ne
  rw [sweep]
  simp only [Tuple.set_apply, if_neg hne]
  refine foldr_invariant (fun _ (t : Chase α (n + 1)) ↦ t.link i = s.link i) rfl fun k t ht ↦ ?_
  split
  case isTrue h =>
    have hik : i ≠ k.succ := fun heq ↦ by
      have hck := Fin.le_def.1 h.1
      have hval := congrArg Fin.val heq
      rw [Fin.val_succ] at hval
      omega
    rw [Chase.link_rotate_of_ne hik, ht]
  case isFalse => exact ht

def LinksClear (l : ℕ) (s : ImplicitQL α n) : Prop := ∀ i : Fin n, i.val < l → s.link i = 0

theorem LinksClear.sweep {l : ℕ} (hs : s.LinksClear l) (hl : l ≤ c) (m : Fin (n + 1)) :
    (s.sweep c m).LinksClear l := by
  intro i hi
  rw [link_sweep (Fin.lt_def.2 (hi.trans_le hl)), hs i hi]

theorem LinksClear.settle {l : Fin (n + 1)} (hs : s.LinksClear l)
    (h : (settle config s l).outcome = .ok t) : t.LinksClear (l + 1) := by
  obtain ⟨⟨sweeps, s'⟩, hconv, h⟩ := Run.outcome_bind_eq_ok.1 h
  rw [Run.outcome_emit_bind] at h
  obtain rfl := Except.ok.inj h
  have hclear : s'.LinksClear l := by
    change (if _ : _ then _ else _) = _ at hconv
    split at hconv
    case isTrue hlm =>
      have hraise : (s.raise l).LinksClear l := hs
      refine (converge_invariant (P := LinksClear l) (fun r hr _ ↦ ?_) hraise hconv).1
      exact hr.sweep le_rfl _
    case isFalse =>
      obtain ⟨-, rfl⟩ := Prod.mk.inj (Except.ok.inj hconv)
      exact hs
  intro i hi
  rw [Tuple.set_apply]
  split
  case isTrue => rfl
  case isFalse hne =>
    have := Fin.val_ne_of_ne hne
    exact hclear i (by omega)

theorem link_diagonalize {t₀ : Tridiagonal α (n + 1)} (h : (diagonalize config t₀).outcome = .ok t)
    (i : Fin (n + 1)) : t.link i = 0 := by
  have hclear := Run.foldlM_invariant (fun l s ↦ LinksClear l s)
    (fun i hi ↦ absurd hi (Nat.not_lt_zero _)) (fun l s t hs ht ↦ hs.settle ht) h
  exact hclear i i.isLt

end Links

end ImplicitQL

namespace EigenPairs

variable {s : EigenPairs Float n}

theorem comparable_of_isNaN (h : ∀ i, (s.values i).isNaN = false) : s.Comparable where
  asymm _ _ := Binary64.lt_asymm
  trans i j k hji hkj := by
    rw [Binary64.not_lt_iff (h _) (h _)] at hji hkj ⊢
    exact Binary64.le_trans hji hkj

theorem ascending_sortAscending (h : ∀ i, (s.sortAscending.values i).isNaN = false) {i j : Fin n}
    (hij : i ≤ j) : s.sortAscending.values i ≤ s.sortAscending.values j := by
  obtain ⟨⟨σ, hσ⟩, hsorted⟩ := sorted_sortAscending s
  have hs : ∀ k, (s.values k).isNaN = false := fun k ↦ by
    rw [← h (σ.symm k), hσ.values_eq, Equiv.apply_symm_apply]
  exact (Binary64.not_lt_iff (h j) (h i)).1 (hsorted (comparable_of_isNaN hs) i j i.isLt hij)

end EigenPairs

namespace Spectrum

variable {re im : Tuple Float n} {first : Fin n → Prop}

/-- The real parts stand on the diagonal, the imaginary parts of each pair beside it. -/
structure BlockEntries (first : Fin n → Prop) (re im : Tuple Float n) (D : Grid Float n n) :
    Prop where
  diagonal : ∀ i, D i i = re i
  above : ∀ i j, first i → 0 < im i → i.val + 1 = j.val → D i j = im i
  below : ∀ i j, first i → 0 < im i → i.val + 1 = j.val → D j i = im j
  elsewhere : ∀ i j, i ≠ j → ¬ (first i ∧ 0 < im i ∧ i.val + 1 = j.val) →
    ¬ (first j ∧ 0 < im j ∧ j.val + 1 = i.val) → D i j = 0

theorem blockEntries_blockDiagonal (h : ConjugatePairs 0 first re im) :
    BlockEntries first re im (blockDiagonal re im) := by
  have happly : ∀ i j, blockDiagonal re im i j = if i = j then re i
      else if 0 < im i then if i.val + 1 = j.val then im i else 0
      else if im i < 0 then if j.val + 1 = i.val then im i else 0
      else 0 := fun i j ↦ Grid.ofFn_apply _ i j
  have hne : ∀ {i j : Fin n}, i.val + 1 = j.val → i ≠ j := fun hij heq ↦ by
    rw [heq] at hij
    omega
  constructor
  case diagonal =>
    intro i
    rw [happly, if_pos rfl]
  case above =>
    intro i j _ hpos hij
    rw [happly, if_neg (hne hij), if_pos hpos, if_pos hij]
  case below =>
    intro i j hfirst hpos hij
    obtain ⟨j', hj', -, -, him, -⟩ := h.pair i hfirst
    obtain rfl : j' = j := Fin.ext (hj'.symm.trans hij)
    have hneg : im j' < 0 := by
      rw [him]
      exact Binary64.neg_lt_zero hpos
    rw [happly, if_neg (hne hij).symm, if_neg (Binary64.lt_asymm hneg), if_pos hneg, if_pos hij]
  case elsewhere =>
    intro i j hij hright hleft
    rw [happly, if_neg hij]
    split
    case isTrue hpos => exact if_neg fun hj ↦ hright ⟨h.first_of_pos hpos, hpos, hj⟩
    case isFalse =>
      split
      case isTrue hneg =>
        refine if_neg fun hj ↦ hleft ?_
        obtain ⟨k, hfirst, hk, hpos⟩ := h.exists_first_of_neg hneg
        obtain rfl : k = j := Fin.ext (Nat.succ_injective (hk.trans hj.symm))
        exact ⟨hfirst, hpos, hj⟩
      case isFalse => rfl

/-- Once the rows are settled nothing can fail. -/
theorem exists_eigenvectors_of_settle {norm : Float} {form basis : Grid Float n n}
    {s : RealSchur Float n}
    (hs : (RealSchur.settle config norm n le_rfl 0 (.ofHessenberg form basis)).outcome = .ok s) :
    ∃ x, RealSchur.BackSubstitution.eigenvectors ⟨s.re, s.im, norm⟩ s.form = .ok x := by
  obtain ⟨first, hpairs⟩ := RealSchur.conjugatePairs_settle hs ⟨_, .empty _ _⟩
  exact RealSchur.BackSubstitution.exists_eigenvectors (fun _ ↦ hpairs.not_neg_of_zero) s.form

theorem conjugatePairs_ofGeneral {a : Grid Float (n + 1) (n + 1)} {t : Spectrum Float (n + 1)}
    (h : (ofGeneral config a).outcome = .ok t) : ∃ first, ConjugatePairs 0 first t.re t.im := by
  obtain ⟨s, hs, hre, him, -⟩ := exists_settle_of_ofHessenberg h
  rw [hre, him]
  exact RealSchur.conjugatePairs_settle hs ⟨_, .empty _ _⟩

theorem im_ofSymmetric {a : Grid Float (n + 1) (n + 1)} {t : Spectrum Float (n + 1)}
    (h : (ofSymmetric config a).outcome = .ok t) (i : Fin (n + 1)) : t.im i = 0 := by
  obtain ⟨s, hs, rfl⟩ := Run.outcome_bind_pure_eq_ok.1 h
  exact ImplicitQL.link_diagonalize hs i

theorem ascending_ofSymmetric {a : Grid Float (n + 1) (n + 1)} {t : Spectrum Float (n + 1)}
    (h : (ofSymmetric config a).outcome = .ok t) (hre : ∀ i, (t.re i).isNaN = false)
    {i j : Fin (n + 1)} (hij : i ≤ j) : t.re i ≤ t.re j := by
  obtain ⟨s, -, rfl⟩ := Run.outcome_bind_pure_eq_ok.1 h
  exact EigenPairs.ascending_sortAscending hre hij

end Spectrum

namespace EigenDecomposition

/-- The shape of every spectrum: single real eigenvalues and conjugate pairs side by side, whose
block diagonal matrix holds nothing else. A symmetric matrix has no pairs, and its eigenvalues
ascend as far as they are numbers. -/
theorem decompose_spectrum_shape {a : DenseMatrix Float} (ha : a.Held) (hsq : a.rows = a.cols)
    {x : EigenDecomposition Float} (hx : (decompose config a).outcome = .ok x) :
    ∃ (t : Spectrum Float a.rows) (first : Fin a.rows → Prop) (D : Grid Float a.rows a.rows),
      x = ofSpectrum a.isSymmetric t ∧ ConjugatePairs 0 first t.re t.im ∧
      x.blockDiagonal = .ok (.ofGrid D) ∧ Spectrum.BlockEntries first t.re t.im D ∧
      (a.isSymmetric = true → (∀ i, ¬ first i) ∧
        ((∀ i, (t.re i).isNaN = false) → ∀ i j, i ≤ j → t.re i ≤ t.re j)) := by
  obtain ⟨n, data, rfl, hsize⟩ := ha.exists_square hsq
  obtain ⟨g, -, hdecompose⟩ := exists_decompose_eq ha
  rw [hdecompose] at hx
  split at hx
  case isTrue hsymm =>
    rw [Run.outcome_emit_bind] at hx
    obtain ⟨t, ht, rfl⟩ := Run.outcome_bind_pure_eq_ok.1 hx
    have hpairs : ConjugatePairs 0 _ t.re t.im := .real (Spectrum.im_ofSymmetric ht)
    refine ⟨t, _, _, by rw [hsymm], hpairs, blockDiagonal_ofSpectrum _ _ ha.fits,
      Spectrum.blockEntries_blockDiagonal hpairs, fun _ ↦ ⟨fun _ ↦ id, fun hre i j hij ↦ ?_⟩⟩
    exact Spectrum.ascending_ofSymmetric ht hre hij
  case isFalse hgeneral =>
    rw [Run.outcome_emit_bind] at hx
    obtain ⟨t, ht, rfl⟩ := Run.outcome_bind_pure_eq_ok.1 hx
    obtain ⟨first, hpairs⟩ := Spectrum.conjugatePairs_ofGeneral ht
    refine ⟨t, first, _, by rw [eq_false_of_ne_true hgeneral], hpairs,
      blockDiagonal_ofSpectrum _ _ ha.fits, Spectrum.blockEntries_blockDiagonal hpairs, ?_⟩
    exact fun hsymm ↦ absurd hsymm hgeneral

/-- A quarter turn has one pair. -/
theorem decompose_spectrum_shape_two :
    ∃ (x : EigenDecomposition Float) (t : Spectrum Float 2) (first : Fin 2 → Prop)
      (D : Grid Float 2 2), (decompose .unlimited ⟨2, 2, #[0, -1, 1, 0]⟩).outcome = .ok x ∧
      x = ofSpectrum false t ∧ ConjugatePairs 0 first t.re t.im ∧
      x.blockDiagonal = .ok (.ofGrid D) ∧ Spectrum.BlockEntries first t.re t.im D := by
  have hheld : (⟨2, 2, #[0, -1, 1, 0]⟩ : DenseMatrix Float).Held :=
    ⟨⟨by decide, by decide, rfl, by decide⟩, by decide⟩
  obtain ⟨x, hx⟩ : ∃ x, (decompose .unlimited (⟨2, 2, #[0, -1, 1, 0]⟩ : DenseMatrix Float)).outcome =
      .ok x := by decide +kernel
  have hsymm : (⟨2, 2, #[0, -1, 1, 0]⟩ : DenseMatrix Float).isSymmetric = false := by decide +kernel
  obtain ⟨t, first, D, hspectrum, hpairs, hblock, hentries, -⟩ :=
    decompose_spectrum_shape hheld rfl hx
  rw [hsymm] at hspectrum
  exact ⟨x, t, first, D, hx, hspectrum, hpairs, hblock, hentries⟩

end EigenDecomposition

end DenseDecomp
