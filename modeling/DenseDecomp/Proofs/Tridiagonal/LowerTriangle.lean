import DenseDecomp.Proofs.Agreement
import DenseDecomp.Proofs.Binary64.Order
import DenseDecomp.Proofs.HeldMatrix
import DenseDecomp.Proofs.Indexed.Decomposition
import DenseDecomp.Scalar.Binary64

namespace DenseDecomp

open Scalar

variable {α : Type} {n : ℕ}

def Grid.Lower (k j : Fin n) : Prop := j ≤ k

namespace Tridiagonal

/-- The positions that depend on the lower triangle alone once the rows after `t` are reduced: this
triangle, and the columns after `t`, where the reduction has put its own vectors. -/
def Written (t : ℕ) (k j : Fin n) : Prop := j ≤ k ∨ t < j.val

theorem Written.of_lower {k j : Fin n} {t : ℕ} (h : Grid.Lower k j) : Written t k j := Or.inl h

/-- A row puts its own vector into the column it adds. -/
theorem Written.succ {c : Fin n} {k j : Fin (n + 1)} (h : Written c k j)
    (hc : ¬ (k < c.succ ∧ j = c.succ)) : Written (c + 1) k j := by
  refine h.elim Or.inl fun hj ↦ ?_
  by_cases hjc : j = c.succ
  · exact Or.inl (hjc ▸ not_lt.1 fun hk ↦ hc ⟨hk, hjc⟩)
  · have hval : j.val ≠ c.val + 1 := fun heq ↦ hjc (Fin.ext heq)
    exact Or.inr (by omega)

structure AgreeOn (P : Fin n → Fin n → Prop) (s s' : Tridiagonal α n) : Prop where
  basis : s.basis.AgreeOn P s'.basis
  diag : s.diag = s'.diag
  below : s.below = s'.below

variable [Scalar α]

omit [Scalar α] in
theorem lowerEntry_congr {a a' : Grid α n n} (h : a.AgreeOn Grid.Lower a') (i j : Fin n) :
    lowerEntry a i j = lowerEntry a' i j := by
  rw [lowerEntry, lowerEntry]
  split
  case isTrue hij => exact h j i hij.le
  case isFalse hij => exact h i j (not_lt.1 hij)

variable {c : Fin n} {s s' : Tridiagonal α (n + 1)}

theorem AgreeOn.clearRow (h : AgreeOn (Written (c + 1)) s s') :
    AgreeOn (Written c) (s.clearRow c) (s'.clearRow c) := by
  obtain ⟨hbasis, hdiag, hbelow⟩ := h
  refine ⟨.ofFn fun k j hkj ↦ ?_, Tuple.ext fun j ↦ ?_, ?_⟩
  case refine_1 =>
    split
    case isTrue => rfl
    case isFalse hcleared => exact hbasis k j (hkj.succ fun hc ↦ hcleared (Or.inr hc))
  case refine_2 =>
    simp only [Tridiagonal.clearRow, Tuple.ofFn_apply, hdiag]
    split
    case isTrue hj => exact hbasis c.castSucc j (.of_lower (Fin.le_castSucc_iff.2 hj))
    case isFalse => rfl
  case refine_3 => simp only [Tridiagonal.clearRow, hdiag, hbelow]

theorem AgreeOn.reflectRow (h : AgreeOn (Written (c + 1)) s s') (scale : α) :
    AgreeOn (Written c) (s.reflectRow c scale) (s'.reflectRow c scale) := by
  obtain ⟨hbasis, hdiag, hbelow⟩ := h
  have hlower : lowerEntry s.basis = lowerEntry s'.basis :=
    funext₂ (lowerEntry_congr (hbasis.mono fun _ _ ↦ .of_lower))
  have hreflected : (s.reflectRow c scale).basis.AgreeOn (Written c)
      (s'.reflectRow c scale).basis := by
    simp only [Tridiagonal.reflectRow, hdiag, hbelow, hlower]
    refine .ofFn fun k j hkj ↦ ?_
    split
    case isTrue hblock => rw [hbasis k j (Or.inl hblock.2)]
    case isFalse =>
      split
      case isTrue => rfl
      case isFalse =>
        split
        case isTrue => rfl
        case isFalse hcolumn => exact hbasis k j (hkj.succ hcolumn)
  refine ⟨hreflected, Tuple.ext fun j ↦ ?_, ?_⟩
  · have hrow : j < c.succ →
        (s.reflectRow c scale).basis c.castSucc j = (s'.reflectRow c scale).basis c.castSucc j :=
      fun hj ↦ hreflected c.castSucc j (.of_lower (Fin.le_castSucc_iff.2 hj))
    rw [Tridiagonal.reflectRow, Tridiagonal.reflectRow] at hrow ⊢
    simp only [Tuple.ofFn_apply, hdiag] at hrow ⊢
    split
    case isTrue hj => exact hrow hj
    case isFalse => rfl
  · simp only [Tridiagonal.reflectRow, hdiag, hbelow, hlower]

theorem AgreeOn.reduceRow (h : AgreeOn (Written (c + 1)) s s') :
    AgreeOn (Written c) (s.reduceRow c) (s'.reduceRow c) := by
  rw [Tridiagonal.reduceRow, Tridiagonal.reduceRow, h.diag]
  split
  case isTrue => exact h.clearRow
  case isFalse => exact h.reflectRow _

/-- The reduction overwrites the upper triangle before it reads there. -/
theorem reduce_congr {a a' : Grid α (n + 1) (n + 1)} (h : a.AgreeOn Grid.Lower a') :
    reduce a = reduce a' := by
  have hstart : AgreeOn (Written n) (start a) (start a') := by
    refine ⟨fun k j hkj ↦ ?_, Tuple.ext fun j ↦ ?_, rfl⟩
    · exact h k j (hkj.resolve_right (Nat.not_lt.2 j.is_le))
    · exact h (Fin.last n) j (Fin.le_last j)
  have hreduced : AgreeOn (Written 0) (reduce a) (reduce a') :=
    foldr_related (fun t s s' ↦ AgreeOn (Written t) s s') hstart fun _ _ _ h ↦ h.reduceRow
  rw [mk.injEq]
  refine ⟨Grid.ext fun k j ↦ hreduced.basis k j ?_, hreduced.diag, hreduced.below⟩
  obtain rfl | ⟨l, rfl⟩ := Fin.eq_zero_or_eq_succ j
  · exact Or.inl (Fin.zero_le k)
  · exact Or.inr l.succ_pos

theorem ofSymmetric_congr {a a' : Grid α (n + 1) (n + 1)} (h : a.AgreeOn Grid.Lower a') :
    ofSymmetric a = ofSymmetric a' := by
  rw [ofSymmetric, ofSymmetric, reduce_congr h]

end Tridiagonal

theorem Spectrum.ofSymmetric_congr [Scalar α] (config : EigenConfig)
    {a a' : Grid α (n + 1) (n + 1)} (h : a.AgreeOn Grid.Lower a') :
    ofSymmetric config a = ofSymmetric config a' := by
  rw [ofSymmetric, ofSymmetric, Tridiagonal.ofSymmetric_congr h]

def DenseMatrix.mirrorLower [Scalar α] (a : DenseMatrix α) : DenseMatrix α :=
  ofGrid (Grid.ofFn fun i j : Fin a.rows ↦ a.entry (max i j : Fin a.rows) (min i j : Fin a.rows))

theorem DenseMatrix.mirrorLower_ofGrid [Scalar α] (g : Grid α n n) :
    (ofGrid g).mirrorLower = ofGrid (Grid.ofFn fun i j ↦ g (max i j) (min i j)) :=
  congrArg ofGrid (Grid.ext fun i j ↦
    ((Grid.ofFn_apply _ i j).trans (entry_ofGrid g _ _)).trans (Grid.ofFn_apply _ i j).symm)

namespace EigenDecomposition

theorem decompose_ofGrid_of_isSymmetric [Scalar α] (config : EigenConfig)
    {g : Grid α (n + 1) (n + 1)} (h : (DenseMatrix.ofGrid g).isSymmetric = true) :
    decompose config (.ofGrid g) = Run.emit (.symmetricInput (n + 1)) >>= fun _ ↦
      Spectrum.ofSymmetric config g >>= fun s ↦ pure (ofSpectrum true s) := by
  have hrows : (DenseMatrix.ofGrid g).rows = n + 1 := rfl
  have hcols : (DenseMatrix.ofGrid g).cols = n + 1 := rfl
  rw [decompose, hcols]
  simp only [hrows, if_true, h, DenseMatrix.toGrid_ofGrid, Run.ofOutcome_ok_bind]

theorem decompose_congr_lower [Scalar α] (config : EigenConfig) {g g' : Grid α (n + 1) (n + 1)}
    (h : g.AgreeOn Grid.Lower g') (hg : (DenseMatrix.ofGrid g).isSymmetric = true)
    (hg' : (DenseMatrix.ofGrid g').isSymmetric = true) :
    decompose config (.ofGrid g) = decompose config (.ofGrid g') := by
  rw [decompose_ofGrid_of_isSymmetric config hg, decompose_ofGrid_of_isSymmetric config hg',
    Spectrum.ofSymmetric_congr config h]

/-- Entries that equal others are numbers and equal themselves. -/
theorem isSymmetric_mirrorLower {g : Grid Float n n}
    (h : (DenseMatrix.ofGrid g).isSymmetric = true) :
    (DenseMatrix.ofGrid g).mirrorLower.isSymmetric = true := by
  rw [DenseMatrix.isSymmetric_ofGrid_iff] at h
  rw [DenseMatrix.mirrorLower_ofGrid, DenseMatrix.isSymmetric_ofGrid_iff]
  intro i j hij
  rw [Grid.ofFn_apply, Grid.ofFn_apply, max_comm j i, min_comm j i]
  obtain ⟨hnumber, -, -⟩ := Binary64.beq_iff.1 (h i j hij)
  rw [max_eq_left hij.le, min_eq_right hij.le]
  exact Binary64.beq_iff.2 ⟨hnumber, hnumber, rfl⟩

/-- The symmetric path reads the lower triangle alone: what stands above the diagonal is overwritten
before it is read. So zeros of either sign may face each other in a matrix that counts as symmetric,
and it is the one below the diagonal that is decomposed. -/
theorem upperTriangle_unread (config : EigenConfig) :
    (∀ {α : Type} [Scalar α] {n : ℕ} (a a' : Grid α (n + 1) (n + 1)), a.AgreeOn Grid.Lower a' →
      Tridiagonal.ofSymmetric a = Tridiagonal.ofSymmetric a' ∧ (n + 2 < Size.wordBound →
        Indexed.tridiagonalize a (.fill 0) (.fill 0) = .ok (Tridiagonal.ofSymmetric a) ∧
        Indexed.tridiagonalize a' (.fill 0) (.fill 0) = .ok (Tridiagonal.ofSymmetric a))) ∧
    ∀ a : DenseMatrix Float, a.WellFormed → a.isSymmetric = true →
      a.mirrorLower.isSymmetric = true ∧ decompose config a.mirrorLower = decompose config a := by
  refine ⟨fun {α _ n} a a' h ↦ ⟨Tridiagonal.ofSymmetric_congr h, fun hn ↦
    ⟨Indexed.tridiagonalize_eq hn a, ?_⟩⟩, fun a ha hsymm ↦ ?_⟩
  · rw [Tridiagonal.ofSymmetric_congr h]
    exact Indexed.tridiagonalize_eq hn a'
  · have hsq : a.rows = a.cols := beq_iff_eq.1 (Bool.and_eq_true_iff.1 hsymm).1
    obtain ⟨n, g, rfl⟩ := ha.exists_ofGrid_square hsq
    obtain ⟨n, rfl⟩ := Nat.exists_eq_succ_of_ne_zero ha.rows_pos.ne'
    have hmirror := isSymmetric_mirrorLower hsymm
    refine ⟨hmirror, ?_⟩
    rw [DenseMatrix.mirrorLower_ofGrid] at hmirror ⊢
    refine decompose_congr_lower config (fun i j hij ↦ ?_) hmirror hsymm
    rw [Grid.ofFn_apply, max_eq_left hij, min_eq_right hij]

def signedZeros (upper : Float) : Grid Float 3 3 :=
  Grid.ofFn fun i j ↦ if i = j then 2.0 else if i < j then upper else -0.0

theorem upperTriangle_unread_three :
    let a : DenseMatrix Float := .ofGrid (signedZeros 0.0)
    (signedZeros 0.0).AgreeOn Grid.Lower (signedZeros 7.0) ∧
      Indexed.tridiagonalize (signedZeros 7.0) (.fill 0) (.fill 0) =
        .ok (Tridiagonal.ofSymmetric (signedZeros 0.0)) ∧
      a.isSymmetric = true ∧ a.mirrorLower.data ≠ a.data ∧
      decompose .unlimited a.mirrorLower = decompose .unlimited a := by
  intro a
  have hagree : (signedZeros 0.0).AgreeOn Grid.Lower (signedZeros 7.0) := by
    refine .ofFn fun i j hij ↦ ?_
    rw [if_neg (not_lt.2 hij), if_neg (not_lt.2 hij)]
  have ha : a.WellFormed := ⟨by decide, by decide, by decide +kernel, by decide⟩
  have hsymm : a.isSymmetric = true := by decide +kernel
  obtain ⟨hunread, hmirrored⟩ := upperTriangle_unread .unlimited
  refine ⟨hagree, ((hunread _ _ hagree).2 (by decide)).2, hsymm, ?_, (hmirrored a ha hsymm).2⟩
  decide +kernel

end EigenDecomposition

end DenseDecomp
