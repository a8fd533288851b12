import DenseDecomp.Proofs.Binary64.Underflow
import DenseDecomp.Proofs.SpectrumShape

namespace DenseDecomp

open Scalar Binary64

variable {n : ℕ}

def Grid.Diagonal (g : Grid Float n n) : Prop := ∀ i j, i ≠ j → g i j = 0

def Grid.unit (n : ℕ) : Grid Float n n := .ofFn fun i j ↦ if i = j then 1 else 0

namespace Tridiagonal

/-- Without a reflection to multiply in, the leading block gets one more row and column of the
identity, and a diagonal entry moves to the last row. -/
theorem accumulate_of_zero {α : Type} [Scalar α] {v : Grid α (n + 1) (n + 1)}
    {d e : Tuple α (n + 1)} {c : Fin n} (h : (d c.succ == 0) = true) :
    accumulate ⟨v, d, e⟩ c = ⟨.ofFn fun k j ↦
      if k = Fin.last n ∧ j = c.castSucc then v c.castSucc c.castSucc
      else if k ≤ c.castSucc ∧ j ≤ c.castSucc then
        if k = c.castSucc ∧ j = c.castSucc then 1 else v k j
      else if k ≤ c.castSucc ∧ j = c.succ then 0
      else v k j, d, e⟩ := by
  simp only [accumulate, h, if_true, Grid.set_apply]

variable {g : Grid Float (n + 1) (n + 1)}

/-- What stands in a row before the diagonal is zero, and the next row takes its place. -/
theorem reduceRow_diagonal (hg : g.Diagonal) (c : Fin n) :
    reduceRow c ⟨g, g.row c.succ, Tuple.fill 0⟩ = ⟨g, g.row c.castSucc, Tuple.fill 0⟩ := by
  have hscale : (sumWhere (· < c.succ) (fun k ↦ Scalar.abs (g.row c.succ k)) == 0) = true := by
    refine sumWhere_abs_zero fun k hk ↦ ?_
    rw [Grid.row_apply, hg _ _ (ne_of_gt hk)]
    rfl
  refine (if_pos hscale).trans ?_
  rw [clearRow, Tridiagonal.mk.injEq]
  refine ⟨Grid.ext fun k j ↦ ?_, Tuple.ext fun j ↦ ?_, Tuple.ext fun j ↦ ?_⟩
  · rw [Grid.ofFn_apply]
    split
    case isTrue h =>
      obtain ⟨rfl, hj⟩ | ⟨hk, rfl⟩ := h
      · exact (hg _ _ (ne_of_gt hj)).symm
      · exact (hg _ _ (ne_of_lt hk)).symm
    case isFalse => rfl
  · rw [Tuple.ofFn_apply]
    split
    case isTrue => rfl
    case isFalse hj =>
      have hjc : c.castSucc ≠ j := fun h ↦ hj (h ▸ Fin.castSucc_lt_succ)
      have hzero : g.row c.castSucc j = 0 := hg _ _ hjc
      rw [hzero]
      split
      case isTrue => rfl
      case isFalse hne => exact hg _ _ (Ne.symm hne)
  · rw [Tuple.set_apply, Tuple.fill_apply]
    split
    case isTrue => exact hg _ _ (ne_of_gt Fin.castSucc_lt_succ)
    case isFalse => rfl

theorem reduce_diagonal (hg : g.Diagonal) : reduce g = ⟨g, g.row 0, Tuple.fill 0⟩ := by
  have h := foldr_invariant (f := reduceRow (n := n)) (b := start g)
    (fun t s ↦ ∀ ht : t < n + 1, s = ⟨g, g.row ⟨t, ht⟩, Tuple.fill 0⟩) (fun _ ↦ rfl)
    fun c s hs _ ↦ by
      obtain rfl := hs (Nat.succ_lt_succ c.isLt)
      exact reduceRow_diagonal hg c
  exact h (Nat.succ_pos n)

def halfway (g : Grid Float (n + 1) (n + 1)) (t : ℕ) : Grid Float (n + 1) (n + 1) :=
  .ofFn fun k j ↦
    if j.val < t then if k = Fin.last n then g j j else if k = j then 1 else 0 else g k j

theorem halfway_of_lt {t : ℕ} {k j : Fin (n + 1)} (hk : k ≠ Fin.last n) (hj : j.val < t) :
    halfway g t k j = if k = j then 1 else 0 := by
  rw [halfway, Grid.ofFn_apply, if_pos hj, if_neg hk]

theorem halfway_last_of_lt {t : ℕ} {j : Fin (n + 1)} (hj : j.val < t) :
    halfway g t (Fin.last n) j = g j j := by
  rw [halfway, Grid.ofFn_apply, if_pos hj, if_pos rfl]

theorem halfway_of_le {t : ℕ} (k : Fin (n + 1)) {j : Fin (n + 1)} (hj : t ≤ j.val) :
    halfway g t k j = g k j := by
  rw [halfway, Grid.ofFn_apply, if_neg (not_lt.2 hj)]

theorem accumulate_diagonal (hg : g.Diagonal) (c : Fin n) :
    accumulate ⟨halfway g c, g.row 0, Tuple.fill 0⟩ c =
      ⟨halfway g (c + 1), g.row 0, Tuple.fill 0⟩ := by
  have hself : c.castSucc.val < c.val + 1 := c.val.lt_succ_self
  have hnone : (g.row 0 c.succ == 0) = true := by
    rw [Grid.row_apply, hg _ _ (Fin.succ_ne_zero c).symm]
    rfl
  rw [accumulate_of_zero hnone, Tridiagonal.mk.injEq]
  refine ⟨Grid.ext fun k j ↦ ?_, rfl, rfl⟩
  rw [Grid.ofFn_apply]
  obtain hlt | rfl | hgt := lt_trichotomy j c.castSucc
  · have hmoved : ¬ (k = Fin.last n ∧ j = c.castSucc) := fun h ↦ hlt.ne h.2
    have hset : ¬ (k = c.castSucc ∧ j = c.castSucc) := fun h ↦ hlt.ne h.2
    have hnext : ¬ (k ≤ c.castSucc ∧ j = c.succ) := fun h ↦
      (hlt.trans Fin.castSucc_lt_succ).ne h.2
    have hj : j.val < c.val := Fin.lt_def.1 hlt
    rw [if_neg hmoved, if_neg hset, if_neg hnext, ite_self]
    obtain rfl | hlast := eq_or_ne k (Fin.last n)
    · rw [halfway_last_of_lt hj, halfway_last_of_lt (hj.trans c.val.lt_succ_self)]
    · rw [halfway_of_lt hlast hj, halfway_of_lt hlast (hj.trans c.val.lt_succ_self)]
  · have hset : k ≠ c.castSucc → ¬ (k = c.castSucc ∧ c.castSucc = c.castSucc) := fun hk h ↦ hk h.1
    have hnext : ¬ (k ≤ c.castSucc ∧ c.castSucc = c.succ) := fun h ↦ Fin.castSucc_lt_succ.ne h.2
    have hcolumn : ∀ k, halfway g c k c.castSucc = g k c.castSucc := fun k ↦ halfway_of_le k le_rfl
    obtain rfl | hlast := eq_or_ne k (Fin.last n)
    · rw [if_pos ⟨rfl, rfl⟩, hcolumn, halfway_last_of_lt hself]
    · rw [if_neg (fun h ↦ hlast h.1), halfway_of_lt hlast hself, hcolumn]
      obtain rfl | hkc := eq_or_ne k c.castSucc
      · rw [if_pos ⟨le_rfl, le_rfl⟩, if_pos ⟨rfl, rfl⟩]
        exact (if_pos rfl).symm
      · rw [if_neg (hset hkc), if_neg hnext, ite_self, hg _ _ hkc, if_neg hkc]
  · have hmoved : ¬ (k = Fin.last n ∧ j = c.castSucc) := fun h ↦ hgt.ne' h.2
    have hblock : ¬ (k ≤ c.castSucc ∧ j ≤ c.castSucc) := fun h ↦ not_le.2 hgt h.2
    have hj : c.val + 1 ≤ j.val := Fin.lt_def.1 hgt
    rw [if_neg hmoved, if_neg hblock, halfway_of_le _ hj, halfway_of_le _ (Nat.le_of_succ_le hj)]
    split
    case isTrue h =>
      obtain ⟨hk, rfl⟩ := h
      exact (hg _ _ (ne_of_lt (hk.trans_lt hgt))).symm
    case isFalse => rfl

theorem finish_diagonal (hg : g.Diagonal) :
    finish ⟨halfway g n, g.row 0, Tuple.fill 0⟩ =
      ⟨.unit (n + 1), Tuple.ofFn fun i ↦ g i i, Tuple.fill 0⟩ := by
  rw [finish, Tridiagonal.mk.injEq]
  refine ⟨Grid.ext fun k j ↦ ?_, Tuple.ext fun j ↦ ?_, Tuple.ext fun j ↦ ?_⟩
  · rw [Grid.ofFn_apply, Grid.unit, Grid.ofFn_apply]
    split
    case isTrue hk =>
      rw [hk]
      exact if_congr eq_comm rfl rfl
    case isFalse hk =>
      obtain rfl | hj := eq_or_ne j (Fin.last n)
      · rw [halfway_of_le _ (Fin.val_last n).ge, hg _ _ hk, if_neg hk]
      · exact halfway_of_lt hk (Fin.val_lt_last hj)
  · rw [Grid.row_apply, Tuple.ofFn_apply]
    obtain rfl | hj := eq_or_ne j (Fin.last n)
    · exact halfway_of_le _ (Fin.val_last n).ge
    · exact halfway_last_of_lt (Fin.val_lt_last hj)
  · rw [Tuple.set_apply, Tuple.fill_apply]
    exact ite_self _

theorem ofSymmetric_diagonal (hg : g.Diagonal) :
    ofSymmetric g = ⟨.unit (n + 1), Tuple.ofFn fun i ↦ g i i, Tuple.fill 0⟩ := by
  have h := foldl_invariant (f := accumulate (n := n)) (b := reduce g)
    (fun t s ↦ s = ⟨halfway g t, g.row 0, Tuple.fill 0⟩) ?_ fun c s hs ↦ ?_
  · rw [ofSymmetric, h]
    exact finish_diagonal hg
  · rw [reduce_diagonal hg, Tridiagonal.mk.injEq]
    refine ⟨Grid.ext fun k j ↦ ?_, rfl, rfl⟩
    rw [halfway, Grid.ofFn_apply, if_neg (Nat.not_lt_zero _)]
  · rw [hs]
    exact accumulate_diagonal hg c

end Tridiagonal

namespace ImplicitQL

variable {d : Tuple Float (n + 1)} {s : ImplicitQL Float (n + 1)} {l : Fin (n + 1)}

theorem negligible_of_link_zero (hmag : 0 ≤ s.magnitude) (hlink : ∀ i, s.link i = 0)
    (i : Fin (n + 1)) : s.Negligible i := by
  have hbound := epsilon_mul_nonneg hmag
  intro hlt
  rw [hlink i] at hlt
  exact (not_lt_iff (le_iff.1 hbound).2.1 rfl).2 hbound hlt

/-- A block whose links are all negligible has one row. -/
theorem blockEnd_eq_self (h : ∀ i, s.Negligible i) (l : Fin (n + 1)) : s.blockEnd l = l := by
  refine le_antisymm (not_lt.1 fun hlt ↦ ?_) (le_blockEnd s l)
  exact not_negligible_of_lt_blockEnd le_rfl hlt (h l)

/-- What holds of a diagonal matrix when its entries before `t` are settled. -/
structure Undisturbed (d : Tuple Float (n + 1)) (t : ℕ) (s : ImplicitQL Float (n + 1)) : Prop where
  basis_eq : s.basis = .unit (n + 1)
  diag_beq : ∀ i, (d i).isNaN = false → (s.diag i == d i) = true
  diag_eq : ∀ i : Fin (n + 1), t ≤ i.val → s.diag i = d i
  link_eq : ∀ i, s.link i = 0
  shift_eq : s.shift = 0
  magnitude_nonneg : 0 ≤ s.magnitude

theorem Undisturbed.start (d : Tuple Float (n + 1)) :
    Undisturbed d 0 (ofTridiagonal ⟨.unit (n + 1), d, Tuple.fill 0⟩) where
  basis_eq := rfl
  diag_beq _ hi := beq_iff.2 ⟨hi, hi, rfl⟩
  diag_eq _ _ := rfl
  link_eq i := by
    rw [ofTridiagonal, Tuple.ofFn_apply]
    split
    case isTrue => exact Tuple.fill_apply _ _
    case isFalse => rfl
  shift_eq := rfl
  magnitude_nonneg := by
    have h : (0 : Float) ≤ 0 := by decide
    exact h

/-- An entry is settled without a sweep, whatever the limit. -/
theorem Undisturbed.settle (config : EigenConfig) (h : Undisturbed d l s) :
    ∃ s', settle config s l = ⟨[.sweepsDone l 0], .ok s'⟩ ∧ Undisturbed d (l + 1) s' := by
  have hmag : 0 ≤ (s.raise l).magnitude := maxNum_nonneg h.magnitude_nonneg
  have hblock := blockEnd_eq_self (negligible_of_link_zero hmag h.link_eq) l
  have hsweeps : ¬ l < (s.raise l).blockEnd l := hblock.not_gt
  refine ⟨{ s.raise l with diag := s.diag.set l (s.diag l + s.shift), link := s.link.set l 0 },
    ?_, ?_⟩
  · simp only [ImplicitQL.settle, dif_neg hsweeps, Run.ofOutcome_ok_bind]
    rfl
  · constructor
    case basis_eq => exact h.basis_eq
    case diag_beq =>
      intro i hi
      rw [Tuple.set_apply]
      split
      case isTrue hil =>
        subst hil
        rw [h.diag_eq i le_rfl, h.shift_eq]
        exact add_zero_beq hi
      case isFalse => exact h.diag_beq i hi
    case diag_eq =>
      intro i hi
      rw [Tuple.set_apply, if_neg (fun hil ↦ by rw [hil] at hi; omega)]
      exact h.diag_eq i (Nat.le_of_succ_le hi)
    case link_eq =>
      intro i
      rw [Tuple.set_apply]
      split
      case isTrue => rfl
      case isFalse => exact h.link_eq i
    case shift_eq => exact h.shift_eq
    case magnitude_nonneg => exact hmag

theorem diagonalize_undisturbed (config : EigenConfig) (d : Tuple Float (n + 1)) :
    ∃ s, diagonalize config ⟨.unit (n + 1), d, Tuple.fill 0⟩ =
        ⟨(List.range (n + 1)).map fun i ↦ .sweepsDone i 0, .ok s⟩ ∧ Undisturbed d (n + 1) s :=
  Run.exists_foldlM_log _ (Undisturbed d) (.start d) fun _ _ h ↦ h.settle config

end ImplicitQL

/-- The spectrum of a diagonal matrix: the entries of the diagonal in ascending order, with the unit
vectors in the same order. -/
structure Spectrum.SortsDiagonal (x : Fin n → Float) (t : Spectrum Float n)
    (σ : Equiv.Perm (Fin n)) : Prop where
  re_beq : ∀ i, (t.re i == x (σ i)) = true
  ascending : ∀ i j, i ≤ j → t.re i ≤ t.re j
  im_eq : ∀ i, t.im i = 0
  vectors_eq : ∀ k i, t.vectors k i = if k = σ i then 1 else 0

theorem Spectrum.ofSymmetric_diagonal (config : EigenConfig) {g : Grid Float (n + 1) (n + 1)}
    (hg : g.Diagonal) (hx : ∀ i, (g i i).isNaN = false) : ∃ t,
    ofSymmetric config g = ⟨(List.range (n + 1)).map fun i ↦ .sweepsDone i 0, .ok t⟩ ∧
      ∃ σ, t.SortsDiagonal (fun i ↦ g i i) σ := by
  obtain ⟨s, hs, hdiag⟩ := ImplicitQL.diagonalize_undisturbed config (Tuple.ofFn fun i ↦ g i i)
  let p := EigenPairs.mk s.diag s.basis
  obtain ⟨⟨σ, hσ⟩, -⟩ := EigenPairs.sorted_sortAscending p
  have hre : ∀ i, (p.sortAscending.values i == g (σ i) (σ i)) = true := by
    intro i
    have hvalue := hdiag.diag_beq (σ i)
    rw [Tuple.ofFn_apply] at hvalue
    rw [hσ.values_eq]
    exact hvalue (hx (σ i))
  refine ⟨⟨p.sortAscending.vectors, p.sortAscending.values, s.link⟩, ?_, σ, hre, fun i j ↦ ?_,
    hdiag.link_eq, fun k i ↦ ?_⟩
  · rw [ofSymmetric, Tridiagonal.ofSymmetric_diagonal hg, hs]
    exact Run.ok_bind_pure _ s _
  · exact EigenPairs.ascending_sortAscending fun i ↦ (beq_iff.1 (hre i)).1
  · rw [hσ.vectors_eq]
    change s.basis k (σ i) = _
    rw [hdiag.basis_eq]
    exact Grid.ofFn_apply _ _ _

namespace EigenDecomposition

theorem decompose_diagonal (config : EigenConfig) {g : Grid Float n n}
    (hheld : (DenseMatrix.ofGrid g).Held) (hg : g.Diagonal) (hx : ∀ i, (g i i).isNaN = false) :
    ∃ t, decompose config (.ofGrid g) =
        ⟨.symmetricInput n :: (List.range n).map fun i ↦ .sweepsDone i 0, .ok (ofSpectrum true t)⟩ ∧
      ∃ σ, t.SortsDiagonal (fun i ↦ g i i) σ := by
  obtain ⟨n, rfl⟩ := Nat.exists_eq_succ_of_ne_zero hheld.rows_pos.ne'
  have hsymm : (DenseMatrix.ofGrid g).isSymmetric = true := by
    refine (DenseMatrix.isSymmetric_ofGrid_iff g).2 fun i j hji ↦ ?_
    rw [hg _ _ (ne_of_gt hji), hg _ _ (ne_of_lt hji)]
    rfl
  obtain ⟨g', hg', hdecompose⟩ := exists_decompose_eq hheld
  obtain rfl : g = g' := Except.ok.inj ((DenseMatrix.toGrid_ofGrid g).symm.trans hg')
  obtain ⟨t, ht, hsorts⟩ := Spectrum.ofSymmetric_diagonal config hg hx
  refine ⟨t, ((hdecompose config).trans (if_pos hsymm)).trans ?_, hsorts⟩
  rw [ht, Run.ok_bind_pure]
  rfl

/-- A diagonal matrix is solved exactly, without a sweep and so under every limit. -/
theorem decompose_ofDiagonal (config : EigenConfig) {xs : Array Float} (hn : 0 < xs.size)
    (hfits : Size.entryBytes * (xs.size * xs.size) < Size.byteBound)
    (hx : ∀ i : Fin xs.size, xs[i].isNaN = false) :
    ∃ a t, DenseMatrix.ofDiagonal xs = .ok a ∧
      decompose config a = ⟨.symmetricInput xs.size ::
        (List.range xs.size).map fun i ↦ .sweepsDone i 0, .ok (ofSpectrum true t)⟩ ∧
      ∃ σ, t.SortsDiagonal (fun i ↦ xs[i]) σ := by
  let g : Grid Float xs.size xs.size := .ofFn fun i j ↦ if i = j then xs[i] else 0
  have hself : ∀ i, g i i = xs[i] := fun i ↦ (Grid.ofFn_apply _ i i).trans (if_pos rfl)
  have hg : g.Diagonal := fun i j hij ↦ (Grid.ofFn_apply _ i j).trans (if_neg hij)
  have hheld : (DenseMatrix.ofGrid g).Held := DenseMatrix.held_ofGrid g hn hn hfits
  have hbuilt : DenseMatrix.ofDiagonal xs = .ok (.ofGrid g) :=
    Except.bind_eq_ok.2 ⟨(), DenseMatrix.allocate_eq_ok_iff.2 ⟨hn, hn, hfits⟩, rfl⟩
  obtain ⟨t, ht, hsorts⟩ := decompose_diagonal config hheld hg fun i ↦ (hself i).symm ▸ hx i
  simp only [hself] at hsorts
  exact ⟨_, t, hbuilt, ht, hsorts⟩

/-- Infinities of both signs, a zero of each sign and a repeat, and a limit that allows no sweep. -/
theorem decompose_ofDiagonal_six :
    let xs : Array Float := #[1.0 / 0.0, 2.0, -0.0, 2.0, -1.0 / 0.0, 0.0]
    ∃ a t, DenseMatrix.ofDiagonal xs = .ok a ∧
      (decompose ⟨some 0⟩ a).outcome = .ok (ofSpectrum true t) ∧
      ∃ σ : Equiv.Perm (Fin 6), (t.re 0 == xs[σ 0]) = true ∧ t.re 0 ≤ t.re 1 ∧
        t.vectors (σ 0) 0 = 1 := by
  intro xs
  have hn : 0 < xs.size := by decide
  have hfits : Size.entryBytes * (xs.size * xs.size) < Size.byteBound := by decide
  have hx : ∀ i : Fin xs.size, xs[i].isNaN = false := by decide +kernel
  obtain ⟨a, t, ha, hrun, σ, hsorts⟩ := decompose_ofDiagonal ⟨some 0⟩ hn hfits hx
  refine ⟨a, t, ha, congrArg Run.outcome hrun, σ, hsorts.re_beq 0, ?_, ?_⟩
  · exact hsorts.ascending 0 1 (by decide)
  · exact (hsorts.vectors_eq (σ 0) 0).trans (if_pos rfl)

end EigenDecomposition

end DenseDecomp
