import DenseDecomp.DenseMatrix.Exchange
import DenseDecomp.Proofs.HeldMatrix

namespace DenseDecomp

variable {α : Type}

theorem Run.exists_of_outcome_eq_ok {ε β γ δ : Type} {r : Run ε Unit} {q : Run ε β}
    {f : β → Run ε γ} {k : γ → δ} {x : δ}
    (h : (do r; let b ← q; let c ← f b; return k c : Run ε δ).outcome = .ok x) :
    ∃ c, k c = x := by
  obtain ⟨_, -, h⟩ := Run.outcome_bind_eq_ok.1 h
  obtain ⟨b, -, h⟩ := Run.outcome_bind_eq_ok.1 h
  obtain ⟨c, -, hx⟩ := Run.outcome_bind_pure_eq_ok.1 h
  exact ⟨c, hx⟩

namespace DenseMatrix

variable {m a b : DenseMatrix α} {r c : ℕ}

theorem wellFormed_ofGrid (g : Grid α r c) (hr : 0 < r) (hc : 0 < c)
    (hlt : r * c < Size.wordBound) : (ofGrid g).WellFormed := ⟨hr, hc, size_ofGrid g, hlt⟩

theorem bounds_of_allocate (h : (allocate r c : Outcome α Unit) = .ok ()) :
    0 < r ∧ 0 < c ∧ r * c < Size.wordBound := by
  obtain ⟨hr, hc, hfits⟩ := allocate_eq_ok_iff.1 h
  exact ⟨hr, hc, Size.lt_wordBound hfits⟩

theorem wellFormed_of_allocate {g : Grid α r c}
    (h : (do allocate r c; .ok (ofGrid g) : Outcome α (DenseMatrix α)) = .ok m) : m.WellFormed := by
  obtain ⟨_, halloc, h⟩ := Except.bind_eq_ok.1 h
  obtain rfl := Except.ok.inj h
  obtain ⟨hr, hc, hlt⟩ := bounds_of_allocate halloc
  exact wellFormed_ofGrid g hr hc hlt

theorem wellFormed_of_ofArray {data : Array α} (h : ofArray r c data = .ok m) : m.WellFormed := by
  obtain ⟨_, hshape, h⟩ := Except.bind_eq_ok.1 h
  obtain ⟨hr, hc⟩ := Size.checkShape_eq_ok_iff.1 hshape
  obtain ⟨k, hk, h⟩ := Except.bind_eq_ok.1 h
  obtain ⟨hlt, rfl⟩ := Size.mul_eq_ok_iff.1 hk
  split at h
  case isTrue hsize =>
    obtain rfl := Except.ok.inj h
    exact ⟨hr, hc, hsize, hlt⟩
  case isFalse => cases h

theorem size_flatMap_of_forall {rows : Array (Array α)} (h : ∀ row ∈ rows, row.size = c) :
    (rows.flatMap id).size = rows.size * c := by
  have hmap : rows.toList.map (fun row ↦ row.toList.length) =
      List.replicate rows.toList.length c := by
    refine List.map_eq_replicate_iff.2 fun row hrow ↦ ?_
    exact h row (Array.mem_toList_iff.1 hrow)
  rw [← Array.length_toList, Array.toList_flatMap, List.length_flatMap]
  simp only [id_eq]
  rw [hmap, List.sum_replicate, Array.length_toList, smul_eq_mul]

theorem wellFormed_of_ofRows {rows : Array (Array α)} (h : ofRows rows = .ok m) :
    m.WellFormed := by
  obtain ⟨_, hshape, h⟩ := Except.bind_eq_ok.1 h
  obtain ⟨hr, hc⟩ := Size.checkShape_eq_ok_iff.1 hshape
  obtain ⟨k, hk, h⟩ := Except.bind_eq_ok.1 h
  obtain ⟨hlt, rfl⟩ := Size.mul_eq_ok_iff.1 hk
  split at h
  case isTrue => cases h
  case isFalse hragged =>
    obtain rfl := Except.ok.inj h
    refine ⟨hr, hc, size_flatMap_of_forall fun row hrow ↦ ?_, hlt⟩
    by_contra hne
    refine hragged (Array.any_eq_true'.2 ⟨row, hrow, ?_⟩)
    rwa [bne_iff_ne]

theorem WellFormed.set (hm : m.WellFormed) {i j : ℕ} {x : α} (h : m.set i j x = .ok a) :
    a.WellFormed := by
  rw [DenseMatrix.set] at h
  split at h
  case isTrue =>
    obtain ⟨k, -, h⟩ := Except.bind_eq_ok.1 h
    split at h
    case isTrue hk =>
      obtain rfl := Except.ok.inj h
      exact ⟨hm.rows_pos, hm.cols_pos, (Array.size_set hk).trans hm.size_eq, hm.size_lt⟩
    case isFalse => cases h
  case isFalse => cases h

variable [Scalar α]

theorem wellFormed_of_zeros (h : zeros r c = .ok m) : m.WellFormed := by
  obtain ⟨_, halloc, h⟩ := Except.bind_eq_ok.1 h
  obtain rfl := Except.ok.inj h
  obtain ⟨hr, hc, hlt⟩ := bounds_of_allocate halloc
  exact ⟨hr, hc, Array.size_replicate, hlt⟩

theorem WellFormed.transpose (hm : m.WellFormed) : m.transpose.WellFormed :=
  wellFormed_ofGrid _ hm.cols_pos hm.rows_pos (Nat.mul_comm m.rows m.cols ▸ hm.size_lt)

theorem WellFormed.scale (hm : m.WellFormed) (x : α) : (m.scale x).WellFormed :=
  ⟨hm.rows_pos, hm.cols_pos, (Array.size_map).trans hm.size_eq, hm.size_lt⟩

theorem WellFormed.multiply (ha : a.WellFormed) (hb : b.WellFormed) (h : a.multiply b = .ok m) :
    m.WellFormed := by
  rw [DenseMatrix.multiply] at h
  split at h
  case isTrue =>
    obtain ⟨k, hk, h⟩ := Except.bind_eq_ok.1 h
    obtain ⟨hlt, -⟩ := Size.mul_eq_ok_iff.1 hk
    obtain ⟨_, -, h⟩ := Except.bind_eq_ok.1 h
    obtain rfl := Except.ok.inj h
    exact wellFormed_ofGrid _ ha.rows_pos hb.cols_pos hlt
  case isFalse => cases h

theorem WellFormed.sub (ha : a.WellFormed) (hb : b.WellFormed) (h : a.sub b = .ok m) :
    m.WellFormed := by
  rw [DenseMatrix.sub] at h
  split at h
  case isTrue hshape =>
    obtain rfl := Except.ok.inj h
    obtain ⟨hrows, hcols⟩ := Prod.mk.inj hshape
    have hsize : a.data.size = b.data.size := by rw [ha.size_eq, hb.size_eq, hrows, hcols]
    refine ⟨ha.rows_pos, ha.cols_pos, ?_, ha.size_lt⟩
    rw [Array.size_zipWith, hsize, Nat.min_self, ← hsize, ha.size_eq]
  case isFalse => cases h

end DenseMatrix

section Exchange

variable [Scalar α] {m : DenseMatrix α}

theorem ColumnMajor.wellFormed_of_toDense {x : ColumnMajor α} (h : x.toDense = .ok m) :
    m.WellFormed := DenseMatrix.wellFormed_of_allocate h

theorem Strided.wellFormed_of_toDense {x : Strided α} (h : x.toDense = .ok m) : m.WellFormed := by
  obtain ⟨_, hshape, h⟩ := Except.bind_eq_ok.1 h
  obtain ⟨hr, hc⟩ := Size.checkShape_eq_ok_iff.1 hshape
  obtain ⟨k, hk, h⟩ := Except.bind_eq_ok.1 h
  obtain ⟨hlt, -⟩ := Size.mul_eq_ok_iff.1 hk
  obtain rfl := Except.ok.inj h
  exact DenseMatrix.wellFormed_ofGrid _ hr hc hlt

end Exchange

namespace Cholesky

variable [Scalar α] {a b m : DenseMatrix α} {c : Cholesky α}

theorem wellFormed_of_decompose (ha : a.WellFormed) (h : (decompose a).outcome = .ok c) :
    c.WellFormed := by
  rw [decompose] at h
  split at h
  case isTrue hsq =>
    obtain ⟨_, -, h⟩ := Run.outcome_bind_eq_ok.1 h
    obtain ⟨g, -, h⟩ := Run.outcome_bind_eq_ok.1 h
    have hc : c = ⟨.ofGrid (CholeskyFactor.factor g), CholeskyFactor.isPositiveDefinite g⟩ := by
      cases hspd : CholeskyFactor.isPositiveDefinite g with
      | true =>
        rw [hspd] at h
        exact (Except.ok.inj h).symm
      | false =>
        rw [hspd] at h
        exact (Except.ok.inj h).symm
    have hlt := ha.size_lt
    rw [← hsq] at hlt
    rw [hc]
    exact ⟨DenseMatrix.wellFormed_ofGrid _ ha.rows_pos ha.rows_pos hlt, rfl⟩
  case isFalse => cases h

theorem wellFormed_of_solve (hb : b.WellFormed) (h : c.solve b = .ok m) : m.WellFormed := by
  rw [solve] at h
  split at h
  case isTrue hrows =>
    split at h
    case isTrue =>
      obtain ⟨l, -, h⟩ := Except.bind_eq_ok.1 h
      obtain ⟨x, -, h⟩ := Except.bind_eq_ok.1 h
      obtain rfl := Except.ok.inj h
      have hn := hb.rows_pos
      have hlt := hb.size_lt
      rw [hrows] at hn hlt
      exact DenseMatrix.wellFormed_ofGrid _ hn hb.cols_pos hlt
    case isFalse => cases h
  case isFalse => cases h

theorem wellFormed_of_inverse (h : c.inverse = .ok m) : m.WellFormed := by
  obtain ⟨b, hb, h⟩ := Except.bind_eq_ok.1 h
  exact wellFormed_of_solve (DenseMatrix.wellFormed_of_allocate hb) h

end Cholesky

namespace EigenDecomposition

variable {n : ℕ}

theorem wellFormed_ofSpectrum (symmetric : Bool) (s : Spectrum α n) (hn : 0 < n)
    (hlt : n * n < Size.wordBound) : (ofSpectrum symmetric s).WellFormed :=
  ⟨DenseMatrix.wellFormed_ofGrid _ hn hn hlt, rfl, s.re.size_toArray, s.im.size_toArray⟩

variable [Scalar α] {a m : DenseMatrix α} {x : EigenDecomposition α}

theorem decompose_eq (config : EigenConfig) (data : Array α) :
    decompose config ⟨n + 1, n + 1, data⟩ =
      if (⟨n + 1, n + 1, data⟩ : DenseMatrix α).isSymmetric then do
        Run.emit (.symmetricInput (n + 1))
        let g ← Run.ofOutcome ((⟨n + 1, n + 1, data⟩ : DenseMatrix α).toGrid (n + 1) (n + 1))
        let s ← Spectrum.ofSymmetric config g
        return ofSpectrum true s
      else do
        Run.emit (.generalInput (n + 1))
        Run.ofOutcome (DenseMatrix.allocate (n + 1) (n + 1))
        let g ← Run.ofOutcome ((⟨n + 1, n + 1, data⟩ : DenseMatrix α).toGrid (n + 1) (n + 1))
        let s ← Spectrum.ofGeneral config g
        return ofSpectrum false s := if_pos rfl

theorem exists_ofSpectrum {config : EigenConfig} {data : Array α}
    (h : (decompose config ⟨n + 1, n + 1, data⟩).outcome = .ok x) :
    ∃ (symmetric : Bool) (s : Spectrum α (n + 1)), ofSpectrum symmetric s = x := by
  rw [decompose_eq] at h
  by_cases hsymm : (⟨n + 1, n + 1, data⟩ : DenseMatrix α).isSymmetric
  · rw [if_pos hsymm, Run.outcome_emit_bind] at h
    obtain ⟨g, -, h⟩ := Run.outcome_bind_eq_ok.1 h
    obtain ⟨s, -, hx⟩ := Run.outcome_bind_pure_eq_ok.1 h
    exact ⟨true, s, hx⟩
  · rw [if_neg hsymm, Run.outcome_emit_bind] at h
    exact ⟨false, Run.exists_of_outcome_eq_ok h⟩

theorem wellFormed_of_decompose {config : EigenConfig} (ha : a.WellFormed)
    (h : (decompose config a).outcome = .ok x) : x.WellFormed := by
  by_cases hsq : a.rows = a.cols
  · obtain ⟨r, c, data⟩ := a
    obtain rfl : r = c := hsq
    obtain ⟨n, rfl⟩ := Nat.exists_eq_succ_of_ne_zero ha.rows_pos.ne'
    obtain ⟨symmetric, s, hs⟩ := exists_ofSpectrum h
    rw [← hs]
    exact wellFormed_ofSpectrum symmetric s ha.rows_pos ha.size_lt
  · rw [decompose, if_neg hsq] at h
    cases h

theorem wellFormed_of_blockDiagonal (hx : x.WellFormed) (h : x.blockDiagonal = .ok m) :
    m.WellFormed := by
  have hn : 0 < x.dimension := by
    rw [dimension, hx.re_size]
    exact hx.vectors.rows_pos
  obtain ⟨k, hk, h⟩ := Except.bind_eq_ok.1 h
  obtain ⟨hlt, -⟩ := Size.mul_eq_ok_iff.1 hk
  obtain ⟨_, -, h⟩ := Except.bind_eq_ok.1 h
  split at h
  case h_1 re im _ _ =>
    obtain rfl := Except.ok.inj h
    exact DenseMatrix.wellFormed_ofGrid _ hn hn hlt
  case h_2 => cases h

end EigenDecomposition

end DenseDecomp
