import DenseDecomp.Proofs.LostSweeps
import DenseDecomp.Proofs.MatrixExchange
import DenseDecomp.Proofs.TwoRows

namespace DenseDecomp

open Scalar Binary64

variable {n : ℕ} {config : EigenConfig}

theorem DenseMatrix.exists_mem_data_ofGrid_iff {α : Type} {r c : ℕ} {g : Grid α r c}
    {P : α → Prop} : (∃ z ∈ (ofGrid g).data, P z) ↔ ∃ i j, P (g i j) := by
  constructor
  · rintro ⟨z, hz, h⟩
    obtain ⟨k, rfl⟩ := Array.mem_ofFn.1 hz
    exact ⟨_, _, h⟩
  · rintro ⟨i, j, h⟩
    exact ⟨g i j, Array.mem_of_getElem? (getElem?_ofGrid g i j), h⟩

namespace RealSchur

/-- The rows `a` and `b` are left as a block of their own, with `x` for its trailing entry and `p`
and `w` for the terms of its discriminant. -/
structure PairFound (norm : Float) (s : RealSchur Float n) (a b : Fin n) (x p w : Float) :
    Prop where
  last : a.val + 1 = b.val
  start : blockStart norm s.form b b.isLt = a
  trailing : s.form b b + s.shift = x
  half : (s.form a a - s.form b b) / 2.0 = p
  product : s.form b a * s.form a b = w
  isFinite_trailing : x.isFinite = true
  isNaN_half : p.isNaN = false
  isNaN_product : w.isNaN = false

variable {norm : Float} {s₀ s s' : RealSchur Float n} {a b : Fin n} {x p w : Float} {top done : ℕ}

theorem PairFound.ne (h : PairFound norm s a b x p w) : a ≠ b := fun heq ↦ by
  have hlast := h.last
  rw [heq] at hlast
  omega

/-- What a run has settled stands in its last state. -/
theorem Reached.keepsIndex (hs : Reached config norm s₀ top done s)
    (hs' : (settle config norm n le_rfl 0 s₀).outcome = .ok s') {i : Fin n} (hi : top ≤ i.val) :
    KeepsIndex i s s' :=
  settle_keepsIndex (hs.outcome_settle.symm.trans hs') hi

end RealSchur

open RealSchur (KeepsIndex PairFound Reached farRoot hessenbergNorm settleTwo)

namespace Spectrum

/-- What a spectrum owes to the rows `a` and `b` that the state `s` is left with. -/
structure OwesPair (s : RealSchur Float n) (a b : Fin n) (p w : Float) (t : Spectrum Float n) :
    Prop where
  values : (((t.re a).isNaN = true ∨ (t.im a).isNaN = true) ∨
    (t.re b).isNaN = true ∨ (t.im b).isNaN = true) ↔ RealSchur.Overflows p w
  vectors : 0 ≤ p * p + w → ¬ Turns (s.form b a) (farRoot p w) →
    ∀ i j, j = a ∨ j = b → (t.vectors i j).isNaN = true
  basis : 0 ≤ p * p + w → ∀ r, (s.basis r a).isFinite = true → (s.basis r b).isFinite = true →
    |toReal (s.basis r a)| ≤ maxFinite / 16 → |toReal (s.basis r b)| ≤ maxFinite / 16 →
    ((((s.deflatePair a b).basis r a).isNaN = true ∨
      ((s.deflatePair a b).basis r b).isNaN = true) ↔ ¬ Turns (s.form b a) (farRoot p w))

theorem isNaN_vectors_of_basis {t : Spectrum Float n} {v : Grid Float n n}
    (h : t.vectors = v ∨ ∃ x, t.vectors = changeBasis v x) {i j : Fin n}
    (hv : (v i j).isNaN = true) : (t.vectors i j).isNaN = true := by
  obtain h | ⟨x, h⟩ := h
  · rw [h]
    exact hv
  · rw [h]
    exact isNaN_changeBasis le_rfl hv

theorem owesPair_of_reached {form basis : Grid Float n n} {s : RealSchur Float n} {a b : Fin n}
    {x p w : Float} {done : ℕ} (hs : Reached config (hessenbergNorm form)
      (.ofHessenberg form basis) (b + 1) done s)
    (hpair : PairFound (hessenbergNorm form) s a b x p w) {t : Spectrum Float n}
    (ht : (ofHessenberg config form basis).outcome = .ok t) : OwesPair s a b p w t := by
  obtain ⟨s', hs', hre, him, hvectors⟩ := exists_settle_of_ofHessenberg ht
  have hsettled := hs.pair hpair.last hpair.start
  have hkept : ∀ i, i = a ∨ i = b → KeepsIndex i (s.deflatePair a b) s' := by
    rintro i (rfl | rfl)
    · exact hsettled.keepsIndex hs' le_rfl
    · exact hsettled.keepsIndex hs' (by have := hpair.last; omega)
  have ha := hkept a (.inl rfl)
  have hb := hkept b (.inr rfl)
  refine ⟨?_, fun hq hturns i j hj ↦ ?_, fun hq r hfa hfb hale hble ↦ ?_⟩
  · rw [hre, him, ha.re_eq, ha.im_eq, hb.re_eq, hb.im_eq]
    exact RealSchur.notNumber_deflatePair_iff hpair.ne hpair.trailing hpair.half hpair.product
      hpair.isFinite_trailing hpair.isNaN_half hpair.isNaN_product
  · refine isNaN_vectors_of_basis hvectors ?_
    rw [(hkept j hj).basis_eq, RealSchur.deflatePair_eq_splitPair hpair.half hpair.product hq]
    obtain ⟨hlost, hlost'⟩ := RealSchur.isNaN_basis_splitPair hpair.ne hturns w i
    obtain rfl | rfl := hj
    · exact hlost
    · exact hlost'
  · exact RealSchur.isNaN_basis_deflatePair_iff hpair.ne hpair.half hpair.product hq r hfa hfb hale
      hble

end Spectrum

namespace EigenDecomposition

structure Numbers (x : EigenDecomposition Float) : Prop where
  re : ∀ z ∈ x.re, z.isNaN = false
  im : ∀ z ∈ x.im, z.isNaN = false
  vectors : ∀ z ∈ x.vectors.data, z.isNaN = false

theorem exists_isNaN_ofSpectrum_iff {v : Grid Float n n} {s : RealSchur Float n} :
    (∃ z, (z ∈ (ofSpectrum false ⟨v, s.re, s.im⟩).re ∨ z ∈ (ofSpectrum false ⟨v, s.re, s.im⟩).im) ∧
      z.isNaN = true) ↔ ∃ i, s.NotNumber i := by
  simp only [ofSpectrum, Tuple.toArray_eq_ofFn, Array.mem_ofFn, RealSchur.NotNumber]
  constructor
  · rintro ⟨z, ⟨i, rfl⟩ | ⟨i, rfl⟩, hz⟩
    · exact ⟨i, .inl hz⟩
    · exact ⟨i, .inr hz⟩
  · rintro ⟨i, hi | hi⟩
    · exact ⟨_, .inl ⟨i, rfl⟩, hi⟩
    · exact ⟨_, .inr ⟨i, rfl⟩, hi⟩

theorem hessenbergNorm_two_ne_zero {g : Grid Float 2 2} (hg : ∀ i j, (g i j).isFinite = true)
    (hgeneral : (DenseMatrix.ofGrid g).isSymmetric = false) : ¬ (hessenbergNorm g == 0) = true := by
  intro hnorm
  obtain ⟨hupper, hlower⟩ := RealSchur.hessenbergNorm_two hg hnorm
  have hsymm : (DenseMatrix.ofGrid g).isSymmetric = true := by
    refine (DenseMatrix.isSymmetric_ofGrid_iff g).2 fun i j hji ↦ ?_
    obtain ⟨rfl, rfl⟩ : i = 1 ∧ j = 0 := by omega
    exact beq_iff.2 ⟨(beq_iff.1 hlower).1, (beq_iff.1 hupper).1,
      (beq_iff.1 hlower).2.2.trans (beq_iff.1 hupper).2.2.symm⟩
  cases hgeneral.symm.trans hsymm

theorem exists_spectrum_two (config : EigenConfig) {g : Grid Float 2 2}
    (hg : ∀ i j, (g i j).isFinite = true)
    (hgeneral : (DenseMatrix.ofGrid g).isSymmetric = false) :
    ∃ v, (Spectrum.ofGeneral config g).outcome = .ok
        ⟨v, (settleTwo (hessenbergNorm g) g Hessenberg.unit).re,
          (settleTwo (hessenbergNorm g) g Hessenberg.unit).im⟩ ∧
      ((∃ i j, (v i j).isNaN = true) ↔ RealSchur.VectorsLost (hessenbergNorm g) g) := by
  have hs := RealSchur.outcome_settle_two config (hessenbergNorm g) g Hessenberg.unit
  obtain ⟨x, hx, hiff⟩ := RealSchur.exists_isNaN_vectors_iff (hessenbergNorm g) hg
  refine ⟨_, ?_, hiff⟩
  have hrun := Spectrum.ofHessenberg_of_eigenvectors hs (hessenbergNorm_two_ne_zero hg hgeneral) hx
  have hbasis := Hessenberg.basis_reduce_two g
  rw [Spectrum.ofGeneral, hbasis]
  simp only [Hessenberg.reduce_two]
  exact hrun

/-- Where a decomposition that succeeds has lost its numbers. In a run over any matrix, a block of
two rows loses its eigenvalues exactly where the product of its corners leaves the range, and both
columns of eigenvectors where the rotation that separates its roots has no direction. For two rows
these, and what the upper row of the back substitution loses, are all there is. -/
theorem decompose_isNaN_iff (config : EigenConfig) :
    (∀ {m : ℕ} {g : Grid Float (m + 1) (m + 1)} {s : RealSchur Float (m + 1)} {a b : Fin (m + 1)}
      {x p w : Float} {done : ℕ} {y : EigenDecomposition Float},
      (DenseMatrix.ofGrid g).Held → (DenseMatrix.ofGrid g).isSymmetric = false →
      Reached config (hessenbergNorm (Hessenberg.reduce g).form) (initial g) (b + 1) done s →
      PairFound (hessenbergNorm (Hessenberg.reduce g).form) s a b x p w →
      (decompose config (.ofGrid g)).outcome = .ok y →
      ∃ t : Spectrum Float (m + 1), y = ofSpectrum false t ∧ t.OwesPair s a b p w) ∧
    ∀ {g : Grid Float 2 2}, (∀ i j, (g i j).isFinite = true) →
      (DenseMatrix.ofGrid g).isSymmetric = false →
      ∃ x, (decompose config (.ofGrid g)).outcome = .ok x ∧
        ((∃ z, (z ∈ x.re ∨ z ∈ x.im) ∧ z.isNaN = true) ↔
          ¬ RealSchur.Negligible (hessenbergNorm g) g 0 1 ∧
            RealSchur.Overflows ((g 0 0 - g 1 1) / 2.0) (g 1 0 * g 0 1)) ∧
        ((∃ z ∈ x.vectors.data, z.isNaN = true) ↔
          RealSchur.VectorsLost (hessenbergNorm g) g) := by
  constructor
  · intro m g s a b x p w done y hheld hgeneral hs hpair hy
    obtain ⟨t, ht, rfl⟩ := (decompose_eq_ok_iff_of_general hheld hgeneral).1 hy
    exact ⟨t, rfl, Spectrum.owesPair_of_reached hs hpair ht⟩
  · intro g hg hgeneral
    have hheld : (DenseMatrix.ofGrid g).Held :=
      DenseMatrix.held_ofGrid g (by decide) (by decide) (by decide)
    obtain ⟨v, hv, hvectors⟩ := exists_spectrum_two config hg hgeneral
    refine ⟨_, (decompose_eq_ok_iff_of_general hheld hgeneral).2 ⟨_, hv, rfl⟩, ?_, ?_⟩
    · exact exists_isNaN_ofSpectrum_iff.trans
        (RealSchur.exists_notNumber_settleTwo_iff (hessenbergNorm g) Hessenberg.unit hg)
    · exact DenseMatrix.exists_mem_data_ofGrid_iff.trans hvectors

/-- With `2⁷⁰⁰` in a block of three rows both roots of it are infinite; two such rows with opposite
corners make a pair without a value, and two rows of the least value leave nothing to rotate by. -/
theorem decompose_isNaN_iff_block :
    let bordered : Grid Float 3 3 := Grid.ofFn fun i j ↦
      (#v[#v[5.260135901548374e210, 1.0520271803096747e211, 0],
        #v[5.260135901548374e210, 5.260135901548374e210, 0], #v[0, 0, 1]].get i).get j
    let large : Grid Float 2 2 := Grid.ofFn fun i j ↦
      (#v[#v[1.0520271803096747e211, -5.260135901548374e210],
        #v[5.260135901548374e210, -1.0520271803096747e211]].get i).get j
    let least : Grid Float 2 2 := Grid.ofFn fun i j ↦
      (#v[#v[5e-324, 5e-324], #v[0, 5e-324]].get i).get j
    (∃ t : Spectrum Float 3,
      (decompose .unlimited (.ofGrid bordered)).outcome = .ok (ofSpectrum false t) ∧
      (((t.re 0).isNaN = true ∨ (t.im 0).isNaN = true) ∨
        (t.re 1).isNaN = true ∨ (t.im 1).isNaN = true) ∧
      ∀ i j, j = 0 ∨ j = 1 → (t.vectors i j).isNaN = true) ∧
    (∃ x, (decompose .unlimited (.ofGrid large)).outcome = .ok x ∧
      ∃ z, (z ∈ x.re ∨ z ∈ x.im) ∧ z.isNaN = true) ∧
    ∃ x, (decompose .unlimited (.ofGrid least)).outcome = .ok x ∧
      (¬ ∃ z, (z ∈ x.re ∨ z ∈ x.im) ∧ z.isNaN = true) ∧ ∃ z ∈ x.vectors.data, z.isNaN = true := by
  intro bordered large least
  obtain ⟨hblock, htwo⟩ := decompose_isNaN_iff .unlimited
  refine ⟨?_, ?_, ?_⟩
  · let norm := hessenbergNorm (Hessenberg.reduce bordered).form
    let s := (initial bordered).deflateOne 2
    have hheld : (DenseMatrix.ofGrid bordered).Held :=
      DenseMatrix.held_ofGrid _ (by decide) (by decide) (by decide)
    have hgeneral : (DenseMatrix.ofGrid bordered).isSymmetric = false := by decide +kernel
    have hlast : RealSchur.blockStart norm (initial bordered).form 2 (by decide) = 2 := by
      decide +kernel
    have hreached : Reached .unlimited norm (initial bordered) ((1 : Fin 3) + 1) 0 s :=
      Reached.single (b := 2) .start hlast
    have hpair : PairFound norm s 0 1 (s.form 1 1 + s.shift)
        ((s.form 0 0 - s.form 1 1) / 2.0) (s.form 1 0 * s.form 0 1) :=
      ⟨rfl, by decide +kernel, rfl, rfl, rfl, by decide +kernel, by decide +kernel,
        by decide +kernel⟩
    have hok : (decompose .unlimited (.ofGrid bordered)).outcome.toOption.isSome = true := by
      decide +kernel
    cases hy : (decompose .unlimited (.ofGrid bordered)).outcome with
    | error e =>
      rw [hy] at hok
      cases hok
    | ok y =>
      obtain ⟨t, rfl, ht⟩ := hblock hheld hgeneral hreached hpair hy
      refine ⟨t, rfl, ht.values.2 ⟨by decide +kernel, by decide +kernel⟩,
        ht.vectors (by decide +kernel) fun hturns ↦ ?_⟩
      have hlost : ((s.form 1 0).abs + (farRoot ((s.form 0 0 - s.form 1 1) / 2.0)
          (s.form 1 0 * s.form 0 1)).abs).isFinite = false := by decide +kernel
      cases hlost.symm.trans hturns.isFinite
  · obtain ⟨x, hx, hvalues, -⟩ := htwo (g := large) (by decide +kernel) (by decide +kernel)
    exact ⟨x, hx, hvalues.2 ⟨by decide +kernel, by decide +kernel, by decide +kernel⟩⟩
  · obtain ⟨x, hx, hvalues, hvectors⟩ := htwo (g := least) (by decide +kernel) (by decide +kernel)
    have hproduct : (least 1 0 * least 0 1).isInf = false := by decide +kernel
    refine ⟨x, hx, fun h ↦ ?_, hvectors.2 ?_⟩
    · cases hproduct.symm.trans (hvalues.1 h).2.1
    · have hlinked : ¬ RealSchur.Negligible (hessenbergNorm least) least 0 1 := by decide +kernel
      rw [RealSchur.VectorsLost, if_neg hlinked, if_pos (by decide +kernel)]
      exact .inl fun hturns ↦ hturns.ne_zero (by decide +kernel)

theorem not_forall_numbers_decompose :
    ¬ ∀ (config : EigenConfig) (a : DenseMatrix Float) (x : EigenDecomposition Float),
      a.Held → a.rows = a.cols → (∀ z ∈ a.data, z.isFinite = true) →
        (decompose config a).outcome = .ok x → x.Numbers := by
  intro h
  let a : DenseMatrix Float := ⟨2, 2, #[1.0520271803096747e211, -5.260135901548374e210,
    5.260135901548374e210, -1.0520271803096747e211]⟩
  have hheld : a.Held := ⟨⟨by decide, by decide, by decide, by decide⟩, by decide⟩
  have hfinite : ∀ z ∈ a.data, z.isFinite = true := by decide +kernel
  have him : (decompose .unlimited a).outcome.toOption.map (·.im.any Float.isNaN) = some true := by
    decide +kernel
  cases hx : (decompose .unlimited a).outcome with
  | error e =>
    rw [hx] at him
    cases him
  | ok x =>
    rw [hx] at him
    obtain ⟨z, hz, hnan⟩ := Array.any_eq_true'.1 (Option.some.inj him)
    rw [(h .unlimited a x hheld rfl hfinite hx).im z hz] at hnan
    cases hnan

end EigenDecomposition

end DenseDecomp
