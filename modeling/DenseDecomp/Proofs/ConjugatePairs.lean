import Mathlib
import DenseDecomp.Proofs.Binary64.Order
import DenseDecomp.Proofs.GeneralSpectrum

namespace DenseDecomp

open Scalar

variable {n : ℕ}

theorem Tuple.set_comm {α : Type} {i j : Fin n} (hij : i ≠ j) (x : Tuple α n) (u v : α) :
    (x.set i u).set j v = (x.set j v).set i u := by
  ext k
  simp only [Tuple.set_apply]
  by_cases hj : k = j
  · rw [if_pos hj, if_neg (hj ▸ hij.symm), if_pos hj]
  · rw [if_neg hj, if_neg hj]

/-- From the index `top` on, the eigenvalues are conjugate pairs, each begun by an index of `first`,
and single real ones between them. What is not a number stands in both places of a pair. -/
structure ConjugatePairs (top : ℕ) (first : Fin n → Prop) (re im : Tuple Float n) : Prop where
  le_of_first : ∀ i, first i → top ≤ i.val
  pair : ∀ i, first i → ∃ j : Fin n, i.val + 1 = j.val ∧ ¬ first j ∧ re j = re i ∧ im j = -im i ∧
    (0 < im i ∨ (im i).isNaN = true ∧ (im j).isNaN = true)
  single : ∀ i : Fin n, top ≤ i.val → ¬ first i → (∀ j : Fin n, j.val + 1 = i.val → ¬ first j) →
    im i = 0

namespace ConjugatePairs

variable {top : ℕ} {first : Fin n → Prop} {re im : Tuple Float n} {a b : Fin n}

theorem empty (re im : Tuple Float n) : ConjugatePairs n (fun _ ↦ False) re im where
  le_of_first _ := False.elim
  pair _ := False.elim
  single i hi := absurd hi (Nat.not_le_of_lt i.isLt)

theorem real (h : ∀ i, im i = 0) : ConjugatePairs 0 (fun _ ↦ False) re im where
  le_of_first _ := False.elim
  pair _ := False.elim
  single i _ _ _ := h i

theorem setSingle (h : ConjugatePairs (b + 1) first re im) (x : Float) :
    ConjugatePairs b first (re.set b x) (im.set b 0) where
  le_of_first i hi := (Nat.le_succ _).trans (h.le_of_first i hi)
  pair i hi := by
    have hbi := h.le_of_first i hi
    obtain ⟨j, hij, hpair⟩ := h.pair i hi
    have hib : i ≠ b := fun heq ↦ by
      rw [heq] at hbi
      omega
    have hjb : j ≠ b := fun heq ↦ by
      rw [heq] at hij
      omega
    refine ⟨j, hij, ?_⟩
    rwa [Tuple.set_apply, Tuple.set_apply, Tuple.set_apply, Tuple.set_apply, if_neg hib, if_neg hib,
      if_neg hjb, if_neg hjb]
  single i hi hfirst hnext := by
    rw [Tuple.set_apply]
    split
    case isTrue => rfl
    case isFalse hib =>
      have hib' : i.val ≠ b := Fin.val_ne_of_ne hib
      exact h.single i (by omega) hfirst hnext

theorem setPair (h : ConjugatePairs (b + 1) first re im) (hab : a.val + 1 = b.val) (x : Float)
    {y : Float} (hy : 0 < y ∨ y.isNaN = true) :
    ConjugatePairs a (fun i ↦ i = a ∨ first i) ((re.set a x).set b x) ((im.set a y).set b (-y)) := by
  have hne : a ≠ b := fun heq ↦ by
    rw [heq] at hab
    omega
  have hfirst : ∀ i, first i → i ≠ a ∧ i ≠ b := fun i hi ↦ by
    have hle := h.le_of_first i hi
    constructor
    · rintro rfl
      omega
    · rintro rfl
      omega
  constructor
  case le_of_first =>
    rintro i (rfl | hi)
    · exact le_rfl
    · have hle := h.le_of_first i hi
      omega
  case pair =>
    rintro i (rfl | hi)
    · refine ⟨b, hab, ?_, ?_, ?_, ?_⟩
      · rintro (rfl | hb)
        · exact hne rfl
        · exact (hfirst b hb).2 rfl
      · rw [Tuple.set_apply, if_pos rfl, Tuple.set_apply, if_neg hne, Tuple.set_apply, if_pos rfl]
      · rw [Tuple.set_apply, if_pos rfl, Tuple.set_apply, if_neg hne, Tuple.set_apply, if_pos rfl]
      · rw [Tuple.set_apply, if_neg hne, Tuple.set_apply, if_pos rfl, Tuple.set_apply, if_pos rfl,
          Binary64.isNaN_neg, and_self]
        exact hy
    · have hle := h.le_of_first i hi
      obtain ⟨j, hij, hj, hpair⟩ := h.pair i hi
      have hja : j ≠ a := fun heq ↦ by
        rw [heq] at hij
        omega
      have hjb : j ≠ b := fun heq ↦ by
        rw [heq] at hij
        omega
      refine ⟨j, hij, not_or.2 ⟨hja, hj⟩, ?_⟩
      simpa only [Tuple.set_apply, if_neg (hfirst i hi).1, if_neg (hfirst i hi).2, if_neg hja,
        if_neg hjb] using hpair
  case single =>
    intro i hi hnot hnext
    obtain ⟨hia, hnot⟩ := not_or.1 hnot
    have hib : i ≠ b := fun heq ↦ hnext a (by rw [heq, hab]) (.inl rfl)
    rw [Tuple.set_apply, if_neg hib, Tuple.set_apply, if_neg hia]
    have hia' := Fin.val_ne_of_ne hia
    have hib' := Fin.val_ne_of_ne hib
    exact h.single i (by omega) hnot fun j hj hfirst ↦ hnext j hj (.inr hfirst)

/-- The lower index of a pair, and no other one, has a negative imaginary part. -/
theorem exists_first_of_neg (h : ConjugatePairs 0 first re im) {i : Fin n} (hi : im i < 0) :
    ∃ j : Fin n, first j ∧ j.val + 1 = i.val ∧ 0 < im j := by
  have hnot : ¬ first i := fun hfirst ↦ by
    obtain ⟨-, -, -, -, -, hpos | ⟨hnan, -⟩⟩ := h.pair i hfirst
    · exact Binary64.lt_asymm hi hpos
    · exact absurd hnan (by rw [(Binary64.not_isNaN_of_lt hi).1]; decide)
  obtain ⟨j, hji, hfirst⟩ : ∃ j : Fin n, j.val + 1 = i.val ∧ first j := by
    by_contra hnone
    have hzero := h.single i (Nat.zero_le _) hnot fun j hj hfirst ↦ hnone ⟨j, hj, hfirst⟩
    rw [hzero] at hi
    exact Binary64.lt_asymm hi hi
  obtain ⟨i', hi', -, -, -, hpos | ⟨-, hnan⟩⟩ := h.pair j hfirst
  · exact ⟨j, hfirst, hji, hpos⟩
  · have heq : i' = i := Fin.ext (hi'.symm.trans hji)
    rw [heq, (Binary64.not_isNaN_of_lt hi).1] at hnan
    cases hnan

theorem not_neg_of_zero (h : ConjugatePairs 0 first re im) {i : Fin n} (hi : i.val = 0) :
    ¬ im i < 0 := fun hneg ↦ by
  obtain ⟨j, -, hj, -⟩ := h.exists_first_of_neg hneg
  omega

theorem first_of_pos (h : ConjugatePairs 0 first re im) {i : Fin n} (hi : 0 < im i) : first i := by
  by_contra hnot
  by_cases hnext : ∃ j : Fin n, j.val + 1 = i.val ∧ first j
  · obtain ⟨j, hji, hfirst⟩ := hnext
    obtain ⟨i', hi', -, -, him, hpos | ⟨-, hnan⟩⟩ := h.pair j hfirst
    · rw [← show i' = i from Fin.ext (hi'.symm.trans hji), him] at hi
      exact Binary64.lt_asymm hi (Binary64.neg_lt_zero hpos)
    · rw [show i' = i from Fin.ext (hi'.symm.trans hji), (Binary64.not_isNaN_of_lt hi).2] at hnan
      cases hnan
  · have hzero := h.single i (Nat.zero_le _) hnot fun j hj hfirst ↦ hnext ⟨j, hj, hfirst⟩
    rw [hzero] at hi
    exact Binary64.lt_asymm hi hi

end ConjugatePairs

namespace RealSchur

section Sweep

variable {α : Type} [Scalar α]

theorem reflect_values (l m b k : ℕ) (hb : b < n) (hk : k + 1 ≤ b) (u : Lead α)
    (s : RealSchur α n) :
    (s.reflect l m b k hb hk u).re = s.re ∧ (s.reflect l m b k hb hk u).im = s.im := by
  rw [reflect]
  split
  · exact ⟨rfl, rfl⟩
  · exact ⟨rfl, rfl⟩

theorem chase_values (l m : ℕ) {b : ℕ} (hb : b < n) (k : ℕ) (hk : k + 1 ≤ b) (u : Lead α)
    (s : RealSchur α n) : (chase l m hb k hk u s).re = s.re ∧ (chase l m hb k hk u s).im = s.im := by
  fun_induction chase l m hb k hk u s with
  | case1 => exact ⟨rfl, rfl⟩
  | case2 k hk u s hsize s' hnext u' ih =>
    obtain ⟨hre, him⟩ := reflect_values l m b k hb hk u s
    exact ⟨ih.1.trans hre, ih.2.trans him⟩
  | case3 k hk u s hsize s' hlast => exact reflect_values l m b k hb hk u s

theorem sweep_values (l : ℕ) {b : ℕ} (hb : b < n) (hl : l + 2 ≤ b) (t : DoubleShift α)
    (s : RealSchur α n) : (s.sweep l hb hl t).re = s.re ∧ (s.sweep l hb hl t).im = s.im := by
  rw [sweep, sweepFrom]
  exact chase_values ..

theorem nextShift_values (done : ℕ) (c a b : Fin n) (s : RealSchur α n) :
    (s.nextShift done c a b).2.2.re = s.re ∧ (s.nextShift done c a b).2.2.im = s.im := by
  rw [nextShift]
  split
  · exact ⟨rfl, rfl⟩
  · split
    · split
      · exact ⟨rfl, rfl⟩
      · exact ⟨rfl, rfl⟩
    · exact ⟨rfl, rfl⟩

end Sweep

variable {config : EigenConfig} {norm : Float} {s s' : RealSchur Float n}

theorem conjugatePairs_splitPair {a b : Fin n} (hab : a.val + 1 = b.val) {first : Fin n → Prop}
    (h : ConjugatePairs (b + 1) first s.re s.im) (z w : Float) :
    ConjugatePairs a first (s.splitPair a b z w).re (s.splitPair a b z w).im := by
  have hne : a ≠ b := fun heq ↦ by
    rw [heq] at hab
    omega
  rw [splitPair, Tuple.set_comm hne, Tuple.set_comm hne]
  refine ConjugatePairs.setSingle ?_ _
  rw [hab]
  exact h.setSingle _

theorem conjugatePairs_deflatePair {a b : Fin n} (hab : a.val + 1 = b.val) {first : Fin n → Prop}
    (h : ConjugatePairs (b + 1) first s.re s.im) :
    ∃ first', ConjugatePairs a first' (s.deflatePair a b).re (s.deflatePair a b).im := by
  rw [deflatePair]
  split
  case isTrue => exact ⟨first, conjugatePairs_splitPair hab h _ _⟩
  case isFalse hneg => exact ⟨_, h.setPair hab _ (Binary64.sqrt_abs_cases _ hneg)⟩

theorem conjugatePairs_settle {top : ℕ} {ht : top ≤ n} {done : ℕ}
    (h : (settle config norm top ht done s).outcome = .ok s')
    (hs : ∃ first, ConjugatePairs top first s.re s.im) :
    ∃ first, ConjugatePairs 0 first s'.re s'.im := by
  refine settle_invariant (P := fun t r ↦ ∃ first, ConjugatePairs t first r.re r.im)
    (fun b r hr _ ↦ ?_) (fun a b r hr _ hab ↦ ?_) (fun done c a b r hr ↦ ?_)
    (fun b l hl t r hr ↦ ?_) hs h
  · obtain ⟨first, hr⟩ := hr
    exact ⟨first, hr.setSingle _⟩
  · obtain ⟨first, hr⟩ := hr
    exact conjugatePairs_deflatePair hab hr
  · obtain ⟨hre, him⟩ := nextShift_values done c a b r
    rwa [hre, him]
  · obtain ⟨hre, him⟩ := sweep_values l b.isLt hl t r
    rwa [hre, him]

end RealSchur

end DenseDecomp
