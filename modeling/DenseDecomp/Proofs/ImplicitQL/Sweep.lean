import Mathlib.Data.Real.Basic
import DenseDecomp.Proofs.GridMatrix
import DenseDecomp.Proofs.ImplicitQL.Chase
import DenseDecomp.Proofs.Loop

namespace DenseDecomp.ImplicitQL

open Matrix Scalar

variable {n : ℕ}

def form (s : ImplicitQL ℝ n) (l : ℕ) : Matrix (Fin n) (Fin n) ℝ :=
  tridiagonal (fun i ↦ s.diag i + if l ≤ i.val then s.shift else 0) s.link

def drop (s : ImplicitQL ℝ n) (m : Fin n) : ImplicitQL ℝ n := { s with link := s.link.set m 0 }

section Opening

variable {d₀ d₁ e p q r : ℝ}

theorem slope_ne_zero (hr : r * r = p * p + 1) : p + r ≠ 0 := fun h ↦ by
  have hrp : r = -p := by linarith
  rw [hrp] at hr
  linarith

theorem shifted_block (hp : p * (2 * e) = d₁ - d₀) (hr : r * r = p * p + 1)
    (hq : q * (p + r) = e) : e * (p + r) - q = d₁ - d₀ := by
  have hqr : q = e * (r - p) := by linear_combination (r - p) * hq - q * hr
  linear_combination hp - hqr

variable [DivisionByZero]

theorem negateIf_hypot_mul_self (p : ℝ) :
    negateIf (p < 0) (hypot p 1) * negateIf (p < 0) (hypot p 1) = p * p + 1 := by
  rw [negateIf_mul_self, hypot_real, mul_one, Real.mul_self_sqrt]
  exact add_nonneg (mul_self_nonneg p) zero_le_one

noncomputable def shiftStep (c : Fin n) (s : ImplicitQL ℝ (n + 1)) : ℝ :=
  let e := s.link c.castSucc
  let p := (s.diag c.succ - s.diag c.castSucc) / (2.0 * e)
  s.diag c.castSucc - e / (p + negateIf (p < 0) (hypot p 1))

noncomputable def opening (c : Fin n) (m : Fin (n + 1)) (s : ImplicitQL ℝ (n + 1)) :
    Chase ℝ (n + 1) :=
  let e := s.link c.castSucc
  let p := (s.diag c.succ - s.diag c.castSucc) / (2.0 * e)
  let r := negateIf (p < 0) (hypot p 1)
  let diag := Tuple.ofFn fun i ↦
    if i = c.castSucc then e / (p + r)
    else if i = c.succ then e * (p + r)
    else if c.succ < i then s.diag i - s.shiftStep c
    else s.diag i
  { basis := s.basis, diag, link := s.link, carried := diag m,
    cos := 1, cos₁ := 1, cos₂ := 1, sin := 0, sin₁ := 0 }

variable {c : Fin n} {m : Fin (n + 1)} {s : ImplicitQL ℝ (n + 1)}

theorem exists_opening (he : s.link c.castSucc ≠ 0) :
    ∃ q x, q * x = s.link c.castSucc ∧
      s.link c.castSucc * x - q = s.diag c.succ - s.diag c.castSucc ∧
      s.shiftStep c = s.diag c.castSucc - q ∧
      (s.opening c m).diag c.castSucc = q ∧
      (s.opening c m).diag c.succ = s.link c.castSucc * x := by
  have htwo : (2.0 : ℝ) * s.link c.castSucc = 2 * s.link c.castSucc := by norm_num
  have htwo_ne : (2.0 : ℝ) * s.link c.castSucc ≠ 0 := by
    rw [htwo]
    exact mul_ne_zero two_ne_zero he
  obtain ⟨p, hp⟩ : ∃ p, p = (s.diag c.succ - s.diag c.castSucc) / (2.0 * s.link c.castSucc) :=
    ⟨_, rfl⟩
  obtain ⟨r, hr⟩ : ∃ r, r = negateIf (p < 0) (hypot p 1) := ⟨_, rfl⟩
  have hpp : p * (2 * s.link c.castSucc) = s.diag c.succ - s.diag c.castSucc := by
    rw [hp, div_of_ne_zero _ htwo_ne, ← htwo]
    exact div_mul_cancel₀ _ htwo_ne
  have hrr : r * r = p * p + 1 := by
    rw [hr]
    exact negateIf_hypot_mul_self p
  have hne := slope_ne_zero hrr
  have hq : s.link c.castSucc / (p + r) * (p + r) = s.link c.castSucc := by
    rw [div_of_ne_zero _ hne]
    exact div_mul_cancel₀ _ hne
  refine ⟨s.link c.castSucc / (p + r), p + r, hq, shifted_block hpp hrr hq, ?_, ?_, ?_⟩
  · rw [shiftStep, ← hp, ← hr]
  · simp only [opening, ← hp, ← hr, Tuple.ofFn_apply, if_true]
  · simp only [opening, ← hp, ← hr, Tuple.ofFn_apply, Fin.castSucc_lt_succ.ne', if_true, if_false]

/-- The leading block is singular once it is shifted. -/
theorem opening_singular (he : s.link c.castSucc ≠ 0) :
    (s.opening c m).diag c.castSucc * (s.opening c m).diag c.succ =
      s.link c.castSucc * s.link c.castSucc := by
  obtain ⟨q, x, hqx, -, -, h₀, h₁⟩ := exists_opening (m := m) he
  rw [h₀, h₁]
  linear_combination s.link c.castSucc * hqx

theorem opening_diag (he : s.link c.castSucc ≠ 0) (i : Fin (n + 1)) :
    (s.opening c m).diag i + (if c.castSucc ≤ i then s.shiftStep c else 0) = s.diag i := by
  obtain ⟨q, x, -, hx, hstep, h₀, h₁⟩ := exists_opening (m := m) he
  obtain hi | rfl | rfl | hi : i < c.castSucc ∨ i = c.castSucc ∨ i = c.succ ∨ c.succ < i := by
    simp only [Fin.lt_def, Fin.ext_iff, Fin.val_castSucc, Fin.val_succ]
    omega
  · have hi' : i < c.succ := hi.trans Fin.castSucc_lt_succ
    simp only [opening, Tuple.ofFn_apply, hi.ne, hi'.ne, hi'.not_gt, hi.not_ge, if_false, add_zero]
  · rw [if_pos le_rfl, h₀, hstep]
    ring
  · rw [if_pos Fin.castSucc_lt_succ.le, h₁, hstep]
    linear_combination hx
  · have hi' : c.castSucc < i := Fin.castSucc_lt_succ.trans hi
    simp only [opening, Tuple.ofFn_apply, hi'.ne', hi.ne', hi, hi'.le, if_true, if_false,
      sub_add_cancel]

end Opening

section Swept

variable [DivisionByZero] {c : Fin n} {m : Fin (n + 1)} {s : ImplicitQL ℝ (n + 1)}
  {k : Fin n} {t : Chase ℝ (n + 1)}

noncomputable def pending (c : Fin n) (s : ImplicitQL ℝ (n + 1)) (i : Fin (n + 1)) : ℝ :=
  if c.castSucc ≤ i then s.shift + s.shiftStep c else 0

/-- What holds when a sweep has come up to index `p`. -/
structure Swept (c : Fin n) (m : Fin (n + 1)) (s : ImplicitQL ℝ (n + 1)) (p : ℕ)
    (t : Chase ℝ (n + 1)) : Prop where
  rebases : Rebases s.basis.toMatrix ((s.opening c m).form m + diagonal (s.pending c))
    t.basis.toMatrix (t.form p + diagonal (s.pending c))
  diag_eq : ∀ i : Fin (n + 1), i.val ≤ p → t.diag i = (s.opening c m).diag i
  link_eq : ∀ i : Fin (n + 1), i.val ≤ p ∨ m < i → t.link i = s.link i
  link_ne : ∀ i : Fin (n + 1), p < i.val → i < m → t.link i ≠ 0
  link_end : p < m.val → t.link m = 0
  start : p = m.val → t.sin = 0
  start₁ : p + 1 = m.val → t.sin₁ = 0
  carried_eq : ∀ i : Fin (n + 1), i.val = p →
    t.carried = t.cos * (s.opening c m).diag i - t.sin * (t.cos₁ * s.link i)
  previous : ∀ k : Fin n, k.val = p → k.castSucc < m → ∃ r, r ≠ 0 ∧
    t.cos * r = t.cos₁ * (s.opening c m).diag k.succ - t.sin₁ * (t.cos₂ * s.link k.succ) ∧
    t.sin * r = s.link k.castSucc

theorem Swept.opening : Swept c m s m (s.opening c m) where
  rebases := Rebases.refl _ _
  diag_eq _ _ := rfl
  link_eq _ _ := rfl
  link_ne i hi hm := absurd hi (not_lt.2 (Fin.lt_def.1 hm).le)
  link_end h := absurd h (lt_irrefl _)
  start _ := rfl
  start₁ _ := rfl
  carried_eq i hi := by
    obtain rfl : i = m := Fin.ext hi
    simp only [ImplicitQL.opening, one_mul, zero_mul, sub_zero]
  previous k hk hm := absurd hk (Fin.lt_def.1 hm).ne

theorem Swept.rotate (hlink : ∀ i, c.castSucc ≤ i → i < m → s.link i ≠ 0)
    (h : Swept c m s (k + 1) t) (hc : c ≤ k) (hm : k.castSucc < m) :
    Swept c m s k (t.rotate k) := by
  have hck : c.castSucc ≤ k.castSucc := hc
  have hmv : k.val < m.val := hm
  have hs : s.link k.castSucc ≠ 0 := hlink _ hck hm
  have ht : t.link k.castSucc = s.link k.castSucc := h.link_eq _ (Or.inl (Nat.le_succ _))
  have htne : t.link k.castSucc ≠ 0 := by rwa [ht]
  have hd : t.diag k.castSucc = (s.opening c m).diag k.castSucc := h.diag_eq _ (Nat.le_succ _)
  obtain ⟨r, hr, hcos, hsin, hunit, hl⟩ := Chase.exists_radius htne
  have hsucc : ∀ i : Fin (n + 1), i.val ≠ k.val + 1 → (t.rotate k).link i = t.link i :=
    fun i hi ↦ Chase.link_rotate_of_ne fun h ↦ hi (congrArg Fin.val h)
  have hsucc_self : (t.rotate k).link k.succ = t.sin * r := by
    rw [hl, Tuple.set_apply, if_pos rfl]
  refine ⟨h.rebases.trans ?rebases, ?diag_eq, ?link_eq, ?link_ne, ?link_end, ?start, ?start₁,
    ?carried_eq, ?previous⟩
  case rebases =>
    have hw : s.pending c k.castSucc = s.pending c k.succ := by
      rw [pending, pending, if_pos hck, if_pos (hck.trans Fin.castSucc_lt_succ.le)]
    have hne : k.castSucc ≠ k.succ := Fin.castSucc_lt_succ.ne
    refine ⟨planeRotation k.castSucc k.succ (t.rotate k).cos (t.rotate k).sin,
      planeRotation_mul_transpose hne hunit, Grid.toMatrix_rotateColumns _ _ _ _ _, ?_⟩
    rw [Chase.rotate_form htne, mul_add, add_mul, planeRotation_conj_diagonal hne hunit hw]
  case diag_eq =>
    intro i hi
    have hne : i ≠ k.succ := fun h ↦ by simp only [h, Fin.val_succ] at hi; omega
    rw [← h.diag_eq i (by omega)]
    simp only [Chase.rotate, Tuple.set_apply, hne, if_false]
  case link_eq =>
    intro i hi
    rw [hsucc i (by omega)]
    exact h.link_eq i (by omega)
  case link_ne =>
    intro i hi him
    obtain hi | hi := Nat.eq_or_lt_of_le hi
    · -- The link below the rotation is nonzero because the rotation before it was a proper one.
      obtain rfl : i = k.succ := Fin.ext (by rw [Fin.val_succ]; omega)
      obtain ⟨k', hk'⟩ : ∃ k' : Fin n, k'.castSucc = k.succ :=
        ⟨⟨k.val + 1, by have := Fin.lt_def.1 him; simp only [Fin.val_succ] at this; omega⟩, rfl⟩
      obtain ⟨r', hr', -, hsin'⟩ := h.previous k' (congrArg Fin.val hk') (by rwa [hk'])
      rw [hk'] at hsin'
      have hne : s.link k.succ ≠ 0 := hlink _ (hck.trans Fin.castSucc_lt_succ.le) him
      rw [hsucc_self]
      refine mul_ne_zero (fun h₀ ↦ hne ?_) hr
      rw [← hsin', h₀, zero_mul]
    · rw [hsucc i (by omega)]
      exact h.link_ne i hi him
  case link_end =>
    intro _
    obtain hm' | hm' := Nat.eq_or_lt_of_le hmv
    · obtain rfl : m = k.succ := Fin.ext (by rw [Fin.val_succ]; omega)
      rw [hsucc_self, h.start (Fin.val_succ k).symm, zero_mul]
    · rw [hsucc m (by omega)]
      exact h.link_end hm'
  case start =>
    intro hk
    omega
  case start₁ => exact h.start
  case carried_eq =>
    intro i hi
    obtain rfl : i = k.castSucc := Fin.ext hi
    rw [← hd, ← ht]
    rfl
  case previous =>
    intro k' hk' _
    obtain rfl : k' = k := Fin.ext hk'
    refine ⟨r, hr, ?_, hsin.trans ht⟩
    rw [hcos]
    exact h.carried_eq k'.succ (Fin.val_succ k')

noncomputable def chased (c : Fin n) (m : Fin (n + 1)) (s : ImplicitQL ℝ (n + 1)) :
    Chase ℝ (n + 1) :=
  Fin.foldr n (fun k t ↦ if c ≤ k ∧ k.castSucc < m then t.rotate k else t) (s.opening c m)

theorem swept_chased (hcm : c.castSucc < m)
    (hlink : ∀ i, c.castSucc ≤ i → i < m → s.link i ≠ 0) :
    Swept c m s c (s.chased c m) := by
  have hcv : c.val < m.val := hcm
  have hmn : m.val ≤ n := Nat.le_of_lt_succ m.isLt
  -- The indices from `m` on and those before `c` are passed over.
  have h := foldr_invariant (fun p t ↦ Swept c m s (max c (min p m)) t)
    (f := fun k t ↦ if c ≤ k ∧ k.castSucc < m then t.rotate k else t) (b := s.opening c m)
    (by rw [min_eq_right hmn, max_eq_right hcv.le]; exact Swept.opening)
    (fun k t h ↦ by
      by_cases hk : c ≤ k ∧ k.castSucc < m
      · have hcv' : c.val ≤ k.val := hk.1
        have hkv : k.val < m.val := hk.2
        rw [if_pos hk, min_eq_left hkv.le, max_eq_right hcv']
        rw [min_eq_left hkv, max_eq_right (hcv'.trans (Nat.le_succ _))] at h
        exact h.rotate hlink hk.1 hk.2
      · have hkv : k.val < c.val ∨ m.val ≤ k.val := by
          simpa only [not_and_or, not_le, not_lt, Fin.lt_def, Fin.le_def, Fin.val_castSucc] using hk
        have hp : max c.val (min k.val m.val) = max c.val (min (k.val + 1) m.val) := by omega
        rwa [if_neg hk, hp])
  rwa [Nat.zero_min, Nat.max_zero] at h

theorem opening_form (he : s.link c.castSucc ≠ 0) :
    (s.opening c m).form m + diagonal (s.pending c) = (s.drop m).form c := by
  rw [Chase.form, ← band_add_diagonal, form, tridiagonal]
  refine band_congr (fun i ↦ ?_) (fun i _ ↦ ?_) (fun i _ ↦ ?_)
  · have hd : (if i.val = m.val then (s.opening c m).cos * (s.opening c m).carried
        else (s.opening c m).diag i) = (s.opening c m).diag i := by
      by_cases hi : i.val = m.val
      · obtain rfl : i = m := Fin.ext hi
        simp only [opening, one_mul, if_true]
      · rw [if_neg hi]
    have h := opening_diag (m := m) he i
    rw [hd, pending]
    change _ = s.diag i + if c.castSucc ≤ i then s.shift else 0
    by_cases hi : c.castSucc ≤ i
    · rw [if_pos hi] at h ⊢
      rw [if_pos hi]
      linear_combination h
    · rw [if_neg hi] at h ⊢
      rw [if_neg hi]
      linear_combination h
  · simp only [drop, opening, Tuple.set_apply, Fin.ext_iff, zero_mul, one_mul, ite_self]
  · simp only [opening, zero_mul, ite_self, Pi.zero_apply]

/-- The last step of a sweep in closed form gives what its rotation gives: the shifted leading
block is singular. -/
theorem Swept.closed_eq (he : s.link c.castSucc ≠ 0) (hcm : c.castSucc < m)
    (h : Swept c m s c t) :
    -t.sin * t.sin₁ * t.cos₂ * s.link c.succ * s.link c.castSucc =
      t.carried * (s.opening c m).diag c.succ := by
  obtain ⟨r, hr, hcos, hsin⟩ := h.previous c rfl hcm
  have hsingular := opening_singular (m := m) he
  rw [h.carried_eq c.castSucc rfl]
  refine mul_right_cancel₀ hr ?_
  linear_combination
    (t.cos₁ * (s.opening c m).diag c.succ - t.sin₁ * (t.cos₂ * s.link c.succ)) *
        s.link c.castSucc * hsin -
      (s.opening c m).diag c.castSucc * (s.opening c m).diag c.succ * hcos -
      (t.cos₁ * (s.opening c m).diag c.succ - t.sin₁ * (t.cos₂ * s.link c.succ)) * hsingular

theorem opening_succ_ne_zero (he : s.link c.castSucc ≠ 0) : (s.opening c m).diag c.succ ≠ 0 :=
  fun h ↦ by
    have h' := opening_singular (m := m) he
    rw [h, mul_zero] at h'
    exact mul_ne_zero he he h'.symm

theorem sweep_eq (hcm : c.castSucc < m) (hlink : ∀ i, c.castSucc ≤ i → i < m → s.link i ≠ 0) :
    s.sweep c m =
      { basis := (s.chased c m).basis
        diag := (s.chased c m).diag.set c.castSucc ((s.chased c m).cos * (s.chased c m).carried)
        link := (s.chased c m).link.set c.castSucc ((s.chased c m).sin * (s.chased c m).carried)
        shift := s.shift + s.shiftStep c
        magnitude := s.magnitude } := by
  have he : s.link c.castSucc ≠ 0 := hlink _ le_rfl hcm
  have hnext : (s.opening c m).diag c.succ ≠ 0 := opening_succ_ne_zero he
  have hclosed := (swept_chased hcm hlink).closed_eq he hcm
  have hq : -(s.chased c m).sin * (s.chased c m).sin₁ * (s.chased c m).cos₂ * s.link c.succ *
      s.link c.castSucc / (s.opening c m).diag c.succ = (s.chased c m).carried := by
    rw [hclosed, div_of_ne_zero _ hnext, mul_div_assoc, div_self hnext, mul_one]
  simp only [opening, Tuple.ofFn_apply, Fin.castSucc_lt_succ.ne', if_true, if_false] at hq
  rw [← hq]
  rfl

theorem sweep_form (hcm : c.castSucc < m) (hlink : ∀ i, c.castSucc ≤ i → i < m → s.link i ≠ 0)
    (hbefore : ∀ i : Fin (n + 1), i.val + 1 = c → s.link i = 0) :
    (s.chased c m).form c + diagonal (s.pending c) = (s.sweep c m).form c := by
  have h := swept_chased hcm hlink
  rw [sweep_eq hcm hlink, Chase.form, ← band_add_diagonal, form, tridiagonal]
  refine band_congr (fun i ↦ ?_) (fun i _ ↦ ?_) (fun i _ ↦ ?_)
  · simp only [Tuple.set_apply, Fin.ext_iff, Fin.val_castSucc]
    rfl
  · simp only [Tuple.set_apply, Fin.ext_iff, Fin.val_castSucc]
    by_cases hi : i.val + 1 = c
    · rw [if_pos hi, h.link_eq i (Or.inl (by omega)), hbefore i hi, mul_zero]
    · rw [if_neg hi]
  · by_cases hi : i.val + 1 = c
    · rw [if_pos hi, h.link_eq i (Or.inl (by omega)), hbefore i hi, mul_zero, Pi.zero_apply]
    · rw [if_neg hi, Pi.zero_apply]

/-- A sweep of a block that no link ties to what comes before it is an orthogonal change of basis.
The link below the block is lost. -/
theorem sweep_rebases (hcm : c.castSucc < m)
    (hlink : ∀ i, c.castSucc ≤ i → i < m → s.link i ≠ 0)
    (hbefore : ∀ i : Fin (n + 1), i.val + 1 = c → s.link i = 0) :
    Rebases s.basis.toMatrix ((s.drop m).form c) (s.sweep c m).basis.toMatrix
      ((s.sweep c m).form c) := by
  have h := (swept_chased hcm hlink).rebases
  rw [opening_form (hlink _ le_rfl hcm), sweep_form hcm hlink hbefore] at h
  rwa [sweep_eq hcm hlink] at h ⊢

theorem sweep_link_ne (hcm : c.castSucc < m)
    (hlink : ∀ i, c.castSucc ≤ i → i < m → s.link i ≠ 0) {i : Fin (n + 1)} (hi : c.castSucc < i)
    (him : i < m) : (s.sweep c m).link i ≠ 0 := by
  rw [sweep_eq hcm hlink, Tuple.set_apply, if_neg hi.ne']
  exact (swept_chased hcm hlink).link_ne i hi him

theorem sweep_link_end (hcm : c.castSucc < m)
    (hlink : ∀ i, c.castSucc ≤ i → i < m → s.link i ≠ 0) : (s.sweep c m).link m = 0 := by
  rw [sweep_eq hcm hlink, Tuple.set_apply, if_neg hcm.ne']
  exact (swept_chased hcm hlink).link_end hcm

theorem sweep_link_of_lt (hcm : c.castSucc < m)
    (hlink : ∀ i, c.castSucc ≤ i → i < m → s.link i ≠ 0) {i : Fin (n + 1)} (hi : i < c.castSucc) :
    (s.sweep c m).link i = s.link i := by
  rw [sweep_eq hcm hlink, Tuple.set_apply, if_neg hi.ne]
  exact (swept_chased hcm hlink).link_eq i (Or.inl (Fin.lt_def.1 hi).le)

theorem sweep_link_of_succ (he : s.link c.castSucc ≠ 0) :
    (s.sweep c c.succ).link c.castSucc = 0 := by
  have hcm : c.castSucc < c.succ := Fin.castSucc_lt_succ
  have hlink : ∀ i, c.castSucc ≤ i → i < c.succ → s.link i ≠ 0 := fun i hi him ↦ by
    obtain rfl : i = c.castSucc := le_antisymm (Fin.le_castSucc_iff.2 him) hi
    exact he
  have h := swept_chased hcm hlink
  have hclosed := h.closed_eq he hcm
  rw [h.start₁ (Fin.val_succ c).symm, mul_zero, zero_mul, zero_mul, zero_mul] at hclosed
  have hcarried := (mul_eq_zero.1 hclosed.symm).resolve_right (opening_succ_ne_zero he)
  rw [sweep_eq hcm hlink, Tuple.set_apply, if_pos rfl, hcarried, mul_zero]

end Swept

end DenseDecomp.ImplicitQL
