import Mathlib
import DenseDecomp.Proofs.Agreement
import DenseDecomp.Proofs.Indexed.ImplicitQL
import DenseDecomp.Proofs.SpectrumShape

namespace DenseDecomp.ImplicitQL

open Matrix Scalar

variable {n : ℕ}

section Run

variable {α : Type} [Scalar α] {config : EigenConfig} {t : Tridiagonal α (n + 1)}
  {s : ImplicitQL α (n + 1)} {l done : ℕ} {c : Fin n} {m : Fin (n + 1)}

/-- The states that a run comes to when the indices before `l` are settled. -/
inductive Reached (config : EigenConfig) (t : Tridiagonal α (n + 1)) :
    ℕ → ImplicitQL α (n + 1) → Prop
  | start : Reached config t 0 (ofTridiagonal t)
  | settle {l : Fin (n + 1)} {s s' : ImplicitQL α (n + 1)} (h : Reached config t l s)
      (hs : (settle config s l).outcome = .ok s') : Reached config t (l + 1) s'

/-- The states that it comes to when it has swept the block from `c` to `m` for `done` times. -/
inductive Sweeping (config : EigenConfig) (t : Tridiagonal α (n + 1)) (c : Fin n)
    (m : Fin (n + 1)) : ℕ → ImplicitQL α (n + 1) → Prop
  | start {s : ImplicitQL α (n + 1)} (h : Reached config t c s)
      (hm : (s.raise c.castSucc).blockEnd c.castSucc = m) :
      Sweeping config t c m 0 (s.raise c.castSucc)
  | sweep {done : ℕ} {s : ImplicitQL α (n + 1)} (h : Sweeping config t c m done s)
      (hlarge : ¬ s.Negligible c.castSucc) (hallows : config.Allows done) :
      Sweeping config t c m (done + 1) (s.sweep c m)

/-- The run ends as it does from any of its states. -/
theorem Reached.outcome_diagonalize (h : Reached config t l s) : (diagonalize config t).outcome =
    (((List.finRange (n + 1)).drop l).foldlM (ImplicitQL.settle config) s).outcome := by
  induction h with
  | start => rfl
  | @settle l s s' h hs ih =>
    have hl : l.val < (List.finRange (n + 1)).length := by
      rw [List.length_finRange]
      exact l.isLt
    have hcons : (List.finRange (n + 1)).drop l = l :: (List.finRange (n + 1)).drop (l + 1) := by
      rw [List.drop_eq_getElem_cons hl, List.getElem_finRange]
      rfl
    rw [ih, hcons, List.foldlM_cons, Run.bind_of_ok hs]

theorem Sweeping.exists_converge (h : Sweeping config t c m done s) :
    ∃ r, Reached config t c r ∧ (r.raise c.castSucc).blockEnd c.castSucc = m ∧
      converge config c m 0 (r.raise c.castSucc) = converge config c m done s := by
  induction h with
  | start h hm => exact ⟨_, h, hm, rfl⟩
  | sweep h hlarge hallows ih =>
    obtain ⟨r, hr, hm, hconv⟩ := ih
    refine ⟨r, hr, hm, hconv.trans ?_⟩
    rw [converge, if_neg hlarge, EigenConfig.attempt_of_allows hallows]

theorem Reached.linksClear (h : Reached config t l s) : s.LinksClear l := by
  induction h with
  | start => exact fun i hi ↦ absurd hi (Nat.not_lt_zero _)
  | settle h hs ih => exact ih.settle hs

theorem Sweeping.linksClear (h : Sweeping config t c m done s) : s.LinksClear c := by
  induction h with
  | start h hm => exact h.linksClear
  | sweep h hlarge hallows ih => exact ih.sweep le_rfl m

end Run

section Cut

variable {α : Type} [Scalar α] {l : ℕ} {i : Fin n}

def cut (l : ℕ) (e : Tuple α n) : Tuple α n := Tuple.ofFn fun i ↦ if i.val + 1 = l then 0 else e i

theorem cut_of_le (hi : l ≤ i) (e : Tuple α n) : cut l e i = e i := by
  have hne : i.val + 1 ≠ l := by omega
  simp [cut, hne]

theorem cut_set_of_le (hi : l ≤ i) (e : Tuple α n) (x : α) :
    cut l (e.set i x) = (cut l e).set i x := by
  have hne : i.val + 1 ≠ l := by omega
  ext j
  by_cases hj : j = i
  · simp [cut, Tuple.set_apply, hj, hne]
  · simp [cut, Tuple.set_apply, hj]

theorem cut_of_eq_zero {e : Tuple α n} (h : ∀ i : Fin n, i.val + 1 = l → e i = 0) :
    cut l e = e := by
  ext i
  by_cases hi : i.val + 1 = l
  · simp [cut, hi, h i hi]
  · simp [cut, hi]

def detach (l : ℕ) (s : ImplicitQL α n) : ImplicitQL α n := { s with link := cut l s.link }

def Chase.detach (l : ℕ) (t : Chase α n) : Chase α n := { t with link := cut l t.link }

theorem Chase.rotate_detach {k : Fin n} (hk : l ≤ k) (t : Chase α (n + 1)) :
    (t.detach l).rotate k = (t.rotate k).detach l := by
  have hk' : l ≤ k.castSucc := hk
  have hk'' : l ≤ k.succ := hk.trans (Nat.le_succ k)
  simp only [Chase.rotate, Chase.detach, cut_of_le hk', cut_set_of_le hk'']

end Cut

section Sweep

variable [DivisionByZero] {s : ImplicitQL ℝ (n + 1)} {c : Fin n} {m : Fin (n + 1)}

noncomputable def shiftDivisor (c : Fin n) (s : ImplicitQL ℝ (n + 1)) : ℝ :=
  let p := (s.diag c.succ - s.diag c.castSucc) / (2.0 * s.link c.castSucc)
  p + negateIf (p < 0) (hypot p 1)

noncomputable def close (c : Fin n) (s : ImplicitQL ℝ (n + 1)) (t : Chase ℝ (n + 1)) :
    ImplicitQL ℝ (n + 1) :=
  let q := -t.sin * t.sin₁ * t.cos₂ * s.link c.succ * s.link c.castSucc /
    (s.link c.castSucc * s.shiftDivisor c)
  { basis := t.basis
    diag := t.diag.set c.castSucc (t.cos * q)
    link := t.link.set c.castSucc (t.sin * q)
    shift := s.shift + s.shiftStep c
    magnitude := s.magnitude }

theorem close_chased (c : Fin n) (m : Fin (n + 1)) (s : ImplicitQL ℝ (n + 1)) :
    s.close c (s.chased c m) = s.sweep c m := rfl

theorem chased_detach (c : Fin n) (m : Fin (n + 1)) (s : ImplicitQL ℝ (n + 1)) :
    (s.detach c).chased c m = (s.chased c m).detach c := by
  have hc : c ≤ c.castSucc.val := le_rfl
  have hopening : (s.detach c).opening c m = (s.opening c m).detach c := by
    simp only [opening, shiftStep, detach, Chase.detach, cut_of_le hc]
  refine foldr_related (fun _ (t t' : Chase ℝ (n + 1)) ↦ t = t'.detach c) hopening ?_
  rintro k t t' rfl
  split
  case isTrue hk => exact t'.rotate_detach hk.1
  case isFalse => rfl

theorem close_detach (c : Fin n) (s : ImplicitQL ℝ (n + 1)) (t : Chase ℝ (n + 1)) :
    (s.detach c).close c (t.detach c) = (s.close c t).detach c := by
  have hc : c ≤ c.castSucc.val := le_rfl
  have hc' : c ≤ c.succ.val := Nat.le_succ c
  simp only [close, shiftDivisor, shiftStep, detach, Chase.detach, cut_of_le hc, cut_of_le hc',
    cut_set_of_le hc]

/-- A sweep leaves the link into its block alone, and does not read it. -/
theorem sweep_detach (c : Fin n) (m : Fin (n + 1)) (s : ImplicitQL ℝ (n + 1)) :
    (s.detach c).sweep c m = (s.sweep c m).detach c := by
  rw [← close_chased, chased_detach, close_detach, close_chased]

/-- Every rotation of a sweep meets a link that the sweep has not touched, and that is not zero. -/
theorem chased_related {γ : Type} {g : Fin n → γ → γ} {b : γ}
    (hlink : ∀ i, c.castSucc ≤ i → i < m → s.link i ≠ 0) (R : Chase ℝ (n + 1) → γ → Prop)
    (h₀ : R (s.opening c m) b)
    (hs : ∀ k t b, t.link k.castSucc ≠ 0 → R t b → R (t.rotate k) (g k b)) :
    R (s.chased c m) (Fin.foldr n (fun k b ↦ if c ≤ k ∧ k.castSucc < m then g k b else b) b) := by
  refine (foldr_related (fun p (t : Chase ℝ (n + 1)) b ↦
    (∀ i : Fin (n + 1), i.val ≤ p → t.link i = s.link i) ∧ R t b) ⟨fun _ _ ↦ rfl, h₀⟩ ?_).2
  rintro k t b ⟨ht, hR⟩
  split
  case isTrue hk =>
    refine ⟨fun i hi ↦ ?_, hs k t b ?_ hR⟩
    · have hne : i ≠ k.succ := by
        rintro rfl
        exact absurd hi (Nat.not_succ_le_self _)
      rw [Chase.link_rotate_of_ne hne, ht i (hi.trans (Nat.le_succ _))]
    · rw [ht _ (Nat.le_succ _)]
      exact hlink _ hk.1 hk.2
  case isFalse => exact ⟨fun i hi ↦ ht i (hi.trans (Nat.le_succ _)), hR⟩

end Sweep

section Divisors

variable [DivisionByZero] {s : ImplicitQL ℝ (n + 1)} {t : Chase ℝ (n + 1)} {c k : Fin n}
  {m : Fin (n + 1)}

/-- A sweep with its divisors: those of the shift, one for each rotation, and that of the last
step. -/
noncomputable def tracedSweep (c : Fin n) (m : Fin (n + 1)) (s : ImplicitQL ℝ (n + 1)) :
    ImplicitQL ℝ (n + 1) × List ℝ :=
  let p := Fin.foldr n
    (fun k p ↦ if c ≤ k ∧ k.castSucc < m then (p.1.rotate k, p.2 ++ [p.1.radius k]) else p)
    (s.opening c m, [2.0 * s.link c.castSucc, s.shiftDivisor c])
  (s.close c p.1, p.2 ++ [s.link c.castSucc * s.shiftDivisor c])

theorem shiftDivisor_ne_zero (c : Fin n) (s : ImplicitQL ℝ (n + 1)) : s.shiftDivisor c ≠ 0 := by
  rw [shiftDivisor]
  exact slope_ne_zero (negateIf_hypot_mul_self _)

theorem traces_tracedSweep (hcm : c.castSucc < m)
    (hlink : ∀ i, c.castSucc ≤ i → i < m → s.link i ≠ 0) :
    Traces (s.tracedSweep c m) (s.sweep c m) := by
  have he : s.link c.castSucc ≠ 0 := hlink _ le_rfl hcm
  have hopening : ∀ x ∈ [2.0 * s.link c.castSucc, s.shiftDivisor c], x ≠ 0 := by
    simpa using ⟨⟨by norm_num, he⟩, shiftDivisor_ne_zero c s⟩
  have hchased := chased_related (g := fun k p ↦ (p.1.rotate k, p.2 ++ [p.1.radius k])) hlink
    (fun t p ↦ Traces p t) (b := (s.opening c m, _)) ⟨rfl, hopening⟩ (fun k t p ht hp ↦ by
      refine hp.step (Chase.rotate k) fun x hx ↦ ?_
      rw [List.mem_singleton.1 hx, hp.fst_eq]
      exact Chase.radius_ne_zero ht)
  refine hchased.step (s.close c) fun x hx ↦ ?_
  rw [List.mem_singleton.1 hx]
  exact mul_ne_zero he (shiftDivisor_ne_zero c s)

end Divisors

section Quotient

variable (D D' : DivisionByZero) {s : ImplicitQL ℝ (n + 1)} {t : Chase ℝ (n + 1)} {c k : Fin n}
  {m : Fin (n + 1)}

theorem Chase.rotate_quotient (h : t.link k.castSucc ≠ 0) :
    (letI : DivisionByZero := D; t.rotate k) = (letI : DivisionByZero := D'; t.rotate k) := by
  have hr : √(t.carried * t.carried + t.link k.castSucc * t.link k.castSucc) ≠ 0 :=
    @Chase.radius_ne_zero _ D _ _ h
  simp only [Chase.rotate, hypot_real, @div_of_ne_zero D _ _ hr, @div_of_ne_zero D' _ _ hr]
  rfl

theorem shiftDivisor_quotient (he : s.link c.castSucc ≠ 0) :
    (letI : DivisionByZero := D; s.shiftDivisor c) =
      (letI : DivisionByZero := D'; s.shiftDivisor c) := by
  have htwo : 2.0 * s.link c.castSucc ≠ 0 := mul_ne_zero (by norm_num) he
  simp only [shiftDivisor, @div_of_ne_zero D _ _ htwo, @div_of_ne_zero D' _ _ htwo]
  rfl

theorem shiftStep_eq [DivisionByZero] (c : Fin n) (s : ImplicitQL ℝ (n + 1)) :
    s.shiftStep c = s.diag c.castSucc - s.link c.castSucc / s.shiftDivisor c := rfl

theorem opening_eq [DivisionByZero] (c : Fin n) (m : Fin (n + 1)) (s : ImplicitQL ℝ (n + 1)) :
    s.opening c m =
      let diag := Tuple.ofFn fun i ↦
        if i = c.castSucc then s.link c.castSucc / s.shiftDivisor c
        else if i = c.succ then s.link c.castSucc * s.shiftDivisor c
        else if c.succ < i then s.diag i - s.shiftStep c
        else s.diag i
      { basis := s.basis, diag, link := s.link, carried := diag m,
        cos := 1, cos₁ := 1, cos₂ := 1, sin := 0, sin₁ := 0 } := rfl

theorem shiftStep_quotient (he : s.link c.castSucc ≠ 0) :
    (letI : DivisionByZero := D; s.shiftStep c) = (letI : DivisionByZero := D'; s.shiftStep c) := by
  have hdiv := @shiftDivisor_ne_zero _ D' c s
  rw [@shiftStep_eq _ D, @shiftStep_eq _ D', shiftDivisor_quotient D D' he,
    @div_of_ne_zero D _ _ hdiv, @div_of_ne_zero D' _ _ hdiv]

theorem sweep_quotient (hcm : c.castSucc < m)
    (hlink : ∀ i, c.castSucc ≤ i → i < m → s.link i ≠ 0) :
    (letI : DivisionByZero := D; s.sweep c m) = (letI : DivisionByZero := D'; s.sweep c m) := by
  have he : s.link c.castSucc ≠ 0 := hlink _ le_rfl hcm
  have hdivisor := shiftDivisor_quotient D D' he
  have hdiv := @shiftDivisor_ne_zero _ D' c s
  have hopening : (letI : DivisionByZero := D; s.opening c m) =
      (letI : DivisionByZero := D'; s.opening c m) := by
    simp only [@opening_eq _ D, @opening_eq _ D', hdivisor, shiftStep_quotient D D' he,
      @div_of_ne_zero D _ _ hdiv, @div_of_ne_zero D' _ _ hdiv]
  have hchased : (letI : DivisionByZero := D; s.chased c m) =
      (letI : DivisionByZero := D'; s.chased c m) := by
    refine @chased_related _ D _ _ _ _ _ _ hlink (· = ·) hopening ?_
    rintro k t _ ht rfl
    exact t.rotate_quotient D D' ht
  rw [@sweep_eq _ D _ _ _ hcm hlink, @sweep_eq _ D' _ _ _ hcm hlink, hchased,
    shiftStep_quotient D D' he]

end Quotient

theorem form_eq (s : ImplicitQL ℝ n) (l : ℕ) : s.form l = tridiagonal s.diag s.link +
    s.shift • diagonal fun i ↦ if l ≤ i.val then 1 else 0 := by
  rw [form, tridiagonal, band_add_diagonal, ← diagonal_smul]
  congr 2
  ext i
  simp

variable [DivisionByZero] {s : ImplicitQL ℝ (n + 1)} {c : Fin n} {m : Fin (n + 1)}

theorem sweep_detach_rebases (hcm : c.castSucc < m)
    (hlink : ∀ i, c.castSucc ≤ i → i < m → s.link i ≠ 0)
    (hend : m ≠ Fin.last n → s.link m = 0) :
    Rebases s.basis.toMatrix ((s.detach c).form c) (s.sweep c m).basis.toMatrix
      (((s.sweep c m).detach c).form c) := by
  have hkeep : ∀ i : Fin (n + 1), c.castSucc ≤ i → (s.detach c).link i = s.link i :=
    fun i hi ↦ cut_of_le hi s.link
  have hinside : ∀ i, c.castSucc ≤ i → i < m → (s.detach c).link i ≠ 0 := by
    intro i hi him
    rw [hkeep i hi]
    exact hlink i hi him
  have hbefore : ∀ i : Fin (n + 1), i.val + 1 = c → (s.detach c).link i = 0 := by
    intro i hi
    simp [detach, cut, hi]
  have hdrop : ((s.detach c).drop m).form c = (s.detach c).form c := by
    by_cases hm : m = Fin.last n
    · rw [hm, drop_last_form]
    · rw [drop_of_link_eq_zero ((hkeep m hcm.le).trans (hend hm))]
  have h := sweep_rebases hcm hinside hbefore
  rw [hdrop, sweep_detach] at h
  exact h

/-- A sweep of the block from `c` to `m` is an orthogonal similarity when no link ties the block to
what comes before it, and a run comes to no other block. The sweep does not read such a link, and
would tear it. -/
theorem sweep_similar {s : ImplicitQL ℝ (n + 1)} (hcm : c.castSucc < m)
    (hlink : ∀ i, c.castSucc ≤ i → i < m → s.link i ≠ 0) (hend : m ≠ Fin.last n → s.link m = 0) :
    let s' := s.sweep c m
    let V := s.basis.toMatrix
    let V' := s'.basis.toMatrix
    let P := diagonal fun i : Fin (n + 1) ↦ if c.castSucc ≤ i then (1 : ℝ) else 0
    V' * (tridiagonal s'.diag (cut c s'.link) + s'.shift • P) * V'ᵀ =
        V * (tridiagonal s.diag (cut c s.link) + s.shift • P) * Vᵀ ∧
      ((∀ i : Fin (n + 1), i.val + 1 = c.val → s.link i = 0) →
        V' * (tridiagonal s'.diag s'.link + s'.shift • P) * V'ᵀ =
          V * (tridiagonal s.diag s.link + s.shift • P) * Vᵀ) ∧
      (∀ config t done, Sweeping config t c m done s → ∀ i : Fin (n + 1), i.val < c.val →
        s.link i = 0) ∧
      V' * V'ᵀ = V * Vᵀ ∧
      (∀ i, c.castSucc < i → i < m → s'.link i ≠ 0) ∧ s'.link m = 0 ∧
      (m = c.succ → s'.link c.castSucc = 0) ∧
      (s.tracedSweep c m).1 = s' ∧ (∀ x ∈ (s.tracedSweep c m).2, x ≠ 0) ∧
      (∀ D : DivisionByZero, (letI : DivisionByZero := D; s.sweep c m) = s') ∧
      (n + 2 < Size.wordBound → Indexed.sweep c.castSucc m s = .ok s') := by
  intro s' V V' P
  have h := sweep_detach_rebases hcm hlink hend
  have hconj := h.conj_eq
  rw [form_eq, form_eq] at hconj
  have htraces := traces_tracedSweep hcm hlink
  refine ⟨hconj, fun hbefore ↦ ?literal, fun config t done hs ↦ hs.linksClear, h.gram_eq,
    fun i ↦ sweep_link_ne hcm hlink, sweep_link_end hcm hlink, ?pair, htraces.fst_eq,
    htraces.ne_zero, fun D ↦ sweep_quotient D _ hcm hlink, fun hn ↦ Indexed.sweep_eq hn⟩
  case pair =>
    rintro rfl
    exact sweep_link_of_succ (hlink _ le_rfl hcm)
  case literal =>
    have hbefore' : ∀ i : Fin (n + 1), i.val + 1 = c → s'.link i = 0 := by
      intro i hi
      have hic : i < c.castSucc := Fin.lt_def.2 (Nat.lt_of_succ_le hi.le)
      rw [link_sweep hic, hbefore i hi]
    have hcut : cut c s.link = s.link := cut_of_eq_zero hbefore
    have hcut' : cut c s'.link = s'.link := cut_of_eq_zero hbefore'
    change V' * (tridiagonal s'.diag (cut c s'.link) + s'.shift • P) * V'ᵀ =
      V * (tridiagonal s.diag (cut c s.link) + s.shift • P) * Vᵀ at hconj
    rwa [hcut, hcut'] at hconj

omit [DivisionByZero] in
theorem sweep_similar_five :
    letI : DivisionByZero := ⟨fun _ ↦ 0⟩
    let s : ImplicitQL ℝ 5 :=
      ⟨.ofMatrix 1, .ofFn ![7, 2, 3, 5, 1], .ofFn ![0, 1, 2, 0, 0], 3, 8⟩
    let s' := s.sweep 1 3
    let V' := s'.basis.toMatrix
    let P : Matrix (Fin 5) (Fin 5) ℝ := diagonal fun i ↦ if 1 ≤ i then 1 else 0
    (∀ i, 1 ≤ i → i < 3 → s.link i ≠ 0) ∧ s.link 3 = 0 ∧
      V' * (tridiagonal s'.diag s'.link + s'.shift • P) * V'ᵀ =
        tridiagonal s.diag s.link + s.shift • P ∧
      V' * V'ᵀ = 1 ∧ s'.link 2 ≠ 0 ∧ s'.link 3 = 0 ∧ ∀ x ∈ (s.tracedSweep 1 3).2, x ≠ 0 := by
  let : DivisionByZero := ⟨fun _ ↦ 0⟩
  intro s s' V' P
  have hlink : ∀ i : Fin 5, 1 ≤ i → i < 3 → s.link i ≠ 0 := by
    intro i hi him
    obtain rfl | rfl : i = 1 ∨ i = 2 := by omega
    · simp [s]
    · simp [s]
  have hend : s.link 3 = 0 := by simp [s]
  have hbefore : ∀ i : Fin 5, i.val + 1 = 1 → s.link i = 0 := by
    intro i hi
    obtain rfl : i = 0 := Fin.ext (Nat.succ.inj hi)
    simp [s]
  obtain ⟨-, hconj, -, hgram, hne, hzero, -, -, hdivisors, -, -⟩ :=
    sweep_similar (s := s) (c := 1) (m := 3) (by decide) hlink fun _ ↦ hend
  have hbasis : s.basis.toMatrix = 1 := Grid.toMatrix_ofMatrix 1
  have hconj := hconj hbefore
  rw [hbasis, one_mul, transpose_one, mul_one] at hconj
  rw [hbasis, transpose_one, one_mul] at hgram
  exact ⟨hlink, hend, hconj, hgram, hne 2 (by decide) (by decide), hzero, hdivisors⟩

omit [DivisionByZero] in
/-- The sweep of a block of two turns its axes, and leaves a link into the block as it is. -/
theorem not_forall_sweep_similar :
    letI : DivisionByZero := ⟨fun _ ↦ 0⟩
    ¬ ∀ (n : ℕ) (s : ImplicitQL ℝ (n + 1)) (c : Fin n) (m : Fin (n + 1)), c.castSucc < m →
      (∀ i, c.castSucc ≤ i → i < m → s.link i ≠ 0) → (m ≠ Fin.last n → s.link m = 0) →
      let s' := s.sweep c m
      let V := s.basis.toMatrix
      let V' := s'.basis.toMatrix
      let P := diagonal fun i : Fin (n + 1) ↦ if c.castSucc ≤ i then (1 : ℝ) else 0
      V' * (tridiagonal s'.diag s'.link + s'.shift • P) * V'ᵀ =
        V * (tridiagonal s.diag s.link + s.shift • P) * Vᵀ := by
  let : DivisionByZero := ⟨fun _ ↦ 0⟩
  intro h
  let s : ImplicitQL ℝ 3 := ⟨.ofMatrix 1, .ofFn ![0, 7, 0], .ofFn ![1, 12, 0], 0, 19⟩
  let t := (s.opening 1 2).rotate 1
  let R : Matrix (Fin 3) (Fin 3) ℝ := planeRotation 1 2 t.cos t.sin
  have hlink : ∀ i : Fin 3, 1 ≤ i → i < 2 → s.link i ≠ 0 := by
    intro i hi him
    obtain rfl : i = 1 := by omega
    simp [s]
  obtain ⟨r, hr, -, hsin, hunit, -⟩ :=
    Chase.exists_radius (t := s.opening 1 2) (k := 1) (hlink 1 le_rfl (by decide))
  have hV : s.basis.toMatrix = 1 := Grid.toMatrix_ofMatrix 1
  have hV' : (s.sweep 1 2).basis.toMatrix = R := by
    have h : (s.sweep 1 2).basis.toMatrix = s.basis.toMatrix * R :=
      Grid.toMatrix_rotateColumns s.basis 1 2 t.cos t.sin
    rw [h, hV, one_mul]
  have hR : Rᵀ * R = 1 := mul_eq_one_comm.1 (planeRotation_mul_transpose (by decide) hunit)
  have hkeep : (s.sweep 1 2).link 0 = s.link 0 := link_sweep (c := 1) (i := 0) (by decide) 2 s
  have hone : s.link 0 = 1 := by simp [s]
  let P : Matrix (Fin 3) (Fin 3) ℝ := diagonal fun i ↦ if 1 ≤ i then 1 else 0
  let T : Matrix (Fin 3) (Fin 3) ℝ := tridiagonal s.diag s.link + s.shift • P
  let T' : Matrix (Fin 3) (Fin 3) ℝ :=
    tridiagonal (s.sweep 1 2).diag (s.sweep 1 2).link + (s.sweep 1 2).shift • P
  have hconj : (s.sweep 1 2).basis.toMatrix * T' * (s.sweep 1 2).basis.toMatrixᵀ =
      s.basis.toMatrix * T * s.basis.toMatrixᵀ := h 2 s 1 2 (by decide) hlink fun hm ↦ absurd rfl hm
  have hcomm : R * T' = T * R := by
    rw [hV, hV', one_mul, transpose_one, mul_one] at hconj
    rw [← hconj, mul_assoc, hR, mul_one]
  -- On the left the link stands before the block as it did, on the right it is turned with it.
  have hcos : 1 = t.cos := by
    have hentry := congrFun (congrFun hcomm 0) 1
    have hrow : (R * T') 0 1 = T' 0 1 := by
      rw [mul_apply, Fin.sum_univ_three]
      simp [R, planeRotation]
    have hleft : T' 0 1 = 1 := by
      simp [T', P, tridiagonal, band, hkeep, hone]
    have hright : (T * R) 0 1 = t.cos := by
      rw [mul_planeRotation]
      simp [T, P, tridiagonal, band, hone]
    rw [← hleft, ← hrow, hentry, hright]
  have hsin₀ : t.sin = 0 := by
    have hunit : t.cos * t.cos + t.sin * t.sin = 1 := hunit
    rw [← hcos, one_mul, add_eq_left] at hunit
    exact mul_self_eq_zero.1 hunit
  have hlink₀ : t.sin * r = s.link 1 := hsin
  rw [hsin₀, zero_mul] at hlink₀
  exact hlink 1 le_rfl (by decide) hlink₀.symm

end DenseDecomp.ImplicitQL
