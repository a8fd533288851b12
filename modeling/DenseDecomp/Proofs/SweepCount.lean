import Mathlib
import DenseDecomp.Proofs.IterationLimit
import DenseDecomp.Proofs.SpectrumShape

namespace DenseDecomp

open Scalar

variable {α β γ : Type} {n : ℕ}

def Event.sweeps? : Event → Option ℕ
  | .sweepsDone _ k => some k
  | .realRoot _ k => some k
  | .rootPair _ k => some k
  | _ => none

namespace Run

variable {ε : Type}

def sweeps (r : Run ε β) : List ℕ := r.log.filterMap Event.sweeps?

theorem sweeps_after (events : List Event) (r : Run ε β) :
    (r.after events).sweeps = events.filterMap Event.sweeps? ++ r.sweeps := List.filterMap_append

theorem sweeps_bind_of_ok {r : Run ε β} {f : β → Run ε γ} {b : β} (h : r.outcome = .ok b) :
    (r >>= f).sweeps = r.sweeps ++ (f b).sweeps := by
  rw [bind_of_ok h]
  exact List.filterMap_append

theorem sweeps_bind_of_error {r : Run ε β} {f : β → Run ε γ} {e : ε} (h : r.outcome = .error e) :
    (r >>= f).sweeps = r.sweeps := by
  rw [bind_of_error h]
  rfl

end Run

def EigenConfig.Stops (config : EigenConfig) (P : α → Prop) (done : ℕ) (e : Failure α) : Prop :=
  (∃ k x, config.maxIterations = some k ∧ done = k.toNat ∧ P x ∧
    e = .error (.convergenceFailed k x)) ∨ done + 1 = counterBound ∧ e = .fault .addOverflow

theorem EigenConfig.exists_stops {config : EigenConfig} {P : α → Prop} {done : ℕ} {x : α}
    (hdone : config.Reaches done) (hstop : ¬ config.Allows done) (hx : P x) :
    ∃ e, config.Stops P done e ∧ ∀ {β : Type} (fail : Failure α → β)
      (next : done + 1 < counterBound → β), config.attempt done x fail next = fail e := by
  obtain hover | ⟨hbound, k, hk, hle⟩ := EigenConfig.overflow_or_exhausted hstop
  · have hlast : done + 1 = counterBound := Nat.le_antisymm hdone.1 hover
    exact ⟨_, .inr ⟨hlast, rfl⟩, fun _ _ ↦ attempt_of_overflow hover⟩
  · have hlast : done = k.toNat := Nat.le_antisymm (hdone.2 k hk) hle
    exact ⟨_, .inl ⟨k, x, hk, hlast, hx, rfl⟩, fun _ _ ↦ attempt_of_exhausted hk hbound hle⟩

/-- A run that makes the sweeps `counts` for one eigenvalue or pair after the other, of which there
are at most `width`. It ends, or it stops at the last of these. -/
structure Run.Within (config : EigenConfig) (P : α → Prop) (width : ℕ) (counts : List ℕ)
    (r : Run (Failure α) β) : Prop where
  reaches : ∀ c ∈ counts, config.Reaches c
  length_le : counts.length ≤ width
  ends : (∃ b, r.outcome = .ok b ∧ r.sweeps = counts) ∨
    ∃ e c, r.outcome = .error e ∧ config.Stops P c e ∧ r.sweeps ++ [c] = counts

namespace Run.Within

variable {config : EigenConfig} {P : α → Prop} {width : ℕ} {counts : List ℕ}
  {r : Run (Failure α) β}

theorem stop {done : ℕ} {e : Failure α} {events : List Event} (hdone : config.Reaches done)
    (he : config.Stops P done e) (hevents : events.filterMap Event.sweeps? = [])
    (hwidth : 1 ≤ width) : Within config P width [done] (⟨events, .error e⟩ : Run (Failure α) β) := by
  refine ⟨fun c hc ↦ ?_, hwidth, .inr ⟨e, done, rfl, he, ?_⟩⟩
  · rw [List.mem_singleton.1 hc]
    exact hdone
  · rw [sweeps, hevents]
    rfl

theorem bind (h : Within config P width counts r) {f : β → Run (Failure α) γ}
    (hf : ∀ b, r.outcome = .ok b → ∃ c, f b = pure c) : Within config P width counts (r >>= f) := by
  refine ⟨h.reaches, h.length_le, ?_⟩
  obtain ⟨b, hb, hlog⟩ | ⟨e, c, hfail, hstop, hlog⟩ := h.ends
  · obtain ⟨c, hc⟩ := hf b hb
    refine .inl ⟨c, ?_, ?_⟩
    · rw [bind_of_ok hb, hc]
      rfl
    · rw [sweeps_bind_of_ok hb, hc, hlog]
      exact List.append_nil _
  · refine .inr ⟨e, c, ?_, hstop, ?_⟩
    · rw [bind_of_error hfail]
    · rw [sweeps_bind_of_error hfail, hlog]

theorem emit_bind (h : Within config P width counts r) {e : Event} (he : e.sweeps? = none) :
    Within config P width counts (Run.emit e >>= fun _ ↦ r) := by
  have hsweeps : (Run.emit e >>= fun _ ↦ r).sweeps = r.sweeps := by
    rw [sweeps_bind_of_ok (b := ()) rfl, sweeps, Run.emit, List.filterMap_cons_none he]
    rfl
  refine ⟨h.reaches, h.length_le, ?_⟩
  rw [outcome_emit_bind, hsweeps]
  exact h.ends

theorem after (h : Within config P width counts r) {events : List Event}
    (he : events.filterMap Event.sweeps? = []) : Within config P width counts (r.after events) := by
  refine ⟨h.reaches, h.length_le, ?_⟩
  rw [sweeps_after, he, List.nil_append]
  exact h.ends

theorem after_found (h : Within config P width counts r) {e : Event} {c width' : ℕ}
    (he : e.sweeps? = some c) (hc : config.Reaches c) (hwidth : width + 1 ≤ width') :
    Within config P width' (c :: counts) (r.after [e]) := by
  have hsweeps : (r.after [e]).sweeps = c :: r.sweeps := by
    rw [sweeps_after, List.filterMap_cons_some he]
    rfl
  refine ⟨List.forall_mem_cons.2 ⟨hc, h.reaches⟩, ?_, ?_⟩
  · rw [List.length_cons]
    exact (Nat.succ_le_succ h.length_le).trans hwidth
  · rw [hsweeps]
    obtain ⟨b, hb, rfl⟩ | ⟨e, c, hfail, hstop, rfl⟩ := h.ends
    · exact .inl ⟨b, hb, rfl⟩
    · exact .inr ⟨e, c, hfail, hstop, rfl⟩

theorem imp {Q : α → Prop} (h : Within config P width counts r) (hPQ : ∀ x, P x → Q x) :
    Within config Q width counts r := by
  refine ⟨h.reaches, h.length_le, h.ends.imp_right ?_⟩
  rintro ⟨e, c, hfail, ⟨k, x, hk, hc, hx, he⟩ | hstop, hlog⟩
  · exact ⟨e, c, hfail, .inl ⟨k, x, hk, hc, hPQ x hx, he⟩, hlog⟩
  · exact ⟨e, c, hfail, .inr hstop, hlog⟩

theorem sum_le {k : UInt32} (h : Within ⟨some k⟩ P width counts r) :
    counts.sum ≤ width * k.toNat :=
  calc
    counts.sum ≤ counts.length * k.toNat :=
      List.sum_le_card_nsmul _ _ fun c hc ↦ (h.reaches c hc).2 k rfl
    _ ≤ width * k.toNat := Nat.mul_le_mul_right _ h.length_le

end Run.Within

section Count

variable [Scalar α]

def ImplicitQL.sweepCount (config : EigenConfig) (c : Fin n) (m : Fin (n + 1)) (done : ℕ)
    (s : ImplicitQL α (n + 1)) : ℕ :=
  if s.Negligible c.castSucc then 0
  else config.attempt done (abs (s.link c.castSucc)) (fun _ ↦ 0) fun _ ↦
    sweepCount config c m (done + 1) (s.sweep c m) + 1
termination_by EigenConfig.counterBound - done

def ImplicitQL.settleCount (config : EigenConfig) (s : ImplicitQL α (n + 1)) (l : Fin (n + 1)) :
    ℕ :=
  let s := s.raise l
  let m := s.blockEnd l
  if h : l < m then sweepCount config ⟨l, by omega⟩ m 0 s else 0

def ImplicitQL.sweepCounts (config : EigenConfig) (s : ImplicitQL α (n + 1)) :
    List (Fin (n + 1)) → List ℕ
  | [] => []
  | l :: ls => settleCount config s l ::
    match (settle config s l).outcome with
    | .ok s => sweepCounts config s ls
    | .error _ => []

def RealSchur.sweepCounts (config : EigenConfig) (norm : α) (top : ℕ) (ht : top ≤ n) (done : ℕ)
    (s : RealSchur α n) : List ℕ :=
  if h₀ : top = 0 then []
  else
    let b : Fin n := ⟨top - 1, (Nat.sub_one_lt h₀).trans_le ht⟩
    let l := blockStart norm s.form b b.isLt
    have hl : l ≤ b := blockStart_le norm s.form b b.isLt
    if h₁ : l = b then 0 :: sweepCounts config norm (top - 1) (by omega) 0 (s.deflateOne b)
    else if h₂ : l + 1 = b then
      0 :: sweepCounts config norm (top - 2) (by omega) 0 (s.deflatePair ⟨l, by omega⟩ b)
    else
      let a : Fin n := ⟨b - 1, by omega⟩
      let shifted := s.nextShift done ⟨b - 2, by omega⟩ a b
      config.attempt done (abs (shifted.2.2.form b a)) (fun _ ↦ [0]) fun _ ↦
        (sweepCounts config norm top ht (done + 1)
          (shifted.2.2.sweep l b.isLt (by omega) shifted.2.1)).modifyHead (· + 1)
termination_by top * (EigenConfig.counterBound + 1) + (EigenConfig.counterBound - done)
decreasing_by all_goals
  simp only [EigenConfig.counterBound] at *
  omega

def EigenDecomposition.sweepCounts (config : EigenConfig) (a : DenseMatrix α) : List ℕ :=
  match a.rows with
  | 0 => []
  | n + 1 =>
    match a.toGrid (n + 1) (n + 1) with
    | .error _ => []
    | .ok g =>
      if a.isSymmetric then
        ImplicitQL.sweepCounts config (.ofTridiagonal (.ofSymmetric g)) (List.finRange (n + 1))
      else
        let h := Hessenberg.reduce g
        RealSchur.sweepCounts config (RealSchur.hessenbergNorm h.form) (n + 1) le_rfl 0
          (.ofHessenberg h.form h.basis)

end Count

namespace RealSchur

variable [Scalar α] {config : EigenConfig}

theorem filterMap_nextShift (done : ℕ) (c a b : Fin n) (s : RealSchur α n) :
    (s.nextShift done c a b).1.filterMap Event.sweeps? = [] := by
  rw [nextShift]
  split
  · rfl
  · split
    · split
      · rfl
      · rfl
    · rfl

theorem modifyHead_zero_add (l : List ℕ) : l.modifyHead (0 + ·) = l := by
  cases l with
  | nil => rfl
  | cons c l => rw [List.modifyHead_cons, Nat.zero_add]

/-- The sweeps for the first block are those to come and the `done` that were made before. -/
theorem within_settle (norm : α) (top : ℕ) (ht : top ≤ n) (done : ℕ) (hdone : config.Reaches done)
    (s : RealSchur α n) :
    Run.Within config (fun _ ↦ True) top
      ((sweepCounts config norm top ht done s).modifyHead (done + ·))
      (settle config norm top ht done s) := by
  fun_induction settle config norm top ht done s with
  | case1 done s ht =>
    rw [sweepCounts, dif_pos rfl]
    exact ⟨fun c hc ↦ absurd hc List.not_mem_nil, le_rfl, .inl ⟨s, rfl, rfl⟩⟩
  | case2 top ht done s h₀ b l hl hlb ih =>
    rw [sweepCounts, dif_neg h₀, dif_pos hlb]
    have ih := ih config.reaches_zero
    rw [modifyHead_zero_add] at ih
    exact ih.after_found rfl hdone (by omega)
  | case3 top ht done s h₀ b l hl h₁ hlb ih =>
    rw [sweepCounts, dif_neg h₀, dif_neg h₁, dif_pos hlb]
    have ih := ih config.reaches_zero
    rw [modifyHead_zero_add] at ih
    exact ih.after_found rfl hdone (by omega)
  | case4 top ht done s h₀ b l hl h₁ h₂ a events t s₁ hshifted ih =>
    have hshifted' : s.nextShift done ⟨top - 1 - 2, by omega⟩ ⟨top - 1 - 1, by omega⟩
        ⟨top - 1, by omega⟩ = (events, t, s₁) := hshifted
    have hevents : events.filterMap Event.sweeps? = [] := by
      rw [← filterMap_nextShift done ⟨top - 1 - 2, by omega⟩ a b s, hshifted]
    rw [sweepCounts, dif_neg h₀, dif_neg h₁, dif_neg h₂]
    simp only [hshifted']
    by_cases hallows : config.Allows done
    · rw [EigenConfig.attempt_of_allows hallows, EigenConfig.attempt_of_allows hallows]
      have hadd : (fun c ↦ done + c) ∘ (fun c ↦ c + 1) = fun c ↦ done + 1 + c := by
        funext c
        rw [Function.comp_apply]
        omega
      rw [List.modifyHead_modifyHead, hadd]
      exact (ih hallows.1 hallows.reaches).after hevents
    · obtain ⟨e, hstop, he⟩ := EigenConfig.exists_stops (P := fun _ ↦ True)
        (x := abs (s₁.form ⟨top - 1, by omega⟩ ⟨top - 1 - 1, by omega⟩)) hdone hallows trivial
      rw [he, he, List.modifyHead_cons]
      exact .stop hdone hstop hevents (Nat.pos_of_ne_zero h₀)

end RealSchur

namespace ImplicitQL

variable {config : EigenConfig} {c : Fin n} {m : Fin (n + 1)} {s t : ImplicitQL Float (n + 1)}

/-- A link that is not negligible is not zero, nor something that is not a number. -/
theorem pos_of_not_negligible (hmag : 0 ≤ s.magnitude) {i : Fin (n + 1)} (h : ¬ s.Negligible i) :
    0 < abs (s.link i) :=
  Binary64.lt_of_le_of_lt (Binary64.epsilon_mul_nonneg hmag) (Classical.not_not.1 h)

theorem magnitude_raise (hmag : 0 ≤ s.magnitude) (l : Fin (n + 1)) : 0 ≤ (s.raise l).magnitude :=
  Binary64.maxNum_nonneg hmag

theorem converge_cases {done : ℕ} (hdone : config.Reaches done) (hmag : 0 ≤ s.magnitude) :
    config.Reaches (done + sweepCount config c m done s) ∧
      ((∃ t, converge config c m done s = .ok (done + sweepCount config c m done s, t) ∧
          0 ≤ t.magnitude) ∨
        ∃ e, converge config c m done s = .error e ∧
          config.Stops (0 < ·) (done + sweepCount config c m done s) e) := by
  fun_induction converge config c m done s with
  | case1 done s hsmall =>
    rw [sweepCount, if_pos hsmall]
    exact ⟨hdone, .inl ⟨s, rfl, hmag⟩⟩
  | case2 done s hlarge ih =>
    rw [sweepCount, if_neg hlarge]
    by_cases hallows : config.Allows done
    · rw [EigenConfig.attempt_of_allows hallows, EigenConfig.attempt_of_allows hallows]
      have hcount : done + (sweepCount config c m (done + 1) (s.sweep c m) + 1) =
          done + 1 + sweepCount config c m (done + 1) (s.sweep c m) := by omega
      rw [hcount]
      exact ih hallows.1 hallows.reaches hmag
    · obtain ⟨e, hstop, he⟩ :=
        EigenConfig.exists_stops hdone hallows (pos_of_not_negligible hmag hlarge)
      rw [he, he]
      exact ⟨hdone, .inr ⟨e, rfl, hstop⟩⟩

theorem settle_cases (config : EigenConfig) (hmag : 0 ≤ s.magnitude) (l : Fin (n + 1)) :
    config.Reaches (settleCount config s l) ∧
      ((∃ t, settle config s l = ⟨[.sweepsDone l (settleCount config s l)], .ok t⟩ ∧
          0 ≤ t.magnitude) ∨
        ∃ e, settle config s l = ⟨[], .error e⟩ ∧
          config.Stops (0 < ·) (settleCount config s l) e) := by
  have hraise := magnitude_raise hmag l
  by_cases hlm : l < (s.raise l).blockEnd l
  · have hcount : settleCount config s l =
        sweepCount config ⟨l, by omega⟩ ((s.raise l).blockEnd l) 0 (s.raise l) := dif_pos hlm
    have hconv := converge_cases (c := ⟨l, by omega⟩) (m := (s.raise l).blockEnd l)
      config.reaches_zero hraise
    rw [Nat.zero_add, ← hcount] at hconv
    obtain ⟨hreaches, ⟨t, ht, hmag'⟩ | ⟨e, hfail, hstop⟩⟩ := hconv
    · refine ⟨hreaches, .inl ⟨{ t with diag := t.diag.set l (t.diag l + t.shift),
                                       link := t.link.set l 0 }, ?_, hmag'⟩⟩
      simp only [settle, dif_pos hlm, ht, Run.ofOutcome_ok_bind]
      rfl
    · refine ⟨hreaches, .inr ⟨e, ?_, hstop⟩⟩
      simp only [settle, dif_pos hlm, hfail]
      rfl
  · have hcount : settleCount config s l = 0 := dif_neg hlm
    rw [hcount]
    refine ⟨config.reaches_zero, .inl ⟨{ s.raise l with
      diag := (s.raise l).diag.set l ((s.raise l).diag l + (s.raise l).shift),
      link := (s.raise l).link.set l 0 }, ?_, hraise⟩⟩
    simp only [settle, dif_neg hlm, Run.ofOutcome_ok_bind]
    rfl

theorem within_diagonalize (config : EigenConfig) (hmag : 0 ≤ s.magnitude)
    (ls : List (Fin (n + 1))) :
    Run.Within config (0 < ·) ls.length (sweepCounts config s ls) (ls.foldlM (settle config) s) := by
  induction ls generalizing s with
  | nil => exact ⟨fun c hc ↦ absurd hc List.not_mem_nil, le_rfl, .inl ⟨s, rfl, rfl⟩⟩
  | cons l ls ih =>
    rw [List.foldlM_cons, sweepCounts]
    obtain ⟨hreaches, ⟨t, ht, hmag'⟩ | ⟨e, hfail, hstop⟩⟩ := settle_cases config hmag l
    · have hbind : (settle config s l >>= fun s ↦ ls.foldlM (settle config) s) =
          (ls.foldlM (settle config) t).after [.sweepsDone l (settleCount config s l)] := by
        rw [ht]
        rfl
      rw [hbind, ht]
      exact (ih hmag').after_found rfl hreaches le_rfl
    · rw [hfail]
      exact .stop hreaches hstop rfl (Nat.le_add_left _ _)

end ImplicitQL

namespace Spectrum

variable (config : EigenConfig)

theorem within_ofSymmetric (a : Grid Float (n + 1) (n + 1)) :
    Run.Within config (0 < ·) (n + 1)
      (ImplicitQL.sweepCounts config (.ofTridiagonal (.ofSymmetric a)) (List.finRange (n + 1)))
      (ofSymmetric config a) := by
  have hmag : (0 : Float) ≤ (ImplicitQL.ofTridiagonal (.ofSymmetric a)).magnitude := by
    change (0 : Float) ≤ 0
    decide
  have h := ImplicitQL.within_diagonalize config hmag (List.finRange (n + 1))
  rw [List.length_finRange] at h
  exact h.bind fun s _ ↦ ⟨_, rfl⟩

theorem within_ofHessenberg (form basis : Grid Float n n) :
    Run.Within config (fun _ ↦ True) n
      (RealSchur.sweepCounts config (RealSchur.hessenbergNorm form) n le_rfl 0
        (.ofHessenberg form basis))
      (ofHessenberg config form basis) := by
  have h := RealSchur.within_settle (RealSchur.hessenbergNorm form) n le_rfl 0 config.reaches_zero
    (.ofHessenberg form basis)
  rw [RealSchur.modifyHead_zero_add] at h
  refine h.bind fun s hs ↦ ?_
  split
  case isTrue => exact ⟨_, rfl⟩
  case isFalse =>
    obtain ⟨first, hpairs⟩ := RealSchur.conjugatePairs_settle hs ⟨_, .empty _ _⟩
    obtain ⟨x, hx⟩ := RealSchur.BackSubstitution.exists_eigenvectors
      (B := ⟨s.re, s.im, RealSchur.hessenbergNorm form⟩) (fun _ ↦ hpairs.not_neg_of_zero) s.form
    rw [hx, Run.ofOutcome_ok_bind]
    exact ⟨_, rfl⟩

end Spectrum

namespace EigenDecomposition

theorem within_decompose (config : EigenConfig) {a : DenseMatrix Float} (ha : a.Held)
    (hsq : a.rows = a.cols) :
    Run.Within config (fun x ↦ a.isSymmetric = true → 0 < x) a.rows (sweepCounts config a)
      (decompose config a) := by
  obtain ⟨n, data, rfl, hsize⟩ := ha.exists_square hsq
  obtain ⟨g, hg, hdecompose⟩ := exists_decompose_eq ha
  rw [hdecompose, sweepCounts]
  simp only [hg]
  split
  case isTrue =>
    exact (((Spectrum.within_ofSymmetric config g).imp fun x hx _ ↦ hx).bind fun s _ ↦
      ⟨_, rfl⟩).emit_bind rfl
  case isFalse hgeneral =>
    exact (((Spectrum.within_ofHessenberg config _ _).imp fun x _ hsymm ↦
      absurd hsymm hgeneral).bind fun s _ ↦ ⟨_, rfl⟩).emit_bind rfl

/-- A limit bounds every run, whatever the entries: each eigenvalue or pair takes at most `k` sweeps,
and a run that does not end has given up on an eigenvalue after `k` of them. What was left to
annihilate is then a positive number if the matrix is symmetric. -/
theorem decompose_within_limit {a : DenseMatrix Float} (ha : a.Held) (hsq : a.rows = a.cols)
    {k : UInt32} (hk : k.toNat + 1 < EigenConfig.counterBound) :
    (∀ c ∈ sweepCounts ⟨some k⟩ a, c ≤ k.toNat) ∧
      (sweepCounts ⟨some k⟩ a).length ≤ a.rows ∧
      (sweepCounts ⟨some k⟩ a).sum ≤ a.rows * k.toNat ∧
      ((∃ x, (decompose ⟨some k⟩ a).outcome = .ok x ∧
          (decompose ⟨some k⟩ a).sweeps = sweepCounts ⟨some k⟩ a) ∨
        ∃ r, (decompose ⟨some k⟩ a).outcome = .error (.error (.convergenceFailed k r)) ∧
          (decompose ⟨some k⟩ a).sweeps ++ [k.toNat] = sweepCounts ⟨some k⟩ a ∧
          (a.isSymmetric = true → 0 < r)) := by
  have hwithin := within_decompose ⟨some k⟩ ha hsq
  refine ⟨fun c hc ↦ (hwithin.reaches c hc).2 k rfl, hwithin.length_le, hwithin.sum_le, ?_⟩
  obtain hok | ⟨e, c, hfail, ⟨i, r, hi, rfl, hr, rfl⟩ | ⟨hover, -⟩, hlog⟩ := hwithin.ends
  · exact .inl hok
  · obtain rfl := Option.some.inj hi
    exact .inr ⟨r, hfail, hlog, hr⟩
  · have hmem : c ∈ sweepCounts ⟨some k⟩ a := hlog ▸ List.mem_append_right _ List.mem_cons_self
    have hc := (hwithin.reaches c hmem).2 k rfl
    omega

/-- Nothing converges where no entry is a number. -/
theorem decompose_within_limit_three :
    let a : DenseMatrix Float := ⟨3, 3, Array.replicate 9 (0.0 / 0.0)⟩
    a.Held ∧ (2 : UInt32).toNat + 1 < EigenConfig.counterBound ∧
      (∀ c ∈ sweepCounts ⟨some 2⟩ a, c ≤ 2) ∧ (sweepCounts ⟨some 2⟩ a).sum ≤ 3 * 2 ∧
      ∃ r, (decompose ⟨some 2⟩ a).outcome = .error (.error (.convergenceFailed 2 r)) := by
  intro a
  have hheld : a.Held := ⟨⟨by decide, by decide, by decide, by decide⟩, by decide⟩
  have hlimit : (2 : UInt32).toNat + 1 < EigenConfig.counterBound := by decide
  obtain ⟨hcount, -, hsum, ⟨x, hx, -⟩ | ⟨r, hr, -, -⟩⟩ := decompose_within_limit hheld rfl hlimit
  · have hfails : ∃ i r, (decompose ⟨some 2⟩ a).outcome = .error (.error (.convergenceFailed i r)) := by
      decide +kernel
    obtain ⟨i, r, hr⟩ := hfails
    cases hx.symm.trans hr
  · exact ⟨hheld, hlimit, hcount, hsum, r, hr⟩

end EigenDecomposition

end DenseDecomp
