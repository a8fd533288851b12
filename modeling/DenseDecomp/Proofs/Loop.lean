import Mathlib.Data.List.FinRange
import DenseDecomp.Eigen.Config
import DenseDecomp.Run

namespace DenseDecomp

section Fold

variable {β : Type} {n : ℕ}

theorem foldl_invariant {f : β → Fin n → β} (P : ℕ → β → Prop) {b : β} (h₀ : P 0 b)
    (hs : ∀ (i : Fin n) b, P i b → P (i + 1) (f b i)) : P n (Fin.foldl n f b) := by
  induction n generalizing b P with
  | zero => exact h₀
  | succ n ih =>
    rw [Fin.foldl_succ]
    exact ih (fun t ↦ P (t + 1)) (hs 0 b h₀) (fun i b h ↦ hs i.succ b h)

/-- What holds in a loop over the indices from the last down, when the indices from `t` on are
done. -/
theorem foldr_invariant {f : Fin n → β → β} (P : ℕ → β → Prop) {b : β} (hn : P n b)
    (hs : ∀ (i : Fin n) b, P (i + 1) b → P i (f i b)) : P 0 (Fin.foldr n f b) := by
  induction n generalizing b P with
  | zero => exact hn
  | succ n ih =>
    rw [Fin.foldr_succ]
    exact hs 0 _ (ih (fun t ↦ P (t + 1)) hn (fun i b h ↦ hs i.succ b h))

theorem foldr_invariant_below {b : Fin n} {f : (i : Fin n) → i < b → β → β} (P : ℕ → β → Prop)
    {c : β} (hb : P b c) (hs : ∀ (i : Fin n) (hi : i < b) c, P (i + 1) c → P i (f i hi c)) :
    P 0 (Fin.foldr n (fun i c ↦ if hi : i < b then f i hi c else c) c) := by
  have hmin : P (min n b) c := by rwa [min_eq_right b.isLt.le]
  have h := foldr_invariant (f := fun i c ↦ if hi : i < b then f i hi c else c)
    (fun t ↦ P (min t b)) hmin fun i c hc ↦ ?_
  · rwa [Nat.zero_min] at h
  split
  case isTrue hi =>
    rw [min_eq_left (Fin.lt_def.1 hi)] at hc
    rw [min_eq_left (Fin.lt_def.1 hi).le]
    exact hs i hi c hc
  case isFalse hi =>
    have hbi := Fin.le_def.1 (not_lt.1 hi)
    rw [min_eq_right (hbi.trans (Nat.le_succ _))] at hc
    rwa [min_eq_right hbi]

end Fold

theorem not_of_lt_find? {n : ℕ} {p : Fin n → Bool} {j k : Fin n}
    (h : (List.finRange n).find? p = some k) (hj : j < k) : p j = false := by
  obtain ⟨-, i, hi, hk, hbefore⟩ := List.find?_eq_some_iff_getElem.1 h
  rw [List.getElem_finRange] at hk
  have hji : j.val < i := by
    rw [← hk] at hj
    exact hj
  have h := hbefore j hji
  rwa [List.getElem_finRange, Bool.not_eq_true'] at h

section Bind

variable {ε β γ : Type}

theorem Run.outcome_bind_eq_ok {r : Run ε β} {f : β → Run ε γ} {c : γ} :
    (r >>= f).outcome = .ok c ↔ ∃ b, r.outcome = .ok b ∧ (f b).outcome = .ok c := by
  cases h : r.outcome with
  | ok b =>
    rw [Run.bind_of_ok h]
    simp only [Except.ok.injEq, exists_eq_left']
  | error e =>
    rw [Run.bind_of_error h]
    simp only [reduceCtorEq, false_and, exists_false]

theorem Run.ofOutcome_ok_bind (b : β) (f : β → Run ε γ) : Run.ofOutcome (.ok b) >>= f = f b := by
  have h : (Run.ofOutcome (.ok b) : Run ε β).outcome = .ok b := rfl
  rw [Run.bind_of_ok h]
  rfl

theorem Run.outcome_bind_pure_eq_ok {r : Run ε β} {f : β → γ} {c : γ} :
    (r >>= fun b ↦ pure (f b)).outcome = .ok c ↔ ∃ b, r.outcome = .ok b ∧ f b = c := by
  rw [Run.outcome_bind_eq_ok]
  refine exists_congr fun b ↦ and_congr_right fun _ ↦ ?_
  exact ⟨Except.ok.inj, congrArg _⟩

theorem Run.ok_bind_pure (log : List Event) (b : β) (f : β → γ) :
    ((⟨log, .ok b⟩ : Run ε β) >>= fun b ↦ pure (f b)) = ⟨log, .ok (f b)⟩ :=
  (Run.bind_of_ok rfl).trans (congrArg (Run.mk · _) (List.append_nil log))

theorem Run.bind_pure_bind {δ : Type} (r : Run ε β) (f : β → γ) (g : γ → Run ε δ) :
    ((r >>= fun b ↦ pure (f b)) >>= g) = r >>= fun b ↦ g (f b) := by
  cases h : r.outcome with
  | ok b =>
    have hf : (r >>= fun b ↦ pure (f b)).outcome = .ok (f b) := by rw [Run.bind_of_ok h]; rfl
    rw [Run.bind_of_ok hf, Run.bind_of_ok h, Run.bind_of_ok h]
    exact congrArg (fun l ↦ Run.mk (l ++ (g (f b)).log) (g (f b)).outcome) (List.append_nil r.log)
  | error e =>
    have hf : (r >>= fun b ↦ pure (f b)).outcome = .error e := by rw [Run.bind_of_error h]
    rw [Run.bind_of_error hf, Run.bind_of_error h, Run.bind_of_error h]

theorem Run.log_after (events : List Event) (r : Run ε β) :
    (r.after events).log = events ++ r.log := rfl

theorem Run.outcome_after (events : List Event) (r : Run ε β) :
    (r.after events).outcome = r.outcome := rfl

theorem Run.outcome_emit_bind (e : Event) (r : Run ε β) :
    (Run.emit e >>= fun _ ↦ r).outcome = r.outcome := by
  have h : (Run.emit e : Run ε Unit).outcome = .ok () := rfl
  rw [Run.bind_of_ok h]

theorem Run.log_emit_bind (e : Event) (r : Run ε β) :
    (Run.emit e >>= fun _ ↦ r).log = e :: r.log := by
  have h : (Run.emit e : Run ε Unit).outcome = .ok () := rfl
  rw [Run.bind_of_ok h]
  rfl

theorem EigenConfig.attempt_cases {α : Type} (config : EigenConfig) (done : ℕ) (residual : α)
    (fail : Failure α → β) (next : done + 1 < counterBound → β) :
    (∃ e, config.attempt done residual fail next = fail e) ∨
      ∃ hd, config.attempt done residual fail next = next hd := by
  rw [EigenConfig.attempt]
  split
  case isTrue hd =>
    split
    · split
      · exact Or.inl ⟨_, rfl⟩
      · exact Or.inr ⟨hd, rfl⟩
    · exact Or.inr ⟨hd, rfl⟩
  case isFalse => exact Or.inl ⟨_, rfl⟩

theorem Except.bind_eq_ok {r : Except ε β} {f : β → Except ε γ} {c : γ} :
    (r >>= f) = .ok c ↔ ∃ b, r = .ok b ∧ f b = .ok c := by
  cases r with
  | ok b => simp only [bind, Except.bind, Except.ok.injEq, exists_eq_left']
  | error e => simp only [bind, Except.bind, reduceCtorEq, false_and, exists_false]

theorem Except.exists_foldlM {ι : Type} {f : β → ι → Except ε β} (hf : ∀ b i, ∃ c, f b i = .ok c)
    (l : List ι) (b : β) : ∃ c, l.foldlM f b = .ok c := by
  induction l generalizing b with
  | nil => exact ⟨b, rfl⟩
  | cons i l ih =>
    obtain ⟨c, hc⟩ := hf b i
    obtain ⟨d, hd⟩ := ih c
    refine ⟨d, ?_⟩
    rw [List.foldlM_cons]
    exact Except.bind_eq_ok.2 ⟨c, hc, hd⟩

theorem Except.exists_foldlM_reverse {n : ℕ} {f : β → Fin n → Except ε β} (P : ℕ → β → Prop) {b : β}
    (hn : P n b) (hs : ∀ (i : Fin n) b, P (i + 1) b → ∃ c, f b i = .ok c ∧ P i c) :
    ∃ c, (List.finRange n).reverse.foldlM f b = .ok c ∧ P 0 c := by
  induction n generalizing b P with
  | zero => exact ⟨b, rfl, hn⟩
  | succ n ih =>
    obtain ⟨c, hc, hP⟩ := ih (f := fun b i ↦ f b i.succ) (fun t ↦ P (t + 1)) hn
      fun i b h ↦ hs i.succ b h
    obtain ⟨d, hd, hP⟩ := hs 0 c hP
    refine ⟨d, ?_, hP⟩
    rw [List.finRange_succ, List.reverse_cons, ← List.map_reverse, List.foldlM_append,
      List.foldlM_map]
    refine Except.bind_eq_ok.2 ⟨c, hc, ?_⟩
    rw [List.foldlM_cons, hd]
    rfl

theorem Run.foldlM_invariant {n : ℕ} {f : β → Fin n → Run ε β} (P : ℕ → β → Prop) {b c : β}
    (h₀ : P 0 b) (hs : ∀ (i : Fin n) b c, P i b → (f b i).outcome = .ok c → P (i + 1) c)
    (h : ((List.finRange n).foldlM f b).outcome = .ok c) : P n c := by
  induction n generalizing b P with
  | zero =>
    rw [List.finRange_zero] at h
    cases h
    exact h₀
  | succ n ih =>
    rw [List.finRange_succ, List.foldlM_cons, Run.outcome_bind_eq_ok] at h
    obtain ⟨d, hd, hc⟩ := h
    rw [List.foldlM_map] at hc
    exact ih (fun t ↦ P (t + 1)) (hs 0 b d h₀ hd) (fun i b c h ↦ hs i.succ b c h) hc

theorem Run.exists_foldlM_log {n : ℕ} {f : β → Fin n → Run ε β} (event : ℕ → Event)
    (P : ℕ → β → Prop) {b : β} (h₀ : P 0 b)
    (hs : ∀ (i : Fin n) b, P i b → ∃ c, f b i = ⟨[event i], .ok c⟩ ∧ P (i + 1) c) :
    ∃ c, (List.finRange n).foldlM f b = ⟨(List.range n).map event, .ok c⟩ ∧ P n c := by
  induction n generalizing b P event with
  | zero => exact ⟨b, rfl, h₀⟩
  | succ n ih =>
    obtain ⟨c, hc, hP⟩ := hs 0 b h₀
    obtain ⟨d, hd, hP⟩ := ih (f := fun b i ↦ f b i.succ) (fun k ↦ event (k + 1))
      (fun t ↦ P (t + 1)) hP fun i b h ↦ hs i.succ b h
    refine ⟨d, ?_, hP⟩
    rw [List.finRange_succ, List.foldlM_cons, hc, Run.bind_of_ok rfl, List.foldlM_map, hd,
      List.range_succ_eq_map, List.map_cons, List.map_map]
    rfl

end Bind

end DenseDecomp
