import Mathlib.Data.List.FinRange
import DenseDecomp.Eigen.Config
import DenseDecomp.Grid.Rotation
import DenseDecomp.Run

namespace DenseDecomp

section Fold

variable {β γ : Type} {n : ℕ}

theorem foldl_related {f : β → Fin n → β} {g : γ → Fin n → γ} (R : ℕ → β → γ → Prop) {b : β} {c : γ}
    (h₀ : R 0 b c) (hs : ∀ (i : Fin n) b c, R i b c → R (i + 1) (f b i) (g c i)) :
    R n (Fin.foldl n f b) (Fin.foldl n g c) := by
  induction n generalizing b c R with
  | zero => exact h₀
  | succ n ih =>
    rw [Fin.foldl_succ, Fin.foldl_succ]
    exact ih (fun t ↦ R (t + 1)) (hs 0 b c h₀) fun i b c h ↦ hs i.succ b c h

theorem foldr_related {f : Fin n → β → β} {g : Fin n → γ → γ} (R : ℕ → β → γ → Prop) {b : β} {c : γ}
    (hn : R n b c) (hs : ∀ (i : Fin n) b c, R (i + 1) b c → R i (f i b) (g i c)) :
    R 0 (Fin.foldr n f b) (Fin.foldr n g c) := by
  induction n generalizing b c R with
  | zero => exact hn
  | succ n ih =>
    rw [Fin.foldr_succ, Fin.foldr_succ]
    exact hs 0 _ _ (ih (fun t ↦ R (t + 1)) hn fun i b c h ↦ hs i.succ b c h)

/-- A state with the divisors that led to it, none of which is zero. -/
structure Traces {α : Type} [Zero α] (p : β × List α) (b : β) : Prop where
  fst_eq : p.1 = b
  ne_zero : ∀ x ∈ p.2, x ≠ 0

theorem Traces.step {α : Type} [Zero α] {p : β × List α} {b : β} (h : Traces p b) (f : β → γ)
    {ds : List α} (hds : ∀ x ∈ ds, x ≠ 0) : Traces (f p.1, p.2 ++ ds) (f b) where
  fst_eq := congrArg f h.fst_eq
  ne_zero x hx := by
    rcases List.mem_append.1 hx with hx | hx
    · exact h.ne_zero x hx
    · exact hds x hx

end Fold

section Outcome

variable {ε β γ δ : Type}

inductive Except.Related (R : β → γ → Prop) : Except ε β → Except ε γ → Prop
  | ok {b : β} {c : γ} (h : R b c) : Related R (.ok b) (.ok c)
  | error (e : ε) : Related R (.error e) (.error e)

theorem Except.Related.foldlM {ι : Type} {R : β → γ → Prop} {f : β → ι → Except ε β}
    {g : γ → ι → Except ε γ} (h : ∀ b c i, R b c → Related R (f b i) (g c i)) (l : List ι) {b : β}
    {c : γ} (hbc : R b c) : Related R (l.foldlM f b) (l.foldlM g c) := by
  induction l generalizing b c with
  | nil => exact .ok hbc
  | cons i l ih =>
    rw [List.foldlM_cons, List.foldlM_cons]
    have hi := h b c i hbc
    generalize f b i = r, g c i = r' at hi ⊢
    cases hi with
    | ok hR => exact ih hR
    | error e => exact .error e

structure Run.Related (R : β → γ → Prop) (r : Run ε β) (r' : Run ε γ) : Prop where
  log : r.log = r'.log
  outcome : Except.Related R r.outcome r'.outcome

namespace Run.Related

variable {R : β → γ → Prop} {r : Run ε β} {r' : Run ε γ}

theorem after (h : Related R r r') (events : List Event) :
    Related R (r.after events) (r'.after events) where
  log := congrArg (events ++ ·) h.log
  outcome := h.outcome

theorem bind_eq (h : Related R r r') {f : β → Run ε δ} {g : γ → Run ε δ}
    (hfg : ∀ b c, R b c → f b = g c) : r >>= f = r' >>= g := by
  obtain ⟨log, x⟩ := r
  obtain ⟨log', x'⟩ := r'
  obtain ⟨rfl, hx⟩ := h
  cases hx with
  | ok hR => rw [bind_of_ok rfl, bind_of_ok rfl, hfg _ _ hR]
  | error e => rw [bind_of_error rfl, bind_of_error rfl]

end Run.Related

theorem EigenConfig.attempt_related {α : Type} {R : β → γ → Prop} (config : EigenConfig) (done : ℕ)
    (residual : α) {fail : Failure α → β} {fail' : Failure α → γ}
    {next : done + 1 < counterBound → β} {next' : done + 1 < counterBound → γ}
    (hfail : ∀ e, R (fail e) (fail' e)) (hnext : ∀ hd, R (next hd) (next' hd)) :
    R (config.attempt done residual fail next) (config.attempt done residual fail' next') := by
  rw [attempt, attempt]
  split
  case isTrue hd =>
    split
    · split
      · exact hfail _
      · exact hnext hd
    · exact hnext hd
  case isFalse => exact hfail _

end Outcome

section Grid

variable {α : Type} {m n : ℕ}

def Grid.AgreeOn (P : Fin m → Fin n → Prop) (g h : Grid α m n) : Prop :=
  ∀ i j, P i j → g i j = h i j

namespace Grid.AgreeOn

variable {P Q : Fin m → Fin n → Prop} {g h : Grid α m n}

theorem mono (hgh : AgreeOn P g h) (hQ : ∀ i j, Q i j → P i j) : AgreeOn Q g h :=
  fun i j hij ↦ hgh i j (hQ i j hij)

theorem set (hgh : AgreeOn P g h) (i : Fin m) (j : Fin n) (x : α) :
    AgreeOn P (g.set i j x) (h.set i j x) := by
  intro k l hkl
  rw [Grid.set_apply, Grid.set_apply]
  split
  · rfl
  · exact hgh k l hkl

theorem ofFn {f f' : Fin m → Fin n → α} (h : ∀ i j, P i j → f i j = f' i j) :
    AgreeOn P (Grid.ofFn f) (Grid.ofFn f') := by
  intro i j hij
  rw [Grid.ofFn_apply, Grid.ofFn_apply]
  exact h i j hij

variable [Scalar α]

theorem rotateRows (hgh : AgreeOn P g h) {i k : Fin m} {p : Fin n → Prop} [DecidablePred p]
    (hi : ∀ l, p l → P i l) (hk : ∀ l, p l → P k l) (cos sin : α) :
    AgreeOn P (g.rotateRows i k cos sin p) (h.rotateRows i k cos sin p) := by
  refine .ofFn fun r l hrl ↦ ?_
  split
  case isTrue hl => rw [hgh i l (hi l hl), hgh k l (hk l hl), hgh r l hrl]
  case isFalse => exact hgh r l hrl

theorem rotateColumns (hgh : AgreeOn P g h) {j k : Fin n} {p : Fin m → Prop} [DecidablePred p]
    (hj : ∀ r, p r → P r j) (hk : ∀ r, p r → P r k) (cos sin : α) :
    AgreeOn P (g.rotateColumns j k cos sin p) (h.rotateColumns j k cos sin p) := by
  refine .ofFn fun r l hrl ↦ ?_
  split
  case isTrue hr => rw [hgh r j (hj r hr), hgh r k (hk r hr), hgh r l hrl]
  case isFalse => exact hgh r l hrl

end Grid.AgreeOn

end Grid

end DenseDecomp
