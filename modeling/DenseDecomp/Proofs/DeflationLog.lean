import DenseDecomp.Proofs.RealSchur.SettledRows
import DenseDecomp.Proofs.SweepCount

namespace DenseDecomp

open Scalar

variable {α β : Type} {n : ℕ}

def RealSchur.shiftsWithin (index done : ℕ) (second : Bool) : List Event :=
  (if 10 < done then [.exceptionalShift index] else []) ++
    if 30 < done ∧ second = true then [.secondExceptionalShift index] else []

open RealSchur (shiftsWithin)

structure SettledBlock where
  low : ℕ
  paired : Bool
  iterations : ℕ
  second : Bool

namespace SettledBlock

def high (x : SettledBlock) : ℕ := if x.paired then x.low + 1 else x.low

def indices (x : SettledBlock) : List ℕ := if x.paired then [x.low + 1, x.low] else [x.low]

def record (x : SettledBlock) : Event :=
  if x.paired then .rootPair x.low x.iterations else .realRoot x.low x.iterations

def events (x : SettledBlock) : List Event :=
  shiftsWithin x.high x.iterations x.second ++ [x.record]

theorem indices_append (x : SettledBlock) :
    x.indices ++ (List.range x.low).reverse = (List.range (x.high + 1)).reverse := by
  rw [indices, high]
  cases x.paired with
  | true => simp [List.range_succ]
  | false => simp [List.range_succ]

end SettledBlock

/-- The log of a run over the rows before `top`. The blocks are settled from the last row up, with no
gap, until the rows before `left` remain; `done` iterations were begun on these. -/
structure Accounts (config : EigenConfig) (real : β → ℕ → Prop) (top : ℕ)
    (blocks : List SettledBlock) (left done : ℕ) (second : Bool) (log : List Event)
    (outcome : Except (Failure α) β) : Prop where
  log_eq : log = blocks.flatMap SettledBlock.events ++ shiftsWithin (left - 1) done second
  covers : blocks.flatMap SettledBlock.indices ++ (List.range left).reverse =
    (List.range top).reverse
  ended : ∀ b, outcome = .ok b → left = 0 ∧ done = 0 ∧
    ∀ x ∈ blocks, x.paired = false → real b x.low
  failed : ∀ k r, outcome = .error (.error (.convergenceFailed k r)) →
    config.maxIterations = some k ∧ done = k.toNat + 1

namespace Accounts

variable {config : EigenConfig} {real : β → ℕ → Prop} {top left done : ℕ} {second : Bool}
  {blocks : List SettledBlock} {log : List Event} {outcome : Except (Failure α) β}

theorem settled (b : β) : Accounts config real 0 [] 0 0 false [] (.ok b : Except (Failure α) β) where
  log_eq := rfl
  covers := rfl
  ended _ _ := ⟨rfl, rfl, fun _ hx ↦ absurd hx List.not_mem_nil⟩
  failed _ _ h := by cases h

theorem stopped {e : Failure α} (hlog : log = shiftsWithin (top - 1) done second)
    (he : ∀ k r, e = .error (.convergenceFailed k r) →
      config.maxIterations = some k ∧ done = k.toNat + 1) :
    Accounts config real top [] top done second log (.error e : Except (Failure α) β) where
  log_eq := hlog
  covers := rfl
  ended _ h := by cases h
  failed k r h := he k r (Except.error.inj h)

theorem cons {x : SettledBlock}
    (h : Accounts config real x.low blocks left done second log outcome)
    (htop : x.high + 1 = top)
    (hreal : ∀ b, outcome = .ok b → x.paired = false → real b x.low) :
    Accounts config real top (x :: blocks) left done second (x.events ++ log) outcome where
  log_eq := by rw [h.log_eq, List.flatMap_cons, List.append_assoc]
  covers := by
    rw [List.flatMap_cons, List.append_assoc, h.covers, x.indices_append, htop]
  ended := by
    intro b hb
    obtain ⟨hleft, hdone, hblocks⟩ := h.ended b hb
    refine ⟨hleft, hdone, fun y hy hsingle ↦ ?_⟩
    obtain rfl | hy := List.mem_cons.1 hy
    · exact hreal b hb hsingle
    · exact hblocks y hy hsingle
  failed := h.failed

theorem bind {γ : Type} {real' : γ → ℕ → Prop} {r : Run (Failure α) β} {f : β → Run (Failure α) γ}
    (h : Accounts config real top blocks left done second r.log r.outcome)
    (hf : ∀ b, r.outcome = .ok b → ∃ c, f b = pure c ∧ ∀ i, real b i → real' c i) :
    Accounts config real' top blocks left done second (r >>= f).log (r >>= f).outcome := by
  cases hr : r.outcome with
  | ok b =>
    obtain ⟨c, hc, hreal⟩ := hf b hr
    obtain ⟨hleft, hdone, hblocks⟩ := h.ended b hr
    rw [Run.bind_of_ok hr, hc]
    refine ⟨(List.append_nil r.log).trans h.log_eq, h.covers, fun c' hc' ↦ ?_, nofun⟩
    obtain rfl := Except.ok.inj hc'
    exact ⟨hleft, hdone, fun x hx hsingle ↦ hreal _ (hblocks x hx hsingle)⟩
  | error e =>
    rw [Run.bind_of_error hr]
    refine ⟨h.log_eq, h.covers, nofun, fun k x hkx ↦ h.failed k x ?_⟩
    rw [hr]
    exact congrArg _ (Except.error.inj hkx)

end Accounts

namespace RealSchur

variable [Scalar α] {config : EigenConfig} {norm : α} {s s' : RealSchur α n}

theorem shiftsWithin_zero (index : ℕ) (second : Bool) : shiftsWithin index 0 second = [] := rfl

/-- One iteration more may add a shift. -/
theorem shiftsWithin_append (done : ℕ) (second : Bool) (c a b : Fin n) (s : RealSchur α n) :
    ∃ second', shiftsWithin b done second ++ (s.nextShift done c a b).1 =
      shiftsWithin b (done + 1) second' := by
  rw [nextShift]
  by_cases h₁ : done = 10
  · subst h₁
    exact ⟨false, rfl⟩
  · rw [if_neg h₁]
    by_cases h₂ : done = 30
    · subst h₂
      rw [if_pos rfl]
      cases nearRoot? (trailingShift s.form a b) with
      | some x => exact ⟨true, rfl⟩
      | none => exact ⟨false, rfl⟩
    · have hfirst : 10 < done ↔ 10 < done + 1 := by omega
      have hsecond : 30 < done ↔ 30 < done + 1 := by omega
      refine ⟨second, ?_⟩
      rw [if_neg h₂, List.append_nil, shiftsWithin, shiftsWithin]
      simp only [hfirst, hsecond]

def RealAt (s : RealSchur α n) (i : ℕ) : Prop := ∃ j : Fin n, j.val = i ∧ s.im j = 0

theorem exists_accounts_settle (config : EigenConfig) (norm : α) (top : ℕ) (ht : top ≤ n)
    (done : ℕ) (s : RealSchur α n) (second : Bool) (hdone : config.Reaches done)
    (htop : top = 0 → done = 0) :
    ∃ blocks left k second', Accounts config RealAt top blocks left k second'
      (shiftsWithin (top - 1) done second ++ (settle config norm top ht done s).log)
      (settle config norm top ht done s).outcome := by
  induction top, ht, done, s using settle_induction norm generalizing second with
  | zero done s =>
    rw [htop rfl, settle_zero]
    exact ⟨[], 0, 0, false, .settled s⟩
  | single b done s hl ih =>
    obtain ⟨blocks, left, k, second', h⟩ := ih false config.reaches_zero fun _ ↦ rfl
    rw [shiftsWithin_zero, List.nil_append] at h
    rw [settle_of_single rfl hl, Run.log_after, Run.outcome_after]
    have hhigh : SettledBlock.high ⟨b, false, done, second⟩ + 1 = b.val + 1 := rfl
    have hcons := h.cons (x := ⟨b, false, done, second⟩) hhigh fun s' hs' _ ↦ by
      refine ⟨b, rfl, ?_⟩
      rw [(settle_keepsIndex hs' le_rfl).im_eq, deflateOne, Tuple.set_apply, if_pos rfl]
    rw [SettledBlock.events, List.append_assoc] at hcons
    exact ⟨_, left, k, second', hcons⟩
  | pair a b done s hab hl ih =>
    obtain ⟨blocks, left, k, second', h⟩ := ih false config.reaches_zero fun _ ↦ rfl
    rw [shiftsWithin_zero, List.nil_append] at h
    rw [settle_of_pair rfl hab hl, Run.log_after, Run.outcome_after]
    have hhigh : SettledBlock.high ⟨a, true, done, second⟩ = b := hab
    have htop := congrArg (· + 1) hhigh
    have hcons := h.cons (x := ⟨a, true, done, second⟩) htop fun s' _ hsingle ↦ by cases hsingle
    rw [SettledBlock.events, List.append_assoc, hhigh] at hcons
    exact ⟨_, left, k, second', hcons⟩
  | block c a b l done s hca hab hl hlb ih =>
    obtain ⟨second', hshifts⟩ := shiftsWithin_append done second c a b s
    rw [settle_of_block rfl hca hab hl hlb, Nat.add_sub_cancel]
    by_cases hallows : config.Allows done
    · rw [EigenConfig.attempt_of_allows hallows, Run.log_after, Run.outcome_after]
      have hrows : b.val + 1 = 0 → done + 1 = 0 := fun h ↦ absurd h (Nat.succ_ne_zero _)
      obtain ⟨blocks, left, k, second'', h⟩ := ih hallows.1 second' hallows.reaches hrows
      rw [Nat.add_sub_cancel, ← hshifts, List.append_assoc] at h
      exact ⟨blocks, left, k, second'', h⟩
    · refine ⟨[], b + 1, done + 1, second', ?_⟩
      obtain hover | ⟨hbound, k, hk, hle⟩ := EigenConfig.overflow_or_exhausted hallows
      · rw [EigenConfig.attempt_of_overflow hover]
        refine .stopped hshifts fun k r hkr ↦ ?_
        cases hkr
      · rw [EigenConfig.attempt_of_exhausted hk hbound hle]
        refine .stopped hshifts fun k' r hkr ↦ ?_
        obtain ⟨rfl, -⟩ := Error.convergenceFailed.inj (Failure.error.inj hkr)
        exact ⟨hk, congrArg (· + 1) (Nat.le_antisymm (hdone.2 k hk) hle)⟩

end RealSchur

theorem Tuple.getElem?_toArray (x : Tuple α n) (i : Fin n) : x.toArray[i.val]? = some (x i) := by
  rw [Array.getElem?_eq_getElem (by rw [Tuple.size_toArray]; exact i.isLt)]
  rfl

namespace EigenDecomposition

def RealAt (x : EigenDecomposition Float) (i : ℕ) : Prop := x.im[i]? = some 0

theorem exists_accounts_ofHessenberg (config : EigenConfig) (form basis : Grid Float n n) :
    ∃ blocks left done second,
      Accounts config (fun t i ↦ RealAt (ofSpectrum false t) i) n blocks left done second
        (Spectrum.ofHessenberg config form basis).log
        (Spectrum.ofHessenberg config form basis).outcome := by
  obtain ⟨blocks, left, done, second, h⟩ := RealSchur.exists_accounts_settle config
    (RealSchur.hessenbergNorm form) n le_rfl 0 (.ofHessenberg form basis) false config.reaches_zero
    fun _ ↦ rfl
  rw [RealSchur.shiftsWithin_zero, List.nil_append] at h
  refine ⟨blocks, left, done, second, h.bind fun s hs ↦ ?_⟩
  have hreal : ∀ x i, s.RealAt i → RealAt (ofSpectrum false ⟨x, s.re, s.im⟩) i := by
    rintro x i ⟨j, rfl, hj⟩
    exact (Tuple.getElem?_toArray s.im j).trans (congrArg some hj)
  split
  case isTrue => exact ⟨_, rfl, hreal _⟩
  case isFalse =>
    obtain ⟨x, hx⟩ := Spectrum.exists_eigenvectors_of_settle hs
    rw [hx, Run.ofOutcome_ok_bind]
    exact ⟨_, rfl, hreal _⟩

/-- The log of a matrix that is not symmetric accounts for every eigenvalue, and for every shift. -/
theorem exists_accounts_decompose (config : EigenConfig) {a : DenseMatrix Float} (ha : a.Held)
    (hsq : a.rows = a.cols) (hgeneral : a.isSymmetric = false) :
    ∃ events blocks left done second,
      (decompose config a).log = .generalInput a.rows :: events ∧
      Accounts config RealAt a.rows blocks left done second events
        (decompose config a).outcome := by
  obtain ⟨n, data, rfl, hsize⟩ := ha.exists_square hsq
  obtain ⟨g, hg, hdecompose⟩ := exists_decompose_eq ha
  obtain ⟨blocks, left, done, second, h⟩ := exists_accounts_ofHessenberg config
    (Hessenberg.reduce g).form (Hessenberg.reduce g).basis
  have hbind := h.bind (f := fun s ↦ pure (ofSpectrum false s)) fun t _ ↦ ⟨_, rfl, fun _ ↦ id⟩
  have hlog := Run.log_emit_bind (.generalInput (n + 1)) (Spectrum.ofGeneral config g >>=
    fun s ↦ pure (ofSpectrum false s))
  rw [hdecompose, if_neg (by rw [hgeneral]; decide), Run.outcome_emit_bind]
  exact ⟨_, blocks, left, done, second, hlog, hbind⟩

/-- A cyclic permutation turns in a circle until the first shift. -/
theorem exists_accounts_decompose_three :
    let a : DenseMatrix Float := ⟨3, 3, #[0, 0, 1, 1, 0, 0, 0, 1, 0]⟩
    a.Held ∧ a.isSymmetric = false ∧
      (decompose .unlimited a).log =
        [.generalInput 3, .exceptionalShift 2, .realRoot 2 15, .rootPair 0 0] ∧
      ∃ events blocks left done second, (decompose .unlimited a).log = .generalInput 3 :: events ∧
        Accounts .unlimited RealAt 3 blocks left done second events
          (decompose .unlimited a).outcome := by
  intro a
  have hheld : a.Held := ⟨⟨by decide, by decide, by decide, by decide⟩, by decide⟩
  have hgeneral : a.isSymmetric = false := by decide +kernel
  refine ⟨hheld, hgeneral, ?_, exists_accounts_decompose .unlimited hheld rfl hgeneral⟩
  decide +kernel

end EigenDecomposition

end DenseDecomp
