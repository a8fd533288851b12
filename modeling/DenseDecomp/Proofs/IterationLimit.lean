import Mathlib.Data.List.FinRange
import DenseDecomp.Eigen.Decomposition
import DenseDecomp.Proofs.Loop
import DenseDecomp.Scalar.Binary64

namespace DenseDecomp

open Scalar

variable {α β γ : Type}

namespace EigenConfig

/-- One iteration more after `done` of them is within the limit and within the counter. -/
def Allows (c : EigenConfig) (done : ℕ) : Prop :=
  done + 1 < counterBound ∧ ∀ k, c.maxIterations = some k → done < k.toNat

instance : LE EigenConfig := ⟨fun c c' ↦ ∀ done, c.Allows done → c'.Allows done⟩

theorem limit_le_limit {k k' : UInt32} (h : k ≤ k') : (⟨some k⟩ : EigenConfig) ≤ ⟨some k'⟩ := by
  rintro done ⟨hbound, hk⟩
  refine ⟨hbound, fun _ heq ↦ ?_⟩
  obtain rfl := Option.some.inj heq
  exact lt_of_lt_of_le (hk k rfl) (UInt32.le_iff_toNat_le.1 h)

theorem le_unlimited (c : EigenConfig) : c ≤ unlimited := fun _ h ↦ ⟨h.1, nofun⟩

variable {c : EigenConfig} {done : ℕ} {residual : α} {fail : Failure α → β}
  {next : done + 1 < counterBound → β}

theorem attempt_of_allows (h : c.Allows done) : c.attempt done residual fail next = next h.1 := by
  obtain ⟨hbound, hk⟩ := h
  rw [attempt, dif_pos hbound]
  split
  case h_1 k heq => rw [if_neg (Nat.not_le.2 (hk k heq))]
  case h_2 => rfl

theorem attempt_of_overflow (h : counterBound ≤ done + 1) :
    c.attempt done residual fail next = fail (.fault .addOverflow) := by
  rw [attempt, dif_neg (Nat.not_lt.2 h)]

theorem attempt_of_exhausted {k : UInt32} (hc : c.maxIterations = some k)
    (hbound : done + 1 < counterBound) (hk : k.toNat ≤ done) :
    c.attempt done residual fail next = fail (.error (.convergenceFailed k residual)) := by
  rw [attempt, dif_pos hbound, hc]
  exact if_pos hk

def Reaches (c : EigenConfig) (done : ℕ) : Prop :=
  done < counterBound ∧ ∀ k, c.maxIterations = some k → done ≤ k.toNat

theorem reaches_zero (c : EigenConfig) : c.Reaches 0 := ⟨by decide, fun _ _ ↦ Nat.zero_le _⟩

theorem Allows.reaches {c : EigenConfig} {done : ℕ} (h : c.Allows done) : c.Reaches (done + 1) := h

/-- An iteration that is not allowed has met the end of the counter or of the limit. -/
theorem overflow_or_exhausted (h : ¬ c.Allows done) :
    counterBound ≤ done + 1 ∨
      done + 1 < counterBound ∧ ∃ k, c.maxIterations = some k ∧ k.toNat ≤ done := by
  by_cases hbound : done + 1 < counterBound
  · right
    refine ⟨hbound, ?_⟩
    by_contra hnone
    exact h ⟨hbound, fun k hk ↦ Nat.lt_of_not_le fun hle ↦ hnone ⟨k, hk, hle⟩⟩
  · exact .inl (Nat.le_of_not_lt hbound)

end EigenConfig

instance decidableExistsOk {ε : Type} (r : Except ε β) : Decidable (∃ b, r = .ok b) :=
  match r with
  | .ok b => isTrue ⟨b, rfl⟩
  | .error _ => isFalse nofun

instance decidableExistsConvergenceFailed (r : Outcome α β) :
    Decidable (∃ i x, r = .error (.error (.convergenceFailed i x))) :=
  match r with
  | .error (.error (.convergenceFailed i x)) => isTrue ⟨i, x, rfl⟩
  | .error (.error (.invalidDimensions ..)) => isFalse nofun
  | .error (.error (.dataLength ..)) => isFalse nofun
  | .error (.error (.notSquare ..)) => isFalse nofun
  | .error (.error (.dimensionMismatch ..)) => isFalse nofun
  | .error (.error .notPositiveDefinite) => isFalse nofun
  | .error (.fault _) => isFalse nofun
  | .ok _ => isFalse nofun

/-- The run `r` is the run `r'` under the limit `k`: either the limit was never met and both are the
same, or it ended `r`. -/
def Run.Cuts (k : UInt32) (r r' : Run (Failure α) β) : Prop :=
  (r' = r ∧ ∀ i x, r.outcome ≠ .error (.error (.convergenceFailed i x))) ∨
    ∃ x, r.outcome = .error (.error (.convergenceFailed k x))

namespace Run.Cuts

variable {k : UInt32} {r r' : Run (Failure α) β} {f g : β → Run (Failure α) γ}

theorem of_ne (h : ∀ i x, r.outcome ≠ .error (.error (.convergenceFailed i x))) : Cuts k r r :=
  .inl ⟨rfl, h⟩

protected theorem pure (b : β) : Cuts k (pure b : Run (Failure α) β) (pure b) := of_ne nofun

protected theorem emit (e : Event) : Cuts k (emit e : Run (Failure α) Unit) (emit e) := of_ne nofun

theorem bind (h : Cuts k r r') (hf : ∀ b, Cuts k (f b) (g b)) : Cuts k (r >>= f) (r' >>= g) := by
  obtain ⟨rfl, hne⟩ | ⟨x, hx⟩ := h
  · cases hr : r'.outcome with
    | error e =>
      rw [bind_of_error hr, bind_of_error hr]
      exact of_ne fun i x hx ↦ hne i x (hr.trans (congrArg _ (Except.error.inj hx)))
    | ok b =>
      rw [bind_of_ok hr, bind_of_ok hr]
      obtain ⟨heq, hfb⟩ | hfb := hf b
      · rw [heq]
        exact of_ne hfb
      · exact .inr hfb
  · right
    rw [bind_of_error hx]
    exact ⟨x, rfl⟩

theorem after (h : Cuts k r r') (events : List Event) : Cuts k (r.after events) (r'.after events) :=
  h.imp (fun ⟨heq, hne⟩ ↦ ⟨congrArg _ heq, hne⟩) fun h ↦ h

theorem foldlM {ι : Type} {f g : β → ι → Run (Failure α) β} (h : ∀ b i, Cuts k (f b i) (g b i))
    (l : List ι) (b : β) : Cuts k (l.foldlM f b) (l.foldlM g b) := by
  induction l generalizing b with
  | nil => exact .pure b
  | cons i l ih =>
    rw [List.foldlM_cons, List.foldlM_cons]
    exact (h b i).bind ih

end Run.Cuts

namespace DenseMatrix

theorem allocate_ne_convergenceFailed (r c : ℕ) (i : UInt32) (x : α) :
    (allocate r c : Outcome α Unit) ≠ .error (.error (.convergenceFailed i x)) := by
  rw [allocate, Size.checkShape, Size.mul]
  split
  · rintro ⟨⟩
  · split
    · change Size.reserve (r * c) ≠ _
      rw [Size.reserve]
      split
      · rintro ⟨⟩
      · rintro ⟨⟩
    · rintro ⟨⟩

theorem toGrid_ne_error (a : DenseMatrix α) (r c : ℕ) (e : Error α) :
    a.toGrid r c ≠ .error (.error e) := by
  rw [toGrid]
  split
  · rintro ⟨⟩
  · rintro ⟨⟩

end DenseMatrix

section Iteration

variable [Scalar α] {n : ℕ} {k : UInt32} {c : EigenConfig}

namespace ImplicitQL

theorem cuts_converge (hc : ⟨some k⟩ ≤ c) (i : Fin n) (m : Fin (n + 1)) (done : ℕ)
    (s : ImplicitQL α (n + 1)) :
    Run.Cuts k (.ofOutcome (converge ⟨some k⟩ i m done s)) (.ofOutcome (converge c i m done s)) := by
  fun_induction converge ⟨some k⟩ i m done s with
  | case1 done s hsmall =>
    rw [converge, if_pos hsmall]
    exact .of_ne nofun
  | case2 done s hlarge ih =>
    rw [converge.eq_def c, if_neg hlarge]
    by_cases hallows : (⟨some k⟩ : EigenConfig).Allows done
    · rw [EigenConfig.attempt_of_allows hallows, EigenConfig.attempt_of_allows (hc done hallows)]
      exact ih hallows.1
    · obtain hover | ⟨hbound, _, heq, hk⟩ := EigenConfig.overflow_or_exhausted hallows
      · rw [EigenConfig.attempt_of_overflow hover, EigenConfig.attempt_of_overflow hover]
        exact .of_ne nofun
      · obtain rfl := Option.some.inj heq
        rw [EigenConfig.attempt_of_exhausted rfl hbound hk]
        exact .inr ⟨_, rfl⟩

theorem cuts_settle (hc : ⟨some k⟩ ≤ c) (s : ImplicitQL α (n + 1)) (l : Fin (n + 1)) :
    Run.Cuts k (settle ⟨some k⟩ s l) (settle c s l) := by
  refine Run.Cuts.bind ?_ fun _ ↦ (Run.Cuts.emit _).bind fun _ ↦ .pure _
  split
  · exact cuts_converge hc _ _ _ _
  · exact .of_ne nofun

theorem cuts_diagonalize (hc : ⟨some k⟩ ≤ c) (t : Tridiagonal α (n + 1)) :
    Run.Cuts k (diagonalize ⟨some k⟩ t) (diagonalize c t) := .foldlM (cuts_settle hc) _ _

end ImplicitQL

theorem RealSchur.cuts_settle (hc : ⟨some k⟩ ≤ c) (norm : α) (top : ℕ) (ht : top ≤ n) (done : ℕ)
    (s : RealSchur α n) :
    Run.Cuts k (settle ⟨some k⟩ norm top ht done s) (settle c norm top ht done s) := by
  fun_induction settle ⟨some k⟩ norm top ht done s with
  | case1 done s ht =>
    rw [settle, dif_pos rfl]
    exact .pure s
  | case2 top ht done s h₀ b l hl hlb ih =>
    rw [settle.eq_def c, dif_neg h₀, dif_pos hlb]
    exact ih.after _
  | case3 top ht done s h₀ b l hl h₁ hlb ih =>
    rw [settle.eq_def c, dif_neg h₀, dif_neg h₁, dif_pos hlb]
    exact ih.after _
  | case4 top ht done s h₀ b l hl h₁ h₂ a events t s₁ hshifted ih =>
    rw [settle.eq_def c, dif_neg h₀, dif_neg h₁, dif_neg h₂]
    -- The shift is chosen before the limit is looked at, so both runs have made the same one.
    have hshifted' : s.nextShift done ⟨top - 1 - 2, by omega⟩ ⟨top - 1 - 1, by omega⟩
        ⟨top - 1, by omega⟩ = (events, t, s₁) := hshifted
    simp only [hshifted']
    by_cases hallows : (⟨some k⟩ : EigenConfig).Allows done
    · rw [EigenConfig.attempt_of_allows hallows, EigenConfig.attempt_of_allows (hc done hallows)]
      exact (ih hallows.1).after events
    · obtain hover | ⟨hbound, _, heq, hk⟩ := EigenConfig.overflow_or_exhausted hallows
      · rw [EigenConfig.attempt_of_overflow hover, EigenConfig.attempt_of_overflow hover]
        exact .of_ne nofun
      · obtain rfl := Option.some.inj heq
        rw [EigenConfig.attempt_of_exhausted rfl hbound hk]
        exact .inr ⟨_, rfl⟩

namespace RealSchur.BackSubstitution

theorem column_ne_error (B : Blocks α n) (b : Fin n) (h : Grid α n n) (e : Error α) :
    column B b h ≠ .error (.error e) := by
  rw [column]
  split
  · exact nofun
  · split
    · split
      · exact nofun
      · exact nofun
    · exact nofun

/-- A back substitution that fails has met a fault, never an error to report. -/
theorem eigenvectors_ne_error (B : Blocks α n) (h : Grid α n n) (e : Error α) :
    eigenvectors B h ≠ .error (.error e) := by
  rw [eigenvectors]
  induction (List.finRange n).reverse generalizing h with
  | nil => exact nofun
  | cons b bs ih =>
    rw [List.foldlM_cons]
    cases hb : column B b h with
    | ok h' => exact ih h'
    | error f =>
      have hne := column_ne_error B b h e
      rw [hb] at hne
      exact hne

end RealSchur.BackSubstitution

namespace Spectrum

theorem cuts_ofSymmetric (hc : ⟨some k⟩ ≤ c) (a : Grid α (n + 1) (n + 1)) :
    Run.Cuts k (ofSymmetric ⟨some k⟩ a) (ofSymmetric c a) :=
  (ImplicitQL.cuts_diagonalize hc _).bind fun _ ↦ .pure _

theorem cuts_ofHessenberg (hc : ⟨some k⟩ ≤ c) (form basis : Grid α n n) :
    Run.Cuts k (ofHessenberg ⟨some k⟩ form basis) (ofHessenberg c form basis) := by
  refine (RealSchur.cuts_settle hc _ _ _ _ _).bind fun s ↦ ?_
  split
  · exact .pure _
  · refine Run.Cuts.bind (.of_ne fun i x ↦ ?_) fun _ ↦ .pure _
    exact RealSchur.BackSubstitution.eigenvectors_ne_error _ _ _

end Spectrum

namespace EigenDecomposition

theorem cuts_decompose (hc : ⟨some k⟩ ≤ c) (a : DenseMatrix α) :
    Run.Cuts k (decompose ⟨some k⟩ a) (decompose c a) := by
  rw [decompose, decompose]
  split
  · split
    · exact .of_ne nofun
    · split
      · refine (Run.Cuts.emit _).bind fun _ ↦ ?_
        refine (Run.Cuts.of_ne fun i x ↦ a.toGrid_ne_error _ _ _).bind fun g ↦ ?_
        exact (Spectrum.cuts_ofSymmetric hc g).bind fun _ ↦ .pure _
      · refine (Run.Cuts.emit _).bind fun _ ↦ ?_
        refine (Run.Cuts.of_ne <| DenseMatrix.allocate_ne_convergenceFailed _ _).bind fun _ ↦ ?_
        refine (Run.Cuts.of_ne fun i x ↦ a.toGrid_ne_error _ _ _).bind fun g ↦ ?_
        exact (Spectrum.cuts_ofHessenberg hc _ _).bind fun _ ↦ .pure _
  · exact .of_ne nofun

/-- A limit cuts a run short and does not change it: what ends within the limit `k` ends in the same
way within every larger one and without any, and what fails within a larger one fails within `k`. -/
theorem decompose_of_limit_le {k k' : UInt32} (hk : k ≤ k') (a : DenseMatrix α) :
    (∀ x, (decompose ⟨some k⟩ a).outcome = .ok x →
      decompose ⟨some k'⟩ a = decompose ⟨some k⟩ a ∧
        decompose .unlimited a = decompose ⟨some k⟩ a) ∧
    ∀ i r, (decompose ⟨some k'⟩ a).outcome = .error (.error (.convergenceFailed i r)) →
      ∃ r', (decompose ⟨some k⟩ a).outcome = .error (.error (.convergenceFailed k r')) := by
  have hlimit := cuts_decompose (EigenConfig.limit_le_limit hk) a
  refine ⟨fun x hx ↦ ⟨?_, ?_⟩, fun i r hr ↦ ?_⟩
  · obtain ⟨heq, -⟩ | ⟨y, hy⟩ := hlimit
    · exact heq
    · cases hx.symm.trans hy
  · obtain ⟨heq, -⟩ | ⟨y, hy⟩ := cuts_decompose (EigenConfig.le_unlimited ⟨some k⟩) a
    · exact heq
    · cases hx.symm.trans hy
  · obtain ⟨heq, hne⟩ | hcut := hlimit
    · rw [heq] at hr
      exact absurd hr (hne i r)
    · exact hcut

/-- One sweep is enough for `[2, 1; 1, 2]`, and one iteration not for `[1, 2, 3; 4, 5, 6; 7, 8, 10]`. -/
theorem decompose_of_limit_le_one :
    let a : DenseMatrix Float := ⟨2, 2, #[2, 1, 1, 2]⟩
    let b : DenseMatrix Float := ⟨3, 3, #[1, 2, 3, 4, 5, 6, 7, 8, 10]⟩
    decompose ⟨some 100⟩ a = decompose ⟨some 1⟩ a ∧ decompose .unlimited a = decompose ⟨some 1⟩ a ∧
      ∃ r, (decompose ⟨some 0⟩ b).outcome = .error (.error (.convergenceFailed 0 r)) := by
  intro a b
  have hends : ∃ x, (decompose ⟨some 1⟩ a).outcome = .ok x := by decide +kernel
  have hfails : ∃ i r, (decompose ⟨some 1⟩ b).outcome = .error (.error (.convergenceFailed i r)) := by
    decide +kernel
  obtain ⟨x, hx⟩ := hends
  obtain ⟨i, r, hr⟩ := hfails
  obtain ⟨hlarger, hunlimited⟩ := (decompose_of_limit_le (by decide : (1 : UInt32) ≤ 100) a).1 x hx
  exact ⟨hlarger, hunlimited, (decompose_of_limit_le (by decide : (0 : UInt32) ≤ 1) b).2 i r hr⟩

end EigenDecomposition

end Iteration

end DenseDecomp
