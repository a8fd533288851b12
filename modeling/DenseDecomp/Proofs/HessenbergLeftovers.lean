import DenseDecomp.Proofs.RealSchur.EigenvectorAgreement
import DenseDecomp.Scalar.Binary64

namespace DenseDecomp

open Hessenberg RealSchur Scalar

namespace Spectrum

variable {α : Type} [Scalar α] {n : ℕ}

def complete (norm : α) (s : RealSchur α n) : Run (Failure α) (Spectrum α n) := do
  if norm == 0 then return ⟨s.basis, s.re, s.im⟩
  else
    let x ← Run.ofOutcome (BackSubstitution.eigenvectors ⟨s.re, s.im, norm⟩ s.form)
    return ⟨changeBasis s.basis x, s.re, s.im⟩

theorem ofHessenberg_eq (config : EigenConfig) (form basis : Grid α n n) :
    ofHessenberg config form basis =
      settle config (hessenbergNorm form) n le_rfl 0 (.ofHessenberg form basis) >>=
        complete (hessenbergNorm form) := rfl

theorem complete_congr {s s' : RealSchur α n} (h : s.AgreeOn Upper s') (norm : α) :
    complete norm s = complete norm s' := by
  have hx := BackSubstitution.eigenvectors_related (B := ⟨s'.re, s'.im, norm⟩) h.form
  have hrun : Run.Related (Grid.AgreeOn Upper)
      (Run.ofOutcome (BackSubstitution.eigenvectors ⟨s'.re, s'.im, norm⟩ s.form))
      (Run.ofOutcome (BackSubstitution.eigenvectors ⟨s'.re, s'.im, norm⟩ s'.form)) := ⟨rfl, hx⟩
  rw [complete, complete, h.basis, h.re, h.im]
  split
  case isTrue => rfl
  case isFalse =>
    refine hrun.bind_eq fun x x' hx ↦ ?_
    rw [changeBasis_congr hx]

theorem settle_complete_congr (config : EigenConfig) (norm : α) {top : ℕ} (ht : top ≤ n) (done : ℕ)
    {s s' : RealSchur α n} (h : s.AgreeOn Upper s') :
    settle config norm top ht done s >>= complete norm =
      settle config norm top ht done s' >>= complete norm :=
  (h.settle config norm top ht done).bind_eq fun _ _ hs ↦ complete_congr hs norm

theorem ofHessenberg_congr (config : EigenConfig) {form form' : Grid α n n}
    (h : form.AgreeOn Upper form') (basis : Grid α n n) :
    ofHessenberg config form basis = ofHessenberg config form' basis := by
  rw [ofHessenberg_eq, ofHessenberg_eq, hessenbergNorm_congr h]
  exact settle_complete_congr config _ le_rfl 0 (agreeOn_ofHessenberg h basis)

/-- Nothing below the first subdiagonal is ever read: neither what the input holds there, nor what
the reduction to Hessenberg form leaves, nor what the sweeps leave. -/
theorem leftovers_unread (config : EigenConfig) :
    (∀ form form' basis : Grid α n n, form.AgreeOn Upper form' →
      ofHessenberg config form basis = ofHessenberg config form' basis) ∧
    (∀ (m : ℕ) (a form : Grid α (m + 1) (m + 1)), form.AgreeOn Upper (reduce a).form →
      ofGeneral config a = ofHessenberg config form (reduce a).basis) ∧
    ∀ (norm : α) (top : ℕ) (ht : top ≤ n) (done : ℕ) (s s' : RealSchur α n), s.AgreeOn Upper s' →
      settle config norm top ht done s >>= complete norm =
        settle config norm top ht done s' >>= complete norm := by
  refine ⟨fun form form' basis h ↦ ?_, fun m a form h ↦ ?_, fun norm top ht done s s' h ↦ ?_⟩
  · exact ofHessenberg_congr config h basis
  · exact (ofHessenberg_congr config h _).symm
  · exact settle_complete_congr config norm ht done h

def cornered (x : Float) : Grid Float 3 3 :=
  Grid.ofFn fun i j ↦ if j.val + 1 < i.val then x else if i = j then 2.0 else 1.0

theorem leftovers_unread_three : (cornered 0.0).AgreeOn Upper (cornered 7.0) ∧
    cornered 0.0 2 0 ≠ cornered 7.0 2 0 ∧
    ofHessenberg .unlimited (cornered 0.0) (cornered 0.0) =
      ofHessenberg .unlimited (cornered 7.0) (cornered 0.0) := by
  have hagree : (cornered 0.0).AgreeOn Upper (cornered 7.0) := by
    refine .ofFn fun i j hij ↦ ?_
    rw [if_neg (Nat.not_lt.2 hij), if_neg (Nat.not_lt.2 hij)]
  refine ⟨hagree, ?_, (leftovers_unread .unlimited).1 _ _ _ hagree⟩
  decide +kernel

end Spectrum

end DenseDecomp
