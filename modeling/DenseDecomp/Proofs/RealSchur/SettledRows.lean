import DenseDecomp.Proofs.ConjugatePairs

namespace DenseDecomp.RealSchur

open Scalar

variable {α : Type} {n : ℕ} {s s' s'' : RealSchur α n} {i a b : Fin n}

structure KeepsIndex (i : Fin n) (s s' : RealSchur α n) : Prop where
  re_eq : s'.re i = s.re i
  im_eq : s'.im i = s.im i
  basis_eq : ∀ r, s'.basis r i = s.basis r i

theorem KeepsIndex.refl (i : Fin n) (s : RealSchur α n) : KeepsIndex i s s :=
  ⟨rfl, rfl, fun _ ↦ rfl⟩

theorem KeepsIndex.trans (h : KeepsIndex i s s') (h' : KeepsIndex i s' s'') :
    KeepsIndex i s s'' :=
  ⟨h'.re_eq.trans h.re_eq, h'.im_eq.trans h.im_eq, fun r ↦ (h'.basis_eq r).trans (h.basis_eq r)⟩

variable [Scalar α]

theorem deflateOne_keepsIndex (h : i ≠ b) (s : RealSchur α n) : KeepsIndex i s (s.deflateOne b) := by
  refine ⟨?_, ?_, fun _ ↦ rfl⟩
  · rw [deflateOne, Tuple.set_apply, if_neg h]
  · rw [deflateOne, Tuple.set_apply, if_neg h]

theorem splitPair_keepsIndex (ha : i ≠ a) (hb : i ≠ b) (z w : α) (s : RealSchur α n) :
    KeepsIndex i s (s.splitPair a b z w) := by
  refine ⟨?_, ?_, fun _ ↦ ?_⟩
  · rw [splitPair, Tuple.set_apply, if_neg hb, Tuple.set_apply, if_neg ha]
  · rw [splitPair, Tuple.set_apply, if_neg hb, Tuple.set_apply, if_neg ha]
  · exact Grid.rotateColumns_of_ne ha hb

theorem deflatePair_keepsIndex (ha : i ≠ a) (hb : i ≠ b) (s : RealSchur α n) :
    KeepsIndex i s (s.deflatePair a b) := by
  rw [deflatePair]
  split
  case isTrue => exact splitPair_keepsIndex ha hb _ _ s
  case isFalse =>
    refine ⟨?_, ?_, fun _ ↦ rfl⟩
    · rw [Tuple.set_apply, if_neg hb, Tuple.set_apply, if_neg ha]
    · rw [Tuple.set_apply, if_neg hb, Tuple.set_apply, if_neg ha]

theorem nextShift_keepsIndex (done : ℕ) (c a b : Fin n) (s : RealSchur α n) (i : Fin n) :
    KeepsIndex i s (s.nextShift done c a b).2.2 := by
  rw [nextShift]
  split
  · exact ⟨rfl, rfl, fun _ ↦ rfl⟩
  · split
    · split
      · exact ⟨rfl, rfl, fun _ ↦ rfl⟩
      · exact .refl i s
    · exact .refl i s

section Sweep

variable {l m b : ℕ}

theorem Reflector.applyColumns_of_ne {t : Reflector α n} {p : Fin n → Prop} [DecidablePred p]
    {h : Grid α n n} {r : Fin n} (hi : i ≠ t.i) (hj : i ≠ t.j) (hk : some i ≠ t.third) :
    t.applyColumns p h r i = h r i := by
  rw [Reflector.applyColumns]
  simp only [Grid.ofFn_apply, if_neg hi, if_neg hj, if_neg hk, ite_self]

theorem reflect_keepsIndex (hb : b < n) {k : ℕ} (hk : k + 1 ≤ b) (u : Lead α)
    (s : RealSchur α n) (hi : b < i.val) : KeepsIndex i s (s.reflect l m b k hb hk u) := by
  obtain ⟨hre, him⟩ := reflect_values l m b k hb hk u s
  refine ⟨by rw [hre], by rw [him], fun r ↦ ?_⟩
  rw [reflect]
  split
  case isTrue => rfl
  case isFalse =>
    have hfirst : i ≠ ⟨k, by omega⟩ := fun h ↦ by
      rw [h] at hi
      dsimp only at hi
      omega
    have hsecond : i ≠ ⟨k + 1, by omega⟩ := fun h ↦ by
      rw [h] at hi
      dsimp only at hi
      omega
    have hthird : some i ≠ thirdRow k hb := by
      rw [thirdRow]
      split
      case isTrue =>
        intro h
        rw [Option.some.inj h] at hi
        dsimp only at hi
        omega
      case isFalse => exact Option.some_ne_none i
    exact Reflector.applyColumns_of_ne hfirst hsecond hthird

theorem chase_keepsIndex (hb : b < n) (k : ℕ) (hk : k + 1 ≤ b) (u : Lead α) (s : RealSchur α n)
    (hi : b < i.val) : KeepsIndex i s (chase l m hb k hk u s) := by
  fun_induction chase l m hb k hk u s with
  | case1 => exact .refl i _
  | case2 k hk u s hsize s' hnext u' ih => exact (reflect_keepsIndex hb hk u s hi).trans ih
  | case3 k hk u s hsize s' hlast => exact reflect_keepsIndex hb hk u s hi

theorem sweep_keepsIndex (hb : b < n) (hl : l + 2 ≤ b) (t : DoubleShift α) (s : RealSchur α n)
    (hi : b < i.val) : KeepsIndex i s (s.sweep l hb hl t) := by
  have h : KeepsIndex i { s with form := clearBulge (sweepStart s.form t l (b - 2) (by omega)) b s.form }
      (s.sweep l hb hl t) := chase_keepsIndex hb _ _ _ _ hi
  exact ⟨h.re_eq, h.im_eq, h.basis_eq⟩

end Sweep

/-- The rows that are settled stay as they are. -/
theorem settle_keepsIndex {config : EigenConfig} {norm : α} {top : ℕ} {ht : top ≤ n} {done : ℕ}
    (h : (settle config norm top ht done s).outcome = .ok s') (hi : top ≤ i.val) :
    KeepsIndex i s s' := by
  have hkept := settle_invariant (P := fun t r ↦ t ≤ i.val ∧ KeepsIndex i s r)
    (fun b r hr _ ↦ ?_) (fun a b r hr _ hab ↦ ?_) (fun done c a b r hr ↦ ?_)
    (fun b l hl t r hr ↦ ?_) ⟨hi, .refl i s⟩ h
  · exact hkept.2
  · obtain ⟨hbi, hr⟩ := hr
    have hne : i ≠ b := fun heq ↦ absurd hbi (by rw [heq]; exact Nat.not_succ_le_self _)
    exact ⟨(Nat.le_succ _).trans hbi, hr.trans (deflateOne_keepsIndex hne r)⟩
  · obtain ⟨hbi, hr⟩ := hr
    have hb : i ≠ b := fun heq ↦ absurd hbi (by rw [heq]; exact Nat.not_succ_le_self _)
    have ha : i ≠ a := fun heq ↦ by
      rw [heq] at hbi
      omega
    exact ⟨by omega, hr.trans (deflatePair_keepsIndex ha hb r)⟩
  · exact ⟨hr.1, hr.2.trans (nextShift_keepsIndex done c a b r i)⟩
  · exact ⟨hr.1, hr.2.trans (sweep_keepsIndex b.isLt hl t r hr.1)⟩

end DenseDecomp.RealSchur
