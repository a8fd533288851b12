import DenseDecomp.Eigen.Spectrum
import DenseDecomp.Proofs.RealSchur.Agreement

namespace DenseDecomp

open Scalar Hessenberg

variable {α : Type} {n : ℕ} {g g' : Grid α n n}

namespace RealSchur.BackSubstitution

variable {s s' : State α n} {a b i j : Fin n}

structure State.Agree (s s' : State α n) : Prop where
  form : s.form.AgreeOn Upper s'.form
  solved : s.solved = s'.solved
  diag : s.diag = s'.diag
  first : s.first = s'.first
  second : s.second = s'.second

theorem upper_of_lt (h : i < j) : Upper i j := by
  have hij := Fin.lt_def.1 h
  rw [Upper]
  omega

theorem foldr_agree {f : (i : Fin n) → i < b → State α n → State α n}
    (hf : ∀ (i : Fin n) (hi : i < b) (s s' : State α n), s.Agree s' → i.val + 1 ≤ s.solved →
      (f i hi s).Agree (f i hi s') ∧ i.val ≤ (f i hi s).solved)
    (h : s.Agree s') (hs : s.solved = b) :
    (Fin.foldr n (fun i s ↦ if hi : i < b then f i hi s else s) s).Agree
      (Fin.foldr n (fun i s ↦ if hi : i < b then f i hi s else s) s') := by
  refine (foldr_related (fun t (s s' : State α n) ↦ s.Agree s' ∧ min t b ≤ s.solved)
    ⟨h, by rw [hs]; exact min_le_right n b⟩ fun i r r' hr ↦ ?_).1
  obtain ⟨hr, hsolved⟩ := hr
  split
  case isTrue hi =>
    rw [min_eq_left (Fin.lt_def.1 hi)] at hsolved
    obtain ⟨hagree, hle⟩ := hf i hi r r' hr hsolved
    exact ⟨hagree, (min_le_left _ _).trans hle⟩
  case isFalse hi =>
    have hbi := Fin.le_def.1 (not_lt.1 hi)
    rw [min_eq_right (hbi.trans (Nat.le_succ _))] at hsolved
    exact ⟨hr, (min_le_right _ _).trans hsolved⟩

theorem setPair_agreeOn (h : g.AgreeOn Upper g') (i a b : Fin n) (z : α × α) :
    (setPair i a b z g).AgreeOn Upper (setPair i a b z g') :=
  (h.set i a z.1).set i b z.2

variable [Scalar α] {B : Blocks α n}

theorem rescale_agreeOn (h : g.AgreeOn Upper g') (i a b : Fin n) (t : α) :
    (rescale i a b t g).AgreeOn Upper (rescale i a b t g') := by
  rw [rescale, rescale]
  split
  case isTrue =>
    refine .ofFn fun k l hkl ↦ ?_
    rw [h k l hkl]
  case isFalse => exact h

theorem State.Agree.advance (h : s.Agree s') (hg : g.AgreeOn Upper g') (i a b : Fin n) {t t' : α}
    (ht : t = t') : Agree { s with form := rescale i a b t g, solved := i }
      { s' with form := rescale i a b t' g', solved := i } := by
  rw [ht]
  exact ⟨rescale_agreeOn hg i a b t', rfl, h.diag, h.first, h.second⟩

/-- A row above the solved ones meets none of their columns before its subdiagonal entry. -/
theorem contribution_congr (h : s.Agree s') {l : Fin n} (hi : i.val + 1 ≤ s.solved)
    (hl : b.val ≤ l + 1) : contribution s b i l = contribution s' b i l := by
  rw [contribution, contribution, ← h.solved]
  refine sumWhere_congr fun j hj ↦ ?_
  have hij : Upper i j := upper_of_lt (Fin.lt_def.2 (Nat.lt_of_lt_of_le hi (Fin.le_def.1 hj.1)))
  have hjl : Upper j l := (Fin.le_def.1 hj.2).trans hl
  rw [h.form i j hij, h.form j l hjl]

section Real

theorem realBlock_agreeOn (h : s.Agree s') (hij : i.val + 1 = j.val) (w r : α) :
    (realBlock B b i j w r s).AgreeOn Upper (realBlock B b i j w r s') := by
  have hx : s.form i j = s'.form i j := h.form i j (upper_of_lt (Fin.lt_def.2 hij.le))
  rw [realBlock, realBlock, hx, h.form j i hij.ge, h.diag, h.first]
  exact (h.form.set i b _).set j b _

theorem realRow_agree (hi : i < b) (h : s.Agree s') (hs : i.val + 1 ≤ s.solved) :
    (realRow B b i hi s).Agree (realRow B b i hi s') ∧ i.val ≤ (realRow B b i hi s).solved := by
  have hr : contribution s b i b = contribution s' b i b :=
    contribution_congr h hs (Nat.le_succ _)
  rw [realRow, realRow, h.form i i (Nat.le_succ _), hr]
  split
  case isTrue => exact ⟨⟨h.form, h.solved, rfl, rfl, h.second⟩, (Nat.le_succ _).trans hs⟩
  case isFalse =>
    split
    case isTrue =>
      have hform := h.form.set i b (-contribution s' b i b /
        if s'.form i i - B.re b == 0 then epsilon * B.norm else s'.form i i - B.re b)
      exact ⟨h.advance hform i b b (congrArg Scalar.abs (hform i b (upper_of_lt hi))), le_rfl⟩
    case isFalse =>
      have hform := realBlock_agreeOn (B := B) (b := b) (i := i) (j := ⟨i + 1, by omega⟩) h rfl
        (s'.form i i - B.re b) (contribution s' b i b)
      exact ⟨h.advance hform i b b (congrArg Scalar.abs (hform i b (upper_of_lt hi))), le_rfl⟩

theorem realColumn_agreeOn (h : g.AgreeOn Upper g') (b : Fin n) :
    (realColumn B b g).AgreeOn Upper (realColumn B b g') := by
  have hfirst : State.Agree ⟨g.set b b 1, b, 0, 0, 0⟩ ⟨g'.set b b 1, b, 0, 0, 0⟩ :=
    ⟨h.set b b 1, rfl, rfl, rfl, rfl⟩
  exact (foldr_agree (f := realRow B b) (fun _ hi _ _ ↦ realRow_agree hi) hfirst rfl).form

end Real

section Complex

theorem complexBlock_agreeOn (h : s.Agree s') (hij : i.val + 1 = j.val) (w ra sa : α) :
    (complexBlock B a b i j w ra sa s).AgreeOn Upper (complexBlock B a b i j w ra sa s') := by
  have hx : s.form i j = s'.form i j := h.form i j (upper_of_lt (Fin.lt_def.2 hij.le))
  rw [complexBlock, complexBlock, hx, h.form j i hij.ge, h.diag, h.first, h.second]
  exact setPair_agreeOn (setPair_agreeOn h.form i a b _) j a b _

theorem complexRow_agree (hab : a.val + 1 = b.val) (hi : i < a) (h : s.Agree s')
    (hs : i.val + 1 ≤ s.solved) : (complexRow B a b i hi s).Agree (complexRow B a b i hi s') ∧
      i.val ≤ (complexRow B a b i hi s).solved := by
  have hra : contribution s b i a = contribution s' b i a := contribution_congr h hs hab.ge
  have hsa : contribution s b i b = contribution s' b i b :=
    contribution_congr h hs (Nat.le_succ _)
  have hib : Upper i b := upper_of_lt (hi.trans (Fin.lt_def.2 hab.le))
  rw [complexRow, complexRow, h.form i i (Nat.le_succ _), hra, hsa]
  split
  case isTrue => exact ⟨⟨h.form, h.solved, rfl, rfl, rfl⟩, (Nat.le_succ _).trans hs⟩
  case isFalse =>
    split
    case isTrue =>
      have hform := setPair_agreeOn h.form i a b (complexQuotient (-contribution s' b i a)
        (-contribution s' b i b) (s'.form i i - B.re b) (B.im b))
      exact ⟨h.advance hform i a b (congrArg₂ (fun x y ↦ maxNum (Scalar.abs x) (Scalar.abs y))
        (hform i a (upper_of_lt hi)) (hform i b hib)), le_rfl⟩
    case isFalse =>
      have hform := complexBlock_agreeOn (B := B) (a := a) (b := b) (i := i)
        (j := ⟨i + 1, by omega⟩) h rfl (s'.form i i - B.re b) (contribution s' b i a)
        (contribution s' b i b)
      exact ⟨h.advance hform i a b (congrArg₂ (fun x y ↦ maxNum (Scalar.abs x) (Scalar.abs y))
        (hform i a (upper_of_lt hi)) (hform i b hib)), le_rfl⟩

theorem complexEnd_agreeOn (h : g.AgreeOn Upper g') (hab : a.val + 1 = b.val) :
    (complexEnd B a b g).AgreeOn Upper (complexEnd B a b g') := by
  have hx : g a b = g' a b := h a b (upper_of_lt (Fin.lt_def.2 hab.le))
  rw [complexEnd, complexEnd, hx, h b a hab.ge, h b b (Nat.le_succ _), h a a (Nat.le_succ _)]
  exact setPair_agreeOn (setPair_agreeOn h a a b _) b a b _

theorem complexColumns_agreeOn (h : g.AgreeOn Upper g') (hab : a.val + 1 = b.val) :
    (complexColumns B a b g).AgreeOn Upper (complexColumns B a b g') := by
  have hfirst : State.Agree ⟨complexEnd B a b g, a, 0, 0, 0⟩ ⟨complexEnd B a b g', a, 0, 0, 0⟩ :=
    ⟨complexEnd_agreeOn h hab, rfl, rfl, rfl, rfl⟩
  exact (foldr_agree (f := complexRow B a b) (fun _ hi _ _ ↦ complexRow_agree hab hi) hfirst
    rfl).form

end Complex

theorem column_related (h : g.AgreeOn Upper g') (b : Fin n) :
    Except.Related (Grid.AgreeOn Upper) (column B b g) (column B b g') := by
  rw [column, column]
  split
  case isTrue => exact .ok (realColumn_agreeOn h b)
  case isFalse =>
    split
    case isTrue =>
      split
      case isTrue => exact .error _
      case isFalse hb => exact .ok (complexColumns_agreeOn h (Nat.sub_add_cancel (by omega)))
    case isFalse => exact .ok h

theorem eigenvectors_related (h : g.AgreeOn Upper g') :
    Except.Related (Grid.AgreeOn Upper) (eigenvectors B g) (eigenvectors B g') :=
  Except.Related.foldlM (fun _ _ b hb ↦ column_related hb b) _ h

end RealSchur.BackSubstitution

theorem Spectrum.changeBasis_congr [Scalar α] (h : g.AgreeOn Upper g') (v : Grid α n n) :
    changeBasis v g = changeBasis v g' := by
  refine congrArg Grid.ofFn (funext fun i ↦ funext fun j ↦ sumWhere_congr fun k hk ↦ ?_)
  have hkj := Fin.le_def.1 hk
  rw [h k j (hkj.trans (Nat.le_succ _))]

end DenseDecomp
