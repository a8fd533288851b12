import Mathlib.Data.Real.Basic
import DenseDecomp.Proofs.RealSchur.Reflector

namespace DenseDecomp.RealSchur

open Matrix Scalar

variable {n b : ℕ}

theorem reflector_dot {p q r size : ℝ} (hs : size ≠ 0) (hp : p + size ≠ 0)
    (hsq : size * size = p * p + q * q + r * r) :
    (p + size) / size + q / size * (q / (p + size)) + r / size * (r / (p + size)) = 2 := by
  field_simp
  linear_combination -hsq

def Lead.Fits (hb : b < n) (k : ℕ) (u : Lead ℝ) : Prop := thirdRow k hb = none → u.r = 0

noncomputable def reflector (hb : b < n) (k : ℕ) (hk : k + 1 ≤ b) (u : Lead ℝ) (size : ℝ) :
    Reflector ℝ n where
  i := ⟨k, by omega⟩
  j := ⟨k + 1, by omega⟩
  third := thirdRow k hb
  x := (u.p + size) / size
  y := u.q / size
  z := u.r / size
  q := u.q / (u.p + size)
  r := u.r / (u.p + size)

variable {hb : b < n} {k : ℕ} {hk : k + 1 ≤ b} {u : Lead ℝ} {size : ℝ}

theorem val_of_thirdRow_eq_some {i : Fin n} (h : thirdRow k hb = some i) :
    i.val = k + 2 ∧ k + 2 ≤ b := by
  rw [thirdRow] at h
  split at h
  case isTrue hk =>
    obtain rfl := Option.some_inj.1 h
    exact ⟨rfl, hk⟩
  case isFalse => cases h

theorem reflector_ordered : (reflector hb k hk u size).Ordered where
  second := Fin.mk_lt_mk.2 k.lt_succ_self
  third i hi := by
    have hthird : thirdRow k hb = some i := hi
    rw [Fin.lt_def, (val_of_thirdRow_eq_some hthird).1]
    exact (k + 1).lt_succ_self

theorem val_le_of_touches {i : Fin n} (hi : (reflector hb k hk u size).Touches i) :
    i.val ≤ min b (k + 3) := by
  rw [le_min_iff]
  obtain rfl | rfl | hi := hi
  · exact ⟨k.le_succ.trans hk, Nat.le_add_right k 3⟩
  · exact ⟨hk, Nat.add_le_add_left (by decide) k⟩
  · have hthird : thirdRow k hb = some i := hi.symm
    obtain ⟨hval, hkb⟩ := val_of_thirdRow_eq_some hthird
    rw [hval]
    exact ⟨hkb, Nat.add_le_add_left (by decide) k⟩

theorem reflector_dot_of_fits (hu : u.Fits hb k) (hs : size ≠ 0) (hp : u.p + size ≠ 0)
    (hsq : size * size = u.p * u.p + u.q * u.q + u.r * u.r) :
    (u.p + size) / size + u.q / size * (u.q / (u.p + size)) +
      ((thirdRow k hb).elim 0 fun _ ↦ u.r / size * (u.r / (u.p + size))) = 2 := by
  have hthird : ((thirdRow k hb).elim 0 fun _ ↦ u.r / size * (u.r / (u.p + size))) =
      u.r / size * (u.r / (u.p + size)) := by
    cases h : thirdRow k hb with
    | none => rw [Option.elim_none, hu h, zero_div, zero_mul]
    | some i => rfl
  rw [hthird, reflector_dot hs hp hsq]

theorem pred_ne {m : ℕ} (h : m < k) {hk : k < n} {hk' : k - 1 < n} :
    (⟨k, hk⟩ : Fin n) ≠ ⟨k - 1, hk'⟩ := fun heq ↦ by
  have hval := Fin.mk.inj heq
  omega

/-- What a sweep keeps: it rotates the active rows, and settles none. -/
structure Keeps (S : Fin n → Prop) [DecidablePred S] (s s' : RealSchur ℝ n) : Prop where
  re : s'.re = s.re
  im : s'.im = s.im
  shift : s'.shift = s.shift
  diagonal : diagonalSum S s'.form = diagonalSum S s.form

section Keeps

variable {S : Fin n → Prop} [DecidablePred S] {s s' s'' : RealSchur ℝ n}

theorem Keeps.refl : Keeps S s s := ⟨rfl, rfl, rfl, rfl⟩

theorem Keeps.trans (h : Keeps S s s') (h' : Keeps S s' s'') : Keeps S s s'' where
  re := h'.re.trans h.re
  im := h'.im.trans h.im
  shift := h'.shift.trans h.shift
  diagonal := h'.diagonal.trans h.diagonal

end Keeps

variable [DivisionByZero]

theorem add_negateIf_ne_zero {p length : ℝ} (hl : 0 < length) : p + negateIf (p < 0) length ≠ 0 := by
  rw [negateIf]
  split
  case isTrue hp => exact (add_neg hp (neg_neg_of_pos hl)).ne
  case isFalse hp => exact (add_pos_of_nonneg_of_pos (not_lt.1 hp) hl).ne'

theorem exists_reflect_eq (l m : ℕ) (s : RealSchur ℝ n) :
    ∃ form basis, s.reflect l m b k hb hk u = { s with form := form, basis := basis } := by
  rw [reflect]
  split
  case isTrue => exact ⟨_, _, rfl⟩
  case isFalse => exact ⟨_, _, rfl⟩

theorem reflect_form (l m : ℕ) (s : RealSchur ℝ n) :
    (s.reflect l m b k hb hk u).form = s.form ∨ ∃ size form, size ≠ 0 ∧ u.p + size ≠ 0 ∧
      size * size = u.p * u.p + u.q * u.q + u.r * u.r ∧ (∀ i, form i i = s.form i i) ∧
      (s.reflect l m b k hb hk u).form = (reflector hb k hk u size).applyColumns
        (fun row ↦ row.val ≤ min b (k + 3)) ((reflector hb k hk u size).applyRows form) := by
  obtain ⟨size, hsize⟩ : ∃ size, size =
    negateIf (u.p < 0) (Scalar.sqrt (u.p * u.p + u.q * u.q + u.r * u.r)) := ⟨_, rfl⟩
  rw [reflect]
  simp only [← hsize, beq_iff_eq]
  split
  case isTrue => exact Or.inl rfl
  case isFalse hne =>
    have hsq : size * size = u.p * u.p + u.q * u.q + u.r * u.r := by
      rw [hsize, negateIf_mul_self, sqrt_real, Real.mul_self_sqrt]
      exact add_nonneg (add_nonneg (mul_self_nonneg _) (mul_self_nonneg _)) (mul_self_nonneg _)
    have hlength : 0 < Scalar.sqrt (u.p * u.p + u.q * u.q + u.r * u.r) := by
      refine lt_of_le_of_ne (Real.sqrt_nonneg _) fun h ↦ hne ?_
      rw [hsize, ← h, negateIf, neg_zero, ite_self]
    have hp : u.p + size ≠ 0 := by
      rw [hsize]
      exact add_negateIf_ne_zero hlength
    simp only [div_of_ne_zero _ hne, div_of_ne_zero _ hp]
    refine Or.inr ⟨size, _, hne, hp, hsq, fun i ↦ ?_, rfl⟩
    split
    case isTrue hk => exact Grid.set_apply_self (pred_ne hk) _ i
    case isFalse =>
      split
      case isTrue hk => exact Grid.set_apply_self (pred_ne hk) _ i
      case isFalse => rfl

variable {S : Fin n → Prop} [DecidablePred S]

theorem reflect_keeps (hS : ∀ i : Fin n, i.val ≤ b → S i) (l m : ℕ) (hu : u.Fits hb k)
    (s : RealSchur ℝ n) : Keeps S s (s.reflect l m b k hb hk u) where
  re := by
    obtain ⟨form, basis, h⟩ := exists_reflect_eq l m s
    rw [h]
  im := by
    obtain ⟨form, basis, h⟩ := exists_reflect_eq l m s
    rw [h]
  shift := by
    obtain ⟨form, basis, h⟩ := exists_reflect_eq l m s
    rw [h]
  diagonal := by
    obtain h | ⟨size, form, hs, hp, hsq, hdiag, h⟩ := reflect_form l m s
    · rw [h]
    · rw [h, Reflector.diagonalSum_apply reflector_ordered (reflector_dot_of_fits hu hs hp hsq)
        (fun i hi ↦ hS i (le_min_iff.1 (val_le_of_touches hi)).1) (fun i hi ↦ val_le_of_touches hi),
        diagonalSum_congr fun i _ ↦ hdiag i]

theorem columnLead_fits (h : Grid ℝ n n) (c i j : Fin n) :
    (columnLead h c i j (thirdRow k hb)).Fits hb k := by
  intro hnone
  rw [columnLead, hnone, Option.elim_none]
  simp only [beq_iff_eq]
  split
  case isTrue => rfl
  case isFalse hne => exact (div_of_ne_zero 0 hne).trans (zero_div _)

theorem chase_keeps (hS : ∀ i : Fin n, i.val ≤ b → S i) (l m : ℕ) (hu : u.Fits hb k)
    (s : RealSchur ℝ n) : Keeps S s (chase l m hb k hk u s) := by
  fun_induction chase l m hb k hk u s with
  | case1 => exact .refl
  | case2 k hk u s hsize s' hnext u' ih =>
    exact (reflect_keeps hS l m hu s).trans (ih (columnLead_fits _ _ _ _))
  | case3 k hk u s hsize s' hlast => exact reflect_keeps hS l m hu s

theorem clearBulge_apply_self (m b : ℕ) (h : Grid ℝ n n) (i : Fin n) :
    clearBulge m b h i i = h i i := by
  rw [clearBulge, Grid.ofFn_apply, if_neg]
  rintro ⟨-, -, hi | ⟨hi, -⟩⟩
  · omega
  · omega

theorem sweep_keeps (hS : ∀ i : Fin n, i.val ≤ b → S i) {l : ℕ} (hl : l + 2 ≤ b)
    (t : DoubleShift ℝ) (s : RealSchur ℝ n) : Keeps S s (s.sweep l hb hl t) := by
  have hclear (m : ℕ) : Keeps S s { s with form := clearBulge m b s.form } :=
    ⟨rfl, rfl, rfl, diagonalSum_congr fun i _ ↦ clearBulge_apply_self m b s.form i⟩
  have hm := sweepStart_le s.form t l (b - 2) (by omega)
  rw [sweep, sweepFrom]
  -- A sweep starts on three rows at least.
  refine (hclear _).trans (chase_keeps hS _ _ (fun hnone ↦ ?_) _)
  rw [thirdRow, dif_pos (by omega)] at hnone
  cases hnone

end DenseDecomp.RealSchur
