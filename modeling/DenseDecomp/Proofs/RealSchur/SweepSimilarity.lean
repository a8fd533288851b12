import Mathlib.Data.Real.Basic
import DenseDecomp.Proofs.RealSchur.Bulge
import DenseDecomp.Proofs.RealSchur.SweepSteps

namespace DenseDecomp.RealSchur

open Matrix Scalar

variable {n l b k : ℕ} {hb : b < n} {hk : k + 1 ≤ b} {u : Lead ℝ} [DivisionByZero]

theorem Lead.length_mul_self (u : Lead ℝ) :
    u.length * u.length = u.p * u.p + u.q * u.q + u.r * u.r := by
  rw [Lead.length, negateIf_mul_self, sqrt_real, Real.mul_self_sqrt]
  exact add_nonneg (add_nonneg (mul_self_nonneg _) (mul_self_nonneg _)) (mul_self_nonneg _)

theorem Lead.add_length_ne_zero (hne : u.length ≠ 0) : u.p + u.length ≠ 0 := by
  have hlength : 0 < Scalar.sqrt (u.p * u.p + u.q * u.q + u.r * u.r) := by
    refine lt_of_le_of_ne (Real.sqrt_nonneg _) fun h ↦ hne ?_
    rw [Lead.length, ← h, negateIf, neg_zero, ite_self]
  exact add_negateIf_ne_zero hlength

theorem Lead.eq_zero_of_length (h : u.length = 0) : u.p = 0 ∧ u.q = 0 ∧ u.r = 0 := by
  have hsum := u.length_mul_self
  rw [h, mul_zero] at hsum
  have hp := mul_self_nonneg u.p
  have hq := mul_self_nonneg u.q
  have hr := mul_self_nonneg u.r
  exact ⟨mul_self_eq_zero.1 (by linarith), mul_self_eq_zero.1 (by linarith),
    mul_self_eq_zero.1 (by linarith)⟩

theorem reflect_of_length_eq_zero (l m : ℕ) (s : RealSchur ℝ n) (h : u.length = 0) :
    s.reflect l m b k hb hk u = s := if_pos (beq_iff_eq.2 h)

theorem exists_marked (hb : b < n) (hk : k + 1 ≤ b) (l : ℕ) (s : RealSchur ℝ n)
    (hne : u.length ≠ 0) :
    ∃ h, Marked l k u u.length s.form h ∧ s.reflect l l b k hb hk u =
      { s with
        form := (reflector hb k hk u u.length).applyColumns (fun row ↦ row.val ≤ min b (k + 3))
          ((reflector hb k hk u u.length).applyRows h)
        basis := (reflector hb k hk u u.length).applyColumns (fun _ ↦ True) s.basis } := by
  have hp := u.add_length_ne_zero hne
  obtain ⟨size, hsize⟩ : ∃ size, size = u.length := ⟨_, rfl⟩
  rw [← hsize] at hne hp ⊢
  refine ⟨if l < k then s.form.set ⟨k, by omega⟩ ⟨k - 1, by omega⟩ (-size * u.size) else s.form,
    ⟨fun hlk i j hi hj ↦ ?_, fun i j hij ↦ ?_⟩, ?_⟩
  · rw [if_pos hlk, Grid.set_apply, if_pos ⟨Fin.ext hi, Fin.ext (by dsimp only; omega)⟩]
  · split
    case isTrue hlk =>
      rw [Grid.set_apply, if_neg]
      rintro ⟨rfl, rfl⟩
      exact hij hlk rfl (by dsimp only; omega)
    case isFalse => rfl
  · rw [Lead.length] at hsize
    rw [reflect]
    simp only [← hsize, beq_iff_eq, hne, if_false, div_of_ne_zero _ hne, div_of_ne_zero _ hp]
    by_cases hlk : l < k
    · simp only [hlk, if_true]
      rfl
    · simp only [hlk, if_false]
      rfl

variable {s : RealSchur ℝ n}

theorem reflect_form_apply_of_lt (s : RealSchur ℝ n) {i : Fin n} (hi : min b (k + 3) < i.val)
    (j : Fin n) : (s.reflect l l b k hb hk u).form i j = s.form i j := by
  by_cases hne : u.length = 0
  · rw [reflect_of_length_eq_zero l l s hne]
  · obtain ⟨h, hh, heq⟩ := exists_marked hb hk l s hne
    have hnot : ¬ (reflector hb k hk u u.length).Touches i := fun h' ↦
      absurd (val_le_of_touches h') (not_le.2 hi)
    rw [heq]
    dsimp only
    rw [Reflector.applyColumns_apply reflector_ordered, if_neg (not_le.2 hi),
      Reflector.applyRows_of_not_touches reflector_ordered hnot, hh.kept i j (by omega)]

theorem reflect_rebases (hlk : l ≤ k) (hc : Chased l hb k u s.form) :
    Rebases s.basis.toMatrix (s.form.readOn (Bulge l b k))
      (s.reflect l l b k hb hk u).basis.toMatrix
      ((s.reflect l l b k hb hk u).form.readOn (Bulge l b (k + 1))) := by
  by_cases hne : u.length = 0
  · obtain ⟨-, hq, hr⟩ := Lead.eq_zero_of_length hne
    rw [reflect_of_length_eq_zero l l s hne, ← hc.skip hlk hq hr]
    exact .refl _ _
  · obtain ⟨h, hh, heq⟩ := exists_marked hb hk l s hne
    have hp := u.add_length_ne_zero hne
    have hbal := reflector_balanced hk hc.fits hne hp u.length_mul_self
    have hkept : ∀ i j : Fin n, k + 2 < i.val ∨ b < i.val →
        (reflector hb k hk u u.length).applyRows h i j = s.form i j := fun i j hi ↦ by
      rw [Reflector.applyRows_of_not_touches hbal.ordered, hh.kept i j (by omega)]
      rw [touches_reflector_iff]
      omega
    rw [heq]
    dsimp only
    rw [hbal.toMatrix_applyColumns, ← Chased.reflect_columns hlk hc.fits hne hp u.length_mul_self,
      ← hc.reflect_rows hlk hne hp u.length_mul_self hh]
    · exact .reflect _ _ _
    · intro i j hi hib hkj hjk
      rw [hkept i j (by omega), hc.cleared i j (by omega) hib (by omega)]
    · intro i j hi hj
      rw [hkept i j (by omega), hc.stop i j hi hj]

theorem columnLead_mul (h : Grid ℝ n n) (c i j : Fin n) (third : Option (Fin n)) :
    (columnLead h c i j third).size * (columnLead h c i j third).p = h i c ∧
      (columnLead h c i j third).size * (columnLead h c i j third).q = h j c ∧
      (columnLead h c i j third).size * (columnLead h c i j third).r =
        third.elim 0 fun k ↦ h k c := by
  obtain ⟨r, hr⟩ : ∃ r, r = third.elim 0 fun k ↦ h k c := ⟨_, rfl⟩
  simp only [columnLead, ← hr, abs_real, beq_iff_eq]
  split
  case isTrue hzero =>
    have hp := abs_nonneg (h i c)
    have hq := abs_nonneg (h j c)
    have hr := abs_nonneg r
    have hp₀ : h i c = 0 := abs_eq_zero.1 (by linarith)
    have hq₀ : h j c = 0 := abs_eq_zero.1 (by linarith)
    have hr₀ : r = 0 := abs_eq_zero.1 (by linarith)
    rw [hp₀, hq₀, hr₀, mul_zero]
    exact ⟨rfl, rfl, rfl⟩
  case isFalse hne =>
    exact ⟨mul_div_of_ne_zero _ hne, mul_div_of_ne_zero _ hne, mul_div_of_ne_zero _ hne⟩

/-- When a reflection leaves nothing in the lower corner of the bulge, it leaves nothing beside it. -/
theorem Chased.reflect_corner (hc : Chased l hb k u s.form) {i j j' : Fin n} (hi : i.val = k + 3)
    (hib : i.val ≤ b) (hj : j.val = k) (hj' : j'.val = k + 1)
    (hzero : (s.reflect l l b k hb hk u).form i j = 0) :
    (s.reflect l l b k hb hk u).form i j' = 0 := by
  have hclear : ∀ j : Fin n, j.val = k ∨ j.val = k + 1 → s.form i j = 0 := fun j hj ↦
    hc.cleared i j (by omega) hib (by omega)
  by_cases hne : u.length = 0
  · rw [reflect_of_length_eq_zero l l s hne]
    exact hclear j' (Or.inr hj')
  · obtain ⟨h, hh, heq⟩ := exists_marked hb hk l s hne
    have hrow : ∀ j : Fin n, j.val = k ∨ j.val = k + 1 →
        (reflector hb k hk u u.length).applyRows h i j = 0 := fun j hj ↦ by
      rw [Reflector.applyRows_of_not_touches reflector_ordered, hh.kept i j (by omega), hclear j hj]
      rw [touches_reflector_iff]
      omega
    have hread : i.val ≤ min b (k + 3) := le_min hib hi.le
    rw [heq] at hzero ⊢
    dsimp only at hzero ⊢
    rw [Reflector.applyColumns_apply reflector_ordered, if_pos hread, hrow j (Or.inl hj), zero_sub,
      reflector_spread_apply, if_pos hj, mul_one, neg_eq_zero] at hzero
    rw [Reflector.applyColumns_apply reflector_ordered, if_pos hread, hrow j' (Or.inr hj'), hzero,
      zero_mul, sub_zero]

theorem Chased.next (hlk : l ≤ k) (hnext : k + 2 ≤ b) (hc : Chased l hb k u s.form) :
    Chased l hb (k + 1)
      (columnLead (s.reflect l l b k hb hk u).form ⟨k, by omega⟩ ⟨k + 1, by omega⟩
        ⟨k + 2, by omega⟩ (thirdRow (k + 1) hb)) (s.reflect l l b k hb hk u).form := by
  obtain ⟨hp, hq, hr⟩ := columnLead_mul (s.reflect l l b k hb hk u).form ⟨k, by omega⟩
    ⟨k + 1, by omega⟩ ⟨k + 2, by omega⟩ (thirdRow (k + 1) hb)
  have hthird : ∀ i j : Fin n, i.val = k + 3 → i.val ≤ b → j.val + 1 = k + 1 →
      (s.reflect l l b k hb hk u).form i j =
        (thirdRow (k + 1) hb).elim 0 fun i ↦ (s.reflect l l b k hb hk u).form i ⟨k, by omega⟩ := by
    intro i j hi hib hj
    have hjk : j = ⟨k, by omega⟩ := Fin.ext (Nat.succ.inj hj)
    rw [hjk, ← some_eq_thirdRow_iff.2 ⟨hi, hib⟩]
    rfl
  refine
    { fits := columnLead_fits _ _ _ _
      lead_p := fun _ i j hi hj ↦ ?_
      lead_q := fun _ i j hi hj ↦ ?_
      lead_r := fun _ i j hi hib hj ↦ ?_
      corner := fun i j hi hib hj hsize ↦ ?_
      cleared := fun i j hki hib hj ↦ ?_
      start := fun i j _ _ hkl ↦ absurd hkl (by omega)
      stop := fun i j hi hj ↦ ?_ }
  · rw [hp]
    congr 1
    · exact Fin.ext hi
    · exact Fin.ext (Nat.succ.inj hj)
  · rw [hq]
    congr 1
    · exact Fin.ext hi
    · exact Fin.ext (Nat.succ.inj hj)
  · rw [hr, hthird i j hi hib hj]
  · refine hc.reflect_corner (j := ⟨k, by omega⟩) hi hib rfl hj ?_
    rw [hthird i _ hi hib rfl, ← hr, hsize (by omega), zero_mul]
  · rw [reflect_form_apply_of_lt s (by omega), hc.cleared i j (by omega) hib hj]
  · rw [reflect_form_apply_of_lt s (by omega), hc.stop i j hi hj]

/-- A sweep rotates the basis and the matrix alike, once its bulge is gone. -/
theorem chase_rebases (hk : k + 1 ≤ b) (hlk : l ≤ k) (hc : Chased l hb k u s.form) :
    Rebases s.basis.toMatrix (s.form.readOn (Bulge l b k))
      (chase l l hb k hk u s).basis.toMatrix (chase l l hb k hk u s).form.hessenberg := by
  fun_induction chase l l hb k hk u s with
  | case1 k hk u s hsize =>
    rw [hc.hessenberg_eq fun _ ↦ beq_iff_eq.1 hsize]
    exact .refl _ _
  | case2 k hk u s hsize s' hnext u' ih =>
    exact (reflect_rebases hlk hc).trans (ih (by omega) (hc.next hlk hnext))
  | case3 k hk u s hsize s' hlast =>
    -- The last reflection has two rows, and no third one sticks out.
    have hread : s'.form.readOn (Bulge l b (k + 1)) = s'.form.hessenberg := by
      ext i j
      exact if_congr (by omega) rfl rfl
    rw [← hread]
    exact reflect_rebases hlk hc

theorem chase_form_apply_of_lt {i : Fin n} (hi : b < i.val) (j : Fin n) :
    (chase l l hb k hk u s).form i j = s.form i j := by
  have hbelow : ∀ k, min b (k + 3) < i.val := fun k ↦ lt_of_le_of_lt (min_le_left b _) hi
  fun_induction chase l l hb k hk u s with
  | case1 => rfl
  | case2 k hk u s hsize s' hnext u' ih => exact ih.trans (reflect_form_apply_of_lt s (hbelow k) j)
  | case3 k hk u s hsize s' hlast => exact reflect_form_apply_of_lt s (hbelow k) j

/-- A sweep starts with no bulge, whatever its first lead is. -/
theorem chased_clearBulge (hb : b < n) (hl : l + 2 ≤ b) (u : Lead ℝ) {h : Grid ℝ n n}
    (hstart : ∀ i j : Fin n, i.val = l → j.val + 1 = l → h i j = 0)
    (hstop : ∀ i j : Fin n, i.val = b + 1 → j.val = b → h i j = 0) :
    Chased l hb l u (clearBulge l b h) := by
  have hkept : ∀ i j : Fin n, i.val < l + 2 ∨ b < i.val → clearBulge l b h i j = h i j := by
    intro i j hi
    rw [clearBulge, Grid.ofFn_apply, if_neg (by omega)]
  refine
    { fits := fun hnone ↦ ?_
      lead_p := fun hlt ↦ absurd hlt (lt_irrefl l)
      lead_q := fun hlt ↦ absurd hlt (lt_irrefl l)
      lead_r := fun hlt ↦ absurd hlt (lt_irrefl l)
      corner := fun i j hi hib hj _ ↦ ?_
      cleared := fun i j hi hib hj ↦ ?_
      start := fun i j hi hj _ ↦ ?_
      stop := fun i j hi hj ↦ ?_ }
  · rw [thirdRow, dif_pos hl] at hnone
    cases hnone
  · rw [clearBulge, Grid.ofFn_apply, if_pos (by omega)]
  · rw [clearBulge, Grid.ofFn_apply, if_pos (by omega)]
  · rw [hkept i j (by omega), hstart i j hi hj]
  · rw [hkept i j (by omega), hstop i j hi hj]

theorem hessenberg_clearBulge (m b : ℕ) (h : Grid ℝ n n) :
    (clearBulge m b h).hessenberg = h.hessenberg := by
  ext i j
  by_cases hij : i.val ≤ j.val + 1
  · exact if_congr Iff.rfl (clearBulge_agreeOn_upper m b h i j hij) rfl
  · rw [Grid.hessenberg, Grid.hessenberg, Grid.readOn_of_not hij, Grid.readOn_of_not hij]

/-- A double-shift sweep over a block that is cut off on both sides is an orthogonal similarity, also
where it ends early: whatever the shifts are, and whatever stands below the first subdiagonal. -/
theorem sweepFrom_similar {s : RealSchur ℝ n} {l b : ℕ} (hb : b < n) (hl : l + 2 ≤ b)
    (hstart : ∀ i j : Fin n, i.val = l → j.val + 1 = l → s.form i j = 0)
    (hstop : ∀ i j : Fin n, i.val = b + 1 → j.val = b → s.form i j = 0) (t : DoubleShift ℝ) :
    let s' := s.sweepFrom l l hb hl t
    let V := s.basis.toMatrix
    let V' := s'.basis.toMatrix
    V' * s'.form.hessenberg * V'ᵀ = V * s.form.hessenberg * Vᵀ ∧ V' * V'ᵀ = V * Vᵀ ∧
      ∀ i j, b < i.val → s'.form i j = s.form i j := by
  intro s' V V'
  have hc := chased_clearBulge hb hl
    (firstColumn s.form t ⟨l, by omega⟩ ⟨l + 1, by omega⟩ ⟨l + 2, by omega⟩) hstart hstop
  have hlb : l + 1 ≤ b := by omega
  have h := chase_rebases (s := { s with form := clearBulge l b s.form }) hlb le_rfl hc
  rw [hc.hessenberg_eq fun hlt ↦ absurd hlt (lt_irrefl l), hessenberg_clearBulge] at h
  refine ⟨h.conj_eq, h.gram_eq, fun i j hi ↦ ?_⟩
  refine (chase_form_apply_of_lt hi j).trans ?_
  dsimp only
  rw [clearBulge, Grid.ofFn_apply, if_neg (by omega)]

omit [DivisionByZero] in
/-- The block of the rows `1`, `2` and `3`, with entries that are not to be read below the first
subdiagonal. -/
theorem sweepFrom_similar_five :
    letI : DivisionByZero := ⟨fun _ ↦ 0⟩
    let form : Grid ℝ 5 5 := .ofMatrix
      !![2, 1, 3, 1, 4; 0, 1, 2, 5, 1; 9, 3, 4, 1, 2; 0, 8, 1, 5, 6; 0, 0, 7, 0, 3]
    let s : RealSchur ℝ 5 := .ofHessenberg form (.ofMatrix 1)
    let s' := s.sweepFrom 1 1 (show 3 < 5 by decide) (by decide) ⟨1, 2, 3⟩
    (∀ i j : Fin 5, i.val = 1 → j.val + 1 = 1 → s.form i j = 0) ∧
      (∀ i j : Fin 5, i.val = 3 + 1 → j.val = 3 → s.form i j = 0) ∧
      s'.basis.toMatrix * s'.form.hessenberg * s'.basis.toMatrixᵀ = form.hessenberg := by
  let : DivisionByZero := ⟨fun _ ↦ 0⟩
  intro form s s'
  have hstart : ∀ i j : Fin 5, i.val = 1 → j.val + 1 = 1 → s.form i j = 0 := by
    intro i j hi hj
    obtain rfl : i = 1 := Fin.ext hi
    obtain rfl : j = 0 := Fin.ext (Nat.succ.inj hj)
    exact Grid.ofMatrix_apply _ _ _
  have hstop : ∀ i j : Fin 5, i.val = 3 + 1 → j.val = 3 → s.form i j = 0 := by
    intro i j hi hj
    obtain rfl : i = 4 := Fin.ext hi
    obtain rfl : j = 3 := Fin.ext hj
    exact Grid.ofMatrix_apply _ _ _
  refine ⟨hstart, hstop, ?_⟩
  obtain ⟨hconj, -, -⟩ := sweepFrom_similar (by decide) (by decide) hstart hstop ⟨1, 2, 3⟩
  have hbasis : s.basis.toMatrix = 1 := Grid.toMatrix_ofMatrix 1
  rw [hbasis, one_mul, transpose_one, mul_one] at hconj
  exact hconj

end DenseDecomp.RealSchur
