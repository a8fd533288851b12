import DenseDecomp.Proofs.Eigenvectors.Substitution

namespace DenseDecomp.RealSchur.BackSubstitution

open Matrix Scalar

variable [DivisionByZero] {n : ℕ}

section System

variable (B : Blocks ℝ n) (h : Grid ℝ n n) (b : Fin n)

/-- What stands in for the zero divisors of column `b`. -/
noncomputable def perturbation : Fin n → ℝ := fun i ↦
  if i < b ∧ B.im i = 0 ∧ h i i = B.re b then epsilon * B.norm else 0

noncomputable def realSystem : Matrix (Fin n) (Fin n) ℝ :=
  quasiTriangular B h + diagonal (perturbation B h b) - B.re b • (1 : Matrix (Fin n) (Fin n) ℝ)

structure RealSolution (g : Grid ℝ n n) : Prop where
  last_ne : g b b ≠ 0
  solves : realSystem B h b *ᵥ (upperTriangle g).col b = 0

end System

variable {B : Blocks ℝ n} {h f g : Grid ℝ n n} {b i j : Fin n}

theorem RealSolution.congr (hg : RealSolution B h b g) (hb : ∀ k, f k b = g k b) :
    RealSolution B h b f := by
  have hcol : (upperTriangle f).col b = (upperTriangle g).col b := funext (upperTriangle_congr hb)
  exact ⟨(hb b).trans_ne hg.last_ne, hcol ▸ hg.solves⟩

theorem RealSolution.mulVec_eq (hg : RealSolution B h b g) :
    (upperTriangle g).col b ≠ 0 ∧
      (quasiTriangular B h + diagonal (perturbation B h b)) *ᵥ (upperTriangle g).col b =
        B.re b • (upperTriangle g).col b := by
  refine ⟨fun hzero ↦ hg.last_ne ?_, ?_⟩
  · exact (if_pos le_rfl).symm.trans (congrFun hzero b)
  · have hsolves := hg.solves
    rwa [realSystem, sub_mulVec, smul_mulVec, one_mulVec, sub_eq_zero] at hsolves

theorem realSystem_of_ne (hij : i ≠ j) : realSystem B h b i j = quasiTriangular B h i j := by
  rw [realSystem, Matrix.sub_apply, Matrix.add_apply, diagonal_apply_ne _ hij, Matrix.smul_apply,
    one_apply_ne hij, smul_zero, sub_zero, add_zero]

theorem realSystem_self : realSystem B h b i i = h i i + perturbation B h b i - B.re b := by
  rw [realSystem, Matrix.sub_apply, Matrix.add_apply, diagonal_apply_eq, Matrix.smul_apply,
    one_apply_eq, smul_eq_mul, mul_one, quasiTriangular_of_le le_rfl]

theorem realSystem_self_of_ne_zero (hi : B.im i ≠ 0) :
    realSystem B h b i i = h i i - B.re b := by
  rw [realSystem_self, perturbation, if_neg fun hrow ↦ hi hrow.2.1, add_zero]

/-- The divisor of a single row, which is never zero. -/
theorem divisor_eq (hnorm : 0 < B.norm) (hib : i < b) (hi : B.im i = 0) :
    (if h i i - B.re b == 0 then epsilon * B.norm else h i i - B.re b) = realSystem B h b i i ∧
      realSystem B h b i i ≠ 0 := by
  rw [realSystem_self, perturbation]
  by_cases hw : h i i = B.re b
  · have hzero : h i i - B.re b = 0 := sub_eq_zero.2 hw
    have hpos : 0 < epsilon * B.norm := mul_pos (by rw [epsilon_real]; norm_num) hnorm
    rw [if_pos (beq_iff_eq.2 hzero), if_pos ⟨hib, hi, hw⟩, add_sub_right_comm, hzero, zero_add]
    exact ⟨rfl, hpos.ne'⟩
  · have hne : h i i - B.re b ≠ 0 := sub_ne_zero.2 hw
    rw [if_neg (by rwa [beq_iff_eq]), if_neg fun hrow ↦ hw hrow.2.2, add_zero]
    exact ⟨rfl, hne⟩

/-- Both rows of a pair, whose divisor is its characteristic polynomial at `re b`. -/
theorem exists_realBlock_eq (hB : B.Describes h) (hi : 0 < B.im i) (hij : i.val + 1 = j.val)
    {s : State ℝ n} (hupper : s.form i j = h i j) (hlower : s.form j i = h j i)
    (hdiag : s.diag = h j j - B.re b) (r : ℝ) :
    ∃ u v : ℝ, realBlock B b i j (h i i - B.re b) r s = (s.form.set i b u).set j b v ∧
      (h i i - B.re b) * u + h i j * v = -r ∧ h j i * u + (h j j - B.re b) * v = -s.first := by
  obtain ⟨-, -, hroots⟩ := hB.pair hi hij
  have hden : (B.re i - B.re b) * (B.re i - B.re b) + B.im i * B.im i ≠ 0 :=
    (add_pos_of_nonneg_of_pos (mul_self_nonneg _) (mul_pos hi hi)).ne'
  have hdet : (h i i - B.re b) * (h j j - B.re b) - h i j * h j i =
      (B.re i - B.re b) * (B.re i - B.re b) + B.im i * B.im i := by
    linear_combination hroots (B.re b)
  obtain ⟨u, hu⟩ : ∃ u, u = (h i j * s.first - (h j j - B.re b) * r) /
      ((B.re i - B.re b) * (B.re i - B.re b) + B.im i * B.im i) := ⟨_, rfl⟩
  have hcramer : ((h i i - B.re b) * (h j j - B.re b) - h i j * h j i) * u =
      h i j * s.first - (h j j - B.re b) * r := by
    rw [hdet, hu, mul_div_of_ne_zero _ hden]
  rw [realBlock, hupper, hlower, hdiag, ← hu]
  refine ⟨u, _, rfl, ?_⟩
  simp only [abs_real]
  split
  case isTrue hlarger =>
    have hx : h i j ≠ 0 := abs_pos.1 ((abs_nonneg _).trans_lt hlarger)
    have hrow : (h i i - B.re b) * u + h i j * ((-r - (h i i - B.re b) * u) / h i j) = -r := by
      rw [mul_div_of_ne_zero _ hx]
      ring
    exact ⟨hrow, lower_of_upper hx hcramer hrow⟩
  case isFalse hsmaller =>
    have hz : h j j - B.re b ≠ 0 := by
      intro hz
      rw [hz, abs_zero, not_lt, abs_nonpos_iff] at hsmaller
      rw [hz, hsmaller, mul_zero, zero_mul, sub_zero] at hdet
      exact hden hdet.symm
    have hrow : h j i * u + (h j j - B.re b) * ((-s.first - h j i * u) / (h j j - B.re b)) =
        -s.first := by
      rw [mul_div_of_ne_zero _ hz]
      ring
    exact ⟨upper_of_lower hz hcramer hrow, hrow⟩

noncomputable def ColumnSystem.real (B : Blocks ℝ n) (h : Grid ℝ n n) (b : Fin n)
    (hb : B.im b = 0) : ColumnSystem ℝ B h where
  a := b
  b := b
  eq_or_eq _ hbl hlb := .inl (le_antisymm hlb hbl)
  read := LinearMap.fst ℝ ℝ ℝ
  matrix := realSystem B h b
  last := (1, 1)
  le := le_rfl
  im_nonneg := hb.ge
  matrix_of_ne _ _ hik := realSystem_of_ne hik

namespace ColumnSystem

variable {s : State ℝ n} (hb : B.im b = 0)

theorem real_single (hB : B.Describes h) (hnorm : 0 < B.norm) (hib : i < b) (hi : B.im i = 0)
    (hs : (real B h b hb).Passed (i + 1) s) :
    (real B h b hb).Passed i (realRow B b i hib s) := by
  obtain ⟨hdivisor, hne⟩ := divisor_eq (h := h) hnorm hib hi
  obtain ⟨c, hc⟩ : ∃ c, c = -contribution s b i b /
      if h i i - B.re b == 0 then epsilon * B.norm else h i i - B.re b := ⟨_, rfl⟩
  have hrow : realRow B b i hib s =
      { s with
        form := rescale i b b (Scalar.abs (s.form.set i b c i b)) (s.form.set i b c)
        solved := i } := by
    rw [realRow, if_neg (not_lt.2 hi.ge), if_pos (beq_iff_eq.2 hi), hs.left i i hib, hc]
  rw [hrow]
  refine hs.single hB hib hi (fun k l hkl ↦ ?_) ?_ _
  · rw [Grid.set_apply, if_neg fun heq ↦ hkl.elim (· heq.1) (·.1 heq.2)]
  · change realSystem B h b i i * s.form.set i b c i b = -contribution s b i b
    rw [Grid.set_apply, if_pos ⟨rfl, rfl⟩, hc, hdivisor, mul_div_of_ne_zero _ hne]

theorem real_block (hB : B.Describes h) (hib : i < b) (hi : 0 < B.im i)
    (hs : (real B h b hb).Passed (i + 1) s) :
    (real B h b hb).Passed i (realRow B b i hib s) := by
  obtain ⟨j, hij, hjb, him, hsolved, hdiag, hfirst⟩ := hs.exists_lower hB hib hi
  obtain ⟨u, v, hform, hupper, hlower⟩ := exists_realBlock_eq (b := b) hB hi hij (hs.left i j hjb)
    (hs.left j i hib) hdiag (contribution s b i b)
  have hrow : realRow B b i hib s =
      { s with
        form := rescale i b b (Scalar.abs (((s.form.set i b u).set j b v) i b))
          ((s.form.set i b u).set j b v)
        solved := i } := by
    have hj : (⟨i + 1, by omega⟩ : Fin n) = j := Fin.ext hij
    rw [realRow, if_neg (not_lt.2 hi.le), if_neg (by rw [beq_iff_eq]; exact hi.ne'), hj,
      hs.left i i hib, hform]
  have hne : i ≠ j := Fin.ne_of_lt (Fin.lt_def.2 (by omega))
  have hu : ((s.form.set i b u).set j b v) i b = u := by
    rw [Grid.set_apply, if_neg fun heq ↦ hne heq.1, Grid.set_apply, if_pos ⟨rfl, rfl⟩]
  have hv : ((s.form.set i b u).set j b v) j b = v := by
    rw [Grid.set_apply, if_pos ⟨rfl, rfl⟩]
  rw [hrow]
  refine hs.block hB hi hij hjb him hsolved (fun k l hkl ↦ ?_) ?_ ?_ _
  · rw [Grid.set_apply, if_neg fun heq ↦ hkl.elim (·.2 heq.1) (·.1 heq.2), Grid.set_apply,
      if_neg fun heq ↦ hkl.elim (·.1 heq.1) (·.1 heq.2)]
  · change realSystem B h b i i * ((s.form.set i b u).set j b v) i b +
      realSystem B h b i j * ((s.form.set i b u).set j b v) j b = -contribution s b i b
    rw [hu, hv, realSystem_self_of_ne_zero hi.ne', realSystem_of_ne hne,
      quasiTriangular_of_le (Fin.le_def.2 (by omega))]
    exact hupper
  · rw [← hfirst]
    change realSystem B h b j i * ((s.form.set i b u).set j b v) i b +
      realSystem B h b j j * ((s.form.set i b u).set j b v) j b = -s.first
    rw [hu, hv, realSystem_self_of_ne_zero him.ne, realSystem_of_ne hne.symm,
      quasiTriangular_lower hij him]
    exact hlower

theorem real_step (hB : B.Describes h) (hnorm : 0 < B.norm) (hib : i < b)
    (hs : (real B h b hb).Passed (i + 1) s) :
    (real B h b hb).Passed i (realRow B b i hib s) := by
  obtain hi | hi | hi := lt_trichotomy (B.im i) 0
  · have hrow : realRow B b i hib s =
        { s with diag := s.form i i - B.re b, first := contribution s b i b } := if_pos hi
    rw [hrow]
    exact hs.wait hB hib hi rfl
  · exact real_single hb hB hnorm hib hi hs
  · exact real_block hb hB hib hi hs

theorem real_start (hB : B.Describes h) (hagree : ∀ k l, l ≤ b → g k l = h k l) :
    (real B h b hb).Passed b
      { form := g.set b b 1, solved := b, diag := 0, first := 0, second := 0 } := by
  have hlast : (real B h b hb).entry (g.set b b 1) b = 1 := by
    change g.set b b 1 b b = 1
    rw [Grid.set_apply, if_pos ⟨rfl, rfl⟩]
  refine .start hagree (fun k l hkl ↦ ?_) ?_ ?_ 0 0 0
  · rw [Grid.set_apply, if_neg fun heq ↦ hkl.elim (·.ne heq.1) (·.1 heq.2)]
  · exact Prod.ext hlast hlast
  · change Solves (realSystem B h b) b (segment b b ((real B h b hb).entry (g.set b b 1)))
    rw [segment_self, hlast]
    refine Solves.zero.single (fun k hk ↦ ?_) ?_
    · rw [realSystem_of_ne hk.ne', hB.below hb.le.not_gt hk]
    · rw [mulVec_zero, Pi.zero_apply, neg_zero, mul_one, realSystem_self, perturbation,
        if_neg fun hrow ↦ lt_irrefl _ hrow.1, hB.single _ hb, add_zero, sub_self]

end ColumnSystem

theorem realColumn_solves (hB : B.Describes h) (hnorm : 0 < B.norm) (hb : B.im b = 0)
    (hagree : ∀ k l, l ≤ b → g k l = h k l) : RealSolution B h b (realColumn B b g) := by
  have hrun : (ColumnSystem.real B h b hb).Passed 0
      (Fin.foldr n (fun i s ↦ if hi : i < b then realRow B b i hi s else s)
        { form := g.set b b 1, solved := b, diag := 0, first := 0, second := 0 }) :=
    foldr_invariant_below (ColumnSystem.Passed (.real B h b hb))
      (ColumnSystem.real_start hb hB hagree) fun _ hi _ hs ↦
        ColumnSystem.real_step hb hB hnorm hi hs
  obtain ⟨c, hc, hlast⟩ := hrun.last
  have hlast : realColumn B b g b b = c * 1 := congrArg Prod.fst hlast
  refine ⟨?_, hrun.finish hB⟩
  rw [hlast, mul_one]
  exact hc

end DenseDecomp.RealSchur.BackSubstitution
