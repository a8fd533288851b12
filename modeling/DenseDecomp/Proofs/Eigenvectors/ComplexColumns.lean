import DenseDecomp.Proofs.Eigenvectors.ComplexQuotient
import DenseDecomp.Proofs.Eigenvectors.Substitution

namespace DenseDecomp.RealSchur.BackSubstitution

open Matrix Scalar

variable {n : ℕ} {B : Blocks ℝ n} {h f g : Grid ℝ n n} {a b i j : Fin n}

noncomputable def complexSystem (B : Blocks ℝ n) (h : Grid ℝ n n) (b : Fin n) :
    Matrix (Fin n) (Fin n) ℂ :=
  (quasiTriangular B h).map (↑) - (⟨B.re b, -B.im b⟩ : ℂ) • (1 : Matrix (Fin n) (Fin n) ℂ)

def pairVector (g : Grid ℝ n n) (a b : Fin n) : Fin n → ℂ :=
  fun k ↦ ⟨upperTriangle g k a, upperTriangle g k b⟩

structure PairSolution (B : Blocks ℝ n) (h : Grid ℝ n n) (a b : Fin n) (g : Grid ℝ n n) :
    Prop where
  last_ne : g b b ≠ 0
  solves : complexSystem B h b *ᵥ pairVector g a b = 0

theorem PairSolution.congr (hg : PairSolution B h a b g) (ha : ∀ k, f k a = g k a)
    (hb : ∀ k, f k b = g k b) : PairSolution B h a b f := by
  have hvector : pairVector f a b = pairVector g a b :=
    funext fun k ↦ Complex.ext (upperTriangle_congr ha k) (upperTriangle_congr hb k)
  exact ⟨(hb b).trans_ne hg.last_ne, hvector ▸ hg.solves⟩

theorem PairSolution.mulVec_eq (hg : PairSolution B h a b g) :
    pairVector g a b ≠ 0 ∧ (quasiTriangular B h).map (↑) *ᵥ pairVector g a b =
      (⟨B.re b, -B.im b⟩ : ℂ) • pairVector g a b := by
  refine ⟨fun hzero ↦ hg.last_ne ?_, ?_⟩
  · exact (if_pos le_rfl).symm.trans (congrArg Complex.im (congrFun hzero b))
  · have hsolves := hg.solves
    rwa [complexSystem, sub_mulVec, smul_mulVec, one_mulVec, sub_eq_zero] at hsolves

/-- With nothing of column `a` below the diagonal, its rows up to `b` can be read instead. -/
theorem pairVector_eq (hab : a.val + 1 = b.val) (hzero : g b a = 0) :
    pairVector g a b = fun k ↦ if k ≤ b then complexOfParts (g k a, g k b) else 0 := by
  have hlt : a < b := Fin.lt_def.2 (by omega)
  ext k
  obtain hkb | hbk := le_or_gt k b
  · rw [if_pos hkb]
    refine Complex.ext ?_ (if_pos hkb)
    obtain rfl | hkb := eq_or_lt_of_le hkb
    · exact (if_neg (not_le.2 hlt)).trans hzero.symm
    · exact if_pos (Fin.le_def.2 (by omega))
  · rw [if_neg (not_le.2 hbk)]
    exact Complex.ext (if_neg (not_le.2 (hlt.trans hbk))) (if_neg (not_le.2 hbk))

theorem complexSystem_of_ne (hij : i ≠ j) :
    complexSystem B h b i j = (quasiTriangular B h i j : ℂ) := by
  rw [complexSystem, Matrix.sub_apply, map_apply, Matrix.smul_apply, one_apply_ne hij, smul_zero,
    sub_zero]

theorem complexSystem_self : complexSystem B h b i i = ⟨h i i - B.re b, B.im b⟩ := by
  rw [complexSystem, Matrix.sub_apply, map_apply, Matrix.smul_apply, one_apply_eq, smul_eq_mul,
    mul_one, quasiTriangular_of_le le_rfl]
  refine Complex.ext rfl ?_
  rw [Complex.sub_im, Complex.ofReal_im, zero_sub, neg_neg]

theorem complexSystem_det (hB : B.Describes h) (hi : 0 < B.im i) (hij : i.val + 1 = j.val) :
    (⟨h i i - B.re b, B.im b⟩ : ℂ) * ⟨h j j - B.re b, B.im b⟩ - h i j * h j i =
      ⟨(B.re i - B.re b) * (B.re i - B.re b) + B.im i * B.im i - B.im b * B.im b,
        (B.re i - B.re b) * 2 * B.im b⟩ := by
  obtain ⟨-, -, hroots⟩ := hB.pair hi hij
  have htrace : h i i + h j j = 2 * B.re i := by
    linear_combination (hroots 0 - hroots 1)
  rw [← Complex.ofReal_mul]
  refine Complex.ext ?_ ?_
  · rw [Complex.sub_re, Complex.mul_re, Complex.ofReal_re]
    linear_combination hroots (B.re b)
  · rw [Complex.sub_im, Complex.mul_im, Complex.ofReal_im]
    linear_combination B.im b * htrace

theorem Blocks.Describes.corner_ne_zero (hB : B.Describes h) (hi : 0 < B.im i)
    (hij : i.val + 1 = j.val) : h i j ≠ 0 ∧ h j i ≠ 0 := by
  obtain ⟨-, -, hroots⟩ := hB.pair hi hij
  have hproduct : h i j * h j i ≠ 0 := by
    refine ne_of_lt ?_
    have hpos : 0 < (h i i - B.re i) ^ 2 + B.im i ^ 2 := by positivity
    linarith [hroots (h i i)]
  exact mul_ne_zero_iff.1 hproduct

/-- The determinant vanishes only where both blocks have the same eigenvalues. -/
theorem det_ne_zero (hb : B.im b < 0) (hi : 0 < B.im i)
    (hdistinct : ¬ (B.re i = B.re b ∧ B.im i = -B.im b)) :
    (B.re i - B.re b) * (B.re i - B.re b) + B.im i * B.im i - B.im b * B.im b ≠ 0 ∨
      (B.re i - B.re b) * 2 * B.im b ≠ 0 := by
  rw [← not_and_or]
  rintro ⟨hr, hm⟩
  rw [mul_eq_zero, or_iff_left hb.ne, mul_eq_zero, or_iff_left two_ne_zero, sub_eq_zero] at hm
  refine hdistinct ⟨hm, ?_⟩
  rw [hm, sub_self, zero_mul, zero_add, sub_eq_zero, mul_self_eq_mul_self_iff] at hr
  exact hr.resolve_left (hb.trans hi).ne'

variable [DivisionByZero]

theorem second_of_upper (w q r s : ℝ) (u : ℝ × ℝ) {x : ℝ} (hx : x ≠ 0) :
    ⟨w, q⟩ * complexOfParts u + (x : ℂ) * complexOfParts
      ((-r - w * u.1 + q * u.2) / x, (-s - w * u.2 - q * u.1) / x) = -complexOfParts (r, s) := by
  rw [mul_complexOfParts, ofReal_mul_complexOfParts, mul_div_of_ne_zero _ hx,
    mul_div_of_ne_zero _ hx]
  refine Complex.ext ?_ ?_
  · rw [Complex.add_re, Complex.neg_re, complexOfParts_re]
    ring
  · rw [Complex.add_im, Complex.neg_im, complexOfParts_im]
    ring

theorem second_of_lower (y z r s : ℝ) (u : ℝ × ℝ) {q : ℝ} (hq : q ≠ 0) :
    (y : ℂ) * complexOfParts u + ⟨z, q⟩ * complexOfParts
      (complexQuotient (-r - y * u.1) (-s - y * u.2) z q) = -complexOfParts (r, s) := by
  rw [mul_complexQuotient _ _ (.inr hq), ofReal_mul_complexOfParts]
  refine Complex.ext ?_ ?_
  · rw [Complex.add_re, Complex.neg_re, complexOfParts_re]
    ring
  · rw [Complex.add_im, Complex.neg_im, complexOfParts_im]
    ring

/-- Both rows of a pair, whose divisor is its determinant in the system. -/
theorem exists_complexBlock_eq (hB : B.Describes h) (hb : B.im b < 0) (hi : 0 < B.im i)
    (hdistinct : ¬ (B.re i = B.re b ∧ B.im i = -B.im b)) (hij : i.val + 1 = j.val) {s : State ℝ n}
    (hupper : s.form i j = h i j) (hlower : s.form j i = h j i) (hdiag : s.diag = h j j - B.re b)
    (ra sa : ℝ) :
    ∃ u v : ℝ × ℝ,
      complexBlock B a b i j (h i i - B.re b) ra sa s = setPair j a b v (setPair i a b u s.form) ∧
      ⟨h i i - B.re b, B.im b⟩ * complexOfParts u + (h i j : ℂ) * complexOfParts v =
        -complexOfParts (ra, sa) ∧
      (h j i : ℂ) * complexOfParts u + ⟨h j j - B.re b, B.im b⟩ * complexOfParts v =
        -complexOfParts (s.first, s.second) := by
  have htwo : (2.0 : ℝ) = 2 := by norm_num
  have hdet := complexSystem_det (b := b) hB hi hij
  have hne := det_ne_zero hb hi hdistinct
  obtain ⟨vr, hvr⟩ : ∃ vr, vr = (B.re i - B.re b) * (B.re i - B.re b) + B.im i * B.im i -
      B.im b * B.im b := ⟨_, rfl⟩
  obtain ⟨vi, hvi⟩ : ∃ vi, vi = (B.re i - B.re b) * 2 * B.im b := ⟨_, rfl⟩
  rw [← hvr, ← hvi] at hdet hne
  -- So the divisor stays as it is, and Cramer's rule gives the first unknown.
  have hkeep : ¬ (vr == 0 && vi == 0) = true := by
    rw [Bool.and_eq_true, beq_iff_eq, beq_iff_eq, not_and_or]
    exact hne
  obtain ⟨u, hu⟩ : ∃ u, u = complexQuotient
      (h i j * s.first - (h j j - B.re b) * ra + B.im b * sa)
      (h i j * s.second - (h j j - B.re b) * sa - B.im b * ra) vr vi := ⟨_, rfl⟩
  have hcramer : ((⟨h i i - B.re b, B.im b⟩ : ℂ) * ⟨h j j - B.re b, B.im b⟩ - h i j * h j i) *
      complexOfParts u = (h i j : ℂ) * complexOfParts (s.first, s.second) -
        ⟨h j j - B.re b, B.im b⟩ * complexOfParts (ra, sa) := by
    rw [hdet, hu, mul_complexQuotient _ _ hne, ofReal_mul_complexOfParts, mul_complexOfParts]
    refine Complex.ext ?_ ?_
    · rw [Complex.sub_re]
      ring
    · rw [Complex.sub_im]
      ring
  have hform : complexBlock B a b i j (h i i - B.re b) ra sa s = setPair j a b
      (if Scalar.abs (h j j - B.re b) + Scalar.abs (B.im b) < Scalar.abs (h i j) then
        ((-ra - (h i i - B.re b) * u.1 + B.im b * u.2) / h i j,
          (-sa - (h i i - B.re b) * u.2 - B.im b * u.1) / h i j)
      else complexQuotient (-s.first - h j i * u.1) (-s.second - h j i * u.2) (h j j - B.re b)
        (B.im b)) (setPair i a b u s.form) := by
    rw [complexBlock, htwo, hupper, hlower, hdiag, ← hvr, ← hvi, if_neg hkeep, ← hu]
  refine ⟨u, _, hform, ?_⟩
  simp only [abs_real]
  split
  case isTrue hlarger =>
    have hx : h i j ≠ 0 :=
      abs_pos.1 ((add_nonneg (abs_nonneg _) (abs_nonneg _)).trans_lt hlarger)
    have hrow := second_of_upper (h i i - B.re b) (B.im b) ra sa u hx
    exact ⟨hrow, lower_of_upper (Complex.ofReal_ne_zero.2 hx) hcramer hrow⟩
  case isFalse hsmaller =>
    have hz : (⟨h j j - B.re b, B.im b⟩ : ℂ) ≠ 0 := fun hz ↦ hb.ne (congrArg Complex.im hz)
    have hrow := second_of_lower (h j i) (h j j - B.re b) s.first s.second u hb.ne
    exact ⟨upper_of_lower hz hcramer hrow, hrow⟩

omit [DivisionByZero] in
theorem setPair_of_ne {α : Type} {z : α × α} {f : Grid α n n} {k l : Fin n}
    (hkl : k ≠ i ∨ l ≠ a ∧ l ≠ b) : setPair i a b z f k l = f k l := by
  rw [setPair, Grid.set_apply, if_neg fun heq ↦ hkl.elim (· heq.1) (·.2 heq.2), Grid.set_apply,
    if_neg fun heq ↦ hkl.elim (· heq.1) (·.1 heq.2)]

noncomputable def ColumnSystem.complex (B : Blocks ℝ n) (h : Grid ℝ n n) {a b : Fin n}
    (hab : a.val + 1 = b.val) (ha : 0 < B.im a) : ColumnSystem ℂ B h where
  a := a
  b := b
  eq_or_eq l hal hlb := by
    rw [Fin.ext_iff, Fin.ext_iff]
    rw [Fin.le_def] at hal hlb
    omega
  read := complexOfParts
  matrix := complexSystem B h b
  last := (0, 1)
  le := Fin.le_def.2 (by omega)
  im_nonneg := ha.le
  matrix_of_ne _ _ hik := complexSystem_of_ne hik

namespace ColumnSystem

variable {s : State ℝ n} {S : ColumnSystem ℂ B h} {f : Grid ℝ n n} {k : Fin n} {z : ℝ × ℝ}

omit [DivisionByZero] in
theorem entry_setPair (hne : S.a ≠ S.b) : S.entry (setPair i S.a S.b z f) i = S.read z := by
  rw [entry, setPair, Grid.set_apply, Grid.set_apply, Grid.set_apply, if_neg fun heq ↦ hne heq.2,
    if_pos ⟨rfl, rfl⟩, if_pos ⟨rfl, rfl⟩]

omit [DivisionByZero] in
theorem entry_setPair_of_ne (hki : k ≠ i) : S.entry (setPair i S.a S.b z f) k = S.entry f k := by
  rw [entry, entry, setPair_of_ne (.inl hki), setPair_of_ne (.inl hki)]

variable (hab : a.val + 1 = b.val) (ha : 0 < B.im a)

theorem complex_single (hB : B.Describes h) (hb : B.im b < 0) (hia : i < a) (hi : B.im i = 0)
    (hs : (complex B h hab ha).Passed (i + 1) s) :
    (complex B h hab ha).Passed i (complexRow B a b i hia s) := by
  have hne : a ≠ b := Fin.ne_of_lt (Fin.lt_def.2 (by omega))
  obtain ⟨z, hz⟩ : ∃ z, z = complexQuotient (-contribution s b i a) (-contribution s b i b)
      (h i i - B.re b) (B.im b) := ⟨_, rfl⟩
  have hrow : complexRow B a b i hia s =
      { s with
        form := rescale i a b
          (maxNum (Scalar.abs (setPair i a b z s.form i a))
            (Scalar.abs (setPair i a b z s.form i b))) (setPair i a b z s.form)
        solved := i } := by
    rw [complexRow, if_neg (not_lt.2 hi.ge), if_pos (beq_iff_eq.2 hi), hs.left i i hia, hz]
  rw [hrow]
  have hentry : (complex B h hab ha).entry (setPair i a b z s.form) i = complexOfParts z :=
    entry_setPair hne
  refine hs.single hB hia hi (fun k l hkl ↦ ?_) ?_ _
  · exact setPair_of_ne hkl
  · rw [hentry]
    change complexSystem B h b i i * _ =
      -complexOfParts (contribution s b i a, contribution s b i b)
    rw [complexSystem_self, hz, mul_complexQuotient _ _ (.inr hb.ne)]
    rfl

theorem complex_block (hB : B.Describes h) (hb : B.im b < 0) (hia : i < a) (hi : 0 < B.im i)
    (hdistinct : ¬ (B.re i = B.re b ∧ B.im i = -B.im b))
    (hs : (complex B h hab ha).Passed (i + 1) s) :
    (complex B h hab ha).Passed i (complexRow B a b i hia s) := by
  have hab' : a ≠ b := Fin.ne_of_lt (Fin.lt_def.2 (by omega))
  obtain ⟨j, hij, hja, him, hsolved, hdiag, hfirst⟩ := hs.exists_lower hB hia hi
  obtain ⟨u, v, hform, hupper, hlower⟩ := exists_complexBlock_eq (a := a) (b := b) hB hb hi
    hdistinct hij (hs.left i j hja) (hs.left j i hia) hdiag (contribution s b i a)
    (contribution s b i b)
  have hrow : complexRow B a b i hia s =
      { s with
        form := rescale i a b
          (maxNum (Scalar.abs (setPair j a b v (setPair i a b u s.form) i a))
            (Scalar.abs (setPair j a b v (setPair i a b u s.form) i b)))
          (setPair j a b v (setPair i a b u s.form))
        solved := i } := by
    have hj : (⟨i + 1, by omega⟩ : Fin n) = j := Fin.ext hij
    rw [complexRow, if_neg (not_lt.2 hi.le), if_neg (by rw [beq_iff_eq]; exact hi.ne'), hj,
      hs.left i i hia, hform]
  have hne : i ≠ j := Fin.ne_of_lt (Fin.lt_def.2 (by omega))
  have hu : (complex B h hab ha).entry (setPair j a b v (setPair i a b u s.form)) i =
      complexOfParts u := (entry_setPair_of_ne hne).trans (entry_setPair hab')
  have hv : (complex B h hab ha).entry (setPair j a b v (setPair i a b u s.form)) j =
      complexOfParts v := entry_setPair hab'
  rw [hrow]
  refine hs.block hB hi hij hja him hsolved (fun k l hkl ↦ ?_) ?_ ?_ _
  · exact (setPair_of_ne (hkl.imp_left (·.2))).trans (setPair_of_ne (hkl.imp_left (·.1)))
  · rw [hu, hv]
    change complexSystem B h b i i * _ + complexSystem B h b i j * _ = _
    rw [complexSystem_self, complexSystem_of_ne hne,
      quasiTriangular_of_le (Fin.le_def.2 (by omega))]
    exact hupper
  · rw [← hfirst, hu, hv]
    change complexSystem B h b j i * _ + complexSystem B h b j j * _ = _
    rw [complexSystem_self, complexSystem_of_ne hne.symm, quasiTriangular_lower hij him]
    exact hlower

theorem complex_step (hB : B.Describes h) (hb : B.im b < 0) (hia : i < a)
    (hdistinct : ¬ (B.re i = B.re b ∧ B.im i = -B.im b))
    (hs : (complex B h hab ha).Passed (i + 1) s) :
    (complex B h hab ha).Passed i (complexRow B a b i hia s) := by
  obtain hi | hi | hi := lt_trichotomy (B.im i) 0
  · have hrow : complexRow B a b i hia s =
        { s with
          diag := s.form i i - B.re b
          first := contribution s b i a
          second := contribution s b i b } := if_pos hi
    rw [hrow]
    exact hs.wait hB hia hi rfl
  · exact complex_single hab ha hB hb hia hi hs
  · exact complex_block hab ha hB hb hia hi hdistinct hs

end ColumnSystem

/-- The last two rows, from the row of the block with the larger corner. -/
theorem exists_complexEnd_eq (hB : B.Describes h) (ha : 0 < B.im a) (hab : a.val + 1 = b.val)
    (hagree : ∀ k l, l ≤ b → g k l = h k l) :
    ∃ z : ℝ × ℝ, complexEnd B a b g = setPair b a b (0, 1) (setPair a a b z g) ∧
      ⟨h a a - B.re b, B.im b⟩ * complexOfParts z + (h a b : ℂ) * complexOfParts (0, 1) = -0 ∧
      (h b a : ℂ) * complexOfParts z + ⟨h b b - B.re b, B.im b⟩ * complexOfParts (0, 1) = -0 := by
  obtain ⟨hb, hre, -⟩ := hB.pair ha hab
  have hq := hB.lower_neg ha hab
  have hdet : (⟨h a a - B.re b, B.im b⟩ : ℂ) * ⟨h b b - B.re b, B.im b⟩ - h a b * h b a = 0 := by
    rw [complexSystem_det hB ha hab, hb, hre]
    refine Complex.ext ?_ ?_
    · rw [Complex.zero_re]
      ring
    · rw [Complex.zero_im]
      ring
  have hcramer (z : ℂ) : ((⟨h a a - B.re b, B.im b⟩ : ℂ) * ⟨h b b - B.re b, B.im b⟩ -
      h a b * h b a) * z = (h a b : ℂ) * 0 - ⟨h b b - B.re b, B.im b⟩ * 0 := by
    rw [hdet, zero_mul, mul_zero, mul_zero, sub_zero]
  have hle : a ≤ b := Fin.le_def.2 (by omega)
  rw [complexEnd, hagree a b le_rfl, hagree b a hle, hagree b b le_rfl, hagree a a hle]
  refine ⟨_, rfl, ?_⟩
  simp only [abs_real]
  split
  case isTrue hlarger =>
    have hcorner : h b a ≠ 0 := abs_pos.1 ((abs_nonneg _).trans_lt hlarger)
    have hrow : (h b a : ℂ) * complexOfParts (B.im b / h b a, -(h b b - B.re b) / h b a) +
        ⟨h b b - B.re b, B.im b⟩ * complexOfParts (0, 1) = -0 := by
      rw [ofReal_mul_complexOfParts, mul_complexOfParts, mul_div_of_ne_zero _ hcorner,
        mul_div_of_ne_zero _ hcorner, neg_zero]
      refine Complex.ext ?_ ?_
      · rw [Complex.add_re, Complex.zero_re]
        ring
      · rw [Complex.add_im, Complex.zero_im]
        ring
    have hdiag : (⟨h b b - B.re b, B.im b⟩ : ℂ) ≠ 0 := fun hz ↦ hq.ne (congrArg Complex.im hz)
    exact ⟨upper_of_lower hdiag (hcramer _) hrow, hrow⟩
  case isFalse hsmaller =>
    have hrow : ⟨h a a - B.re b, B.im b⟩ *
        complexOfParts (complexQuotient 0 (-h a b) (h a a - B.re b) (B.im b)) +
          (h a b : ℂ) * complexOfParts (0, 1) = -0 := by
      rw [mul_complexQuotient _ _ (.inr hq.ne), ofReal_mul_complexOfParts, neg_zero]
      refine Complex.ext ?_ ?_
      · rw [Complex.add_re, Complex.zero_re]
        ring
      · rw [Complex.add_im, Complex.zero_im]
        ring
    have hcorner := Complex.ofReal_ne_zero.2 (hB.corner_ne_zero ha hab).1
    exact ⟨hrow, lower_of_upper hcorner (hcramer _) hrow⟩

theorem ColumnSystem.complex_start (hB : B.Describes h) (ha : 0 < B.im a)
    (hab : a.val + 1 = b.val) (hagree : ∀ k l, l ≤ b → g k l = h k l) :
    (complex B h hab ha).Passed a
      { form := complexEnd B a b g, solved := a, diag := 0, first := 0, second := 0 } := by
  obtain ⟨z, hform, hupper, hlower⟩ := exists_complexEnd_eq hB ha hab hagree
  have hlt : a < b := Fin.lt_def.2 (by omega)
  have hne : a ≠ b := hlt.ne
  have hq := hB.lower_neg ha hab
  have hfirst : (complex B h hab ha).entry (setPair b a b (0, 1) (setPair a a b z g)) a =
      complexOfParts z := (entry_setPair_of_ne hne).trans (entry_setPair hne)
  have hlast : (complex B h hab ha).entry (setPair b a b (0, 1) (setPair a a b z g)) b =
      complexOfParts (0, 1) := entry_setPair hne
  rw [hform]
  refine .start hagree (fun k l hkl ↦ ?_) ?_ ?_ 0 0 0
  · exact (setPair_of_ne (hkl.imp_left fun hk ↦ (lt_trans hk hlt).ne)).trans
      (setPair_of_ne (hkl.imp_left ne_of_lt))
  · exact Prod.ext (congrArg Complex.re hlast) (congrArg Complex.im hlast)
  · change Solves (complexSystem B h b) a (segment a b _)
    rw [segment_pair hab, hfirst, hlast]
    refine Solves.zero.block hab (fun k hk ↦ ?_) ?_ ?_
    · obtain ⟨hka, hkb⟩ := hB.below_pair hab hq hk
      rw [complexSystem_of_ne (hlt.trans hk).ne', complexSystem_of_ne hk.ne', hka, hkb]
      exact ⟨Complex.ofReal_zero, Complex.ofReal_zero⟩
    · rw [mulVec_zero, Pi.zero_apply, complexSystem_self, complexSystem_of_ne hne,
        quasiTriangular_of_le hlt.le]
      exact hupper
    · rw [mulVec_zero, Pi.zero_apply, complexSystem_self, complexSystem_of_ne hne.symm,
        quasiTriangular_lower hab hq]
      exact hlower

/-- The columns of a pair become a complex solution, unless its eigenvalues are those of an earlier
pair. -/
theorem complexColumns_solves (hB : B.Describes h) (ha : 0 < B.im a) (hab : a.val + 1 = b.val)
    (hagree : ∀ k l, l ≤ b → g k l = h k l)
    (hdistinct : ∀ i, i < a → ¬ (B.re i = B.re a ∧ B.im i = B.im a)) :
    PairSolution B h a b (complexColumns B a b g) := by
  obtain ⟨hb, hre, -⟩ := hB.pair ha hab
  have hq := hB.lower_neg ha hab
  have hrun : (ColumnSystem.complex B h hab ha).Passed 0
      (Fin.foldr n (fun i s ↦ if hi : i < a then complexRow B a b i hi s else s)
        { form := complexEnd B a b g, solved := a, diag := 0, first := 0, second := 0 }) := by
    refine foldr_invariant_below (ColumnSystem.Passed (.complex B h hab ha))
      (ColumnSystem.complex_start hB ha hab hagree) fun i hi s hs ↦ ?_
    refine ColumnSystem.complex_step hab ha hB hq hi ?_ hs
    rw [hre, hb, neg_neg]
    exact hdistinct i hi
  obtain ⟨c, hc, hlast⟩ := hrun.last
  have hre : complexColumns B a b g b a = c * 0 := congrArg Prod.fst hlast
  have him : complexColumns B a b g b b = c * 1 := congrArg Prod.snd hlast
  constructor
  · rw [him, mul_one]
    exact hc
  · rw [pairVector_eq hab (hre.trans (mul_zero c))]
    exact hrun.finish hB

end DenseDecomp.RealSchur.BackSubstitution
