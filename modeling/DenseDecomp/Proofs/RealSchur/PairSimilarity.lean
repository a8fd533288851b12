import DenseDecomp.Proofs.GridMatrix
import DenseDecomp.Proofs.RealSchur.Deflation
import DenseDecomp.Proofs.RealSchur.PairBlock

namespace DenseDecomp.RealSchur

open Matrix Scalar

variable {n : ℕ} {a b : Fin n} {c d z v : ℝ}

theorem hessenberg_of_le {g : Grid ℝ n n} {i j : Fin n} (h : i.val ≤ j.val + 1) :
    g.hessenberg i j = g i j := Grid.readOn_of h

theorem hessenberg_of_not_le {g : Grid ℝ n n} {i j : Fin n} (h : ¬ i.val ≤ j.val + 1) :
    g.hessenberg i j = 0 := Grid.readOn_of_not h

section Rotate

variable [DivisionByZero] {g : Grid ℝ n n}

/-- Where nothing stands before the block, its rows need not be rotated there. -/
theorem hessenberg_rotateRows (hab : a.val + 1 = b.val)
    (hstart : ∀ j : Fin n, j.val + 1 = a.val → g a j = 0) :
    (g.rotateRows a b c d (a ≤ ·)).hessenberg = (planeRotation a b c d)ᵀ * g.hessenberg := by
  ext i j
  rw [planeRotation_transpose_mul]
  obtain hj | hj := lt_or_ge j a
  · have hj' := Fin.lt_def.1 hj
    have ha : g.hessenberg a j = 0 := by
      by_cases hja : j.val + 1 = a.val
      · rw [hessenberg_of_le (by omega), hstart j hja]
      · exact hessenberg_of_not_le (by omega)
    have hb : g.hessenberg b j = 0 := hessenberg_of_not_le (by omega)
    have hkept : (g.rotateRows a b c d (a ≤ ·)).hessenberg i j = g.hessenberg i j :=
      if_congr Iff.rfl (by rw [Grid.rotateRows, Grid.ofFn_apply, if_neg (not_le.2 hj)]) rfl
    rw [hkept, ha, hb]
    split_ifs with hia hib
    · rw [hia, ha, mul_zero, mul_zero, sub_zero]
    · rw [hib, hb, mul_zero, mul_zero, add_zero]
    · rfl
  · have hj' := Fin.le_def.1 hj
    rw [hessenberg_of_le (g := g) (i := a) (by omega),
      hessenberg_of_le (g := g) (i := b) (by omega)]
    by_cases hij : i.val ≤ j.val + 1
    · rw [hessenberg_of_le hij, hessenberg_of_le hij, Grid.rotateRows, Grid.ofFn_apply, if_pos hj]
    · have hia : i ≠ a := fun h ↦ hij (by rw [h]; omega)
      have hib : i ≠ b := fun h ↦ hij (by rw [h]; omega)
      rw [if_neg hia, if_neg hib, hessenberg_of_not_le hij, hessenberg_of_not_le hij]

theorem hessenberg_rotateColumns (hab : a.val + 1 = b.val)
    (hstop : ∀ i : Fin n, i.val = b.val + 1 → g i b = 0) :
    (g.rotateColumns a b c d (· ≤ b)).hessenberg = g.hessenberg * planeRotation a b c d := by
  ext i j
  rw [mul_planeRotation]
  obtain hi | hi := lt_or_ge b i
  · have hi' := Fin.lt_def.1 hi
    have ha : g.hessenberg i a = 0 := hessenberg_of_not_le (by omega)
    have hb : g.hessenberg i b = 0 := by
      by_cases hib : i.val = b.val + 1
      · rw [hessenberg_of_le (by omega), hstop i hib]
      · exact hessenberg_of_not_le (by omega)
    have hkept : (g.rotateColumns a b c d (· ≤ b)).hessenberg i j = g.hessenberg i j :=
      if_congr Iff.rfl (by rw [Grid.rotateColumns, Grid.ofFn_apply, if_neg (not_le.2 hi)]) rfl
    rw [hkept, ha, hb]
    split_ifs with hja hjb
    · rw [hja, ha, mul_zero, mul_zero, sub_zero]
    · rw [hjb, hb, mul_zero, mul_zero, add_zero]
    · rfl
  · have hi' := Fin.le_def.1 hi
    rw [hessenberg_of_le (g := g) (j := a) (by omega),
      hessenberg_of_le (g := g) (j := b) (by omega)]
    by_cases hij : i.val ≤ j.val + 1
    · rw [hessenberg_of_le hij, hessenberg_of_le hij, Grid.rotateColumns, Grid.ofFn_apply,
        if_pos hi]
    · have hja : j ≠ a := fun h ↦ hij (by rw [h]; omega)
      have hjb : j ≠ b := fun h ↦ hij (by rw [h]; omega)
      rw [if_neg hja, if_neg hjb, hessenberg_of_not_le hij, hessenberg_of_not_le hij]

/-- A block that is cut off on both sides is rotated as a whole, though the rows and the columns of
the rotation are cut short. -/
theorem hessenberg_rotate (hab : a.val + 1 = b.val)
    (hstart : ∀ j : Fin n, j.val + 1 = a.val → g a j = 0)
    (hstop : ∀ i : Fin n, i.val = b.val + 1 → g i b = 0) :
    ((g.rotateRows a b c d (a ≤ ·)).rotateColumns a b c d (· ≤ b)).hessenberg =
      (planeRotation a b c d)ᵀ * g.hessenberg * planeRotation a b c d := by
  rw [hessenberg_rotateColumns hab, hessenberg_rotateRows hab hstart]
  intro i hi
  have hia : i ≠ a := Fin.ne_of_val_ne (by omega)
  have hib : i ≠ b := Fin.ne_of_val_ne (by omega)
  rw [Grid.rotateRows, Grid.ofFn_apply, if_neg hia, if_neg hib, ite_self, hstop i hi]

end Rotate

/-- Turning the first axis into the eigenvector of the root `M b b + z` makes the block
triangular. -/
theorem conjugated_block (hab : a ≠ b) {M : Matrix (Fin n) (Fin n) ℝ} (hx : M b a ≠ 0)
    (hroot : z * (z - (M a a - M b b)) = M b a * M a b) {N : Matrix (Fin n) (Fin n) ℝ}
    (hN : N = (planeRotation a b (pairCos (M b a) z) (pairSin (M b a) z))ᵀ * M *
      planeRotation a b (pairCos (M b a) z) (pairSin (M b a) z)) :
    N b a = 0 ∧ N a a = M b b + z ∧ N b b = M a a - z := by
  obtain ⟨t, hcos, hsin⟩ := exists_pairCos_eq (M b a) z
  obtain ⟨hcorner, hfirst, hsecond⟩ := rotated_block hcos hsin (pairCos_unit hx) hroot
  subst hN
  refine ⟨?_, ?_, ?_⟩
  · rw [mul_planeRotation, if_pos rfl, planeRotation_transpose_mul, planeRotation_transpose_mul,
      if_neg hab.symm, if_pos rfl, if_neg hab.symm, if_pos rfl, hcorner]
  · rw [mul_planeRotation, if_pos rfl, planeRotation_transpose_mul, planeRotation_transpose_mul,
      if_pos rfl, if_pos rfl, hfirst]
  · rw [mul_planeRotation, if_neg hab.symm, if_pos rfl, planeRotation_transpose_mul,
      planeRotation_transpose_mul, if_neg hab.symm, if_pos rfl, if_neg hab.symm, if_pos rfl,
      hsecond]

def splitDivisors {α : Type} [Scalar α] (a b : Fin n) (z : α) (s : RealSchur α n) : List α :=
  let corner := s.form b a
  let size := abs corner + abs z
  let p := corner / size
  let q := z / size
  (if z == 0 then [] else [z]) ++ [size, sqrt (p * p + q * q)]

def pairDivisors {α : Type} [Scalar α] (a b : Fin n) (s : RealSchur α n) : List α :=
  let w := s.form b a * s.form a b
  let p := (s.form a a - s.form b b) / 2.0
  let q := p * p + w
  let root := sqrt (abs q)
  2.0 :: if 0 ≤ q then splitDivisors a b (if 0 ≤ p then p + root else p - root) s else []

structure KeepsOthers (a b : Fin n) (s s' : RealSchur ℝ n) : Prop where
  re : ∀ i, i ≠ a → i ≠ b → s'.re i = s.re i
  im : ∀ i, i ≠ a → i ≠ b → s'.im i = s.im i
  shift : s'.shift = s.shift

/-- A block with the real roots `β + z` and `α - z` is split by a rotation. -/
structure Splits (a b : Fin n) (z : ℝ) (s s' : RealSchur ℝ n) : Prop where
  form : s'.form.hessenberg =
    (planeRotation a b (pairCos (s.form b a) z) (pairSin (s.form b a) z))ᵀ *
    (s.form.hessenberg + diagonal fun i ↦ if i = a ∨ i = b then s.shift else 0) *
      planeRotation a b (pairCos (s.form b a) z) (pairSin (s.form b a) z)
  basis : s'.basis.toMatrix =
    s.basis.toMatrix * planeRotation a b (pairCos (s.form b a) z) (pairSin (s.form b a) z)
  corner : s'.form b a = 0
  first : s'.form a a = s'.re a
  second : s'.form b b = s'.re b

variable [DivisionByZero] {s : RealSchur ℝ n}

theorem unshiftPair_apply (i j : Fin n) : s.unshiftPair a b i j =
    if i = j ∧ (i = a ∨ i = b) then s.form i j + s.shift else s.form i j := by
  rw [unshiftPair, Grid.set_apply, Grid.set_apply]
  by_cases ha : i = a ∧ j = a
  · rw [if_pos ha, if_pos ⟨ha.1.trans ha.2.symm, Or.inl ha.1⟩, ha.1, ha.2]
  · rw [if_neg ha]
    by_cases hb : i = b ∧ j = b
    · rw [if_pos hb, if_pos ⟨hb.1.trans hb.2.symm, Or.inr hb.1⟩, hb.1, hb.2]
    · rw [if_neg hb, if_neg]
      rintro ⟨rfl, hi | hi⟩
      · exact ha ⟨hi, hi⟩
      · exact hb ⟨hi, hi⟩

theorem hessenberg_unshiftPair : (s.unshiftPair a b).hessenberg =
    s.form.hessenberg + diagonal fun i ↦ if i = a ∨ i = b then s.shift else 0 := by
  ext i j
  rw [Matrix.add_apply, diagonal_apply]
  by_cases hij : i.val ≤ j.val + 1
  · rw [hessenberg_of_le hij, hessenberg_of_le hij, unshiftPair_apply, ite_and]
    split_ifs
    · rfl
    · rw [add_zero]
    · rw [add_zero]
  · have hne : i ≠ j := fun h ↦ hij (by rw [h]; omega)
    rw [hessenberg_of_not_le hij, hessenberg_of_not_le hij, if_neg hne, add_zero]

theorem splitPair_eq (hx : s.form b a ≠ 0) {w : ℝ} (hw : w = z * v) (hzero : z = 0 → v = 0) :
    s.splitPair a b z w =
      { s with
        form := ((s.unshiftPair a b).rotateRows a b (pairCos (s.form b a) z)
          (pairSin (s.form b a) z) (a ≤ ·)).rotateColumns a b (pairCos (s.form b a) z)
            (pairSin (s.form b a) z) (· ≤ b)
        basis := s.basis.rotateColumns a b (pairCos (s.form b a) z) (pairSin (s.form b a) z)
          fun _ ↦ True
        re := (s.re.set a (s.form b b + s.shift + z)).set b (s.form b b + s.shift - v)
        im := (s.im.set a 0).set b 0 } := by
  have hsize := pairSize_ne_zero (z := z) hx
  have hlength := pairLength_ne_zero (z := z) hx
  have hre : (if z == 0 then s.form b b + s.shift + z else s.form b b + s.shift - w / z) =
      s.form b b + s.shift - v := by
    split
    case isTrue hz =>
      have hz := beq_iff_eq.1 hz
      rw [hzero hz, hz, add_zero, sub_zero]
    case isFalse hz =>
      have hz : z ≠ 0 := fun h ↦ hz (beq_iff_eq.2 h)
      have hquot : w / z = v := by
        rw [div_of_ne_zero _ hz]
        exact (div_eq_iff hz).2 (hw.trans (mul_comm z v))
      rw [hquot]
  rw [splitPair]
  simp only [hre, abs_real, sqrt_real, div_of_ne_zero _ hsize, sqrt_pairLength,
    div_of_ne_zero _ hlength, neg_pairSin, div_pairCos]

theorem splitPair_keepsOthers {w : ℝ} : KeepsOthers a b s (s.splitPair a b z w) where
  re _ ha hb := set_set_apply _ _ _ ha hb
  im _ ha hb := set_set_apply _ _ _ ha hb
  shift := rfl

theorem splitPair_splits (hab : a.val + 1 = b.val) (hx : s.form b a ≠ 0)
    (hstart : ∀ j : Fin n, j.val + 1 = a.val → s.form a j = 0)
    (hstop : ∀ i : Fin n, i.val = b.val + 1 → s.form i b = 0) {w : ℝ}
    (hw : w = s.form b a * s.form a b) (hroot : w = z * v)
    (hv : v = z - (s.form a a - s.form b b)) (hzero : z = 0 → v = 0) :
    Splits a b z s (s.splitPair a b z w) := by
  have hne : a ≠ b := Fin.ne_of_val_ne (by omega)
  have hform : (s.splitPair a b z w).form.hessenberg =
      (planeRotation a b (pairCos (s.form b a) z) (pairSin (s.form b a) z))ᵀ *
        (s.unshiftPair a b).hessenberg *
          planeRotation a b (pairCos (s.form b a) z) (pairSin (s.form b a) z) := by
    rw [splitPair_eq hx hroot hzero]
    refine hessenberg_rotate hab (fun j hj ↦ ?_) fun i hi ↦ ?_
    · have hja : a ≠ j := Fin.ne_of_val_ne (by omega)
      rw [unshiftPair_apply, if_neg fun h ↦ hja h.1, hstart j hj]
    · have hib : i ≠ b := Fin.ne_of_val_ne (by omega)
      rw [unshiftPair_apply, if_neg fun h ↦ hib h.1, hstop i hi]
  have haa : (s.unshiftPair a b).hessenberg a a = s.form a a + s.shift := by
    rw [hessenberg_of_le (by omega), unshiftPair_apply, if_pos ⟨rfl, Or.inl rfl⟩]
  have hbb : (s.unshiftPair a b).hessenberg b b = s.form b b + s.shift := by
    rw [hessenberg_of_le (by omega), unshiftPair_apply, if_pos ⟨rfl, Or.inr rfl⟩]
  have hbelow : (s.unshiftPair a b).hessenberg b a = s.form b a := by
    rw [hessenberg_of_le (by omega), unshiftPair_apply, if_neg fun h ↦ hne h.1.symm]
  have habove : (s.unshiftPair a b).hessenberg a b = s.form a b := by
    rw [hessenberg_of_le (by omega), unshiftPair_apply, if_neg fun h ↦ hne h.1]
  obtain ⟨hcorner, hfirst, hsecond⟩ := conjugated_block hne (hbelow ▸ hx)
    (by rw [haa, hbb, hbelow, habove, ← hw, hroot, hv]; ring) (hbelow ▸ hform)
  rw [hessenberg_of_le (by omega)] at hcorner hfirst hsecond
  exact
    { form := by rw [hform, hessenberg_unshiftPair]
      basis := by rw [splitPair_eq hx hroot hzero, Grid.toMatrix_rotateColumns]
      corner := hcorner
      first := by
        rw [hfirst, hbb, splitPair_eq hx hroot hzero, Tuple.set_apply, if_neg hne, Tuple.set_apply,
          if_pos rfl]
      second := by
        rw [hsecond, haa, splitPair_eq hx hroot hzero, Tuple.set_apply, if_pos rfl, hv]
        ring }

theorem div_two_halfGap (h : Grid ℝ n n) (a b : Fin n) :
    (h a a - h b b) / 2.0 = halfGap h a b :=
  div_of_ne_zero _ (by norm_num)

theorem deflatePair_of_discriminant_nonneg (hq : 0 ≤ pairDiscriminant s.form a b) :
    s.deflatePair a b = s.splitPair a b (pairDistance s.form a b) (s.form b a * s.form a b) := by
  rw [deflatePair]
  simp only [div_two_halfGap, mul_add_pairDiscriminant, hq, if_true, abs_real, abs_of_nonneg hq,
    sqrt_real]
  rfl

theorem deflatePair_of_discriminant_neg (hq : pairDiscriminant s.form a b < 0) :
    s.deflatePair a b =
      { s with
        form := s.unshiftPair a b
        re := (s.re.set a (s.form b b + s.shift + halfGap s.form a b)).set b
          (s.form b b + s.shift + halfGap s.form a b)
        im := (s.im.set a √|pairDiscriminant s.form a b|).set b
          (-√|pairDiscriminant s.form a b|) } := by
  rw [deflatePair]
  simp only [div_two_halfGap, mul_add_pairDiscriminant, not_le.2 hq, if_false, abs_real, sqrt_real]

omit [DivisionByZero] in
theorem deflatePair_quotient (hx : s.form b a ≠ 0) (D D' : DivisionByZero) :
    (letI : DivisionByZero := D; s.deflatePair a b) =
      (letI : DivisionByZero := D'; s.deflatePair a b) := by
  obtain hq | hq := le_or_gt 0 (pairDiscriminant s.form a b)
  · have hw := (pairDistance_mul hq).symm
    rw [@deflatePair_of_discriminant_nonneg _ _ _ D _ hq,
      @deflatePair_of_discriminant_nonneg _ _ _ D' _ hq,
      @splitPair_eq _ _ _ _ _ D _ hx _ hw pairDistance_sub_eq_zero,
      @splitPair_eq _ _ _ _ _ D' _ hx _ hw pairDistance_sub_eq_zero]
    rfl
  · rw [@deflatePair_of_discriminant_neg _ _ _ D _ hq,
      @deflatePair_of_discriminant_neg _ _ _ D' _ hq]
    rfl

theorem deflatePair_keepsOthers : KeepsOthers a b s (s.deflatePair a b) := by
  obtain hq | hq := le_or_gt 0 (pairDiscriminant s.form a b)
  · rw [deflatePair_of_discriminant_nonneg hq]
    exact splitPair_keepsOthers
  · rw [deflatePair_of_discriminant_neg hq]
    exact ⟨fun _ ha hb ↦ set_set_apply _ _ _ ha hb, fun _ ha hb ↦ set_set_apply _ _ _ ha hb, rfl⟩

theorem ne_zero_of_mem_splitDivisors (hx : s.form b a ≠ 0) {x : ℝ} (h : x ∈ splitDivisors a b z s) :
    x ≠ 0 := by
  have hsize := pairSize_ne_zero (z := z) hx
  simp only [splitDivisors, abs_real, sqrt_real, div_of_ne_zero _ hsize, sqrt_pairLength] at h
  obtain h | h := List.mem_append.1 h
  · split at h
    case isTrue => cases h
    case isFalse hz =>
      rw [List.mem_singleton.1 h]
      exact fun h₀ ↦ hz (beq_iff_eq.2 h₀)
  · simp only [List.mem_cons, List.not_mem_nil, or_false] at h
    obtain rfl | rfl := h
    · exact hsize
    · exact pairLength_ne_zero hx

theorem ne_zero_of_mem_pairDivisors (hx : s.form b a ≠ 0) {x : ℝ} (h : x ∈ pairDivisors a b s) :
    x ≠ 0 := by
  obtain rfl | h := List.mem_cons.1 h
  · norm_num
  · split at h
    case isTrue => exact ne_zero_of_mem_splitDivisors hx h
    case isFalse => cases h

theorem deflatePair_roots (hne : a ≠ b) (hx : s.form b a ≠ 0) :
    (pairBlock s.form a b).charpoly.roots.map (· + (s.shift : ℂ)) =
      {⟨(s.deflatePair a b).re a, (s.deflatePair a b).im a⟩,
        ⟨(s.deflatePair a b).re b, (s.deflatePair a b).im b⟩} := by
  obtain hq | hq := le_or_gt 0 (pairDiscriminant s.form a b)
  · rw [roots_pairBlock_of_nonneg hq, deflatePair_of_discriminant_nonneg hq,
      splitPair_eq hx (pairDistance_mul hq).symm pairDistance_sub_eq_zero]
    simp only [Tuple.set_apply, if_pos, if_neg hne, Multiset.insert_eq_cons, Multiset.map_cons,
      Multiset.map_singleton]
    refine congrArg₂ (fun μ ν : ℂ ↦ ({μ, ν} : Multiset ℂ)) (Complex.ext ?_ ?_) (Complex.ext ?_ ?_)
    · rw [Complex.add_re, Complex.ofReal_re, Complex.ofReal_re]
      ring
    · rw [Complex.add_im, Complex.ofReal_im, Complex.ofReal_im, add_zero]
    · rw [Complex.add_re, Complex.ofReal_re, Complex.ofReal_re]
      ring
    · rw [Complex.add_im, Complex.ofReal_im, Complex.ofReal_im, add_zero]
  · rw [roots_pairBlock_of_neg hq, deflatePair_of_discriminant_neg hq]
    simp only [Tuple.set_apply, if_pos, if_neg hne, Multiset.insert_eq_cons, Multiset.map_cons,
      Multiset.map_singleton]
    refine congrArg₂ (fun μ ν : ℂ ↦ ({μ, ν} : Multiset ℂ)) (Complex.ext ?_ ?_) (Complex.ext ?_ ?_)
    · rw [Complex.add_re, Complex.ofReal_re]
      ring
    · rw [Complex.add_im, Complex.ofReal_im, add_zero]
    · rw [Complex.add_re, Complex.ofReal_re]
      ring
    · rw [Complex.add_im, Complex.ofReal_im, add_zero]

/-- The step that settles a block of two rows, which is cut off on both sides, takes the roots of its
characteristic polynomial for the eigenvalues. Real roots split the block by a rotation; with complex
ones it only takes the shift back. It never divides by zero, and nothing hangs on what such a
division would give. -/
theorem deflatePair_spec (hab : a.val + 1 = b.val) (hx : s.form b a ≠ 0)
    (hstart : ∀ j : Fin n, j.val + 1 = a.val → s.form a j = 0)
    (hstop : ∀ i : Fin n, i.val = b.val + 1 → s.form i b = 0) :
    let s' := s.deflatePair a b
    let roots := (pairBlock s.form a b).charpoly.roots
    roots.map (· + (s.shift : ℂ)) = {⟨s'.re a, s'.im a⟩, ⟨s'.re b, s'.im b⟩} ∧
      ((∀ μ ∈ roots, μ.im = 0) → ∃ c d, c * c + d * d = 1 ∧
        s'.form.hessenberg = (planeRotation a b c d)ᵀ *
          (s.form.hessenberg + diagonal fun i ↦ if i = a ∨ i = b then s.shift else 0) *
            planeRotation a b c d ∧
        s'.basis.toMatrix = s.basis.toMatrix * planeRotation a b c d ∧
        s'.form b a = 0 ∧ s'.form a a = s'.re a ∧ s'.form b b = s'.re b) ∧
      ((∃ μ ∈ roots, μ.im ≠ 0) → s.form b a * s.form a b < 0 ∧ s'.basis = s.basis ∧
        ∀ i j, s'.form i j =
          if i = j ∧ (i = a ∨ i = b) then s.form i j + s.shift else s.form i j) ∧
      (∀ i, i ≠ a → i ≠ b → s'.re i = s.re i ∧ s'.im i = s.im i) ∧ s'.shift = s.shift ∧
      (∀ x ∈ pairDivisors a b s, x ≠ 0) ∧
      ∀ D : DivisionByZero, (letI : DivisionByZero := D; s.deflatePair a b) = s' := by
  intro s' roots
  have hne : a ≠ b := Fin.ne_of_val_ne (by omega)
  have hkeeps : KeepsOthers a b s s' := deflatePair_keepsOthers
  refine ⟨deflatePair_roots hne hx, fun hreal ↦ ?_, fun ⟨μ, hμ, him⟩ ↦ ?_,
    fun i ha hb ↦ ⟨hkeeps.re i ha hb, hkeeps.im i ha hb⟩, hkeeps.shift,
    fun _ ↦ ne_zero_of_mem_pairDivisors hx, fun D ↦ deflatePair_quotient hx D _⟩
  · have hq := forall_roots_real_iff.1 hreal
    have h := splitPair_splits hab hx hstart hstop rfl (pairDistance_mul hq).symm rfl
      pairDistance_sub_eq_zero
    rw [← deflatePair_of_discriminant_nonneg hq] at h
    exact ⟨_, _, pairCos_unit hx, h.form, h.basis, h.corner, h.first, h.second⟩
  · have hq : pairDiscriminant s.form a b < 0 := not_le.1 fun hq ↦
      him (forall_roots_real_iff.2 hq μ hμ)
    have hs' := deflatePair_of_discriminant_neg hq
    refine ⟨?_, (congrArg RealSchur.basis hs').trans rfl, fun i j ↦ ?_⟩
    · rw [pairDiscriminant] at hq
      linarith [mul_self_nonneg (halfGap s.form a b)]
    · rw [← unshiftPair_apply]
      exact congrArg (fun s : RealSchur ℝ n ↦ s.form i j) hs'

def pairOfFour (x : ℝ) : RealSchur ℝ 4 where
  form := .ofMatrix !![0, 1, 1, 1; 0, 1, x, 0; 1, 1, -1, 1; 1, 1, 0, 1]
  basis := .ofMatrix 1
  re := .fill 1
  im := .fill 0
  shift := 1

omit [DivisionByZero] in
theorem pairDiscriminant_pairOfFour (x : ℝ) :
    pairDiscriminant (pairOfFour x).form 1 2 = 1 + x := by
  have haa : (pairOfFour x).form 1 1 = 1 := Grid.ofMatrix_apply _ 1 1
  have hab : (pairOfFour x).form 1 2 = x := Grid.ofMatrix_apply _ 1 2
  have hba : (pairOfFour x).form 2 1 = 1 := Grid.ofMatrix_apply _ 2 1
  have hbb : (pairOfFour x).form 2 2 = -1 := Grid.ofMatrix_apply _ 2 2
  rw [pairDiscriminant, halfGap, haa, hab, hba, hbb]
  norm_num

omit [DivisionByZero] in
/-- Two real roots, and two complex ones. -/
theorem deflatePair_spec_four :
    letI : DivisionByZero := ⟨fun _ ↦ 0⟩
    (∀ x : ℝ, (pairOfFour x).form 2 1 ≠ 0 ∧
      (∀ j : Fin 4, j.val + 1 = 1 → (pairOfFour x).form 1 j = 0) ∧
      ∀ i : Fin 4, i.val = 2 + 1 → (pairOfFour x).form i 2 = 0) ∧
      (∀ μ ∈ (pairBlock (pairOfFour 2).form 1 2).charpoly.roots, μ.im = 0) ∧
      ((pairOfFour 2).deflatePair 1 2).form 2 1 = 0 ∧
      (∃ μ ∈ (pairBlock (pairOfFour (-2)).form 1 2).charpoly.roots, μ.im ≠ 0) ∧
      (pairOfFour (-2)).form 2 1 * (pairOfFour (-2)).form 1 2 < 0 := by
  let : DivisionByZero := ⟨fun _ ↦ 0⟩
  have hx : ∀ x : ℝ, (pairOfFour x).form 2 1 ≠ 0 := fun x ↦ by
    have h : (pairOfFour x).form 2 1 = 1 := Grid.ofMatrix_apply _ 2 1
    rw [h]
    exact one_ne_zero
  have hstart : ∀ (x : ℝ) (j : Fin 4), j.val + 1 = 1 → (pairOfFour x).form 1 j = 0 := by
    intro x j hj
    obtain rfl : j = 0 := Fin.ext (Nat.succ.inj hj)
    exact Grid.ofMatrix_apply _ 1 0
  have hstop : ∀ (x : ℝ) (i : Fin 4), i.val = 2 + 1 → (pairOfFour x).form i 2 = 0 := by
    intro x i hi
    obtain rfl : i = 3 := Fin.ext hi
    exact Grid.ofMatrix_apply _ 3 2
  have hreal : ∀ μ ∈ (pairBlock (pairOfFour 2).form 1 2).charpoly.roots, μ.im = 0 := by
    rw [forall_roots_real_iff, pairDiscriminant_pairOfFour]
    norm_num
  have hcomplex : ∃ μ ∈ (pairBlock (pairOfFour (-2)).form 1 2).charpoly.roots, μ.im ≠ 0 := by
    by_contra h
    simp only [not_exists, not_and, not_not] at h
    rw [forall_roots_real_iff, pairDiscriminant_pairOfFour] at h
    norm_num at h
  obtain ⟨-, hsplit, -⟩ := deflatePair_spec (by rfl) (hx 2) (hstart 2) (hstop 2)
  obtain ⟨-, -, -, -, -, hcorner, -⟩ := hsplit hreal
  obtain ⟨-, -, hpair, -⟩ := deflatePair_spec (by rfl) (hx (-2)) (hstart (-2)) (hstop (-2))
  exact ⟨fun x ↦ ⟨hx x, hstart x, hstop x⟩, hreal, hcorner, hcomplex, (hpair hcomplex).1⟩

end DenseDecomp.RealSchur
