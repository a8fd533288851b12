import Mathlib.Algebra.Algebra.Basic
import DenseDecomp.Proofs.Eigenvectors.QuasiTriangular
import DenseDecomp.Proofs.Loop

namespace DenseDecomp.RealSchur.BackSubstitution

open Matrix Scalar

variable {K : Type} [Field K] [Algebra ℝ K] {n : ℕ}

theorem exists_rescale_eq [DivisionByZero] (i a b : Fin n) (t : ℝ) (h : Grid ℝ n n) :
    ∃ c : ℝ, c ≠ 0 ∧ ∀ k l, rescale i a b t h k l =
      if (l = a ∨ l = b) ∧ i ≤ k ∧ k ≤ b then c * h k l else h k l := by
  rw [rescale]
  split
  case isTrue hlarge =>
    have ht : t ≠ 0 := by
      rintro rfl
      rw [mul_zero] at hlarge
      exact absurd hlarge (not_lt.2 zero_le_one)
    refine ⟨t⁻¹, inv_ne_zero ht, fun k l ↦ ?_⟩
    rw [Grid.ofFn_apply]
    split
    case isTrue => rw [div_of_ne_zero _ ht, div_eq_inv_mul]
    case isFalse => rfl
  case isFalse =>
    refine ⟨1, one_ne_zero, fun k l ↦ ?_⟩
    rw [one_mul, ite_self]

/-- The homogeneous system that the columns `a` and `b` of a form `h` are to solve. A component is
read from both of them, which are one column over the reals and two over the complex numbers. Off
the diagonal the system is the form. The last component is a multiple of `last`. -/
structure ColumnSystem (K : Type) [Field K] [Algebra ℝ K] (B : Blocks ℝ n) (h : Grid ℝ n n) where
  a : Fin n
  b : Fin n
  eq_or_eq : ∀ l, a ≤ l → l ≤ b → l = a ∨ l = b
  read : ℝ × ℝ →ₗ[ℝ] K
  matrix : Matrix (Fin n) (Fin n) K
  last : ℝ × ℝ
  le : a ≤ b
  im_nonneg : 0 ≤ B.im a
  matrix_of_ne : ∀ i k, i ≠ k → matrix i k = algebraMap ℝ K (quasiTriangular B h i k)

namespace ColumnSystem

variable {B : Blocks ℝ n} {h : Grid ℝ n n} (S : ColumnSystem K B h)

def entry (f : Grid ℝ n n) (k : Fin n) : K := S.read (f k S.a, f k S.b)

def solution (s : State ℝ n) : Fin n → K := segment s.solved S.b (S.entry s.form)

noncomputable def row [DivisionByZero] (s : State ℝ n) (i : Fin n) : K :=
  S.read (contribution s S.b i S.a, contribution s S.b i S.b)

/-- The rows from `t` on have been passed in the columns of `s`. The columns further left are still
those of the form. -/
structure Passed (t : ℕ) (s : State ℝ n) : Prop where
  left : ∀ k l, l < S.a → s.form k l = h k l
  above : ∀ k, k < s.solved → s.form k S.a = h k S.a ∧ s.form k S.b = h k S.b
  solves : Solves S.matrix s.solved (S.solution s)
  solved_le : s.solved ≤ S.a
  last : ∃ c : ℝ, c ≠ 0 ∧ (s.form S.b S.a, s.form S.b S.b) = c • S.last
  ready : (∀ j : Fin n, j.val = t → j < S.a → ¬ B.im j < 0) → s.solved.val = t
  waiting : ∀ j : Fin n, j.val = t → j < S.a → B.im j < 0 → s.solved.val = t + 1 ∧
    s.diag = h j j - B.re S.b ∧ S.read (s.first, s.second) = (S.matrix *ᵥ S.solution s) j

namespace Passed

variable [DivisionByZero] {S} {t : ℕ} {s : State ℝ n} {i j : Fin n}

/-- The sum over the solved entries is that of the whole row. -/
theorem row_eq (hs : S.Passed t s) (hi : i < s.solved) :
    S.row s i = (S.matrix *ᵥ S.solution s) i := by
  have hterm (k : Fin n) :
      S.read (if s.solved ≤ k ∧ k ≤ S.b then s.form i k * s.form k S.a else 0,
        if s.solved ≤ k ∧ k ≤ S.b then s.form i k * s.form k S.b else 0) =
          S.matrix i k * S.solution s k := by
    rw [solution, segment]
    split
    case isTrue hk =>
      have hik : i < k := hi.trans_le hk.1
      -- To the left the form was never written, and in the columns themselves only below row `i`.
      have hentry : s.form i k = h i k := by
        obtain hka | hak := lt_or_ge k S.a
        · exact hs.left i k hka
        · obtain rfl | rfl := S.eq_or_eq k hak hk.2
          · exact (hs.above i hi).1
          · exact (hs.above i hi).2
      rw [S.matrix_of_ne i k hik.ne, quasiTriangular_of_le hik.le, hentry, ← Algebra.smul_def,
        entry, ← map_smul]
      rfl
    case isFalse => rw [mul_zero, ← Prod.zero_eq_mk, map_zero]
  rw [row, contribution, contribution, sumWhere_real, sumWhere_real, prod_mk_sum, map_sum]
  exact Finset.sum_congr rfl fun k _ ↦ hterm k

omit [DivisionByZero] in
theorem start {g form : Grid ℝ n n} (hagree : ∀ k l, l ≤ S.b → g k l = h k l)
    (hform : ∀ k l, k < S.a ∨ l ≠ S.a ∧ l ≠ S.b → form k l = g k l)
    (hlast : (form S.b S.a, form S.b S.b) = S.last)
    (hsolves : Solves S.matrix S.a (segment S.a S.b (S.entry form))) (x y z : ℝ) :
    S.Passed S.a { form, solved := S.a, diag := x, first := y, second := z } where
  left k l hl :=
    (hform k l (.inr ⟨hl.ne, (hl.trans_le S.le).ne⟩)).trans (hagree k l (hl.le.trans S.le))
  above k hk :=
    ⟨(hform k _ (.inl hk)).trans (hagree k _ S.le), (hform k _ (.inl hk)).trans (hagree k _ le_rfl)⟩
  solves := hsolves
  solved_le := le_rfl
  last := ⟨1, one_ne_zero, hlast.trans (one_smul ℝ S.last).symm⟩
  ready := fun _ ↦ rfl
  waiting := fun _ hj hja ↦ absurd hj (Fin.lt_def.1 hja).ne

omit [DivisionByZero] in
theorem solved_of_not_waiting (hB : B.Describes h) (hs : S.Passed (i + 1) s)
    (hi : ¬ 0 < B.im i) : s.solved.val = i + 1 :=
  hs.ready fun _ hj _ him ↦ hi (hB.upper_of_lower hj.symm him)

omit [DivisionByZero] in
theorem exists_lower (hB : B.Describes h) (hs : S.Passed (i + 1) s) (hia : i < S.a)
    (hi : 0 < B.im i) : ∃ j : Fin n, i.val + 1 = j.val ∧ j < S.a ∧ B.im j < 0 ∧
      s.solved.val = j + 1 ∧ s.diag = h j j - B.re S.b ∧
        S.read (s.first, s.second) = (S.matrix *ᵥ S.solution s) j := by
  obtain ⟨j, hij, -⟩ := hB.upper i hi
  have him := hB.lower_neg hi hij
  have hja : j < S.a := by
    refine lt_of_le_of_ne (Fin.le_def.2 ?_) fun hja ↦ him.not_ge (hja ▸ S.im_nonneg)
    have hlt := Fin.lt_def.1 hia
    omega
  obtain ⟨hsolved, hdiag, hfirst⟩ := hs.waiting j hij.symm hja him
  exact ⟨j, hij, hja, him, hsolved.trans (by omega), hdiag, hfirst⟩

/-- The lower row of a pair waits for the upper one. -/
theorem wait (hB : B.Describes h) (hs : S.Passed (i + 1) s) (hia : i < S.a) (hi : B.im i < 0)
    {x y : ℝ} (hxy : S.read (x, y) = S.row s i) :
    S.Passed i { s with diag := s.form i i - B.re S.b, first := x, second := y } := by
  have hsolved := hs.solved_of_not_waiting hB hi.le.not_gt
  exact
    { left := hs.left
      above := hs.above
      solves := hs.solves
      solved_le := hs.solved_le
      last := hs.last
      ready := fun hready ↦ absurd hi (hready i rfl hia)
      waiting := by
        intro j hj _ _
        obtain rfl : j = i := Fin.ext hj
        refine ⟨hsolved, ?_, hxy.trans (hs.row_eq (Fin.lt_def.2 (by omega)))⟩
        rw [hs.left j j hia] }

theorem advance (hs : S.Passed t s) (hia : i < S.a) (hi : ¬ B.im i < 0) (his : i < s.solved)
    {form : Grid ℝ n n}
    (hform : ∀ k l, k < i ∨ s.solved ≤ k ∨ l ≠ S.a ∧ l ≠ S.b → form k l = s.form k l)
    (hsolves : Solves S.matrix i (segment i S.b (S.entry form))) (x : ℝ) :
    S.Passed i { s with form := rescale i S.a S.b x form, solved := i } := by
  obtain ⟨c, hc, hscaled⟩ := exists_rescale_eq i S.a S.b x form
  have hentry (k : Fin n) (hik : i ≤ k) (hkb : k ≤ S.b) :
      S.entry (rescale i S.a S.b x form) k = algebraMap ℝ K c * S.entry form k := by
    rw [entry, entry, hscaled, hscaled, if_pos ⟨.inl rfl, hik, hkb⟩, if_pos ⟨.inr rfl, hik, hkb⟩,
      ← Algebra.smul_def, ← map_smul]
    rfl
  constructor
  · intro k l hl
    have hne : l ≠ S.a ∧ l ≠ S.b := ⟨hl.ne, (hl.trans_le S.le).ne⟩
    dsimp only
    rw [hscaled, if_neg fun hkl ↦ hkl.1.elim hne.1 hne.2, hform k l (.inr (.inr hne)),
      hs.left k l hl]
  · intro k hk
    dsimp only at hk ⊢
    rw [hscaled, hscaled, if_neg fun hkl ↦ absurd hkl.2.1 (not_le.2 hk),
      if_neg fun hkl ↦ absurd hkl.2.1 (not_le.2 hk), hform k S.a (.inl hk), hform k S.b (.inl hk)]
    exact hs.above k (hk.trans his)
  · change Solves S.matrix i (segment i S.b (S.entry (rescale i S.a S.b x form)))
    rw [segment_of_mul hentry]
    exact hsolves.smul _
  · exact hia.le
  · dsimp only
    have hle := hs.solved_le.trans S.le
    have hib := hia.le.trans S.le
    obtain ⟨d, hd, hlast⟩ := hs.last
    refine ⟨c * d, mul_ne_zero hc hd, ?_⟩
    rw [hscaled, hscaled, if_pos ⟨.inl rfl, hib, le_rfl⟩, if_pos ⟨.inr rfl, hib, le_rfl⟩,
      hform _ _ (.inr (.inl hle)), hform _ _ (.inr (.inl hle)), mul_smul, ← hlast]
    rfl
  · exact fun _ ↦ rfl
  · intro j hj _ him
    obtain rfl : j = i := Fin.ext hj
    exact absurd him hi

theorem single (hB : B.Describes h) (hs : S.Passed (i + 1) s) (hia : i < S.a) (hi : B.im i = 0)
    {form : Grid ℝ n n} (hform : ∀ k l, k ≠ i ∨ l ≠ S.a ∧ l ≠ S.b → form k l = s.form k l)
    (hrow : S.matrix i i * S.entry form i = -S.row s i) (x : ℝ) :
    S.Passed i { s with form := rescale i S.a S.b x form, solved := i } := by
  have hsolved := hs.solved_of_not_waiting hB hi.le.not_gt
  have his : i < s.solved := Fin.lt_def.2 (by omega)
  have hentry (k : Fin n) (hik : i < k) : S.entry form k = S.entry s.form k := by
    rw [entry, entry, hform k _ (.inl hik.ne'), hform k _ (.inl hik.ne')]
  refine hs.advance hia (not_lt.2 hi.ge) his (fun k l hkl ↦ hform k l ?_) ?_ x
  · obtain hk | hk | hl := hkl
    · exact .inl hk.ne
    · exact .inl (his.trans_le hk).ne'
    · exact .inr hl
  · rw [segment_cons hsolved (hia.le.trans S.le) hentry]
    refine Solves.single ?_ (fun k hk ↦ ?_) ?_
    · rw [← hsolved]
      exact hs.solves
    · rw [S.matrix_of_ne k i hk.ne', hB.below hi.le.not_gt hk, map_zero]
    · rw [hrow, hs.row_eq his]
      rfl

theorem block (hB : B.Describes h) (hs : S.Passed t s) (hi : 0 < B.im i)
    (hij : i.val + 1 = j.val) (hja : j < S.a) (him : B.im j < 0) (hsolved : s.solved.val = j + 1)
    {form : Grid ℝ n n}
    (hform : ∀ k l, k ≠ i ∧ k ≠ j ∨ l ≠ S.a ∧ l ≠ S.b → form k l = s.form k l)
    (hupper : S.matrix i i * S.entry form i + S.matrix i j * S.entry form j = -S.row s i)
    (hlower : S.matrix j i * S.entry form i + S.matrix j j * S.entry form j =
      -(S.matrix *ᵥ S.solution s) j) (x : ℝ) :
    S.Passed i { s with form := rescale i S.a S.b x form, solved := i } := by
  have hlt : i < j := Fin.lt_def.2 (by omega)
  have hjs : j < s.solved := Fin.lt_def.2 (by omega)
  have hentry (k : Fin n) (hjk : j < k) : S.entry form k = S.entry s.form k := by
    have hk : k ≠ i ∧ k ≠ j := ⟨(hlt.trans hjk).ne', hjk.ne'⟩
    rw [entry, entry, hform k _ (.inl hk), hform k _ (.inl hk)]
  refine hs.advance (hlt.trans hja) (not_lt.2 hi.le) (hlt.trans hjs)
    (fun k l hkl ↦ hform k l ?_) ?_ x
  · obtain hk | hk | hl := hkl
    · exact .inl ⟨hk.ne, (hk.trans hlt).ne⟩
    · exact .inl ⟨((hlt.trans hjs).trans_le hk).ne', (hjs.trans_le hk).ne'⟩
    · exact .inr hl
  · rw [segment_cons_pair hij hsolved (hja.le.trans S.le) hentry]
    refine Solves.block hij ?_ (fun k hk ↦ ?_) ?_ hlower
    · rw [← hsolved]
      exact hs.solves
    · obtain ⟨hki, hkj⟩ := hB.below_pair hij him hk
      rw [S.matrix_of_ne k i (hlt.trans hk).ne', S.matrix_of_ne k j hk.ne', hki, hkj, map_zero]
      exact ⟨rfl, rfl⟩
    · rw [hupper, hs.row_eq (hlt.trans hjs)]
      rfl

omit [DivisionByZero] in
theorem finish (hB : B.Describes h) (hs : S.Passed 0 s) :
    S.matrix *ᵥ (fun k ↦ if k ≤ S.b then S.entry s.form k else 0) = 0 := by
  have hsolved : s.solved.val = 0 := hs.ready fun _ hj _ him ↦ hB.ne_zero_of_neg him hj
  have hvector : (fun k ↦ if k ≤ S.b then S.entry s.form k else 0) = S.solution s := by
    ext k
    have hk : s.solved ≤ k := Fin.le_def.2 (by omega)
    rw [solution, segment]
    simp only [hk, true_and]
  rw [hvector]
  refine Solves.mulVec_eq_zero ?_
  rw [← hsolved]
  exact hs.solves

end Passed

end ColumnSystem

end DenseDecomp.RealSchur.BackSubstitution
