import Mathlib.Data.Real.Basic
import DenseDecomp.Proofs.RealSchur.ReflectorMatrix
import DenseDecomp.Proofs.RealSchur.Sweep

namespace DenseDecomp.RealSchur

open Matrix Scalar

variable {n l b k : ℕ} {hb : b < n} {hk : k + 1 ≤ b} {u : Lead ℝ} {size : ℝ} {h g : Grid ℝ n n}

/-- The positions that a sweep reads before it applies the reflection of the rows from `k` on: the
bulge stands out below the first subdiagonal. -/
abbrev Bulge (l b k : ℕ) (i j : Fin n) : Prop :=
  i.val ≤ j.val + 1 ∨ (l ≤ j.val ∧ k ≤ j.val + 1 ∧ i.val ≤ k + 2 ∧ i.val ≤ b)

abbrev Lowered (l b k : ℕ) (i j : Fin n) : Prop :=
  i.val ≤ j.val + 1 ∨ (l ≤ j.val ∧ k ≤ j.val ∧ i.val ≤ k + 2 ∧ i.val ≤ b)

/-- What a sweep of the rows `l, …, b` has before it applies the reflection of the rows from `k` on.
The lead is the column before row `k`, from the second reflection on. -/
structure Chased (l : ℕ) (hb : b < n) (k : ℕ) (u : Lead ℝ) (h : Grid ℝ n n) : Prop where
  fits : u.Fits hb k
  lead_p : l < k → ∀ i j, i.val = k → j.val + 1 = k → h i j = u.size * u.p
  lead_q : l < k → ∀ i j, i.val = k + 1 → j.val + 1 = k → h i j = u.size * u.q
  lead_r : l < k → ∀ i j, i.val = k + 2 → i.val ≤ b → j.val + 1 = k → h i j = u.size * u.r
  corner : ∀ i j, i.val = k + 2 → i.val ≤ b → j.val = k → (l < k → u.size = 0) → h i j = 0
  cleared : ∀ i j, k + 3 ≤ i.val → i.val ≤ b → (j.val + 2 = i.val ∨ j.val + 3 = i.val) → h i j = 0
  start : ∀ i j, i.val = l → j.val + 1 = l → k = l → h i j = 0
  stop : ∀ i j, i.val = b + 1 → j.val = b → h i j = 0

theorem some_eq_thirdRow_iff {i : Fin n} : some i = thirdRow k hb ↔ i.val = k + 2 ∧ i.val ≤ b := by
  rw [thirdRow]
  split
  case isTrue hkb =>
    rw [Option.some_inj, Fin.ext_iff]
    dsimp only
    omega
  case isFalse hkb =>
    simp only [reduceCtorEq, false_iff]
    omega

theorem touches_reflector_iff {i : Fin n} :
    (reflector hb k hk u size).Touches i ↔ k ≤ i.val ∧ i.val ≤ k + 2 ∧ i.val ≤ b := by
  rw [Reflector.Touches, reflector, some_eq_thirdRow_iff, Fin.ext_iff, Fin.ext_iff]
  dsimp only
  omega

theorem reflector_spread_apply (x y z : ℝ) (i : Fin n) :
    (reflector hb k hk u size).spread x y z i =
      if i.val = k then x else if i.val = k + 1 then y
      else if i.val = k + 2 ∧ i.val ≤ b then z else 0 := by
  rw [Reflector.spread_apply reflector_ordered, reflector]
  simp only [some_eq_thirdRow_iff, Fin.ext_iff]

theorem reflector_balanced (hk : k + 1 ≤ b) (hu : u.Fits hb k) (hs : size ≠ 0)
    (hp : u.p + size ≠ 0) (hsq : size * size = u.p * u.p + u.q * u.q + u.r * u.r) :
    (reflector hb k hk u size).Balanced where
  ordered := reflector_ordered
  y_eq := by
    rw [reflector]
    field_simp
  z_eq := by
    rw [reflector]
    field_simp
  two := reflector_dot_of_fits hu hs hp hsq

theorem reflector_dot_lead (hu : u.Fits hb k) (hp : u.p + size ≠ 0)
    (hsq : size * size = u.p * u.p + u.q * u.q + u.r * u.r) :
    (reflector hb k hk u size).vector ⬝ᵥ (reflector hb k hk u size).spread u.p u.q u.r = size := by
  have hthird : ((reflector hb k hk u size).third.elim 0 fun _ ↦ u.r / (u.p + size) * u.r) =
      u.r / (u.p + size) * u.r := by
    cases hr : (reflector hb k hk u size).third with
    | none => rw [Option.elim_none, hu hr, mul_zero]
    | some i => rfl
  rw [Reflector.vector, Reflector.spread_dotProduct_spread reflector_ordered]
  change 1 * u.p + u.q / (u.p + size) * u.q +
    ((reflector hb k hk u size).third.elim 0 fun _ ↦ u.r / (u.p + size) * u.r) = size
  rw [hthird]
  field_simp
  linear_combination -hsq

theorem Chased.column_eq (hc : Chased l hb k u g) (hlk : l < k) {i j : Fin n} (hj : j.val + 1 = k)
    (hi : (reflector hb k hk u size).Touches i) :
    g i j = u.size * (reflector hb k hk u size).spread u.p u.q u.r i := by
  obtain ⟨hki, hik, hib⟩ := touches_reflector_iff.1 hi
  rw [reflector_spread_apply]
  split_ifs with hp hq hr
  · exact hc.lead_p hlk i j hp hj
  · exact hc.lead_q hlk i j hq hj
  · exact hc.lead_r hlk i j hr.1 hr.2 hj
  · omega

/-- The reflection of the rows takes the lead out of the column before them. -/
theorem Chased.reflection_mul_lead (hc : Chased l hb k u g) (hlk : l < k) (hs : size ≠ 0)
    (hp : u.p + size ≠ 0) (hsq : size * size = u.p * u.p + u.q * u.q + u.r * u.r) {i j : Fin n}
    (hj : j.val + 1 = k) (hi : (reflector hb k hk u size).Touches i) :
    (reflection (reflector hb k hk u size).vector * g.readOn (Bulge l b k)) i j =
      if i.val = k then -size * u.size else 0 := by
  have hread : ∀ i, (reflector hb k hk u size).Touches i →
      g.readOn (Bulge l b k) i j = (u.size • (reflector hb k hk u size).spread u.p u.q u.r) i := by
    intro i hi
    obtain ⟨-, hik, hib⟩ := touches_reflector_iff.1 hi
    rw [Grid.readOn_of (Or.inr ⟨by omega, hj.ge, hik, hib⟩), hc.column_eq hlk hj hi]
    rfl
  rw [(reflector_balanced hk hc.fits hs hp hsq).reflection_mul, hread i hi, Reflector.vector,
    Reflector.spread_dotProduct_congr hread, dotProduct_smul, ← Reflector.vector,
    reflector_dot_lead hc.fits hp hsq, Pi.smul_apply, smul_eq_mul, smul_eq_mul,
    reflector_spread_apply, reflector_spread_apply]
  obtain ⟨hki, hik, hib⟩ := touches_reflector_iff.1 hi
  split_ifs with hp' hq hr
  · rw [reflector]
    field_simp
    ring
  · rw [reflector]
    field_simp
    ring
  · rw [reflector]
    field_simp
    ring
  · omega

/-- Where the column is zero in the rows of the reflection, these leave it as it is. -/
theorem reflection_mul_of_clear {t : Reflector ℝ n} (ht : t.Balanced) {M : Matrix (Fin n) (Fin n) ℝ}
    {j : Fin n} (hM : ∀ i, t.Touches i → M i j = 0) (i : Fin n) :
    (reflection t.vector * M) i j = M i j := by
  rw [ht.reflection_mul, Reflector.vector, Reflector.spread_dotProduct_eq_zero hM, zero_mul,
    sub_zero]

structure Marked (l k : ℕ) (u : Lead ℝ) (size : ℝ) (g h : Grid ℝ n n) : Prop where
  image : l < k → ∀ i j, i.val = k → j.val + 1 = k → h i j = -size * u.size
  kept : ∀ i j, (l < k → i.val = k → j.val + 1 ≠ k) → h i j = g i j

/-- A sweep that meets a column of length zero has no bulge left. -/
theorem Chased.hessenberg_eq (hc : Chased l hb k u g) (hsize : l < k → u.size = 0) :
    g.readOn (Bulge l b k) = g.hessenberg := by
  ext i j
  by_cases hij : i.val ≤ j.val + 1
  · exact (Grid.readOn_of (Or.inl hij)).trans (Grid.readOn_of hij).symm
  · refine Eq.trans ?_ (Grid.readOn_of_not hij).symm
    by_cases hbulge : Bulge l b k i j
    · rw [Grid.readOn_of hbulge]
      obtain hj | hj : j.val = k ∨ j.val + 1 = k := by omega
      · exact hc.corner i j (by omega) (by omega) hj hsize
      · have hlk : l < k := by omega
        obtain hi | hi : i.val = k + 1 ∨ i.val = k + 2 := by omega
        · rw [hc.lead_q hlk i j hi hj, hsize hlk, zero_mul]
        · rw [hc.lead_r hlk i j hi (by omega) hj, hsize hlk, zero_mul]
    · exact Grid.readOn_of_not hbulge

/-- A lead of length zero leaves nothing to be reflected. -/
theorem Chased.skip (hlk : l ≤ k) (hc : Chased l hb k u g) (hq : u.q = 0)
    (hr : u.r = 0) : g.readOn (Bulge l b k) = g.readOn (Bulge l b (k + 1)) := by
  ext i j
  by_cases hij : Bulge l b k i j
  · rw [Grid.readOn_of hij]
    by_cases hij' : Bulge l b (k + 1) i j
    · rw [Grid.readOn_of hij']
    · rw [Grid.readOn_of_not hij']
      have hlk' : l < k := by omega
      obtain hi | hi : i.val = k + 1 ∨ i.val = k + 2 := by omega
      · rw [hc.lead_q hlk' i j hi (by omega), hq, mul_zero]
      · rw [hc.lead_r hlk' i j hi (by omega) (by omega), hr, mul_zero]
  · rw [Grid.readOn_of_not hij]
    by_cases hij' : Bulge l b (k + 1) i j
    · rw [Grid.readOn_of hij', hc.cleared i j (by omega) (by omega) (by omega)]
    · rw [Grid.readOn_of_not hij']

variable [DivisionByZero]

theorem Chased.reflect_rows_of_le (hlk : l ≤ k) (hc : Chased l hb k u g) (hs : size ≠ 0)
    (hp : u.p + size ≠ 0) (hsq : size * size = u.p * u.p + u.q * u.q + u.r * u.r)
    (hh : Marked l k u size g h) {j : Fin n} (hj : k ≤ j.val) (i : Fin n) :
    (reflection (reflector hb k hk u size).vector * g.readOn (Bulge l b k)) i j =
      ((reflector hb k hk u size).applyRows h).readOn (Lowered l b k) i j := by
  have hbal := reflector_balanced hk hc.fits hs hp hsq
  have hread : ∀ i, (reflector hb k hk u size).Touches i →
      g.readOn (Bulge l b k) i j = h i j := fun i hi ↦ by
    obtain ⟨-, hik, hib⟩ := touches_reflector_iff.1 hi
    rw [Grid.readOn_of (Or.inr ⟨by omega, by omega, hik, hib⟩), hh.kept i j (by omega)]
  rw [hbal.reflection_mul, Reflector.vector, Reflector.spread_dotProduct_congr hread]
  by_cases hij : Lowered l b k i j
  · have hij' : Bulge l b k i j := by omega
    have hi : (reflector hb k hk u size).i ≤ j := hj
    rw [Grid.readOn_of hij', Grid.readOn_of hij, Reflector.applyRows_apply hbal.ordered, if_pos hi,
      hh.kept i j (by omega)]
  · have hij' : ¬ Bulge l b k i j := by omega
    have hi : ¬ (reflector hb k hk u size).Touches i := fun hi ↦ by
      have := touches_reflector_iff.1 hi
      omega
    rw [Grid.readOn_of_not hij', Grid.readOn_of_not hij,
      Reflector.spread_of_not_touches hbal.ordered _ _ _ hi, mul_zero, sub_zero]

/-- Of the column before them the rows have the image of the lead, which is not computed. -/
theorem Chased.reflect_rows_lead (hlk : l < k) (hc : Chased l hb k u g) (hs : size ≠ 0)
    (hp : u.p + size ≠ 0) (hsq : size * size = u.p * u.p + u.q * u.q + u.r * u.r)
    (hh : Marked l k u size g h) {j : Fin n} (hj : j.val + 1 = k) (i : Fin n) :
    (reflection (reflector hb k hk u size).vector * g.readOn (Bulge l b k)) i j =
      ((reflector hb k hk u size).applyRows h).readOn (Lowered l b k) i j := by
  have hbal := reflector_balanced hk hc.fits hs hp hsq
  have hrows : (reflector hb k hk u size).applyRows h i j = h i j :=
    Reflector.applyRows_of_lt hbal.ordered i (Fin.lt_def.2 (hj ▸ Nat.lt_succ_self j.val))
  by_cases hi : (reflector hb k hk u size).Touches i
  · obtain ⟨hki, -, -⟩ := touches_reflector_iff.1 hi
    rw [hc.reflection_mul_lead hlk hs hp hsq hj hi]
    split
    case isTrue hik => rw [Grid.readOn_of (Or.inl (by omega)), hrows, hh.image hlk i j hik hj]
    case isFalse hik => rw [Grid.readOn_of_not (by omega)]
  · rw [hbal.reflection_mul, Reflector.spread_of_not_touches hbal.ordered _ _ _ hi, mul_zero,
      sub_zero]
    rw [touches_reflector_iff] at hi
    refine if_congr (by omega) ?_ rfl
    rw [hrows, hh.kept i j (by omega)]

theorem Chased.reflect_rows_of_lt (hlk : l ≤ k) (hc : Chased l hb k u g) (hs : size ≠ 0)
    (hp : u.p + size ≠ 0) (hsq : size * size = u.p * u.p + u.q * u.q + u.r * u.r)
    (hh : Marked l k u size g h) {j : Fin n} (hj : j.val < k)
    (hlead : ¬ (l < k ∧ j.val + 1 = k)) (i : Fin n) :
    (reflection (reflector hb k hk u size).vector * g.readOn (Bulge l b k)) i j =
      ((reflector hb k hk u size).applyRows h).readOn (Lowered l b k) i j := by
  have hbal := reflector_balanced hk hc.fits hs hp hsq
  have hclear : ∀ i, (reflector hb k hk u size).Touches i → g.readOn (Bulge l b k) i j = 0 := by
    intro i hi
    have := touches_reflector_iff.1 hi
    by_cases hij : Bulge l b k i j
    · rw [Grid.readOn_of hij]
      exact hc.start i j (by omega) (by omega) (by omega)
    · exact Grid.readOn_of_not hij
  rw [reflection_mul_of_clear hbal hclear]
  refine if_congr (by omega) ?_ rfl
  rw [Reflector.applyRows_of_lt hbal.ordered i (Fin.lt_def.2 hj), hh.kept i j (by omega)]

theorem Chased.reflect_rows (hlk : l ≤ k) (hc : Chased l hb k u g) (hs : size ≠ 0)
    (hp : u.p + size ≠ 0) (hsq : size * size = u.p * u.p + u.q * u.q + u.r * u.r)
    (hh : Marked l k u size g h) :
    reflection (reflector hb k hk u size).vector * g.readOn (Bulge l b k) =
      ((reflector hb k hk u size).applyRows h).readOn (Lowered l b k) := by
  ext i j
  obtain hj | hj := le_or_gt k j.val
  · exact hc.reflect_rows_of_le hlk hs hp hsq hh hj i
  · by_cases hlead : l < k ∧ j.val + 1 = k
    · exact hc.reflect_rows_lead hlead.1 hs hp hsq hh hlead.2 i
    · exact hc.reflect_rows_of_lt hlk hs hp hsq hh hj hlead i

theorem Chased.reflect_columns (hlk : l ≤ k) (hu : u.Fits hb k) (hs : size ≠ 0)
    (hp : u.p + size ≠ 0) (hsq : size * size = u.p * u.p + u.q * u.q + u.r * u.r)
    (hcleared : ∀ i j, i.val = k + 3 → i.val ≤ b → k ≤ j.val → j.val ≤ k + 1 → h i j = 0)
    (hstop : ∀ i j, i.val = b + 1 → j.val = b → h i j = 0) :
    h.readOn (Lowered l b k) * reflection (reflector hb k hk u size).vector =
      ((reflector hb k hk u size).applyColumns (fun row ↦ row.val ≤ min b (k + 3)) h).readOn
        (Bulge l b (k + 1)) := by
  have hbal := reflector_balanced hk hu hs hp hsq
  ext i j
  by_cases hi : i.val ≤ min b (k + 3)
  · have hib := le_min_iff.1 hi
    have hread : ∀ j : Fin n, k ≤ j.val → h.readOn (Lowered l b k) i j = h i j := fun j hj ↦ by
      by_cases hij : Lowered l b k i j
      · exact Grid.readOn_of hij
      · rw [Grid.readOn_of_not hij, hcleared i j (by omega) hib.1 hj (by omega)]
    rw [hbal.mul_reflection, Reflector.spread_dotProduct_congr fun j hj ↦
      hread j (touches_reflector_iff.1 hj).1]
    obtain hj | hj := le_or_gt k j.val
    · rw [hread j hj, Grid.readOn_of (Or.inr ⟨by omega, by omega, hib.2, hib.1⟩),
        Reflector.applyColumns_apply hbal.ordered, if_pos hi]
      rfl
    · have hvector : (reflector hb k hk u size).vector j = 0 :=
        Reflector.spread_of_not_touches hbal.ordered _ _ _ fun h' ↦
          absurd (touches_reflector_iff.1 h').1 (not_le.2 hj)
      rw [hvector, mul_zero, sub_zero]
      refine if_congr (by omega) ?_ rfl
      rw [Reflector.applyColumns_apply hbal.ordered, if_pos hi, ← Reflector.vector, hvector,
        mul_zero, sub_zero]
  · have hzero : ∀ j, (reflector hb k hk u size).Touches j → h.readOn (Lowered l b k) i j = 0 := by
      intro j hj
      have := touches_reflector_iff.1 hj
      by_cases hij : Lowered l b k i j
      · rw [Grid.readOn_of hij]
        exact hstop i j (by omega) (by omega)
      · exact Grid.readOn_of_not hij
    rw [hbal.mul_reflection, Reflector.spread_dotProduct_eq_zero hzero, zero_mul, sub_zero]
    refine if_congr (by omega) ?_ rfl
    rw [Reflector.applyColumns_apply hbal.ordered, if_neg hi]

end DenseDecomp.RealSchur
