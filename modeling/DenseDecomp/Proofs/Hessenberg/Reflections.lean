import Mathlib.Data.Real.Basic
import DenseDecomp.Proofs.GridMatrix
import DenseDecomp.Proofs.HessenbergReduction

namespace DenseDecomp.Hessenberg

open Matrix Scalar

variable {n : ℕ}

/-- The vector of the reflection that clears column `c`, as the reduction leaves it: the head apart
and the rest in the column. A column that was clear, or has nothing to be cleared, has none. -/
noncomputable def vector (s : Hessenberg ℝ (n + 1)) (c : Fin n) : Fin (n + 1) → ℝ :=
  fun i ↦
    if c.succ < Fin.last n ∧ s.form c.succ c.castSucc ≠ 0 ∧ c.succ ≤ i then
      if i = c.succ then s.heads i else s.form i c.castSucc
    else 0

abbrev Reached (t : ℕ) (i j : Fin n) : Prop := i.val ≤ j.val + 1 ∨ t ≤ j.val

structure ColumnReduced (c : Fin n) (s t : Hessenberg ℝ (n + 1)) : Prop where
  form_eq : t.form.readOn (Reached (c + 1)) =
    reflection (t.vector c) * s.form.readOn (Reached c) * reflection (t.vector c)
  length : t.vector c ⬝ᵥ t.vector c = -2 * (t.form c.succ c.castSucc * t.vector c c.succ)
  head_ne : c.succ < Fin.last n → t.form c.succ c.castSucc ≠ 0 → t.heads c.succ ≠ 0
  before : ∀ i j, j < c.castSucc → t.form i j = s.form i j
  heads_before : ∀ i, i < c.succ → t.heads i = s.heads i

theorem vector_of_lt (s : Hessenberg ℝ (n + 1)) {c : Fin n} {i : Fin (n + 1)} (h : i < c.succ) :
    s.vector c i = 0 := if_neg fun h' ↦ (not_le.2 h) h'.2.2

theorem vector_of_skipped {s : Hessenberg ℝ (n + 1)} {c : Fin n}
    (h : c.succ < Fin.last n → s.form c.succ c.castSucc = 0) : s.vector c = 0 :=
  funext fun _ ↦ if_neg fun h' ↦ h'.2.1 (h h'.1)

theorem vector_congr {s t : Hessenberg ℝ (n + 1)} {c : Fin n}
    (hform : ∀ i, t.form i c.castSucc = s.form i c.castSucc)
    (hheads : t.heads c.succ = s.heads c.succ) : t.vector c = s.vector c := by
  funext i
  rw [vector, vector, hform, hform]
  refine if_congr Iff.rfl ?_ rfl
  split
  case isTrue hi => rw [hi, hheads]
  case isFalse => rfl

theorem columnReduced_of_clear (s : Hessenberg ℝ (n + 1)) {c : Fin n}
    (hskip : c.succ < Fin.last n → s.form c.succ c.castSucc = 0)
    (hclear : ∀ i, c.succ < i → s.form i c.castSucc = 0) : ColumnReduced c s s where
  form_eq := by
    rw [vector_of_skipped hskip, reflection_zero, one_mul, mul_one]
    ext i j
    by_cases h : Reached (c + 1) i j
    · have h' : Reached c i j := h.imp_right (Nat.le_succ _).trans
      rw [Grid.readOn_of h, Grid.readOn_of h']
    · rw [Grid.readOn_of_not h]
      by_cases h' : Reached c i j
      · obtain rfl : j = c.castSucc := Fin.ext (by rw [Fin.val_castSucc]; omega)
        rw [Grid.readOn_of h', hclear i (by rw [Fin.lt_def, Fin.val_succ]; simp at h; omega)]
      · rw [Grid.readOn_of_not h']
  length := by rw [vector_of_skipped hskip, dotProduct_zero, Pi.zero_apply, mul_zero, mul_zero]
  head_ne hc hne := absurd (hskip hc) hne
  before _ _ _ := rfl
  heads_before _ _ := rfl

/-- What is known of a state once the columns before `t` are reduced: `F c` is the matrix before
column `c` is. -/
structure Reduced (F : ℕ → Matrix (Fin (n + 1)) (Fin (n + 1)) ℝ) (t : ℕ)
    (s : Hessenberg ℝ (n + 1)) : Prop where
  form_eq : s.form.readOn (Reached t) = F t
  step : ∀ c : Fin n, c.val < t →
    F (c + 1) = reflection (s.vector c) * F c * reflection (s.vector c)
  length : ∀ c : Fin n, c.val < t →
    s.vector c ⬝ᵥ s.vector c = -2 * (s.form c.succ c.castSucc * s.vector c c.succ)
  head_ne : ∀ c : Fin n, c.val < t → c.succ < Fin.last n → s.form c.succ c.castSucc ≠ 0 →
    s.heads c.succ ≠ 0

theorem Reduced.next {F : ℕ → Matrix (Fin (n + 1)) (Fin (n + 1)) ℝ} {c : Fin n}
    {s t : Hessenberg ℝ (n + 1)} (h : Reduced F c s) (hst : ColumnReduced c s t) :
    Reduced (fun k ↦ if k ≤ c then F k else t.form.readOn (Reached (c + 1))) (c + 1) t := by
  have hkept : ∀ d : Fin n, d.val < c.val → t.vector d = s.vector d := fun d hd ↦
    vector_congr (fun i ↦ hst.before i _ hd) (hst.heads_before _ (Nat.succ_lt_succ hd))
  have hsub : ∀ d : Fin n, d.val < c.val →
      t.form d.succ d.castSucc = s.form d.succ d.castSucc := fun d hd ↦ hst.before _ _ hd
  have hcases : ∀ d : Fin n, d.val < c.val + 1 → d = c ∨ d.val < c.val := fun d hd ↦
    (Nat.lt_succ_iff_lt_or_eq.1 hd).symm.imp_left Fin.ext
  refine ⟨?_, fun d hd ↦ ?_, fun d hd ↦ ?_, fun d hd ↦ ?_⟩
  · rw [if_neg (Nat.not_succ_le_self _)]
  · obtain rfl | hd := hcases d hd
    · rw [if_neg (Nat.not_succ_le_self _), if_pos le_rfl, hst.form_eq, h.form_eq]
    · rw [if_pos (Nat.succ_le_of_lt hd), if_pos hd.le, h.step d hd, hkept d hd]
  · obtain rfl | hd := hcases d hd
    · exact hst.length
    · rw [hkept d hd, hsub d hd, h.length d hd]
  · obtain rfl | hd := hcases d hd
    · exact hst.head_ne
    · rw [hst.heads_before _ (Nat.succ_lt_succ hd), hsub d hd]
      exact h.head_ne d hd

theorem Reduced.hessenberg_eq {F : ℕ → Matrix (Fin (n + 1)) (Fin (n + 1)) ℝ}
    {s : Hessenberg ℝ (n + 1)} (h : Reduced F n s) : F n = s.form.hessenberg := by
  rw [← h.form_eq]
  ext i j
  refine if_congr (or_iff_left_of_imp fun hj ↦ ?_) rfl rfl
  have hi := i.isLt
  omega

/-- Columns that are clear from the head on are not changed by the reflection. -/
theorem reflection_tail_mul_of_clear {M : Matrix (Fin (n + 1)) (Fin (n + 1)) ℝ} {m j : Fin (n + 1)}
    {u : Tuple ℝ (n + 1)}
    (hM : ∀ i, m ≤ i → M i j = 0) (i : Fin (n + 1)) :
    (reflection (tail m u) * M) i j = M i j := by
  have hsum : ∑ k, tail m u k * M k j = 0 := Finset.sum_eq_zero fun k _ ↦ by
    by_cases hk : m ≤ k
    · rw [hM k hk, mul_zero]
    · rw [tail, if_neg hk, zero_mul]
  rw [reflection_mul_apply, hsum, mul_zero, mul_zero, sub_zero]

variable [DivisionByZero]

section Reflect

variable {m : Fin n} {u : Tuple ℝ n} {half : ℝ} {h : Grid ℝ n n} {i j : Fin n}

theorem reflect_of_lt (hj : j < m) :
    reflectColumns m u half (reflectRows m u half h) i j = h i j := by
  rw [reflectColumns, Grid.ofFn_apply, if_neg (not_le.2 hj), reflectRows, Grid.ofFn_apply,
    if_neg fun h ↦ (not_le.2 hj) h.2]

theorem reflect_of_le (hhalf : half ≠ 0) (hu : tail m u ⬝ᵥ tail m u = 2 * half)
    {M : Matrix (Fin n) (Fin n) ℝ} (hM : ∀ i j, m ≤ j → M i j = h i j) (hj : m ≤ j) :
    (reflection (tail m u) * M * reflection (tail m u)) i j =
      reflectColumns m u half (reflectRows m u half h) i j := by
  have hc := reflection_coefficient hu
  have hrows : ∀ k, m ≤ k → (reflection (tail m u) * M) i k = reflectRows m u half h i k := by
    intro k hk
    rw [reflection_mul_apply, reflectRows_apply _ _ hhalf _ hk, hc, Finset.mul_sum]
    simp only [hM _ k hk]
    rw [mul_comm]
    simp only [mul_assoc]
  have hsum : ∑ k, (reflection (tail m u) * M) i k * tail m u k =
      ∑ k, tail m u k * reflectRows m u half h i k := Finset.sum_congr rfl fun k _ ↦ by
    by_cases hk : m ≤ k
    · rw [hrows k hk, mul_comm]
    · rw [tail, if_neg hk, mul_zero, zero_mul]
  rw [mul_reflection_apply, reflectColumns_apply _ _ hhalf, hrows j hj, hsum, hc]
  ring

end Reflect

namespace ColumnReflection

variable {c : Fin n} {s t : Hessenberg ℝ (n + 1)} {scale half g : ℝ} {y : Fin (n + 1) → ℝ}
  {u : Tuple ℝ (n + 1)}

theorem tail_head (h : ColumnReflection c s t scale y u half g) :
    u c.succ = y c.succ - g := by
  have hu := congrFun h.tail_eq c.succ
  rwa [tail, if_pos le_rfl, Pi.sub_apply, Pi.single_eq_same] at hu

theorem half_eq_head (h : ColumnReflection c s t scale y u half g) : half = -(g * u c.succ) := by
  rw [h.half_eq, ← h.length, h.tail_head]
  ring

theorem head_ne (h : ColumnReflection c s t scale y u half g) : g ≠ 0 ∧ u c.succ ≠ 0 := by
  have hne : g * u c.succ ≠ 0 := neg_ne_zero.1 (h.half_eq_head ▸ h.half_pos.ne')
  exact ⟨left_ne_zero_of_mul hne, right_ne_zero_of_mul hne⟩

theorem scale_mul (h : ColumnReflection c s t scale y u half g) {i : Fin (n + 1)}
    (hi : c.succ ≤ i) :
    scale * y i = s.form i c.castSucc := by
  rw [h.scaled, scaledPart, if_pos hi]
  exact mul_div_cancel₀ _ h.scale_ne

theorem form_of_lt (h : ColumnReflection c s t scale y u half g) {i j : Fin (n + 1)}
    (hj : j < c.succ) (hij : ¬ (i = c.succ ∧ j = c.castSucc)) : t.form i j = s.form i j := by
  rw [h.result, Grid.set_apply, if_neg hij, reflect_of_lt hj]

theorem form_head (h : ColumnReflection c s t scale y u half g) :
    t.form c.succ c.castSucc = scale * g := by
  rw [h.result, Grid.set_apply, if_pos ⟨rfl, rfl⟩]

theorem heads_head (h : ColumnReflection c s t scale y u half g) :
    t.heads c.succ = u c.succ * scale := by
  rw [h.result, Tuple.set_apply, if_pos rfl]

theorem vector_eq (h : ColumnReflection c s t scale y u half g) (hc : c.succ < Fin.last n) :
    t.vector c = scale • tail c.succ u := by
  funext i
  rw [Pi.smul_apply, smul_eq_mul]
  obtain hi | rfl | hi := lt_trichotomy i c.succ
  · rw [vector_of_lt t hi, tail, if_neg (not_le.2 hi), mul_zero]
  · have hsub : t.form c.succ c.castSucc ≠ 0 := by
      rw [h.form_head]
      exact mul_ne_zero h.scale_ne h.head_ne.1
    rw [vector, if_pos ⟨hc, hsub, le_rfl⟩, if_pos rfl, h.heads_head, tail, if_pos le_rfl, mul_comm]
  · have hsub : t.form c.succ c.castSucc ≠ 0 := by
      rw [h.form_head]
      exact mul_ne_zero h.scale_ne h.head_ne.1
    rw [vector, if_pos ⟨hc, hsub, hi.le⟩, if_neg hi.ne',
      h.form_of_lt Fin.castSucc_lt_succ fun h' ↦ hi.ne' h'.1, h.tail_eq, Pi.sub_apply,
      Pi.single_eq_of_ne hi.ne', sub_zero, h.scale_mul hi.le]

theorem tail_dotProduct (h : ColumnReflection c s t scale y u half g) :
    tail c.succ u ⬝ᵥ y = half := by
  rw [h.tail_eq, dotProduct_comm, householder_dotProduct, h.half_eq]

/-- The reflection takes the column to a multiple of its head. -/
theorem reflection_mul_column (h : ColumnReflection c s t scale y u half g)
    {M : Matrix (Fin (n + 1)) (Fin (n + 1)) ℝ}
    (hM : ∀ i, M i c.castSucc = s.form i c.castSucc) (i : Fin (n + 1)) :
    (reflection (tail c.succ u) * M) i c.castSucc =
      s.form i c.castSucc - scale * tail c.succ u i := by
  have hsum : ∑ k, tail c.succ u k * M k c.castSucc = scale * (tail c.succ u ⬝ᵥ y) := by
    rw [dotProduct, Finset.mul_sum]
    refine Finset.sum_congr rfl fun k _ ↦ ?_
    by_cases hk : c.succ ≤ k
    · rw [hM, ← h.scale_mul hk]
      ring
    · rw [tail, if_neg hk, zero_mul, zero_mul, mul_zero]
  rw [reflection_mul_apply, hsum, hM, h.tail_dotProduct, reflection_coefficient h.tail_length,
    mul_left_comm half⁻¹, inv_mul_cancel₀ h.half_pos.ne', mul_one, mul_comm]

theorem form_eq (h : ColumnReflection c s t scale y u half g) :
    t.form.readOn (Reached (c + 1)) =
      reflection (tail c.succ u) * s.form.readOn (Reached c) * reflection (tail c.succ u) := by
  ext i j
  obtain hj | hj := le_or_gt c.succ j
  · have hc : c.val + 1 ≤ j.val := hj
    rw [reflect_of_le h.half_pos.ne' h.tail_length
      (fun i j hj ↦ Grid.readOn_of (Or.inr ((Nat.le_succ _).trans (Fin.le_def.1 hj)))) hj,
      Grid.readOn_of (Or.inr hc), h.result, Grid.set_apply,
      if_neg fun h' ↦ (h'.2 ▸ hj).not_gt Fin.castSucc_lt_succ]
  · have hcolumn : tail c.succ u j = 0 := if_neg (not_le.2 hj)
    rw [mul_reflection_apply, hcolumn, mul_zero, sub_zero]
    obtain hjc | hjc := lt_or_eq_of_le (Nat.lt_succ_iff.1 hj : j.val ≤ c.val)
    · have hclear : ∀ i, c.succ ≤ i → s.form.readOn (Reached c) i j = 0 := fun i hi ↦
        Grid.readOn_of_not fun h' ↦ by
          have hi : c.val + 1 ≤ i.val := hi
          omega
      rw [reflection_tail_mul_of_clear hclear]
      exact if_congr (by omega) (h.form_of_lt hj fun h' ↦ hjc.ne (congrArg Fin.val h'.2)) rfl
    · obtain rfl : j = c.castSucc := Fin.ext hjc
      rw [h.reflection_mul_column fun i ↦ Grid.readOn_of (Or.inr le_rfl)]
      obtain hi | rfl | hi := lt_trichotomy i c.succ
      · rw [Grid.readOn_of (Or.inl (Fin.lt_def.1 hi).le), tail, if_neg (not_le.2 hi), mul_zero,
          sub_zero, h.form_of_lt hj fun h' ↦ hi.ne h'.1]
      · rw [Grid.readOn_of (Or.inl le_rfl), h.form_head, tail, if_pos le_rfl, h.tail_head,
          ← h.scale_mul le_rfl]
        ring
      · have hi' : c.val + 1 < i.val := hi
        rw [Grid.readOn_of_not (not_or.2 ⟨not_le.2 hi', Nat.not_succ_le_self _⟩), h.tail_eq,
          Pi.sub_apply, Pi.single_eq_of_ne hi.ne', sub_zero, h.scale_mul hi.le, sub_self]

theorem columnReduced (h : ColumnReflection c s t scale y u half g) (hc : c.succ < Fin.last n) :
    ColumnReduced c s t where
  form_eq := by rw [h.vector_eq hc, reflection_smul h.scale_ne, h.form_eq]
  length := by
    rw [h.vector_eq hc, smul_dotProduct, dotProduct_smul, h.tail_length, h.half_eq_head, h.form_head,
      Pi.smul_apply, tail, if_pos le_rfl]
    simp only [smul_eq_mul]
    ring
  head_ne _ _ := by
    rw [h.heads_head]
    exact mul_ne_zero h.head_ne.2 h.scale_ne
  before i j hj := h.form_of_lt (hj.trans Fin.castSucc_lt_succ) fun h' ↦ hj.ne h'.2
  heads_before i hi := by rw [h.result, Tuple.set_apply, if_neg hi.ne, h.before_eq i hi]

end ColumnReflection

theorem columnReduced_reduceColumn (s : Hessenberg ℝ (n + 1)) {c : Fin n}
    (hc : c.succ < Fin.last n) :
    ColumnReduced c s (s.reduceColumn c) := by
  by_cases hne : s.columnScale c = 0
  · have hclear : ∀ i, c.succ ≤ i → s.form i c.castSucc = 0 := fun i hi ↦ by
      have hterm := (Finset.sum_eq_zero_iff_of_nonneg fun k _ ↦ by
        split
        · exact abs_nonneg _
        · exact le_rfl).1 hne i (Finset.mem_univ i)
      rwa [if_pos hi, abs_eq_zero] at hterm
    rw [reduceColumn_eq_self hne]
    exact columnReduced_of_clear s (fun _ ↦ hclear _ le_rfl) fun i hi ↦ hclear i hi.le
  · exact (columnReflection_reduceColumn hne).columnReduced hc

theorem exists_reduced (a : Grid ℝ (n + 1) (n + 1)) :
    ∃ F, F 0 = a.toMatrix ∧ Reduced F n (reduce a) := by
  refine foldl_invariant (fun t s ↦ ∃ F, F 0 = a.toMatrix ∧ Reduced F t s)
    ⟨fun _ ↦ a.toMatrix, rfl, ?_, nofun, nofun, nofun⟩ fun c s ⟨F, hF, h⟩ ↦ ?_
  · ext i j
    exact Grid.readOn_of (Or.inr (Nat.zero_le _))
  · refine ⟨_, by rw [if_pos (Nat.zero_le _), hF], h.next (t := ite _ _ _) ?_⟩
    split
    case isTrue hc => exact columnReduced_reduceColumn s hc
    case isFalse hc =>
      refine columnReduced_of_clear s (fun h' ↦ absurd h' hc) fun i hi ↦ ?_
      exact absurd (hi.trans_le (Fin.le_last i)) hc

end DenseDecomp.Hessenberg
