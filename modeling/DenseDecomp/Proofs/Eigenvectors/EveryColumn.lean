import DenseDecomp.Proofs.Eigenvectors.ComplexColumns
import DenseDecomp.Proofs.Eigenvectors.RealColumn

namespace DenseDecomp.RealSchur.BackSubstitution

open Matrix Scalar

section Frame

variable {α : Type} [Scalar α] {n : ℕ} {B : Blocks α n} {a b i k l : Fin n} {s : State α n}
  {g : Grid α n n}

theorem rescale_of_ne (hl : l ≠ a ∧ l ≠ b) (t : α) : rescale i a b t g k l = g k l := by
  rw [rescale]
  split
  case isTrue => rw [Grid.ofFn_apply, if_neg fun hkl ↦ hkl.1.elim hl.1 hl.2]
  case isFalse => rfl

omit [Scalar α] in
theorem set_of_ne (hl : l ≠ b) (c : α) : g.set i b c k l = g k l := by
  rw [Grid.set_apply, if_neg fun hkl ↦ hl hkl.2]

theorem realRow_of_ne (hi : i < b) (hl : l ≠ b) : (realRow B b i hi s).form k l = s.form k l := by
  rw [realRow]
  split
  case isTrue => rfl
  case isFalse =>
    dsimp only
    rw [rescale_of_ne ⟨hl, hl⟩]
    split
    case isTrue => exact set_of_ne hl _
    case isFalse => exact (set_of_ne hl _).trans (set_of_ne hl _)

theorem complexRow_of_ne (hi : i < a) (hl : l ≠ a ∧ l ≠ b) :
    (complexRow B a b i hi s).form k l = s.form k l := by
  rw [complexRow]
  split
  case isTrue => rfl
  case isFalse =>
    dsimp only
    rw [rescale_of_ne hl]
    split
    case isTrue => exact setPair_of_ne (.inr hl)
    case isFalse => exact (setPair_of_ne (.inr hl)).trans (setPair_of_ne (.inr hl))

theorem realColumn_of_ne (hl : l ≠ b) : realColumn B b g k l = g k l :=
  foldr_invariant_below (fun _ (s : State α n) ↦ s.form k l = g k l) (set_of_ne hl 1)
    fun _ hi _ hs ↦ (realRow_of_ne hi hl).trans hs

theorem complexColumns_of_ne (hl : l ≠ a ∧ l ≠ b) : complexColumns B a b g k l = g k l :=
  foldr_invariant_below (fun _ (s : State α n) ↦ s.form k l = g k l)
    ((setPair_of_ne (.inr hl)).trans (setPair_of_ne (.inr hl)))
    fun _ hi _ hs ↦ (complexRow_of_ne hi hl).trans hs

end Frame

variable [DivisionByZero] {n : ℕ} {B : Blocks ℝ n} {h g f : Grid ℝ n n} {a b c : Fin n}

/-- The columns from `t` on are solved. The columns further left are still those of the form, apart
from the upper column of a pair that column `t` has filled with it. -/
structure Solved (B : Blocks ℝ n) (h : Grid ℝ n n) (t : ℕ) (g : Grid ℝ n n) : Prop where
  left : ∀ k l : Fin n, l.val < t → ¬ (l.val + 1 = t ∧ 0 < B.im l) → g k l = h k l
  real : ∀ b : Fin n, t ≤ b.val → B.im b = 0 → RealSolution B h b g
  pair : ∀ a b : Fin n, t ≤ b.val → a.val + 1 = b.val → 0 < B.im a →
    (∀ i, i < a → ¬ (B.re i = B.re a ∧ B.im i = B.im a)) → PairSolution B h a b g

namespace Solved

theorem agree (hg : Solved B h (b + 1) g) (hb : ¬ 0 < B.im b) (k l : Fin n) (hl : l ≤ b) :
    g k l = h k l := by
  refine hg.left k l (Nat.lt_succ_of_le hl) ?_
  rintro ⟨hlb, him⟩
  obtain rfl : l = b := Fin.ext (by omega)
  exact hb him

/-- One column more, when no other is touched but the upper column of its pair. -/
theorem step (hg : Solved B h (b + 1) g)
    (hframe : ∀ k l, (l = b → 0 < B.im b) → ¬ (l.val + 1 = b.val ∧ 0 < B.im l) → f k l = g k l)
    (hreal : B.im b = 0 → RealSolution B h b f)
    (hpair : ∀ a : Fin n, a.val + 1 = b.val → 0 < B.im a →
      (∀ i, i < a → ¬ (B.re i = B.re a ∧ B.im i = B.im a)) → PairSolution B h a b f) :
    Solved B h b f where
  left k l hl hne := by
    have hlb : l ≠ b := Fin.ne_of_lt hl
    rw [hframe k l (absurd · hlb) hne]
    exact hg.left k l (Nat.lt_succ_of_lt hl) fun hupper ↦ hl.ne (Nat.succ.inj hupper.1)
  real c hc him := by
    obtain rfl | hcb := eq_or_ne c b
    · exact hreal him
    · have hlt : b.val < c := lt_of_le_of_ne hc fun heq ↦ hcb (Fin.ext heq.symm)
      exact (hg.real c hlt him).congr fun k ↦ hframe k c (absurd · hcb) (by omega)
  -- Column `b` can be the upper column of a pair solved before, but then it is not touched.
  pair a c hc hac ha hdistinct := by
    obtain rfl | hcb := eq_or_ne c b
    · exact hpair a hac ha hdistinct
    · have hlt : b.val < c := lt_of_le_of_ne hc fun heq ↦ hcb (Fin.ext heq.symm)
      exact (hg.pair a c hlt hac ha hdistinct).congr
        (fun k ↦ hframe k a (fun hab ↦ hab ▸ ha) (by omega))
        (fun k ↦ hframe k c (absurd · hcb) (by omega))

theorem exists_column (hB : B.Describes h) (hnorm : 0 < B.norm) (hg : Solved B h (b + 1) g) :
    ∃ f, column B b g = .ok f ∧ Solved B h b f := by
  obtain hb | hb | hb := lt_trichotomy (B.im b) 0
  · obtain ⟨a, hab, ha⟩ := hB.lower b hb
    have hcolumn : column B b g = .ok (complexColumns B a b g) := by
      have hupper : (⟨b - 1, by omega⟩ : Fin n) = a := Fin.ext (show b.val - 1 = a by omega)
      rw [column, if_neg (by rw [beq_iff_eq]; exact hb.ne), if_pos hb, dif_neg (by omega), hupper]
    refine ⟨_, hcolumn, hg.step (fun k l hlb hla ↦ ?_) (absurd · hb.ne) fun i hi _ hdistinct ↦ ?_⟩
    · refine complexColumns_of_ne ⟨fun heq ↦ ?_, fun heq ↦ hb.not_gt (hlb heq)⟩
      exact hla (heq ▸ ⟨hab, ha⟩)
    · obtain rfl : i = a := Fin.ext (by omega)
      exact complexColumns_solves hB ha hab (hg.agree hb.not_gt) hdistinct
  · have hcolumn : column B b g = .ok (realColumn B b g) := if_pos (beq_iff_eq.2 hb)
    refine ⟨_, hcolumn, hg.step (fun k l hlb _ ↦ ?_) (fun _ ↦ ?_) fun a hab ha ↦ ?_⟩
    · exact realColumn_of_ne fun heq ↦ (hlb heq).ne' hb
    · exact realColumn_solves hB hnorm hb (hg.agree hb.not_gt)
    · exact absurd (hB.lower_neg ha hab) hb.not_lt
  · have hcolumn : column B b g = .ok g := by
      rw [column, if_neg (by rw [beq_iff_eq]; exact hb.ne'), if_neg hb.not_gt]
    refine ⟨g, hcolumn, hg.step (fun _ _ _ _ ↦ rfl) (absurd · hb.ne') fun a hab ha ↦ ?_⟩
    exact absurd (hB.lower_neg ha hab) hb.not_gt

end Solved

theorem exists_eigenvectors_solved (hB : B.Describes h) (hnorm : 0 < B.norm) :
    ∃ g, eigenvectors B h = .ok g ∧ Solved B h 0 g :=
  Except.exists_foldlM_reverse (Solved B h)
    { left := fun _ _ _ _ ↦ rfl
      real := fun b hb ↦ absurd hb (not_le.2 b.isLt)
      pair := fun _ b hb ↦ absurd hb (not_le.2 b.isLt) }
    fun _ _ hg ↦ hg.exists_column hB hnorm

/-- The columns of a quasi-triangular matrix become its eigenvectors. Where a real eigenvalue stands
on the diagonal already, they are those of the matrix with another entry there. -/
theorem eigenvectors_quasiTriangular (hB : B.Describes h) (hnorm : 0 < B.norm) :
    ∃ g, eigenvectors B h = .ok g ∧
      (∀ b, B.im b = 0 → (upperTriangle g).col b ≠ 0 ∧
        (∃ E : Fin n → ℝ, (∀ i, E i = 0 ∨ i < b ∧ h i i = B.re b ∧ E i = epsilon * B.norm) ∧
          (quasiTriangular B h + diagonal E) *ᵥ (upperTriangle g).col b =
            B.re b • (upperTriangle g).col b) ∧
        ((∀ i < b, h i i ≠ B.re b) →
          quasiTriangular B h *ᵥ (upperTriangle g).col b = B.re b • (upperTriangle g).col b)) ∧
      ∀ a b : Fin n, a.val + 1 = b.val → 0 < B.im a →
        (∀ i < a, ¬ (B.re i = B.re a ∧ B.im i = B.im a)) →
          pairVector g a b ≠ 0 ∧ (quasiTriangular B h).map (↑) *ᵥ pairVector g a b =
            (⟨B.re a, B.im a⟩ : ℂ) • pairVector g a b := by
  obtain ⟨g, hg, hsolved⟩ := exists_eigenvectors_solved hB hnorm
  refine ⟨g, hg, fun b hb ↦ ?_, fun a b hab ha hdistinct ↦ ?_⟩
  · obtain ⟨hne, heq⟩ := (hsolved.real b b.val.zero_le hb).mulVec_eq
    refine ⟨hne, ⟨perturbation B h b, fun i ↦ ?_, heq⟩, fun hdistinct ↦ ?_⟩
    · rw [perturbation]
      split
      case isTrue hi => exact .inr ⟨hi.1, hi.2.2, rfl⟩
      case isFalse => exact .inl rfl
    · have hzero : perturbation B h b = 0 := funext fun i ↦
        if_neg fun hi ↦ hdistinct i hi.1 hi.2.2
      rwa [hzero, diagonal_zero', add_zero] at heq
  · obtain ⟨him, hre, -⟩ := hB.pair ha hab
    have heq := (hsolved.pair a b b.val.zero_le hab ha hdistinct).mulVec_eq
    rwa [him, hre, neg_neg] at heq

omit [DivisionByZero] in
/-- A pair between two rows with the same real eigenvalue. -/
theorem eigenvectors_quasiTriangular_four :
    letI : DivisionByZero := ⟨fun _ ↦ 0⟩
    let h : Grid ℝ 4 4 := .ofMatrix !![2, 1, 1, 1; 0, 0, 1, 1; 0, -1, 0, 1; 0, 0, 0, 2]
    let B : Blocks ℝ 4 := ⟨.ofFn ![2, 0, 0, 2], .ofFn ![0, 1, -1, 0], 1⟩
    B.Describes h ∧ 0 < B.norm ∧ ∃ g, eigenvectors B h = .ok g ∧
      quasiTriangular B h *ᵥ (upperTriangle g).col 0 = (2 : ℝ) • (upperTriangle g).col 0 ∧
      (upperTriangle g).col 3 ≠ 0 ∧ pairVector g 1 2 ≠ 0 ∧
      (quasiTriangular B h).map (↑) *ᵥ pairVector g 1 2 = Complex.I • pairVector g 1 2 := by
  let : DivisionByZero := ⟨fun _ ↦ 0⟩
  intro h B
  have hh (i j : Fin 4) : h i j = !![2, 1, 1, 1; 0, 0, 1, 1; 0, -1, 0, 1; 0, 0, 0, 2] i j :=
    Grid.ofMatrix_apply _ i j
  have hre (i : Fin 4) : B.re i = ![2, 0, 0, 2] i := Tuple.ofFn_apply _ i
  have him (i : Fin 4) : B.im i = ![0, 1, -1, 0] i := Tuple.ofFn_apply _ i
  have hB : B.Describes h := by
    constructor
    · intro i hi
      rw [hh, hre]
      rw [him] at hi
      fin_cases i <;> simp_all
    · intro i hi
      rw [him] at hi
      obtain rfl : i = 1 := by
        fin_cases i
        · exact absurd hi (lt_irrefl (0 : ℝ))
        · rfl
        · exact absurd hi (neg_one_lt_zero (R := ℝ)).not_gt
        · exact absurd hi (lt_irrefl (0 : ℝ))
      refine ⟨2, rfl, ?_, ?_, fun x ↦ ?_⟩
      · rw [him, him]
        rfl
      · rw [hre, hre]
        rfl
      · rw [hh, hh, hh, hh, hre, him]
        change (x - 0) * (x - 0) - 1 * -1 = (x - 0) ^ 2 + 1 ^ 2
        ring
    · intro j hj
      rw [him] at hj
      obtain rfl : j = 2 := by
        fin_cases j
        · exact absurd hj (lt_irrefl (0 : ℝ))
        · exact absurd hj (one_pos (α := ℝ)).not_gt
        · rfl
        · exact absurd hj (lt_irrefl (0 : ℝ))
      refine ⟨1, rfl, ?_⟩
      rw [him]
      exact one_pos
  have hnorm : 0 < B.norm := one_pos
  obtain ⟨g, hg, hreal, hpair⟩ := eigenvectors_quasiTriangular hB hnorm
  obtain ⟨-, -, hfirst⟩ := hreal 0 ((him 0).trans rfl)
  obtain ⟨hlast, -, -⟩ := hreal 3 ((him 3).trans rfl)
  obtain ⟨hne, heq⟩ := hpair 1 2 rfl ((him 1).symm ▸ one_pos) fun i hi hsame ↦ by
    obtain rfl : i = 0 := Fin.ext (by omega)
    have hzero : (0 : ℝ) = 1 := by simpa [him] using hsame.2
    exact zero_ne_one hzero
  have hvalue : (⟨B.re 1, B.im 1⟩ : ℂ) = Complex.I := Complex.ext (hre 1) (him 1)
  have htwo : B.re 0 = 2 := hre 0
  rw [hvalue] at heq
  rw [htwo] at hfirst
  exact ⟨hB, hnorm, g, hg, hfirst fun i hi ↦ absurd hi (Fin.not_lt_zero i), hlast, hne, heq⟩

end DenseDecomp.RealSchur.BackSubstitution
