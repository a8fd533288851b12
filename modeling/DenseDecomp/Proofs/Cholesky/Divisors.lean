import DenseDecomp.Proofs.Binary64.Overflow
import DenseDecomp.Proofs.Cholesky.LowerTriangle
import DenseDecomp.Proofs.Cholesky.Solve

namespace DenseDecomp

open Scalar DenseMatrix

variable {α : Type} {n m : ℕ}

/-- The same arithmetic with another quotient. -/
@[reducible] def Scalar.dividing [inst : Scalar α] (q : α → α → α) : Scalar α :=
  { inst with div := q }

namespace CholeskyFactor

section Quotient

variable [inst : Scalar α] {q : α → α → α} {l : Grid α n n}

theorem forwardRow_dividing (hq : ∀ x k, q x (l k k) = x / l k k) (x : Grid α n m) (k : Fin n) :
    @forwardRow α (.dividing q) n m l x k = forwardRow l x k := by
  apply congrArg Grid.ofFn
  funext i j
  exact congrArg (fun y ↦ if i = k then y else x i j) (hq _ k)

theorem backwardRow_dividing (hq : ∀ x k, q x (l k k) = x / l k k) (k : Fin n) (x : Grid α n m) :
    @backwardRow α (.dividing q) n m l k x = backwardRow l k x := by
  apply congrArg Grid.ofFn
  funext i j
  exact congrArg (fun y ↦ if i = k then y else x i j) (hq _ k)

theorem substitute_dividing (hq : ∀ x k, q x (l k k) = x / l k k) (b : Grid α n m) :
    @substitute α (.dividing q) n m l b = substitute l b := by
  have hforward : @forwardRow α (.dividing q) n m l = forwardRow l := by
    funext x k
    exact forwardRow_dividing hq x k
  have hbackward : @backwardRow α (.dividing q) n m l = backwardRow l := by
    funext k x
    exact backwardRow_dividing hq k x
  have hrows : @substitute α (.dividing q) n m l b = Fin.foldr n
      (@backwardRow α (.dividing q) n m l) (Fin.foldl n (@forwardRow α (.dividing q) n m l) b) := rfl
  rw [hrows, hforward, hbackward]
  rfl

end Quotient

section Flag

variable {a l : Grid Float n n} {j k : Fin n}

theorem isFinite_of_zero_lt_pivot (h : 0 < pivot a l j) (hk : k < j) : (l j k).isFinite = true := by
  obtain ⟨hsign, hterms⟩ := Binary64.sumWhere_mul_self (· < j) fun k ↦ l j k
  exact hterms (Binary64.isFinite_of_zero_lt_sub hsign h) k hk

theorem isFinite_pivot (ha : (a j j).isFinite = true) (h : 0 < pivot a l j) :
    (pivot a l j).isFinite = true :=
  Binary64.isFinite_sub ha (Binary64.sumWhere_mul_self (· < j) fun k ↦ l j k).1 h

/-- With the flag set, nothing on or below the diagonal is lost, and an infinity on the diagonal
comes from the matrix. -/
theorem factor_of_isPositiveDefinite (h : isPositiveDefinite a = true) (j k : Fin n) :
    (factor a j k).isNaN = false ∧ (k < j → (factor a j k).isFinite = true) ∧
      0 < factor a j j ∧ ((a j j).isFinite = true → (factor a j k).isFinite = true) := by
  have hpivot := ((isPositiveDefinite_eq_true_iff a).1 h).2 j
  have hrow := rowFilled_factor a j
  have hdiagonal : 0 < factor a j j := by
    rw [hrow.diagonal]
    exact Binary64.zero_lt_sqrt_maxNum_iff.2 hpivot
  obtain hkj | rfl | hjk := lt_trichotomy k j
  · have hfinite := isFinite_of_zero_lt_pivot hpivot hkj
    exact ⟨(Binary64.of_isFinite hfinite).1, fun _ ↦ hfinite, hdiagonal, fun _ ↦ hfinite⟩
  · refine ⟨(Binary64.not_isNaN_of_lt hdiagonal).2, fun hlt ↦ absurd hlt (lt_irrefl k), hdiagonal,
      fun ha ↦ ?_⟩
    obtain ⟨-, hclamp⟩ | ⟨hneg, -⟩ := Binary64.maxNum_zero_cases (pivot a (factor a) k)
    · have hroot : factor a k k = (pivot a (factor a) k).sqrt :=
        hrow.diagonal.trans (congrArg Float.sqrt hclamp)
      rw [hroot]
      exact Binary64.isFinite_sqrt (isFinite_pivot ha hpivot) hpivot
    · exact absurd hpivot hneg
  · have hzero := hrow.above k hjk
    have hfinite : (factor a j k).isFinite = true := by
      rw [hzero]
      decide
    exact ⟨(Binary64.of_isFinite hfinite).1, fun _ ↦ hfinite, hdiagonal, fun _ ↦ hfinite⟩

end Flag

end CholeskyFactor

namespace Cholesky

section Quotient

variable [inst : Scalar α] {q : α → α → α} {l : Grid α n n}

theorem solve_dividing (hq : ∀ x k, q x (l k k) = x / l k k) (isSpd : Bool) (b : DenseMatrix α) :
    @solve α (.dividing q) ⟨.ofGrid l, isSpd⟩ b = solve ⟨.ofGrid l, isSpd⟩ b := by
  have hdividing := @solve_eq n α (.dividing q) l isSpd b
  simp only [CholeskyFactor.substitute_dividing hq] at hdividing
  exact hdividing.trans (solve_eq l isSpd b).symm

theorem solveVector_dividing (hq : ∀ x k, q x (l k k) = x / l k k) (isSpd : Bool) (b : Array α) :
    @solveVector α (.dividing q) ⟨.ofGrid l, isSpd⟩ b = solveVector ⟨.ofGrid l, isSpd⟩ b := by
  have hsolve := solve_dividing hq isSpd
  simp only [solveVector, hsolve]

theorem inverse_dividing (hq : ∀ x k, q x (l k k) = x / l k k) (isSpd : Bool) :
    @inverse α (.dividing q) ⟨.ofGrid l, isSpd⟩ = inverse ⟨.ofGrid l, isSpd⟩ := by
  have hsolve := solve_dividing hq isSpd
  simp only [inverse, hsolve]
  rfl

end Quotient

/-- The flag vouches for the factor: what is lost on the way to it turns the flag off. With the flag
set, no substitution looks at a quotient by anything but a positive number. -/
theorem isSpd_guards_division {a : DenseMatrix Float} (ha : a.Held) (hsq : a.rows = a.cols) :
    ∃ c, (decompose a).outcome = .ok c ∧ c.factor.shape = a.shape ∧ (c.isSpd = true →
      (∀ i j, i < a.rows → j < a.rows → (c.factor.entry i j).isNaN = false) ∧
      (∀ i j, j < i → i < a.rows → (c.factor.entry i j).isFinite = true) ∧
      (∀ i < a.rows, 0 < c.factor.entry i i) ∧
      ((∀ i j, i < a.rows → j < a.rows → (a.entry i j).isFinite = true) →
        ∀ i j, i < a.rows → j < a.rows → (c.factor.entry i j).isFinite = true) ∧
      ∀ q : Float → Float → Float, (∀ x y, 0 < y → q x y = x / y) →
        (∀ b, @solve Float (.dividing q) c b = c.solve b) ∧
        (∀ b, @solveVector Float (.dividing q) c b = c.solveVector b) ∧
        @inverse Float (.dividing q) c = c.inverse) := by
  obtain ⟨n, g, rfl⟩ := ha.exists_ofGrid_square hsq
  refine ⟨_, decompose_ofGrid_eq_ok_iff.2 ⟨⟨ha.rows_pos, ha.fits⟩, rfl⟩, rfl, fun hspd ↦ ?_⟩
  have hfactor := CholeskyFactor.factor_of_isPositiveDefinite hspd
  refine ⟨fun i j (hi : i < n) (hj : j < n) ↦ ?_, fun i j hji (hi : i < n) ↦ ?_,
    fun i (hi : i < n) ↦ ?_, fun hfinite i j (hi : i < n) (hj : j < n) ↦ ?_, fun q hq ↦ ?_⟩
  · rw [entry_ofGrid_of_lt _ hi hj]
    exact (hfactor ⟨i, hi⟩ ⟨j, hj⟩).1
  · have hj := hji.trans hi
    rw [entry_ofGrid_of_lt _ hi hj]
    exact (hfactor ⟨i, hi⟩ ⟨j, hj⟩).2.1 hji
  · rw [entry_ofGrid_of_lt _ hi hi]
    exact (hfactor ⟨i, hi⟩ ⟨i, hi⟩).2.2.1
  · have hdiagonal := hfinite i i hi hi
    rw [entry_ofGrid_of_lt _ hi hi] at hdiagonal
    rw [entry_ofGrid_of_lt _ hi hj]
    exact (hfactor ⟨i, hi⟩ ⟨j, hj⟩).2.2.2 hdiagonal
  · have hl := fun x k ↦ hq x _ (hfactor k k).2.2.1
    exact ⟨solve_dividing hl _, solveVector_dividing hl _, inverse_dividing hl _⟩

/-- An infinite entry on the diagonal, and a division that gives up where the divisor is not
positive. -/
theorem isSpd_guards_division_two :
    let a : DenseMatrix Float := .ofGrid (.ofFn ![![1.0 / 0.0, 2.0], ![2.0, 4.0]])
    let q : Float → Float → Float := fun x y ↦ if 0 < y then x / y else 0.0 / 0.0
    a.Held ∧ ∃ c, (decompose a).outcome = .ok c ∧ c.isSpd = true ∧
      (c.factor.entry 1 0).isFinite = true ∧ 0 < c.factor.entry 1 1 ∧
      @inverse Float (.dividing q) c = c.inverse := by
  intro a q
  have ha : a.Held := held_ofGrid _ (by decide) (by decide) (by decide)
  obtain ⟨c, hc, -, hguards⟩ := isSpd_guards_division ha rfl
  obtain ⟨-, hflag⟩ := decompose_ofGrid_eq_ok_iff.1 hc
  have hspd : c.isSpd = true := by
    rw [← hflag]
    decide +kernel
  obtain ⟨-, hbelow, hdiagonal, -, hquotient⟩ := hguards hspd
  have hq : ∀ x y, 0 < y → q x y = x / y := fun x y hy ↦ if_pos hy
  exact ⟨ha, c, hc, hspd, hbelow 1 0 (by decide) (by decide), hdiagonal 1 (by decide),
    (hquotient q hq).2.2⟩

end Cholesky

end DenseDecomp
