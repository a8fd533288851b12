import Mathlib.Data.List.FinRange
import DenseDecomp.Proofs.Agreement
import DenseDecomp.Proofs.Cholesky.Solve
import DenseDecomp.Proofs.Indexed.Cholesky
import DenseDecomp.Proofs.MatrixEntries
import DenseDecomp.Scalar.Binary64

namespace DenseDecomp

variable {α : Type} {n m p : ℕ}

def Grid.pick (g : Grid α n m) (f : Fin p → Fin m) : Grid α n p := ofFn fun i j ↦ g i (f j)

@[simp] theorem Grid.pick_apply (g : Grid α n m) (f : Fin p → Fin m) (i : Fin n) (j : Fin p) :
    g.pick f i j = g i (f j) := ofFn_apply _ i j

variable [Scalar α]

namespace CholeskyFactor

variable (l : Grid α n n) (x : Grid α n m) (f : Fin p → Fin m)

theorem forwardRow_pick (k : Fin n) : forwardRow l (x.pick f) k = (forwardRow l x k).pick f := by
  ext i j
  simp only [forwardRow, Grid.ofFn_apply, Grid.pick_apply]

theorem backwardRow_pick (k : Fin n) : backwardRow l k (x.pick f) = (backwardRow l k x).pick f := by
  ext i j
  simp only [backwardRow, Grid.ofFn_apply, Grid.pick_apply]

/-- No column of the right-hand side has a part in what is made of the others. -/
theorem substitute_pick : substitute l (x.pick f) = (substitute l x).pick f := by
  have hforward : forward l (x.pick f) = (forward l x).pick f := by
    refine foldl_related (fun _ y (z : Grid α n m) ↦ y = z.pick f) rfl ?_
    intro k y z h
    rw [h, forwardRow_pick]
  refine foldr_related (fun _ y (z : Grid α n m) ↦ y = z.pick f) hforward ?_
  intro k y z h
  rw [h, backwardRow_pick]

end CholeskyFactor

namespace Cholesky

variable {c : Cholesky α} {b : DenseMatrix α} {v : Array α}

theorem solve_of_rows_ne (h : b.rows ≠ c.dimension) :
    c.solve b = refuse (.dimensionMismatch c.dimension c.dimension b.rows b.cols) := if_neg h

theorem solve_of_not_isSpd (h : b.rows = c.dimension) (hspd : c.isSpd = false) :
    c.solve b = refuse .notPositiveDefinite := by
  rw [solve]
  simp only [h, hspd, if_true, Bool.false_eq_true, if_false]

theorem solveVector_of_size_ne (h : v.size ≠ c.dimension) :
    c.solveVector v = refuse (.dimensionMismatch c.dimension c.dimension v.size 1) := if_neg h

/-- A vector is solved as the one column of a matrix. -/
theorem Held.solveVector_eq_solve (hc : c.Held) (h : v.size = c.dimension) :
    c.solveVector v = (c.solve ⟨c.dimension, 1, v⟩).map DenseMatrix.data := by
  have hheld : (⟨c.dimension, 1, v⟩ : DenseMatrix α).Held :=
    DenseMatrix.held_column hc.rows_pos hc.fits_square h
  rw [solveVector]
  simp only [h, if_true, DenseMatrix.ofArray_eq hheld, Outcome.ok_bind]
  cases c.solve ⟨c.dimension, 1, v⟩ with
  | ok x => rfl
  | error e => rfl

theorem Held.solveVector_of_not_isSpd (hc : c.Held) (h : v.size = c.dimension)
    (hspd : c.isSpd = false) : c.solveVector v = refuse .notPositiveDefinite := by
  have hsolve : c.solve ⟨c.dimension, 1, v⟩ = refuse .notPositiveDefinite :=
    solve_of_not_isSpd rfl hspd
  rw [hc.solveVector_eq_solve h, hsolve]
  rfl

/-- A matrix of right-hand sides, and its column `j` by itself: both are refused for the same reason,
the shape first, or both are solved, and the solution of the column is column `j` of the other. -/
inductive AnswersAlike (c : Cholesky α) (rows cols : ℕ) (answer : Outcome α (DenseMatrix α)) (j : ℕ)
    (v : Array α) : Prop
  | mismatch (hrows : rows ≠ c.dimension)
      (hanswer : answer = refuse (.dimensionMismatch c.dimension c.dimension rows cols))
      (hvector : c.solveVector v =
        refuse (.dimensionMismatch c.dimension c.dimension v.size 1))
  | notPositiveDefinite (hrows : rows = c.dimension) (hspd : c.isSpd = false)
      (hanswer : answer = refuse .notPositiveDefinite)
      (hvector : c.solveVector v = refuse .notPositiveDefinite)
  | solved (hrows : rows = c.dimension) (hspd : c.isSpd = true) {x : DenseMatrix α} {y : Array α}
      (hanswer : answer = .ok x) (hvector : c.solveVector v = .ok y)
      (hshape : x.shape = (rows, cols)) (hcolumn : x.column j = .ok y)

theorem exists_solved_ofGrid (l : Grid α n n) (g : Grid α n m) (hl : (DenseMatrix.ofGrid l).Held)
    (hg : (DenseMatrix.ofGrid g).Held) {j : ℕ} (hj : j < m) :
    ∃ y, solveVector ⟨.ofGrid l, true⟩
        (Array.ofFn fun i : Fin n ↦ (DenseMatrix.ofGrid g).entry i j) = .ok y ∧
      (DenseMatrix.ofGrid (CholeskyFactor.substitute l g)).column j = .ok y := by
  have hentry : ∀ z : Grid α n m, (fun i : Fin n ↦ (DenseMatrix.ofGrid z).entry i j) =
      fun i ↦ z i ⟨j, hj⟩ := by
    intro z
    funext i
    exact DenseMatrix.entry_ofGrid z i ⟨j, hj⟩
  have hx : (DenseMatrix.ofGrid (CholeskyFactor.substitute l g)).Held :=
    DenseMatrix.held_ofGrid _ hg.rows_pos hg.cols_pos hg.fits
  have hvector := solveVector_ofFn l (fun i ↦ g i ⟨j, hj⟩) hl.rows_pos hl.fits
  have hpick := CholeskyFactor.substitute_pick l g fun _ : Fin 1 ↦ (⟨j, hj⟩ : Fin m)
  rw [Grid.pick] at hpick
  simp only [hpick, Grid.pick_apply] at hvector
  rw [hentry g]
  refine ⟨_, hvector, ?_⟩
  rw [← hentry (CholeskyFactor.substitute l g)]
  exact hx.column_eq hj

theorem Held.exists_solved (hc : c.Held) (hb : b.Held) (h : b.rows = c.dimension)
    (hspd : c.isSpd = true) : ∃ x, c.solve b = .ok x ∧ x.shape = b.shape ∧ ∀ j < b.cols,
      ∃ y, c.solveVector (Array.ofFn fun i : Fin b.rows ↦ b.entry i j) = .ok y ∧
        x.column j = .ok y := by
  obtain ⟨n, l, hl⟩ := hc.exists_ofGrid_square hc.square
  obtain ⟨factor, spd⟩ := c
  obtain rfl : factor = .ofGrid l := hl
  obtain rfl : spd = true := hspd
  obtain ⟨m, g, rfl⟩ := hb.exists_ofGrid_of_rows h
  exact ⟨_, solve_ofGrid l g, rfl, fun j hj ↦ exists_solved_ofGrid l g hc.toHeld hb hj⟩

theorem Held.answersAlike_solve (hc : c.Held) (hb : b.Held) {j : ℕ} (hj : j < b.cols) :
    AnswersAlike c b.rows b.cols (c.solve b) j (Array.ofFn fun i : Fin b.rows ↦ b.entry i j) := by
  have hsize : (Array.ofFn fun i : Fin b.rows ↦ b.entry i j).size = b.rows := Array.size_ofFn
  by_cases hrows : b.rows = c.dimension
  · cases hspd : c.isSpd with
    | false =>
      exact .notPositiveDefinite hrows hspd (solve_of_not_isSpd hrows hspd)
        (hc.solveVector_of_not_isSpd (hsize.trans hrows) hspd)
    | true =>
      obtain ⟨x, hx, hshape, hcolumns⟩ := hc.exists_solved hb hrows hspd
      obtain ⟨y, hy, hcolumn⟩ := hcolumns j hj
      exact .solved hrows hspd hx hy hshape hcolumn
  · exact .mismatch hrows (solve_of_rows_ne hrows)
      (solveVector_of_size_ne fun h ↦ hrows (hsize.symm.trans h))

def unitVector (n j : ℕ) : Array α := Array.ofFn fun i : Fin n ↦ if i.val = j then 1 else 0

theorem Held.answersAlike_inverse (hc : c.Held) {j : ℕ} (hj : j < c.dimension) :
    AnswersAlike c c.dimension c.dimension c.inverse j (unitVector c.dimension j) := by
  have hone : (DenseMatrix.ofGrid (Grid.ofFn fun i k : Fin c.dimension ↦
      if i = k then (1 : α) else 0)).Held :=
    DenseMatrix.held_ofGrid _ hc.rows_pos hc.rows_pos hc.fits_square
  have hidentity : (DenseMatrix.identity c.dimension : Outcome α (DenseMatrix α)) =
      .ok (.ofGrid (Grid.ofFn fun i k ↦ if i = k then 1 else 0)) :=
    Except.bind_eq_ok.2 ⟨(), DenseMatrix.allocate_eq_ok_iff.2
      ⟨hc.rows_pos, hc.rows_pos, hc.fits_square⟩, rfl⟩
  have hunit : (fun i : Fin c.dimension ↦ (DenseMatrix.ofGrid (Grid.ofFn fun i k : Fin c.dimension ↦
      if i = k then (1 : α) else 0)).entry i j) = fun i ↦ if i.val = j then 1 else 0 := by
    funext i
    rw [DenseMatrix.entry_ofGrid_of_lt _ i.isLt hj, Grid.ofFn_apply]
    exact if_congr Fin.ext_iff rfl rfl
  have hsolve := hc.answersAlike_solve hone hj
  rw [inverse, hidentity, Outcome.ok_bind, unitVector, ← hunit]
  exact hsolve

/-- The right-hand sides of a system are solved independently of each other, to the bit, although
the loops take all of them through one buffer row by row. The inverse consists of the solutions for
the unit vectors. What has the wrong number of rows is refused for that, before anything is known
of the matrix. -/
theorem solve_columns {c : Cholesky Float} (hc : c.Held) :
    (∀ b : DenseMatrix Float, b.Held → Indexed.solve c b = c.solve b ∧ ∀ j < b.cols,
      ∃ v, b.column j = .ok v ∧ v.size = b.rows ∧ AnswersAlike c b.rows b.cols (c.solve b) j v) ∧
    (∀ j < c.dimension,
      AnswersAlike c c.dimension c.dimension c.inverse j (unitVector c.dimension j)) ∧
    ∀ v : Array Float,
      (v.size ≠ c.dimension → c.solveVector v =
        refuse (.dimensionMismatch c.dimension c.dimension v.size 1)) ∧
      (v.size = c.dimension → c.isSpd = false → c.solveVector v = refuse .notPositiveDefinite) := by
  refine ⟨?_, fun j hj ↦ hc.answersAlike_inverse hj, ?_⟩
  · intro b hb
    refine ⟨Indexed.solve_eq hc b, ?_⟩
    intro j hj
    exact ⟨_, hb.column_eq hj, Array.size_ofFn, hc.answersAlike_solve hb hj⟩
  · intro v
    exact ⟨solveVector_of_size_ne, fun hsize hspd ↦ hc.solveVector_of_not_isSpd hsize hspd⟩

/-- The other column of the right-hand side holds an infinity and something that is not a number. -/
theorem solve_columns_two :
    let c : Cholesky Float := ⟨⟨2, 2, #[2, 0, 1, 3]⟩, true⟩
    let b : DenseMatrix Float := ⟨2, 2, #[1 / 0, 8, 0 / 0, 22]⟩
    c.Held ∧ b.Held ∧ b.column 1 = .ok #[8, 22] ∧
      ∃ x y, c.solve b = .ok x ∧ c.solveVector #[8, 22] = .ok y ∧ x.column 1 = .ok y := by
  intro c b
  have hc : c.Held := ⟨⟨⟨by decide, by decide, rfl, by decide⟩, by decide⟩, rfl⟩
  have hb : b.Held := ⟨⟨by decide, by decide, rfl, by decide⟩, by decide⟩
  obtain ⟨hsolve, -, -⟩ := solve_columns hc
  obtain ⟨v, hv, -, hanswer⟩ := (hsolve b hb).2 1 (by decide)
  have hcolumn : b.column 1 = .ok #[8, 22] := rfl
  obtain rfl : #[8, 22] = v := Except.ok.inj (hcolumn.symm.trans hv)
  refine ⟨hc, hb, hcolumn, ?_⟩
  cases hanswer with
  | mismatch hrows => exact absurd rfl hrows
  | notPositiveDefinite hrows hspd => cases hspd
  | solved hrows hspd hx hy hshape hcolumn => exact ⟨_, _, hx, hy, hcolumn⟩

end Cholesky

end DenseDecomp
