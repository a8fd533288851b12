import Mathlib.Data.List.FinRange
import DenseDecomp.Cholesky.Decomposition
import DenseDecomp.Proofs.Cholesky.Recurrence
import DenseDecomp.Proofs.HeldMatrix
import DenseDecomp.Proofs.Indexed.Access

namespace DenseDecomp.Indexed

open Scalar CholeskyFactor

variable {α : Type} [Scalar α] {n m : ℕ}

def rowProduct (l : Grid α n n) (j k : ℕ) : Outcome α α :=
  ascending 0 k (fun acc i ↦ do return acc + (← l.read k i) * (← l.read j i)) 0

def belowStep (a : Grid α n n) (j : ℕ) (t : Grid α n n × α × Bool) (k : ℕ) :
    Outcome α (Grid α n n × α × Bool) := do
  let x := ((← a.read j k) - (← rowProduct t.1 j k)) / (← t.1.read k k)
  return (← t.1.write j k x, t.2.1 + x * x, t.2.2 && (← a.read k j) == (← a.read j k))

def rowStep (a : Grid α n n) (t : Grid α n n × Bool) (j : ℕ) : Outcome α (Grid α n n × Bool) := do
  let row ← ascending 0 j (belowStep a j) (t.1, 0, t.2)
  let d := (← a.read j j) - row.2.1
  return (← row.1.write j j (sqrt (maxNum d 0)), row.2.2 && decide (0 < d))

def choleskyFactor (a : Grid α n n) : Outcome α (Grid α n n × Bool) :=
  ascending 0 n (rowStep a) (Grid.ofFn fun _ _ ↦ 0, true)

def forwardSum (l : Grid α n n) (x : Grid α n m) (k j : ℕ) : Outcome α α := do
  ascending 0 k (fun acc i ↦ do return acc - (← x.read i j) * (← l.read k i)) (← x.read k j)

def forwardStep (l : Grid α n n) (k : ℕ) (x : Grid α n m) (j : ℕ) : Outcome α (Grid α n m) := do
  x.write k j ((← forwardSum l x k j) / (← l.read k k))

def backwardSum (l : Grid α n n) (x : Grid α n m) (k j : ℕ) : Outcome α α := do
  ascending (← Size.add k 1) n (fun acc i ↦ do return acc - (← x.read i j) * (← l.read i k))
    (← x.read k j)

def backwardStep (l : Grid α n n) (k : ℕ) (x : Grid α n m) (j : ℕ) : Outcome α (Grid α n m) := do
  x.write k j ((← backwardSum l x k j) / (← l.read k k))

def substitute (l : Grid α n n) (b : Grid α n m) : Outcome α (Grid α n m) := do
  let y ← ascending 0 n (fun x k ↦ ascending 0 m (forwardStep l k) x) b
  descending 0 n (fun x k ↦ ascending 0 m (backwardStep l k) x) y

section Substitute

variable (l : Grid α n n) (x b : Grid α n m) (k : Fin n)

theorem forwardSum_eq (j : Fin m) :
    forwardSum l x k j = .ok (subtractWhere (· < k) (fun i ↦ x i j * l k i) (x k j)) := by
  simp only [forwardSum, Grid.read_of_lt, Fin.is_lt, Outcome.ok_bind]
  refine ascending_eq_foldl 0 le_rfl k.isLt.le (fun i ↦ ?_) (fun i acc hi ↦ ?_) _
  · simp
  · simp

theorem forwardRow_eq : ascending 0 m (forwardStep l k) x = .ok (forwardRow l x k) := by
  refine (ascending_column_entries (fun _ ↦ k) (F := fun _ u ↦
    subtractWhere (· < k) (fun i ↦ u i * l k i) (u k) / l k k) (Nat.zero_le _) le_rfl
    (fun j g _ _ ↦ ?_) x).trans (congrArg _ (Grid.ext fun i j ↦ ?_))
  · simp only [forwardStep, forwardSum_eq, Grid.read_fin, Grid.write_fin, Outcome.ok_bind]
  · rw [forwardRow, Grid.ofFn_apply, Grid.ofFn_apply]
    exact if_congr (and_iff_left ⟨Nat.zero_le _, j.isLt⟩) rfl rfl

theorem backwardSum_eq (hn : n < Size.wordBound) (j : Fin m) :
    backwardSum l x k j = .ok (subtractWhere (k < ·) (fun i ↦ x i j * l i k) (x k j)) := by
  simp (disch := omega) only [backwardSum, Grid.read_of_lt, Size.add_of_lt, Outcome.ok_bind]
  refine ascending_eq_foldl 0 (Nat.zero_le _) le_rfl (fun i ↦ ?_) (fun i acc hi ↦ ?_) _
  · simp
  · simp

theorem backwardRow_eq (hn : n < Size.wordBound) :
    ascending 0 m (backwardStep l k) x = .ok (backwardRow l k x) := by
  refine (ascending_column_entries (fun _ ↦ k) (F := fun _ u ↦
    subtractWhere (k < ·) (fun i ↦ u i * l i k) (u k) / l k k) (Nat.zero_le _) le_rfl
    (fun j g _ _ ↦ ?_) x).trans (congrArg _ (Grid.ext fun i j ↦ ?_))
  · simp only [backwardStep, backwardSum_eq _ _ _ hn, Grid.read_fin, Grid.write_fin,
      Outcome.ok_bind]
  · rw [backwardRow, Grid.ofFn_apply, Grid.ofFn_apply]
    exact if_congr (and_iff_left ⟨Nat.zero_le _, j.isLt⟩) rfl rfl

theorem substitute_eq (hn : n < Size.wordBound) :
    substitute l b = .ok (CholeskyFactor.substitute l b) := by
  rw [substitute, ascending_all (fun k x ↦ forwardRow_eq l x k), Outcome.ok_bind,
    descending_all (fun k x ↦ backwardRow_eq l x k hn)]
  rfl

end Substitute

section Factor

variable (a l : Grid α n n) (j k : Fin n)

theorem rowProduct_eq :
    rowProduct l j k = .ok (sumWhere (· < k) fun i ↦ l k i * l j i) := by
  refine ascending_sum k.isLt.le (fun i ↦ ?_) (fun i acc hi ↦ ?_)
  · simp
  · simp

theorem belowStep_eq (sum : α) (spd : Bool) : belowStep a j (l, sum, spd) k =
    .ok (l.set j k (belowEntry a l j k), sum + belowEntry a l j k * belowEntry a l j k,
      spd && a k j == a j k) := by
  simp [belowStep, rowProduct_eq, belowEntry]

theorem all_lt_succ (q : Fin n → Bool) (k : Fin n) :
    ((List.finRange n).all fun i ↦ !(decide (i.val < k.val + 1)) || q i) =
      (((List.finRange n).all fun i ↦ !(decide (i.val < k.val)) || q i) && q k) := by
  rw [Bool.eq_iff_iff]
  simp only [List.all_eq_true, List.mem_finRange, true_implies, Bool.or_eq_true, Bool.not_eq_true',
    decide_eq_false_iff_not, Bool.and_eq_true]
  constructor
  · intro h
    exact ⟨fun i ↦ (h i).imp_left fun hi ↦ by omega, (h k).resolve_left (by omega)⟩
  · rintro ⟨h, hk⟩ i
    obtain rfl | hik := eq_or_ne i k
    · exact .inr hk
    · exact (h i).imp_left fun hi ↦ by omega

def rowUpTo (t : ℕ) : Grid α n n :=
  Fin.foldl n (fun l k ↦ if k.val < t then l.set j k (belowEntry a l j k) else l) l

theorem rowUpTo_succ : rowUpTo a l j (k.val + 1) =
    (rowUpTo a l j k).set j k (belowEntry a (rowUpTo a l j k) j k) :=
  foldl_lt_succ (fun (l : Grid α n n) k ↦ l.set j k (belowEntry a l j k)) k l

def symmetricUpTo (t : ℕ) : Bool :=
  (List.finRange n).all fun k ↦ !(decide (k.val < t)) || a k j == a j k

theorem symmetricUpTo_succ :
    symmetricUpTo a j (k.val + 1) = (symmetricUpTo a j k && a k j == a j k) :=
  all_lt_succ _ k

theorem belowLoop_eq (spd : Bool) : ascending 0 j (belowStep a j) (l, 0, spd) =
    .ok (rowUpTo a l j j, sumWhere (· < j) (fun i ↦ rowUpTo a l j j j i * rowUpTo a l j j j i),
      spd && symmetricUpTo a j j) := by
  refine ascending_eq (fun t ↦ (rowUpTo a l j t,
    sumWhere (fun i ↦ i.val < t) (fun i ↦ rowUpTo a l j t j i * rowUpTo a l j t j i),
    spd && symmetricUpTo a j t)) (Nat.zero_le j.val) ?_ fun t _ ht ↦ ?_
  · have hsum : ∀ f : Fin n → α, sumWhere (fun i ↦ i.val < 0) f = 0 := fun f ↦
      foldl_lt_zero (fun acc i ↦ acc + f i) 0
    rw [rowUpTo, foldl_lt_zero, hsum]
    simp [symmetricUpTo]
  · obtain ⟨k, rfl⟩ : ∃ k : Fin n, k.val = t := ⟨⟨t, by omega⟩, rfl⟩
    have hkept : ∀ i, i < k → rowUpTo a l j (k + 1) j i = rowUpTo a l j k j i := fun i hi ↦ by
      rw [rowUpTo_succ, Grid.set_apply, if_neg fun h ↦ hi.ne h.2]
    have hentry : rowUpTo a l j (k + 1) j k = belowEntry a (rowUpTo a l j k) j k := by
      rw [rowUpTo_succ, Grid.set_apply, if_pos ⟨rfl, rfl⟩]
    have hsum : sumWhere (fun i ↦ i.val < k.val)
          (fun i ↦ rowUpTo a l j (k + 1) j i * rowUpTo a l j (k + 1) j i) =
        sumWhere (fun i ↦ i.val < k.val) (fun i ↦ rowUpTo a l j k j i * rowUpTo a l j k j i) :=
      sumWhere_congr fun i hi ↦ by rw [hkept i hi]
    rw [belowStep_eq, ← rowUpTo_succ, sumWhere_succ, hentry, symmetricUpTo_succ, Bool.and_assoc]
    rw [← hsum]
    rfl

theorem rowStep_eq (spd : Bool) : rowStep a (l, spd) j =
    .ok (fillRow a l j, spd && symmetricUpTo a j j && decide (0 < pivot a (fillRow a l j) j)) := by
  have hrow : rowUpTo a l j j =
      Fin.foldl n (fun l k ↦ if k < j then l.set j k (belowEntry a l j k) else l) l := rfl
  have hpivot : pivot a (fillRow a l j) j = pivot a (rowUpTo a l j j) j := by
    refine pivot_congr fun i hi ↦ ?_
    rw [fillRow, ← hrow, Grid.set_apply, if_neg fun h ↦ hi.ne h.2]
  rw [hpivot, fillRow, ← hrow]
  simp only [rowStep, belowLoop_eq, Outcome.ok_bind, Grid.read_of_lt, Grid.write_of_lt, Fin.is_lt,
    Outcome.pure_eq]
  rfl

def rowsUpTo (t : ℕ) : Grid α n n :=
  Fin.foldl n (fun l j ↦ if j.val < t then fillRow a l j else l) (Grid.ofFn fun _ _ ↦ 0)

theorem rowsUpTo_succ : rowsUpTo a (j.val + 1) = fillRow a (rowsUpTo a j) j :=
  foldl_lt_succ (fillRow a) j _

theorem rowsUpTo_all : rowsUpTo a n = CholeskyFactor.factor a := by
  simp only [rowsUpTo, CholeskyFactor.factor, Fin.is_lt, if_true]

theorem factor_row : CholeskyFactor.factor a j k = rowsUpTo a (j.val + 1) j k := by
  have h : ∀ t, j.val + 1 ≤ t → t ≤ n → rowsUpTo a t j k = rowsUpTo a (j.val + 1) j k := by
    intro t ht
    induction t, ht using Nat.le_induction with
    | base => exact fun _ ↦ rfl
    | succ t ht ih =>
      intro htn
      have hrow := rowsUpTo_succ a ⟨t, htn⟩
      rw [← ih (by omega), hrow, fillRow_of_ne]
      intro heq
      have hval := congrArg Fin.val heq
      simp only at hval
      omega
  rw [← rowsUpTo_all, h n j.isLt le_rfl]

theorem choleskyFactor_eq :
    choleskyFactor a = .ok (CholeskyFactor.factor a, isPositiveDefinite a) := by
  have hresult : (CholeskyFactor.factor a, isPositiveDefinite a) =
      (rowsUpTo a n, (List.finRange n).all fun j ↦ !(decide (j.val < n)) ||
        (symmetricUpTo a j j && decide (0 < pivot a (CholeskyFactor.factor a) j))) := by
    simp [rowsUpTo_all, isPositiveDefinite, symmetricUpTo]
  rw [hresult]
  refine ascending_eq (fun t ↦ (rowsUpTo a t, (List.finRange n).all fun j ↦ !(decide (j.val < t)) ||
    (symmetricUpTo a j j && decide (0 < pivot a (CholeskyFactor.factor a) j)))) (Nat.zero_le n)
    ?_ fun t _ ht ↦ ?_
  · rw [rowsUpTo, foldl_lt_zero]
    simp
  · obtain ⟨j, rfl⟩ : ∃ j : Fin n, j.val = t := ⟨⟨t, ht⟩, rfl⟩
    have hpivot : pivot a (rowsUpTo a (j + 1)) j = pivot a (CholeskyFactor.factor a) j :=
      pivot_congr fun i _ ↦ (factor_row a j i).symm
    rw [rowStep_eq, ← rowsUpTo_succ, hpivot, all_lt_succ, Bool.and_assoc]

end Factor

section Decomposition

def cholesky (a : DenseMatrix α) : Run (Failure α) (Cholesky α) :=
  if a.rows = a.cols then do
    let n := a.rows
    Run.ofOutcome (DenseMatrix.allocate n n)
    let g ← Run.ofOutcome (a.toGrid n n)
    let l ← Run.ofOutcome (choleskyFactor g)
    if l.2 then pure () else Run.emit (.notPositiveDefinite n)
    return ⟨.ofGrid l.1, l.2⟩
  else .ofOutcome (refuse (.notSquare a.rows a.cols))

def solve (c : Cholesky α) (b : DenseMatrix α) : Outcome α (DenseMatrix α) := do
  let n := c.dimension
  if b.rows = n then
    if c.isSpd then
      let x ← substitute (← c.factor.toGrid n n) (← b.toGrid n b.cols)
      return .ofGrid x
    else refuse .notPositiveDefinite
  else refuse (.dimensionMismatch n n b.rows b.cols)

def solveVector (c : Cholesky α) (b : Array α) : Outcome α (Array α) := do
  let n := c.dimension
  if b.size = n then
    let x ← solve c (← DenseMatrix.ofArray n 1 b)
    return x.data
  else refuse (.dimensionMismatch n n b.size 1)

def identity (n : ℕ) : Outcome α (DenseMatrix α) := do
  DenseMatrix.allocate n n
  let g ← ascending 0 n (fun (g : Grid α n n) i ↦ g.write i i 1) (Grid.ofFn fun _ _ ↦ 0)
  return .ofGrid g

def inverse (c : Cholesky α) : Outcome α (DenseMatrix α) := do
  solve c (← identity c.dimension)

theorem cholesky_eq (a : DenseMatrix α) : cholesky a = Cholesky.decompose a := by
  simp only [cholesky, Cholesky.decompose, choleskyFactor_eq, Run.ofOutcome_ok_bind]

theorem identity_eq (n : ℕ) :
    (identity n : Outcome α (DenseMatrix α)) = DenseMatrix.identity n := by
  have hloop : ascending 0 n (fun (g : Grid α n n) i ↦ g.write i i 1) (Grid.ofFn fun _ _ ↦ 0) =
      .ok (Grid.ofFn fun i j ↦ if i = j then 1 else 0) := by
    refine (ascending_row_entries id (F := fun _ _ ↦ 1) (Nat.zero_le n) le_rfl
      (fun i g _ _ ↦ g.write_fin i i 1) _).trans (congrArg _ (Grid.ext fun i j ↦ ?_))
    simp only [Grid.ofFn_apply, Nat.zero_le, Fin.is_lt, and_self, and_true, id_eq, eq_comm]
  rw [identity, hloop]
  rfl

variable {c : Cholesky α}

theorem solve_eq (hc : c.Held) (b : DenseMatrix α) : solve c b = c.solve b := by
  have hn : c.dimension < Size.wordBound := (Nat.le_add_right _ 3).trans_lt hc.rows_add_lt
  simp only [solve, Cholesky.solve, substitute_eq _ _ hn, Outcome.ok_bind, Outcome.pure_eq]

theorem solveVector_eq (hc : c.Held) (b : Array α) : solveVector c b = c.solveVector b := by
  simp only [solveVector, Cholesky.solveVector, solve_eq hc, Outcome.pure_eq]

theorem inverse_eq (hc : c.Held) : inverse c = c.inverse := by
  simp only [inverse, Cholesky.inverse, identity_eq, solve_eq hc]

end Decomposition

end DenseDecomp.Indexed
