import Mathlib.Data.Real.Basic
import DenseDecomp.RealSchur.Deflation
import DenseDecomp.Proofs.Indexed.Access

namespace DenseDecomp.Indexed

open Scalar

variable {α : Type} [Scalar α] {n : ℕ}

def normRow (h : Grid α n n) (acc : α) (i : ℕ) : Outcome α α :=
  ascending (i - 1) n (fun acc j ↦ do return acc + abs (← h.read i j)) acc

def hessenbergNorm (h : Grid α n n) : Outcome α α := ascending 0 n (normRow h) 0

def startSearch (norm : α) (h : Grid α n n) : ℕ → Outcome α ℕ
  | 0 => .ok 0
  | l + 1 => do
    let prev ← Size.sub (l + 1) 1
    let s := abs (← h.read prev prev) + abs (← h.read (l + 1) (l + 1))
    if abs (← h.read (l + 1) prev) < epsilon * (if s == 0 then norm else s) then return l + 1
    else startSearch norm h l

def deflateOne (b : ℕ) (s : RealSchur α n) : Outcome α (RealSchur α n) := do
  let form ← s.form.write b b ((← s.form.read b b) + s.shift)
  return { s with form, re := ← s.re.write b (← form.read b b), im := ← s.im.write b 0 }

def rotateRowsStep (a b : ℕ) (cos sin : α) (h : Grid α n n) (j : ℕ) : Outcome α (Grid α n n) := do
  let z ← h.read a j
  let h ← h.write a j (cos * z - sin * (← h.read b j))
  h.write b j (sin * z + cos * (← h.read b j))

def rotateColumnsStep (a b : ℕ) (cos sin : α) (h : Grid α n n) (i : ℕ) :
    Outcome α (Grid α n n) := do
  let z ← h.read i a
  let h ← h.write i a (cos * z - sin * (← h.read i b))
  h.write i b (sin * z + cos * (← h.read i b))

def splitPair (a b : ℕ) (z w : α) (form : Grid α n n) (s : RealSchur α n) :
    Outcome α (RealSchur α n) := do
  let x ← form.read b b
  let re ← s.re.write a (x + z)
  let first ← re.read a
  let re ← re.write b (if z == 0 then first else x - w / z)
  let im ← (← s.im.write a 0).write b 0
  let corner ← form.read b a
  let size := abs corner + abs z
  let p := corner / size
  let q := z / size
  let r := sqrt (p * p + q * q)
  let form ← ascending a n (rotateRowsStep a b (q / r) (-(p / r))) form
  let form ← ascending 0 (b + 1) (rotateColumnsStep a b (q / r) (-(p / r))) form
  let high ← Size.sub n 1
  let basis ← ascending 0 (high + 1) (rotateColumnsStep a b (q / r) (-(p / r))) s.basis
  return { s with form, basis, re, im }

def deflatePair (b : ℕ) (s : RealSchur α n) : Outcome α (ℕ × RealSchur α n) := do
  let a ← Size.sub b 1
  let w := (← s.form.read b a) * (← s.form.read a b)
  let p := ((← s.form.read a a) - (← s.form.read b b)) / 2.0
  let q := p * p + w
  let root := sqrt (abs q)
  let form ← s.form.write b b ((← s.form.read b b) + s.shift)
  let form ← form.write a a ((← form.read a a) + s.shift)
  if 0 ≤ q then return (a, ← splitPair a b (if 0 ≤ p then p + root else p - root) w form s)
  else
    let x ← form.read b b
    let re ← (← s.re.write a (x + p)).write b (x + p)
    let im ← (← s.im.write a root).write b (-root)
    return (a, { s with form, re, im })

variable {h : Grid α n n} {s : RealSchur α n} {a b : Fin n} {norm : α}

theorem hessenbergNorm_eq : hessenbergNorm h = .ok (RealSchur.hessenbergNorm h) := by
  refine ascending_all (fun i acc ↦ ?_) 0
  refine ascending_eq_foldl 0 (Nat.zero_le _) le_rfl (fun j ↦ ?_) (fun j acc hj ↦ ?_) acc
  · have hj := j.isLt
    omega
  · simp only [Nat.add_zero, Grid.read_fin, Outcome.ok_bind, Outcome.pure_eq]

theorem startSearch_eq (l : ℕ) (hl : l < n) :
    startSearch norm h l = .ok (RealSchur.blockStart norm h l hl) := by
  induction l with
  | zero => rfl
  | succ l ih =>
    simp (disch := omega) only [startSearch, Size.sub_of_le, Nat.add_sub_cancel, Grid.read_of_lt,
      Outcome.ok_bind, RealSchur.blockStart]
    by_cases hsmall : RealSchur.Negligible norm h ⟨l, by omega⟩ ⟨l + 1, hl⟩
    · rw [if_pos hsmall]
      exact if_pos hsmall
    · rw [if_neg hsmall]
      exact (if_neg hsmall).trans (ih (by omega))

theorem deflateOne_eq : deflateOne b s = .ok (s.deflateOne b) := by
  simp only [deflateOne, Grid.read_fin, Grid.write_fin, Tuple.write_fin, Outcome.ok_bind,
    Grid.set_apply, and_self, if_true, Outcome.pure_eq]
  rfl

theorem rotateRowsStep_eq (hab : a ≠ b) (cos sin : α) :
    ascending a n (rotateRowsStep a b cos sin) h = .ok (h.rotateRows a b cos sin (a ≤ ·)) := by
  refine (ascending_columns (F := fun l column r ↦
    if r = a then cos * column a - sin * column b
    else if r = b then sin * column a + cos * column b else column r)
    a.isLt.le le_rfl (fun j g _ _ ↦ ?_) h).trans (congrArg _ (Grid.ext fun r l ↦ ?_))
  · simp only [rotateRowsStep, Grid.read_fin, Grid.write_fin, Outcome.ok_bind]
    refine congrArg _ (Grid.ext fun r l ↦ ?_)
    simp only [Grid.set_apply, Grid.ofFn_apply]
    grind
  · simp only [Grid.rotateRows, Grid.ofFn_apply]
    grind

theorem rotateColumnsStep_eq (hab : a ≠ b) (cos sin : α) {hi : ℕ} (hhi : hi ≤ n) {p : Fin n → Prop}
    [DecidablePred p] (hp : ∀ i, p i ↔ i.val < hi) :
    ascending 0 hi (rotateColumnsStep a b cos sin) h = .ok (h.rotateColumns a b cos sin p) := by
  refine (ascending_rows (F := fun _ row l ↦
    if l = a then cos * row a - sin * row b
    else if l = b then sin * row a + cos * row b else row l)
    (Nat.zero_le _) hhi (fun i g _ _ ↦ ?_) h).trans (congrArg _ (Grid.ext fun r l ↦ ?_))
  · simp only [rotateColumnsStep, Grid.read_fin, Grid.write_fin, Outcome.ok_bind]
    refine congrArg _ (Grid.ext fun r l ↦ ?_)
    simp only [Grid.set_apply, Grid.ofFn_apply]
    grind
  · simp only [Grid.rotateColumns, Grid.ofFn_apply, hp]
    grind

section Pair

variable (hab : a ≠ b)

include hab

theorem unshiftPair_last : s.unshiftPair a b b b = s.form b b + s.shift := by
  rw [RealSchur.unshiftPair, Grid.set_apply, if_neg fun h ↦ hab h.1.symm, Grid.set_apply,
    if_pos ⟨rfl, rfl⟩]

theorem unshiftPair_corner : s.unshiftPair a b b a = s.form b a := by
  rw [RealSchur.unshiftPair, Grid.set_apply, if_neg fun h ↦ hab h.1.symm, Grid.set_apply,
    if_neg fun h ↦ hab h.2]

theorem splitPair_eq (z w : α) :
    splitPair a b z w (s.unshiftPair a b) s = .ok (s.splitPair a b z w) := by
  have hhigh : (Size.sub n 1 : Outcome α ℕ) = .ok (n - 1) :=
    Size.sub_of_le (Nat.zero_lt_of_lt a.isLt)
  have hall : n - 1 + 1 = n := Nat.sub_add_cancel (Nat.zero_lt_of_lt a.isLt)
  have hcolumns : ∀ (h : Grid α n n) (cos sin : α),
      ascending 0 (b + 1) (rotateColumnsStep a b cos sin) h =
      .ok (h.rotateColumns a b cos sin (· ≤ b)) := fun h cos sin ↦
    rotateColumnsStep_eq hab cos sin b.isLt fun i ↦ Nat.lt_succ_iff.symm
  have hbasis : ∀ (v : Grid α n n) (cos sin : α), ascending 0 n (rotateColumnsStep a b cos sin) v =
      .ok (v.rotateColumns a b cos sin fun _ ↦ True) := fun v cos sin ↦
    rotateColumnsStep_eq hab cos sin le_rfl fun i ↦ (iff_of_true trivial i.isLt)
  have hself : ∀ (x : α), (s.re.set a x) a = x := fun x ↦ by rw [Tuple.set_apply, if_pos rfl]
  simp only [splitPair, hhigh, hall, hcolumns, hbasis, hself, Grid.read_fin, Tuple.read_fin,
    Tuple.write_fin, Outcome.ok_bind, rotateRowsStep_eq hab, unshiftPair_last hab,
    unshiftPair_corner hab, Outcome.pure_eq]
  rfl

end Pair

theorem deflatePair_eq (hab : a.val + 1 = b.val) :
    deflatePair b s = .ok (a.val, s.deflatePair a b) := by
  have hne : a ≠ b := fun h ↦ by
    rw [h] at hab
    omega
  have hsub : (Size.sub b 1 : Outcome α ℕ) = .ok a := by
    rw [← hab]
    exact Size.sub_of_le (Nat.le_add_left 1 _)
  have hunshift : (s.form.set b b (s.form b b + s.shift)).set a a
      ((s.form.set b b (s.form b b + s.shift)) a a + s.shift) = s.unshiftPair a b := by
    rw [Grid.set_apply, if_neg fun h ↦ hne h.1]
    rfl
  simp only [deflatePair, hsub, Grid.read_fin, Grid.write_fin, Tuple.write_fin, Outcome.ok_bind,
    hunshift, splitPair_eq hne, unshiftPair_last hne, Outcome.pure_eq]
  rw [RealSchur.deflatePair]
  by_cases hreal : 0 ≤ (s.form a a - s.form b b) / 2.0 * ((s.form a a - s.form b b) / 2.0) +
      s.form b a * s.form a b
  · rw [if_pos hreal]
    exact congrArg (fun s ↦ Except.ok (a.val, s)) (if_pos hreal).symm
  · rw [if_neg hreal]
    exact congrArg (fun s ↦ Except.ok (a.val, s)) (if_neg hreal).symm

end DenseDecomp.Indexed
