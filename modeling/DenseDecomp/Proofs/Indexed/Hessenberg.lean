import Mathlib.Data.List.FinRange
import DenseDecomp.Eigen.Hessenberg
import DenseDecomp.Proofs.Indexed.Access

namespace DenseDecomp.Indexed

open Scalar

variable {α : Type} [Scalar α] {n : ℕ}

def columnScale (m high : ℕ) (h : Grid α n n) : Outcome α α :=
  ascending m (high + 1) (fun acc i ↦ do return acc + abs (← h.read i (← Size.sub m 1))) 0

def scaledColumn (m high : ℕ) (scale : α) (h : Grid α n n) (x : Tuple α n) :
    Outcome α (Tuple α n × α) :=
  descending m (high + 1)
    (fun t i ↦ do
      let y := (← h.read i (← Size.sub m 1)) / scale
      return (← t.1.write i y, t.2 + y * y))
    (x, 0)

def reflectInColumn (m high : ℕ) (u : Tuple α n) (half : α) (h : Grid α n n) (j : ℕ) :
    Outcome α (Grid α n n) := do
  let f := (← descending m (high + 1)
    (fun acc i ↦ do return acc + (← u.read i) * (← h.read i j)) 0) / half
  ascending m (high + 1) (fun h i ↦ do h.write i j ((← h.read i j) - f * (← u.read i))) h

def reflectInRow (m high : ℕ) (u : Tuple α n) (half : α) (h : Grid α n n) (i : ℕ) :
    Outcome α (Grid α n n) := do
  let f := (← descending m (high + 1)
    (fun acc j ↦ do return acc + (← u.read j) * (← h.read i j)) 0) / half
  ascending m (high + 1) (fun h j ↦ do h.write i j ((← h.read i j) - f * (← u.read j))) h

def reduceStep (s : Hessenberg α n) (m : ℕ) : Outcome α (Hessenberg α n) := do
  let high ← Size.sub n 1
  let scale ← columnScale m high s.form
  if scale == 0 then return s
  else
    let (x, length) ← scaledColumn m high scale s.form s.heads
    let g := negateIf (0 < (← x.read m)) (sqrt length)
    let half := length - (← x.read m) * g
    let u ← x.write m ((← x.read m) - g)
    let form ← ascending m n (reflectInColumn m high u half) s.form
    let form ← ascending 0 (high + 1) (reflectInRow m high u half) form
    return ⟨← form.write m (← Size.sub m 1) (scale * g), ← u.write m ((← u.read m) * scale)⟩

def unitMatrix (v : Grid α n n) : Outcome α (Grid α n n) :=
  ascending 0 n (fun v i ↦ ascending 0 n (fun v j ↦ v.write i j (if i == j then 1 else 0)) v) v

def accumulateInColumn (m high : ℕ) (h : Grid α n n) (u : Tuple α n) (v : Grid α n n) (j : ℕ) :
    Outcome α (Grid α n n) := do
  let g ← ascending m (high + 1) (fun acc i ↦ do return acc + (← u.read i) * (← v.read i j)) 0
  let g := g / (← u.read m) / (← h.read m (← Size.sub m 1))
  ascending m (high + 1) (fun v i ↦ do v.write i j ((← v.read i j) + g * (← u.read i))) v

def reflectorTail (m high : ℕ) (h : Grid α n n) (u : Tuple α n) : Outcome α (Tuple α n) := do
  ascending (← Size.add m 1) (high + 1)
    (fun u i ↦ do u.write i (← h.read i (← Size.sub m 1))) u

def accumulateStep (h : Grid α n n) (t : Tuple α n × Grid α n n) (m : ℕ) :
    Outcome α (Tuple α n × Grid α n n) := do
  let high ← Size.sub n 1
  if (← h.read m (← Size.sub m 1)) == 0 then return t
  else
    let u ← reflectorTail m high h t.1
    return (u, ← ascending m (high + 1) (accumulateInColumn m high h u) t.2)

def hessenberg (a v : Grid α n n) : Outcome α (Grid α n n × Grid α n n) := do
  let high ← Size.sub n 1
  let s ← ascending 1 high reduceStep ⟨a, Tuple.fill 0⟩
  let t ← descending 1 high (accumulateStep s.form) (s.heads, ← unitMatrix v)
  return (s.form, t.2)

variable {m : Fin (n + 1)} {u : Tuple α (n + 1)} {half scale : α} {h v : Grid α (n + 1) (n + 1)}

theorem columnScale_eq (c : Fin n) : columnScale c.succ n h =
    .ok (sumWhere (c.succ ≤ ·) fun i ↦ abs (h i c.castSucc)) := by
  refine ascending_sum le_rfl (fun i ↦ ?_) (fun i acc hi ↦ ?_)
  · exact ⟨fun h ↦ ⟨h, i.isLt⟩, fun h ↦ h.1⟩
  · have hc := c.isLt
    simp (disch := omega)
    rfl

theorem scaledColumn_eq (c : Fin n) {x y : Tuple α (n + 1)}
    (hy : y = Tuple.ofFn fun i ↦ if c.succ ≤ i then h i c.castSucc / scale else x i) :
    scaledColumn c.succ n scale h x = .ok (y, sumWhereDown (c.succ ≤ ·) fun i ↦ y i * y i) := by
  have hsum : (sumWhereDown (c.succ ≤ ·) fun i ↦ y i * y i) =
      sumWhereDown (c.succ ≤ ·) fun i ↦ h i c.castSucc / scale * (h i c.castSucc / scale) :=
    sumWhereDown_congr fun i hi ↦ by rw [hy, Tuple.ofFn_apply, if_pos hi]
  rw [hsum, hy]
  refine descending_entries_sum (by omega) (fun i x acc hi ↦ ?_) x
  have hc := c.isLt
  simp (disch := omega)
  exact ⟨rfl, rfl⟩

theorem reflectInColumn_eq (j : Fin (n + 1)) : reflectInColumn m n u half h j =
    .ok (Grid.ofFn fun r l ↦ if l = j then if m ≤ r then
      h r l - (sumWhereDown (m ≤ ·) fun i ↦ u i * h i l) / half * u r else h r l else h r l) := by
  have hsum : descending m (n + 1) (fun acc i ↦ do return acc + (← u.read i) * (← h.read i j)) 0 =
      .ok (sumWhereDown (m ≤ ·) fun i ↦ u i * h i j) := by
    refine descending_sum le_rfl (fun i ↦ ?_) (fun i acc hi ↦ ?_)
    · exact ⟨fun h ↦ ⟨h, i.isLt⟩, fun h ↦ h.1⟩
    · simp
  rw [reflectInColumn, hsum, Outcome.ok_bind]
  refine (ascending_row_entries (fun _ ↦ j) (F := fun i row ↦
    row j - (sumWhereDown (m ≤ ·) fun i ↦ u i * h i j) / half * u i) (by omega) le_rfl
    (fun i g _ _ ↦ ?_) h).trans (congrArg _ (Grid.ext fun r l ↦ ?_))
  · simp only [Grid.read_fin, Tuple.read_fin, Grid.write_fin, Outcome.ok_bind]
  · rw [Grid.ofFn_apply, Grid.ofFn_apply]
    grind

theorem reflectInRow_eq (i : Fin (n + 1)) : reflectInRow m n u half h i =
    .ok (Grid.ofFn fun r l ↦ if r = i then if m ≤ l then
      h r l - (sumWhereDown (m ≤ ·) fun j ↦ u j * h r j) / half * u l else h r l else h r l) := by
  have hsum : descending m (n + 1) (fun acc j ↦ do return acc + (← u.read j) * (← h.read i j)) 0 =
      .ok (sumWhereDown (m ≤ ·) fun j ↦ u j * h i j) := by
    refine descending_sum le_rfl (fun i ↦ ?_) (fun i acc hi ↦ ?_)
    · exact ⟨fun h ↦ ⟨h, i.isLt⟩, fun h ↦ h.1⟩
    · simp
  rw [reflectInRow, hsum, Outcome.ok_bind]
  refine (ascending_column_entries (fun _ ↦ i) (F := fun j column ↦
    column i - (sumWhereDown (m ≤ ·) fun j ↦ u j * h i j) / half * u j) (by omega) le_rfl
    (fun j g _ _ ↦ ?_) h).trans (congrArg _ (Grid.ext fun r l ↦ ?_))
  · simp only [Grid.read_fin, Tuple.read_fin, Grid.write_fin, Outcome.ok_bind]
  · rw [Grid.ofFn_apply, Grid.ofFn_apply]
    grind

theorem reflectRows_eq : ascending m (n + 1) (reflectInColumn m n u half) h =
    .ok (Hessenberg.reflectRows m u half h) := by
  refine (ascending_columns (F := fun j column r ↦ if m ≤ r then
    column r - (sumWhereDown (m ≤ ·) fun i ↦ u i * column i) / half * u r else column r) (by omega)
    le_rfl (fun j g _ _ ↦ reflectInColumn_eq j) h).trans (congrArg _ (Grid.ext fun r l ↦ ?_))
  rw [Hessenberg.reflectRows, Grid.ofFn_apply, Grid.ofFn_apply, Tuple.ofFn_apply]
  grind

theorem reflectColumns_eq : ascending 0 (n + 1) (reflectInRow m n u half) h =
    .ok (Hessenberg.reflectColumns m u half h) := by
  refine (ascending_rows (F := fun i row l ↦ if m ≤ l then
    row l - (sumWhereDown (m ≤ ·) fun j ↦ u j * row j) / half * u l else row l) (Nat.zero_le _)
    le_rfl (fun i g _ _ ↦ reflectInRow_eq i) h).trans (congrArg _ (Grid.ext fun r l ↦ ?_))
  rw [Hessenberg.reflectColumns, Grid.ofFn_apply, Grid.ofFn_apply, Tuple.ofFn_apply]
  grind

theorem reduceStep_eq (c : Fin n) (s : Hessenberg α (n + 1)) :
    reduceStep s c.succ = .ok (s.reduceColumn c) := by
  rw [reduceStep, Size.sub_one_length, Outcome.ok_bind, Fin.val_last,
    columnScale_eq, Outcome.ok_bind, Hessenberg.reduceColumn]
  split
  case isTrue => rfl
  case isFalse =>
    simp only [scaledColumn_eq c rfl, Size.sub_one_succ, Outcome.ok_bind, Tuple.read_fin,
      Tuple.write_fin, reflectRows_eq, reflectColumns_eq, Grid.write_fin]
    rfl

theorem unitMatrix_eq : unitMatrix v = .ok Hessenberg.unit := by
  refine (ascending_rows (F := fun i _ l ↦ if i = l then 1 else 0) (Nat.zero_le _) le_rfl
    (fun i g _ _ ↦ ?_) v).trans (congrArg _ (Grid.ext fun r l ↦ ?_))
  · refine (ascending_column_entries (fun _ ↦ i) (F := fun j _ ↦ if i = j then 1 else 0)
      (Nat.zero_le _) le_rfl (fun j g _ _ ↦ ?_) g).trans (congrArg _ (Grid.ext fun r l ↦ ?_))
    · rw [Grid.write_fin]
      grind
    · rw [Grid.ofFn_apply, Grid.ofFn_apply]
      grind
  · rw [Hessenberg.unit, Grid.ofFn_apply, Grid.ofFn_apply]
    grind

theorem accumulateInColumn_eq (c : Fin n) (j : Fin (n + 1)) :
    accumulateInColumn c.succ n h u v j = .ok (Grid.ofFn fun r l ↦ if l = j then
      if c.succ ≤ r then v r l + (sumWhere (c.succ ≤ ·) fun i ↦ u i * v i l) / u c.succ /
        h c.succ c.castSucc * u r else v r l else v r l) := by
  have hsum : ascending c.succ (n + 1) (fun acc i ↦ do return acc + (← u.read i) * (← v.read i j)) 0 =
      .ok (sumWhere (c.succ ≤ ·) fun i ↦ u i * v i j) := by
    refine ascending_sum le_rfl (fun i ↦ ?_) (fun i acc hi ↦ ?_)
    · exact ⟨fun h ↦ ⟨h, i.isLt⟩, fun h ↦ h.1⟩
    · simp
  simp only [accumulateInColumn, hsum, Size.sub_one_succ, Outcome.ok_bind, Tuple.read_fin,
    Grid.read_fin]
  refine (ascending_row_entries (fun _ ↦ j) (F := fun i row ↦
    row j + (sumWhere (c.succ ≤ ·) fun i ↦ u i * v i j) / u c.succ / h c.succ c.castSucc * u i)
    (by omega) le_rfl (fun i g _ _ ↦ ?_) v).trans (congrArg _ (Grid.ext fun r l ↦ ?_))
  · simp only [Grid.read_fin, Tuple.read_fin, Grid.write_fin, Outcome.ok_bind]
  · rw [Grid.ofFn_apply, Grid.ofFn_apply]
    grind

theorem accumulateColumns_eq (c : Fin n) :
    ascending c.succ (n + 1) (accumulateInColumn c.succ n h u) v =
      .ok (Grid.ofFn fun r l ↦ if c.succ ≤ r ∧ c.succ ≤ l then
        v r l + (sumWhere (c.succ ≤ ·) fun i ↦ u i * v i l) / u c.succ / h c.succ c.castSucc * u r
        else v r l) := by
  refine (ascending_columns (F := fun j column r ↦ if c.succ ≤ r then column r +
    (sumWhere (c.succ ≤ ·) fun i ↦ u i * column i) / u c.succ / h c.succ c.castSucc * u r
    else column r) (by omega) le_rfl (fun j g _ _ ↦ accumulateInColumn_eq c j) v).trans
    (congrArg _ (Grid.ext fun r l ↦ ?_))
  rw [Grid.ofFn_apply, Grid.ofFn_apply]
  grind

omit [Scalar α] in
theorem reflectorTail_eq (hn : n + 2 < Size.wordBound) (c : Fin n) :
    reflectorTail c.succ n h u =
      .ok (Tuple.ofFn fun i ↦ if c.succ < i then h i c.castSucc else u i) := by
  have hc := c.succ.isLt
  rw [reflectorTail, Size.add_of_lt (by omega), Outcome.ok_bind]
  refine (ascending_entries (F := fun i _ ↦ h i c.castSucc) hc le_rfl (fun i x _ _ ↦ ?_) u).trans
    (congrArg _ (Tuple.ext fun i ↦ ?_))
  · simp only [Size.sub_one_succ, Outcome.ok_bind, Grid.read_fin, Tuple.write_fin]
  · rw [Tuple.ofFn_apply, Tuple.ofFn_apply]
    grind

theorem accumulateStep_eq (hn : n + 2 < Size.wordBound) (c : Fin n)
    (t : Tuple α (n + 1) × Grid α (n + 1) (n + 1)) :
    accumulateStep h t c.succ = .ok (Hessenberg.accumulateColumn h c t) := by
  rw [accumulateStep, Size.sub_one_length, Outcome.ok_bind, Fin.val_last, Size.sub_one_succ,
    Outcome.ok_bind, Grid.read_fin, Outcome.ok_bind, Hessenberg.accumulateColumn]
  split
  case isTrue => rfl
  case isFalse =>
    rw [reflectorTail_eq hn, Outcome.ok_bind, accumulateColumns_eq]
    simp only [Tuple.ofFn_apply]
    rfl

/-- No step of the reduction leaves the matrix. -/
theorem hessenberg_eq (hn : n + 2 < Size.wordBound) (a v : Grid α (n + 1) (n + 1)) :
    hessenberg a v = .ok ((Hessenberg.reduce a).form, (Hessenberg.reduce a).basis) := by
  have hcolumn : ∀ c : Fin n, c.succ < Fin.last n ↔ 1 ≤ c.val + 1 ∧ c.val + 1 < n := fun c ↦ by
    rw [Fin.lt_def, Fin.val_succ, Fin.val_last]
    omega
  have hreduce : ascending 1 n reduceStep ⟨a, Tuple.fill 0⟩ = .ok (Hessenberg.reduce a) :=
    ascending_eq_foldl 1 le_rfl (Nat.le_succ n) hcolumn (fun c s _ ↦ reduceStep_eq c s) _
  have hbasis := descending_eq_foldr 1 le_rfl (Nat.le_succ n) hcolumn
    (fun c t _ ↦ accumulateStep_eq (h := (Hessenberg.reduce a).form) hn c t)
    ((Hessenberg.reduce a).heads, Hessenberg.unit)
  rw [hessenberg, Size.sub_one_length, Outcome.ok_bind, Fin.val_last, hreduce,
    Outcome.ok_bind, unitMatrix_eq, Outcome.ok_bind, hbasis]
  rfl

end DenseDecomp.Indexed
