import Mathlib.Data.List.FinRange
import DenseDecomp.Eigen.Tridiagonal
import DenseDecomp.Proofs.Indexed.Access

namespace DenseDecomp.Indexed

open Scalar

variable {α : Type} [Scalar α] {n : ℕ}

def lastRow (v : Grid α n n) (d : Tuple α n) : Outcome α (Tuple α n) := do
  let last ← Size.sub n 1
  ascending 0 n (fun d j ↦ do d.write j (← v.read last j)) d

def rowScale (i : ℕ) (d : Tuple α n) : Outcome α α := do
  d.checkSlice 0 i
  ascending 0 i (fun acc k ↦ do return acc + abs (← d.read k)) 0

def clearStep (i : ℕ) (t : Tuple α n × Grid α n n) (j : ℕ) :
    Outcome α (Tuple α n × Grid α n n) := do
  let d ← t.1.write j (← t.2.read (← Size.sub i 1) j)
  let v ← t.2.write i j 0
  return (d, ← v.write j i 0)

def clearRow (i : ℕ) (t : Tridiagonal α n) : Outcome α (Tridiagonal α n) := do
  let e ← t.below.write i (← t.diag.read (← Size.sub i 1))
  let (d, v) ← ascending 0 i (clearStep i) (t.diag, t.basis)
  return ⟨v, ← d.write i 0, e⟩

def scaledRow (i : ℕ) (scale : α) (d : Tuple α n) : Outcome α (Tuple α n × α) :=
  ascending 0 i
    (fun t k ↦ do
      let x := (← t.1.read k) / scale
      return (← t.1.write k x, t.2 + x * x))
    (d, 0)

def clearSlice (i : ℕ) (e : Tuple α n) : Outcome α (Tuple α n) := do
  e.checkSlice 0 i
  ascending 0 i (fun e k ↦ e.write k 0) e

def productColumn (i j : ℕ) (f : α) (v : Grid α n n) (d : Tuple α n) (t : α × Tuple α n) :
    Outcome α (α × Tuple α n) := do
  ascending (← Size.add j 1) i
    (fun t k ↦ do
      let g := t.1 + (← v.read k j) * (← d.read k)
      return (g, ← t.2.write k ((← t.2.read k) + (← v.read k j) * f)))
    t

def productStep (i : ℕ) (d : Tuple α n) (t : Grid α n n × Tuple α n) (j : ℕ) :
    Outcome α (Grid α n n × Tuple α n) := do
  let f ← d.read j
  let v ← t.1.write j i f
  let g := (← t.2.read j) + (← v.read j j) * f
  let (g, e) ← productColumn i j f v d (g, t.2)
  return (v, ← e.write j g)

def dividedProduct (i : ℕ) (h : α) (d e : Tuple α n) : Outcome α (Tuple α n × α) :=
  ascending 0 i
    (fun t j ↦ do
      let x := (← t.1.read j) / h
      return (← t.1.write j x, t.2 + x * (← d.read j)))
    (e, 0)

def shiftedProduct (i : ℕ) (hh : α) (d e : Tuple α n) : Outcome α (Tuple α n) :=
  ascending 0 i (fun e j ↦ do e.write j ((← e.read j) - hh * (← d.read j))) e

def updateColumn (i j : ℕ) (d e : Tuple α n) (v : Grid α n n) : Outcome α (Grid α n n) := do
  let f ← d.read j
  let g ← e.read j
  ascending j i
    (fun v k ↦ do v.write k j ((← v.read k j) - (f * (← e.read k) + g * (← d.read k)))) v

def updateStep (i : ℕ) (e : Tuple α n) (t : Grid α n n × Tuple α n) (j : ℕ) :
    Outcome α (Grid α n n × Tuple α n) := do
  let v ← updateColumn i j t.2 e t.1
  let d ← t.2.write j (← v.read (← Size.sub i 1) j)
  return (← v.write i j 0, d)

def reflectRow (i : ℕ) (scale : α) (t : Tridiagonal α n) : Outcome α (Tridiagonal α n) := do
  let (d, length) ← scaledRow i scale t.diag
  let head ← Size.sub i 1
  let f ← d.read head
  let g := negateIf (0 < f) (sqrt length)
  let e ← t.below.write i (scale * g)
  let half := length - f * g
  let d ← d.write head (f - g)
  let (v, e) ← ascending 0 i (productStep i d) (t.basis, ← clearSlice i e)
  let (e, sum) ← dividedProduct i half d e
  let e ← shiftedProduct i (sum / (half + half)) d e
  let (v, d) ← ascending 0 i (updateStep i e) (v, d)
  return ⟨v, ← d.write i half, e⟩

def reduceRow (t : Tridiagonal α n) (i : ℕ) : Outcome α (Tridiagonal α n) := do
  let scale ← rowScale i t.diag
  if scale == 0 then clearRow i t else reflectRow i scale t

def projectColumn (i next : ℕ) (d : Tuple α n) (v : Grid α n n) (j : ℕ) :
    Outcome α (Grid α n n) := do
  let g ← ascending 0 (i + 1) (fun acc k ↦ do return acc + (← v.read k next) * (← v.read k j)) 0
  ascending 0 (i + 1) (fun v k ↦ do v.write k j ((← v.read k j) - g * (← d.read k))) v

def projectBlock (i next : ℕ) (h : α) (t : Grid α n n × Tuple α n) :
    Outcome α (Grid α n n × Tuple α n) := do
  if h == 0 then return t
  else
    let d ← ascending 0 (i + 1) (fun d k ↦ do d.write k ((← t.1.read k next) / h)) t.2
    return (← ascending 0 (i + 1) (projectColumn i next d) t.1, d)

def accumulate (t : Grid α n n × Tuple α n) (i : ℕ) : Outcome α (Grid α n n × Tuple α n) := do
  let v ← t.1.write (← Size.sub n 1) i (← t.1.read i i)
  let v ← v.write i i 1
  let next ← Size.add i 1
  let (v, d) ← projectBlock i next (← t.2.read next) (v, t.2)
  return (← ascending 0 (i + 1) (fun v k ↦ v.write k next 0) v, d)

def finishStep (t : Grid α n n × Tuple α n) (j : ℕ) : Outcome α (Grid α n n × Tuple α n) := do
  let last ← Size.sub n 1
  let d ← t.2.write j (← t.1.read last j)
  return (← t.1.write last j 0, d)

def tridiagonalize (v : Grid α n n) (d e : Tuple α n) : Outcome α (Tridiagonal α n) := do
  let d ← lastRow v d
  let t ← descending 1 n reduceRow ⟨v, d, e⟩
  let last ← Size.sub n 1
  let (v, d) ← ascending 0 last accumulate (t.basis, t.diag)
  let (v, d) ← ascending 0 n finishStep (v, d)
  return ⟨← v.write last last 1, d, ← t.below.write 0 0⟩

variable {c : Fin n} {d e u : Tuple α (n + 1)} {v : Grid α (n + 1) (n + 1)} {scale : α}

omit [Scalar α] in
theorem lastRow_eq : lastRow v d = .ok (v.row (Fin.last n)) := by
  rw [lastRow, Size.sub_one_length, Outcome.ok_bind]
  refine (ascending_entries (F := fun j _ ↦ v (Fin.last n) j) (Nat.zero_le _) le_rfl
    (fun j x _ _ ↦ ?_) d).trans (congrArg _ (Tuple.ext fun j ↦ ?_))
  · rw [Grid.read_fin, Outcome.ok_bind, Tuple.write_fin]
  · rw [Tuple.ofFn_apply, if_pos ⟨Nat.zero_le _, j.isLt⟩, Grid.row_apply]

theorem rowScale_eq : rowScale c.succ d = .ok (sumWhere (· < c.succ) fun k ↦ abs (d k)) := by
  rw [rowScale, Tuple.checkSlice_of_le d (Nat.zero_le _) c.succ.isLt.le, Outcome.ok_bind]
  refine ascending_sum c.succ.isLt.le (fun k ↦ ?_) (fun k acc _ ↦ ?_)
  · exact ⟨fun h ↦ ⟨Nat.zero_le _, h⟩, fun h ↦ h.2⟩
  · simp

theorem clearRow_eq (t : Tridiagonal α (n + 1)) :
    clearRow c.succ t = .ok (Tridiagonal.clearRow c t) := by
  have hloop : ascending 0 c.succ (clearStep c.succ) (t.diag, t.basis) =
      .ok (Tuple.ofFn fun j ↦ if j.val < c.succ then t.basis c.castSucc j else t.diag j,
        Grid.ofFn fun k j ↦ if (k = c.succ ∧ j.val < c.succ) ∨ (k.val < c.succ ∧ j = c.succ) then 0
          else t.basis k j) := by
    refine ascending_eq (fun i ↦
      (Tuple.ofFn fun j ↦ if j.val < i then t.basis c.castSucc j else t.diag j,
        Grid.ofFn fun k j ↦ if (k = c.succ ∧ j.val < i) ∨ (k.val < i ∧ j = c.succ) then 0
          else t.basis k j)) (Nat.zero_le _) ?_ fun i _ hi ↦ ?_
    · refine Prod.ext (Tuple.ext fun j ↦ ?_) (Grid.ext fun k j ↦ ?_)
      · rw [Tuple.ofFn_apply, if_neg (Nat.not_lt_zero _)]
      · rw [Grid.ofFn_apply, if_neg (by omega)]
    · have hc := c.isLt
      obtain ⟨i, rfl⟩ : ∃ j : Fin (n + 1), j.val = i := ⟨⟨i, by omega⟩, rfl⟩
      simp only [clearStep, Size.sub_one_succ, Outcome.ok_bind, Grid.read_fin, Tuple.write_fin,
        Grid.write_fin, Outcome.pure_eq]
      refine congrArg _ (Prod.ext (Tuple.ext fun j ↦ ?_) (Grid.ext fun k j ↦ ?_))
      · simp only [Tuple.set_apply, Tuple.ofFn_apply, Grid.ofFn_apply]
        grind
      · simp only [Grid.set_apply, Grid.ofFn_apply]
        grind
  simp only [clearRow, Size.sub_one_succ, Outcome.ok_bind, Tuple.read_fin, Tuple.write_fin, hloop,
    Outcome.pure_eq]
  refine congrArg _ ?_
  rw [Tridiagonal.clearRow]
  congr 1
  ext j
  simp only [Tuple.set_apply, Tuple.ofFn_apply]
  grind

def divideBefore (c : Fin n) (h : α) (e : Tuple α (n + 1)) : Tuple α (n + 1) :=
  Tuple.ofFn fun j ↦ if j < c.succ then e j / h else e j

theorem sumWhere_divideBefore (h : α) (f : Fin (n + 1) → α → α) :
    (sumWhere (· < c.succ) fun j ↦ f j (divideBefore c h e j)) =
      sumWhere (· < c.succ) fun j ↦ f j (e j / h) :=
  sumWhere_congr fun j hj ↦ by rw [divideBefore, Tuple.ofFn_apply, if_pos hj]

theorem scaledRow_eq : scaledRow c.succ scale d = .ok (divideBefore c scale d,
    sumWhere (· < c.succ) fun k ↦ divideBefore c scale d k * divideBefore c scale d k) := by
  rw [sumWhere_divideBefore scale fun _ x ↦ x * x]
  refine ascending_entries_sum c.succ.isLt.le (F := fun _ x ↦ x / scale)
    (W := fun _ x ↦ x / scale * (x / scale)) (fun k x acc _ ↦ ?_) d
  simp only [Tuple.read_fin, Tuple.write_fin, Outcome.ok_bind, Outcome.pure_eq]

theorem clearSlice_eq :
    clearSlice c.succ e = .ok (Tuple.ofFn fun j ↦ if j < c.succ then 0 else e j) := by
  rw [clearSlice, Tuple.checkSlice_of_le e (Nat.zero_le _) c.succ.isLt.le, Outcome.ok_bind]
  refine (ascending_entries (F := fun _ _ ↦ 0) (Nat.zero_le _) c.succ.isLt.le
    (fun j x _ _ ↦ x.write_fin j 0) e).trans (congrArg _ (Tuple.ext fun j ↦ ?_))
  rw [Tuple.ofFn_apply, Tuple.ofFn_apply]
  grind

section Product

variable {j : Fin (n + 1)} {f : α} {w : Grid α (n + 1) (n + 1)}

theorem productColumn_eq (hn : n + 2 < Size.wordBound) (hj : j < c.succ)
    (hv : ∀ k, k < c.succ → v k j = w k j) :
    productColumn c.succ j f v d
        (sumWhere (fun k ↦ k.val < j.val + 1) fun k ↦ Tridiagonal.lowerEntry w j k * d k, e) =
      .ok (sumWhere (· < c.succ) fun k ↦ Tridiagonal.lowerEntry w j k * d k,
        Tuple.ofFn fun k ↦ if j < k ∧ k < c.succ then e k + w k j * f else e k) := by
  have hc := c.isLt
  rw [productColumn, Size.add_of_lt (by omega), Outcome.ok_bind]
  refine ascending_eq (fun t ↦
    (sumWhere (fun k ↦ k.val < t) fun k ↦ Tridiagonal.lowerEntry w j k * d k,
      Tuple.ofFn fun k ↦ if j < k ∧ k.val < t then e k + w k j * f else e k)) hj ?_ fun t ht hti ↦ ?_
  · refine Prod.ext rfl (Tuple.ext fun k ↦ ?_)
    rw [Tuple.ofFn_apply, if_neg (by omega)]
  · obtain ⟨k, rfl⟩ : ∃ k : Fin (n + 1), k.val = t := ⟨⟨t, by omega⟩, rfl⟩
    have hjk : j < k := ht
    have hlower : Tridiagonal.lowerEntry w j k = w k j := if_pos hjk
    simp only [Grid.read_fin, Tuple.read_fin, Tuple.write_fin, Outcome.ok_bind, Outcome.pure_eq,
      hv k hti, Tuple.ofFn_apply, Nat.lt_irrefl, and_false, if_false]
    refine congrArg _ (Prod.ext ?_ (Tuple.ext fun l ↦ ?_))
    · rw [sumWhere_succ, hlower]
      rfl
    · simp only [Tuple.set_apply, Tuple.ofFn_apply]
      grind

def partialProduct (c : Fin n) (v : Grid α (n + 1) (n + 1)) (d e : Tuple α (n + 1)) (t : ℕ) :
    Tuple α (n + 1) :=
  Tuple.ofFn fun k ↦
    if k < c.succ then
      if k.val < t then sumWhere (· < c.succ) fun l ↦ Tridiagonal.lowerEntry v k l * d l
      else sumWhere (fun l ↦ l.val < t) fun l ↦ Tridiagonal.lowerEntry v k l * d l
    else e k

def storeColumn (c : Fin n) (v : Grid α (n + 1) (n + 1)) (d : Tuple α (n + 1)) (t : ℕ) :
    Grid α (n + 1) (n + 1) :=
  Grid.ofFn fun k l ↦ if k.val < t ∧ l = c.succ then d k else v k l

theorem productStep_eq (hn : n + 2 < Size.wordBound) (hj : j < c.succ) :
    productStep c.succ d (storeColumn c v d j, partialProduct c v d e j) j =
      .ok (storeColumn c v d (j + 1), partialProduct c v d e (j + 1)) := by
  have hstore : (storeColumn c v d j).set j c.succ (d j) = storeColumn c v d (j + 1) := by
    ext k l
    simp only [storeColumn, Grid.set_apply, Grid.ofFn_apply]
    grind
  have hkept : ∀ k, storeColumn c v d (j + 1) k j = v k j := fun k ↦ by
    rw [storeColumn, Grid.ofFn_apply, if_neg fun h ↦ hj.ne h.2]
  have hhead : partialProduct c v d e j j + storeColumn c v d (j + 1) j j * d j =
      sumWhere (fun k ↦ k.val < j.val + 1) fun k ↦ Tridiagonal.lowerEntry v j k * d k := by
    have hlower : Tridiagonal.lowerEntry v j j = v j j := if_neg (lt_irrefl j)
    rw [sumWhere_succ, hkept, hlower, partialProduct, Tuple.ofFn_apply, if_pos hj,
      if_neg (Nat.lt_irrefl _)]
    rfl
  simp only [productStep, Tuple.read_fin, Grid.write_fin, Grid.read_fin, Outcome.ok_bind, hstore,
    hhead, productColumn_eq hn hj (fun k _ ↦ hkept k), Tuple.write_fin, Outcome.pure_eq]
  refine congrArg _ (Prod.ext rfl (Tuple.ext fun k ↦ ?_))
  simp only [Tuple.set_apply, Tuple.ofFn_apply, partialProduct]
  obtain hkj | rfl | hjk := lt_trichotomy k j
  · rw [if_neg hkj.ne, if_neg fun h ↦ hkj.not_gt h.1, if_pos (Fin.lt_def.1 hkj),
      if_pos (Nat.lt_succ_of_lt hkj)]
  · rw [if_pos rfl, if_pos hj, if_pos (Nat.lt_succ_self _)]
  · have hlower : Tridiagonal.lowerEntry v k j = v k j := if_neg hjk.not_gt
    rw [if_neg hjk.ne']
    by_cases hk : k < c.succ
    · rw [if_pos ⟨hjk, hk⟩, if_pos hk, if_pos hk, if_neg (Fin.lt_def.not.1 hjk.not_gt),
        if_neg (Nat.not_lt.2 hjk), sumWhere_succ, hlower]
      rfl
    · rw [if_neg fun h ↦ hk h.2, if_neg hk, if_neg hk]

end Product

def subtractBefore (c : Fin n) (hh : α) (d e : Tuple α (n + 1)) : Tuple α (n + 1) :=
  Tuple.ofFn fun j ↦ if j < c.succ then e j - hh * d j else e j

theorem dividedProduct_eq (h : α) : dividedProduct c.succ h d e =
    .ok (divideBefore c h e, sumWhere (· < c.succ) fun j ↦ divideBefore c h e j * d j) := by
  rw [sumWhere_divideBefore h fun j x ↦ x * d j]
  refine ascending_entries_sum c.succ.isLt.le (F := fun _ x ↦ x / h)
    (W := fun j x ↦ x / h * d j) (fun j x acc _ ↦ ?_) e
  simp only [Tuple.read_fin, Tuple.write_fin, Outcome.ok_bind, Outcome.pure_eq]

theorem shiftedProduct_eq (hh : α) :
    shiftedProduct c.succ hh d e = .ok (subtractBefore c hh d e) := by
  refine (ascending_entries (F := fun j x ↦ x - hh * d j) (Nat.zero_le _) c.succ.isLt.le
    (fun j x _ _ ↦ ?_) e).trans (congrArg _ (Tuple.ext fun j ↦ ?_))
  · simp only [Tuple.read_fin, Tuple.write_fin, Outcome.ok_bind]
  · rw [subtractBefore, Tuple.ofFn_apply, Tuple.ofFn_apply]
    grind

def updateColumns (c : Fin n) (v : Grid α (n + 1) (n + 1)) (d e : Tuple α (n + 1)) (t : ℕ) :
    Grid α (n + 1) (n + 1) :=
  Grid.ofFn fun k l ↦
    if l.val < t ∧ k < c.succ ∧ l ≤ k then v k l - (d l * e k + e l * d k)
    else if l.val < t ∧ k = c.succ then 0
    else v k l

def updateRow (c : Fin n) (v : Grid α (n + 1) (n + 1)) (d e : Tuple α (n + 1)) (t : ℕ) :
    Tuple α (n + 1) :=
  Tuple.ofFn fun l ↦
    if l.val < t then v c.castSucc l - (d l * e c.castSucc + e l * d c.castSucc) else d l

theorem updateColumn_eq {j : Fin (n + 1)} (hj : j < c.succ) :
    updateColumn c.succ j d e v = .ok (Grid.ofFn fun k l ↦
      if l = j ∧ j ≤ k ∧ k < c.succ then v k l - (d j * e k + e j * d k) else v k l) := by
  simp only [updateColumn, Tuple.read_fin, Outcome.ok_bind]
  refine (ascending_row_entries (fun _ ↦ j) (F := fun k row ↦ row j - (d j * e k + e j * d k)) hj.le
    c.succ.isLt.le (fun k g _ _ ↦ ?_) v).trans (congrArg _ (Grid.ext fun k l ↦ ?_))
  · simp only [Grid.read_fin, Tuple.read_fin, Grid.write_fin, Outcome.ok_bind]
  · rw [Grid.ofFn_apply, Grid.ofFn_apply]
    grind

theorem updateStep_eq {j : Fin (n + 1)} (hj : j < c.succ) :
    updateStep c.succ e (updateColumns c v d e j, updateRow c v d e j) j =
      .ok (updateColumns c v d e (j + 1), updateRow c v d e (j + 1)) := by
  have hcolumn : updateColumn c.succ j (updateRow c v d e j) e (updateColumns c v d e j) =
      .ok (Grid.ofFn fun k l ↦ if l = j ∧ j ≤ k ∧ k < c.succ then v k l - (d j * e k + e j * d k)
        else updateColumns c v d e j k l) := by
    rw [updateColumn_eq hj]
    refine congrArg _ (Grid.ext fun k l ↦ ?_)
    simp only [Grid.ofFn_apply, updateRow, updateColumns, Tuple.ofFn_apply]
    grind
  simp only [updateStep, hcolumn, Size.sub_one_succ, Outcome.ok_bind, Grid.read_fin,
    Tuple.write_fin, Grid.write_fin, Outcome.pure_eq]
  refine congrArg _ (Prod.ext (Grid.ext fun k l ↦ ?_) (Tuple.ext fun l ↦ ?_))
  · simp only [Grid.set_apply, Grid.ofFn_apply, updateColumns]
    grind
  · have hcast : j ≤ c.castSucc := Fin.le_castSucc_iff.2 hj
    have hsucc := c.castSucc_lt_succ
    simp only [Tuple.set_apply, Tuple.ofFn_apply, Grid.ofFn_apply, updateRow]
    grind

theorem productLoop_eq (hn : n + 2 < Size.wordBound) :
    ascending 0 c.succ (productStep c.succ d)
        (v, Tuple.ofFn fun j ↦ if j < c.succ then 0 else e j) =
      .ok (storeColumn c v d c.succ, partialProduct c v d e c.succ) := by
  refine ascending_eq (fun t ↦ (storeColumn c v d t, partialProduct c v d e t)) (Nat.zero_le _) ?_
    fun t _ ht ↦ ?_
  · refine Prod.ext (Grid.ext fun k l ↦ ?_) (Tuple.ext fun k ↦ ?_)
    · rw [storeColumn, Grid.ofFn_apply, if_neg fun h ↦ Nat.not_lt_zero _ h.1]
    · rw [partialProduct, Tuple.ofFn_apply, Tuple.ofFn_apply, if_neg (Nat.not_lt_zero _)]
      exact if_congr Iff.rfl
        (foldl_lt_zero (fun acc l ↦ acc + Tridiagonal.lowerEntry v k l * d l) 0) rfl
  · have hc := c.succ.isLt
    exact productStep_eq (j := ⟨t, by omega⟩) hn ht

theorem updateLoop_eq : ascending 0 c.succ (updateStep c.succ e) (v, d) =
    .ok (updateColumns c v d e c.succ, updateRow c v d e c.succ) := by
  refine ascending_eq (fun t ↦ (updateColumns c v d e t, updateRow c v d e t)) (Nat.zero_le _) ?_
    fun t _ ht ↦ ?_
  · refine Prod.ext (Grid.ext fun k l ↦ ?_) (Tuple.ext fun k ↦ ?_)
    · rw [updateColumns, Grid.ofFn_apply, if_neg fun h ↦ Nat.not_lt_zero _ h.1,
        if_neg fun h ↦ Nat.not_lt_zero _ h.1]
    · rw [updateRow, Tuple.ofFn_apply, if_neg (Nat.not_lt_zero _)]
  · have hc := c.succ.isLt
    exact updateStep_eq (j := ⟨t, by omega⟩) ht

section Reflect

variable {t : Tridiagonal α (n + 1)} {r : Tridiagonal.Reflection α (n + 1)}

def reflectionProduct (c : Fin n) (t : Tridiagonal α (n + 1))
    (r : Tridiagonal.Reflection α (n + 1)) : Tuple α (n + 1) :=
  Tuple.ofFn fun j ↦
    if j < c.succ then
      (sumWhere (· < c.succ) fun k ↦ Tridiagonal.lowerEntry t.basis j k * r.vector k) / r.half
    else t.below j

theorem divideBefore_partialProduct :
    divideBefore c r.half
        (partialProduct c t.basis r.vector (t.below.set c.succ r.image) c.succ) =
      (reflectionProduct c t r).set c.succ r.image := by
  ext j
  simp only [divideBefore, partialProduct, reflectionProduct, Tuple.set_apply, Tuple.ofFn_apply]
  grind

theorem subtractBefore_set (hh x : α) :
    subtractBefore c hh d (e.set c.succ x) = (subtractBefore c hh d e).set c.succ x := by
  ext j
  simp only [subtractBefore, Tuple.set_apply, Tuple.ofFn_apply]
  grind

theorem sumWhere_set (x : α) : (sumWhere (· < c.succ) fun j ↦ e.set c.succ x j * d j) =
    sumWhere (· < c.succ) fun j ↦ e j * d j :=
  sumWhere_congr fun j hj ↦ by rw [Tuple.set_apply, if_neg hj.ne]

theorem vector_ofRow {l : Fin (n + 1)} (hl : c.succ < l) :
    (Tridiagonal.Reflection.ofRow c scale d).vector l = d l := by
  have hne := (c.castSucc_lt_succ.trans hl).ne'
  rw [Tridiagonal.Reflection.ofRow, Tuple.set_apply, if_neg hne, Tuple.ofFn_apply, if_neg hl.not_gt]

def reflectInTurn (c : Fin n) (t : Tridiagonal α (n + 1)) (r : Tridiagonal.Reflection α (n + 1)) :
    Tridiagonal α (n + 1) :=
  let v := storeColumn c t.basis r.vector c.succ
  let p := divideBefore c r.half
    (partialProduct c t.basis r.vector (t.below.set c.succ r.image) c.succ)
  let twice := (sumWhere (· < c.succ) fun j ↦ p j * r.vector j) / (r.half + r.half)
  let q := subtractBefore c twice r.vector p
  { basis := updateColumns c v r.vector q c.succ
    diag := (updateRow c v r.vector q c.succ).set c.succ r.half
    below := q }

theorem reflectInTurn_ofRow :
    reflectInTurn c t (Tridiagonal.Reflection.ofRow c scale t.diag) =
      Tridiagonal.reflectRow c scale t := by
  have hvector : ∀ l, c.succ < l →
      (Tridiagonal.Reflection.ofRow c scale t.diag).vector l = t.diag l := fun l ↦ vector_ofRow
  simp only [reflectInTurn, divideBefore_partialProduct, sumWhere_set, subtractBefore_set]
  rw [Tridiagonal.reflectRow, Tridiagonal.mk.injEq]
  refine ⟨Grid.ext fun k l ↦ ?_, Tuple.ext fun l ↦ ?_, rfl⟩
  · simp only [updateColumns, storeColumn, subtractBefore, reflectionProduct, Grid.ofFn_apply,
      Tuple.set_apply, Tuple.ofFn_apply]
    grind
  · have hle : l < c.succ → l ≤ c.castSucc := Fin.le_castSucc_iff.2
    have hsucc := c.castSucc_lt_succ
    simp only [updateRow, storeColumn, subtractBefore, reflectionProduct, Grid.ofFn_apply,
      Tuple.set_apply, Tuple.ofFn_apply]
    grind

theorem reflectRow_eq (hn : n + 2 < Size.wordBound) (t : Tridiagonal α (n + 1)) :
    reflectRow c.succ scale t = .ok (Tridiagonal.reflectRow c scale t) := by
  simp only [reflectRow, scaledRow_eq, Size.sub_one_succ, Outcome.ok_bind, Tuple.read_fin,
    Tuple.write_fin, clearSlice_eq, productLoop_eq hn, dividedProduct_eq, shiftedProduct_eq,
    updateLoop_eq, Outcome.pure_eq]
  exact congrArg Except.ok reflectInTurn_ofRow

end Reflect

theorem reduceRow_eq (hn : n + 2 < Size.wordBound) (t : Tridiagonal α (n + 1)) :
    reduceRow t c.succ = .ok (Tridiagonal.reduceRow c t) := by
  rw [reduceRow, rowScale_eq, Outcome.ok_bind, Tridiagonal.reduceRow]
  split
  case isTrue => exact clearRow_eq t
  case isFalse => exact reflectRow_eq hn t

theorem reduce_eq (hn : n + 2 < Size.wordBound) (t : Tridiagonal α (n + 1)) :
    descending 1 (n + 1) reduceRow t = .ok (Fin.foldr n Tridiagonal.reduceRow t) := by
  have h := descending_eq_foldr (p := fun _ : Fin n ↦ True) 1 le_rfl le_rfl
    (fun c ↦ ⟨fun _ ↦ ⟨Nat.le_add_left 1 _, Nat.succ_lt_succ c.isLt⟩, fun _ ↦ trivial⟩)
    (fun c t _ ↦ reduceRow_eq hn t) t
  simpa only [if_true] using h

section Accumulate

variable {u : Tuple α (n + 1)} {h : α} {t : Tridiagonal α (n + 1)}

def projectColumns (c : Fin n) (v : Grid α (n + 1) (n + 1)) (d : Tuple α (n + 1)) (s : ℕ) :
    Grid α (n + 1) (n + 1) :=
  Grid.ofFn fun k j ↦
    if j.val < s ∧ k ≤ c.castSucc then
      v k j - (sumWhere (· ≤ c.castSucc) fun k ↦ v k c.succ * v k j) * d k
    else v k j

theorem projectColumn_eq {j : Fin (n + 1)} (hj : j ≤ c.castSucc) :
    projectColumn c.castSucc c.succ d (projectColumns c v d j) j =
      .ok (projectColumns c v d (j + 1)) := by
  have hnext : ∀ k, projectColumns c v d j k c.succ = v k c.succ := fun k ↦ by
    have hsucc := c.castSucc_lt_succ
    rw [projectColumns, Grid.ofFn_apply, if_neg fun h ↦ (hj.trans_lt hsucc).not_gt h.1]
  have hself : ∀ k, projectColumns c v d j k j = v k j := fun k ↦ by
    rw [projectColumns, Grid.ofFn_apply, if_neg fun h ↦ Nat.lt_irrefl _ h.1]
  have hsum : ascending 0 (c.castSucc + 1) (fun acc k ↦ do
      return acc +
        (← (projectColumns c v d j).read k c.succ) * (← (projectColumns c v d j).read k j)) 0 =
        .ok (sumWhere (· ≤ c.castSucc) fun k ↦ v k c.succ * v k j) := by
    refine ascending_sum c.castSucc.isLt (fun k ↦ ?_) (fun k acc _ ↦ ?_)
    · rw [Nat.lt_succ_iff, Fin.le_def]
      exact (and_iff_right (Nat.zero_le _)).symm
    · simp only [Grid.read_fin, Outcome.ok_bind, hnext, hself, Outcome.pure_eq]
  rw [projectColumn, hsum, Outcome.ok_bind]
  refine (ascending_row_entries (fun _ ↦ j) (F := fun k row ↦
      row j - (sumWhere (· ≤ c.castSucc) fun k ↦ v k c.succ * v k j) * d k) (Nat.zero_le _)
    c.castSucc.isLt (fun k g _ _ ↦ ?_) _).trans (congrArg _ (Grid.ext fun k l ↦ ?_))
  · simp only [Grid.read_fin, Tuple.read_fin, Grid.write_fin, Outcome.ok_bind]
  · simp only [projectColumns, Grid.ofFn_apply]
    grind

theorem exists_projectBlock : ∃ d', projectBlock c.castSucc c.succ h (v, d) =
      .ok (Grid.ofFn fun k j ↦
        if k ≤ c.castSucc ∧ j ≤ c.castSucc then
          if h == 0 then v k j
          else v k j - (sumWhere (· ≤ c.castSucc) fun k ↦ v k c.succ * v k j) * (v k c.succ / h)
        else v k j, d') ∧ ∀ k, c.castSucc < k → d' k = d k := by
  rw [projectBlock]
  split
  case isTrue =>
    refine ⟨d, congrArg (fun w ↦ Except.ok (w, d)) (Grid.ext fun k j ↦ ?_), fun _ _ ↦ rfl⟩
    simp only [Grid.ofFn_apply, ite_self]
  case isFalse =>
    have hscaled :
        ascending 0 (c.castSucc + 1) (fun d k ↦ do d.write k ((← v.read k c.succ) / h)) d =
        .ok (Tuple.ofFn fun k ↦ if k ≤ c.castSucc then v k c.succ / h else d k) := by
      refine (ascending_entries (F := fun k _ ↦ v k c.succ / h) (Nat.zero_le _) c.castSucc.isLt
        (fun k x _ _ ↦ ?_) d).trans (congrArg _ (Tuple.ext fun k ↦ ?_))
      · simp only [Grid.read_fin, Outcome.ok_bind, Tuple.write_fin]
      · rw [Tuple.ofFn_apply, Tuple.ofFn_apply]
        grind
    have hproject : ∀ d, ascending 0 (c.castSucc + 1) (projectColumn c.castSucc c.succ d) v =
        .ok (projectColumns c v d (c.castSucc + 1)) := fun d ↦ by
      refine ascending_eq (projectColumns c v d) (Nat.zero_le _) (Grid.ext fun k j ↦ ?_)
        fun j _ hj ↦ ?_
      · rw [projectColumns, Grid.ofFn_apply, if_neg fun h ↦ Nat.not_lt_zero _ h.1]
      · have hlt := c.castSucc.isLt
        exact projectColumn_eq (j := ⟨j, by omega⟩) (Nat.le_of_lt_succ hj)
    simp only [hscaled, hproject, Outcome.ok_bind, Outcome.pure_eq]
    refine ⟨_, congrArg (fun w ↦ Except.ok (w, _)) (Grid.ext fun k j ↦ ?_), fun k hk ↦ ?_⟩
    · simp only [projectColumns, Grid.ofFn_apply, Tuple.ofFn_apply]
      grind
    · rw [Tuple.ofFn_apply, if_neg hk.not_ge]

def moveDiagonal (c : Fin n) (v : Grid α (n + 1) (n + 1)) : Grid α (n + 1) (n + 1) :=
  (v.set (Fin.last n) c.castSucc (v c.castSucc c.castSucc)).set c.castSucc c.castSucc 1

theorem moveDiagonal_apply {k : Fin (n + 1)} (hk : k ≤ c.castSucc) (j : Fin (n + 1)) :
    moveDiagonal c v k j = v.set c.castSucc c.castSucc 1 k j := by
  have hne : k ≠ Fin.last n := (hk.trans_lt c.castSucc_lt_last).ne
  simp only [moveDiagonal, Grid.set_apply, hne, false_and, if_false]

theorem moveDiagonal_succ {k : Fin (n + 1)} (hk : k ≤ c.castSucc) :
    moveDiagonal c v k c.succ = v k c.succ := by
  rw [moveDiagonal_apply hk, Grid.set_apply, if_neg fun h ↦ c.castSucc_lt_succ.ne' h.2]

theorem clearColumn_eq : ascending 0 (c.castSucc + 1) (fun v k ↦ v.write k c.succ 0) v =
    .ok (Grid.ofFn fun k j ↦ if k ≤ c.castSucc ∧ j = c.succ then 0 else v k j) := by
  refine (ascending_row_entries (fun _ ↦ c.succ) (F := fun _ _ ↦ 0) (Nat.zero_le _)
    c.castSucc.isLt (fun k g _ _ ↦ g.write_fin k c.succ 0) v).trans
      (congrArg _ (Grid.ext fun k j ↦ ?_))
  simp only [Grid.ofFn_apply]
  grind

theorem exists_accumulate (hn : n + 2 < Size.wordBound) (hd : d c.succ = t.diag c.succ) :
    ∃ d', accumulate (t.basis, d) c.castSucc = .ok ((t.accumulate c).basis, d') ∧
      ∀ k, c.castSucc < k → d' k = d k := by
  have hc := c.isLt
  have hnext : (Size.add c.castSucc 1 : Outcome α ℕ) = .ok c.succ :=
    Size.add_of_lt (by rw [Fin.val_castSucc]; omega)
  have hmove : (t.basis.set (Fin.last n) c.castSucc (t.basis c.castSucc c.castSucc)).set
      c.castSucc c.castSucc 1 = moveDiagonal c t.basis := rfl
  obtain ⟨d', hblock, hd'⟩ :=
    exists_projectBlock (c := c) (h := d c.succ) (d := d) (v := moveDiagonal c t.basis)
  refine ⟨d', ?_, hd'⟩
  simp only [accumulate, Size.sub_one_length, hnext, Outcome.ok_bind, Grid.read_fin,
    Grid.write_fin, Tuple.read_fin, hmove, hblock, clearColumn_eq, Outcome.pure_eq]
  have hsum : ∀ j, (sumWhere (· ≤ c.castSucc) fun k ↦
      moveDiagonal c t.basis k c.succ * moveDiagonal c t.basis k j) =
        sumWhere (· ≤ c.castSucc) fun k ↦
          t.basis k c.succ * t.basis.set c.castSucc c.castSucc 1 k j := fun j ↦
    sumWhere_congr fun k hk ↦ by rw [moveDiagonal_succ hk, moveDiagonal_apply hk]
  refine congrArg (fun w ↦ Except.ok (w, d')) (Grid.ext fun k j ↦ ?_)
  simp only [Tridiagonal.accumulate, Grid.ofFn_apply, Tuple.ofFn_apply, Grid.column_apply, hsum, hd]
  by_cases hk : k ≤ c.castSucc
  · have hne : k ≠ Fin.last n := (hk.trans_lt c.castSucc_lt_last).ne
    have hsucc := c.castSucc_lt_succ
    rw [moveDiagonal_succ hk, moveDiagonal_apply hk]
    simp only [hk, hne, Grid.set_apply, true_and, false_and, if_false]
    grind
  · have hne : k ≠ c.castSucc := fun h ↦ hk h.le
    simp only [hk, moveDiagonal, Grid.set_apply, hne, false_and, if_false]

def accumulateUpTo (t : Tridiagonal α (n + 1)) (s : ℕ) : Tridiagonal α (n + 1) :=
  Fin.foldl n (fun t c ↦ if c.val < s then t.accumulate c else t) t

theorem accumulateUpTo_succ (c : Fin n) :
    accumulateUpTo t (c.val + 1) = (accumulateUpTo t c).accumulate c :=
  foldl_lt_succ Tridiagonal.accumulate c t

theorem accumulateUpTo_rest (s : ℕ) :
    (accumulateUpTo t s).diag = t.diag ∧ (accumulateUpTo t s).below = t.below := by
  refine foldl_invariant (fun _ (x : Tridiagonal α (n + 1)) ↦ x.diag = t.diag ∧ x.below = t.below)
    ⟨rfl, rfl⟩ fun c x hx ↦ ?_
  split
  · exact hx
  · exact hx

theorem exists_accumulateLoop (hn : n + 2 < Size.wordBound) :
    ∃ d, ascending 0 n accumulate (t.basis, t.diag) =
      .ok ((Fin.foldl n Tridiagonal.accumulate t).basis, d) := by
  -- The entries of `d` that are still to be read are as they were.
  have hloop : ∃ x : Grid α (n + 1) (n + 1) × Tuple α (n + 1),
      ascending 0 n accumulate (t.basis, t.diag) = .ok x ∧
      x.1 = (accumulateUpTo t n).basis ∧ ∀ k : Fin (n + 1), n ≤ k.val → x.2 k = t.diag k := by
    refine ascending_invariant (fun s (x : Grid α (n + 1) (n + 1) × Tuple α (n + 1)) ↦
      x.1 = (accumulateUpTo t s).basis ∧ ∀ k : Fin (n + 1), s ≤ k.val → x.2 k = t.diag k)
      (Nat.zero_le n) ⟨?_, fun _ _ ↦ rfl⟩ fun s x _ hs hx ↦ ?_
    · rw [accumulateUpTo, foldl_lt_zero]
    · obtain ⟨c, rfl⟩ : ∃ c : Fin n, c.val = s := ⟨⟨s, hs⟩, rfl⟩
      obtain ⟨v, d⟩ := x
      obtain ⟨rfl, hd⟩ := hx
      have hread : d c.succ = (accumulateUpTo t c).diag c.succ := by
        rw [(accumulateUpTo_rest _).1, hd _ (Nat.le_succ _)]
      obtain ⟨d', hstep, hd'⟩ := exists_accumulate hn hread
      refine ⟨_, hstep, ?_, fun k hk ↦ ?_⟩
      · rw [accumulateUpTo_succ]
      · rw [hd' k hk, hd k (Nat.le_of_succ_le hk)]
  obtain ⟨⟨v, d⟩, hrun, hv, -⟩ := hloop
  refine ⟨d, hrun.trans (congrArg (fun v ↦ Except.ok (v, d)) (hv.trans ?_))⟩
  simp only [accumulateUpTo, Fin.is_lt, if_true]

end Accumulate

theorem finish_eq : ascending 0 (n + 1) finishStep (v, d) =
    .ok (Grid.ofFn fun k j ↦ if k = Fin.last n then 0 else v k j, v.row (Fin.last n)) := by
  refine (ascending_eq (fun s ↦
    (Grid.ofFn fun k j ↦ if k = Fin.last n ∧ j.val < s then 0 else v k j,
      Tuple.ofFn fun j ↦ if j.val < s then v (Fin.last n) j else d j)) (Nat.zero_le _) ?_
    fun s _ hs ↦ ?_).trans ?_
  · refine Prod.ext (Grid.ext fun k j ↦ ?_) (Tuple.ext fun j ↦ ?_)
    · rw [Grid.ofFn_apply, if_neg fun h ↦ Nat.not_lt_zero _ h.2]
    · rw [Tuple.ofFn_apply, if_neg (Nat.not_lt_zero _)]
  · obtain ⟨j, rfl⟩ : ∃ j : Fin (n + 1), j.val = s := ⟨⟨s, hs⟩, rfl⟩
    simp only [finishStep, Size.sub_one_length, Outcome.ok_bind, Grid.read_fin, Tuple.write_fin,
      Grid.write_fin, Outcome.pure_eq]
    refine congrArg _ (Prod.ext (Grid.ext fun k l ↦ ?_) (Tuple.ext fun l ↦ ?_))
    · simp only [Grid.set_apply, Grid.ofFn_apply]
      grind
    · simp only [Tuple.set_apply, Tuple.ofFn_apply, Grid.ofFn_apply]
      grind
  · simp only [Fin.is_lt, and_true, if_true]
    exact congrArg (fun d ↦ Except.ok (_, d)) (Tuple.ext fun j ↦ Tuple.ofFn_apply _ j)

/-- No step of the reduction leaves the matrix or the two lists beside it. -/
theorem tridiagonalize_eq (hn : n + 2 < Size.wordBound) (a : Grid α (n + 1) (n + 1)) :
    tridiagonalize a (Tuple.fill 0) (Tuple.fill 0) = .ok (Tridiagonal.ofSymmetric a) := by
  have hreduce : descending 1 (n + 1) reduceRow ⟨a, a.row (Fin.last n), Tuple.fill 0⟩ =
      .ok (Tridiagonal.reduce a) := reduce_eq hn _
  obtain ⟨d, hloop⟩ := exists_accumulateLoop hn (t := Tridiagonal.reduce a)
  simp only [tridiagonalize, lastRow_eq, hreduce, Size.sub_one_length, hloop, finish_eq,
    Fin.val_last, Outcome.ok_bind,
    Grid.write_of_lt, Tuple.write_of_lt, Nat.lt_succ_self, Nat.zero_lt_succ, Outcome.pure_eq]
  obtain ⟨-, hbelow⟩ := accumulateUpTo_rest (t := Tridiagonal.reduce a) n
  simp only [accumulateUpTo, Fin.is_lt, if_true] at hbelow
  rw [Tridiagonal.ofSymmetric, Tridiagonal.finish, hbelow]
  refine congrArg _ ?_
  rw [Tridiagonal.mk.injEq]
  refine ⟨Grid.ext fun k j ↦ ?_, rfl, rfl⟩
  rw [Grid.set_apply, Grid.ofFn_apply, Grid.ofFn_apply]
  grind

end DenseDecomp.Indexed
