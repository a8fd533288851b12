import Mathlib.Data.Real.Basic
import DenseDecomp.RealSchur.Sweep
import DenseDecomp.Proofs.Indexed.Access
import DenseDecomp.Proofs.RealSchur.Sweep

namespace DenseDecomp.Indexed

open Scalar RealSchur

variable {α : Type} [Scalar α] {n : ℕ}

def moveOrigin (b : ℕ) (x : α) (s : RealSchur α n) : Outcome α (RealSchur α n) := do
  let form ← ascending 0 (b + 1) (fun h i ↦ do h.write i i ((← h.read i i) - x)) s.form
  return { s with form, shift := s.shift + x }

def exceptionalShift (b : ℕ) (s : RealSchur α n) :
    Outcome α (List Event × DoubleShift α × RealSchur α n) := do
  let s ← moveOrigin b (← s.form.read b b) s
  let a ← Size.sub b 1
  let size := abs (← s.form.read b a) + abs (← s.form.read a (← Size.sub b 2))
  let x := 0.75 * size
  return ([.exceptionalShift b], ⟨x, x, (-0.4375) * size * size⟩, s)

def secondExceptionalShift (b : ℕ) (t : DoubleShift α) (s : RealSchur α n) :
    Outcome α (List Event × DoubleShift α × RealSchur α n) :=
  match nearRoot? t with
  | some x => do
    return ([.secondExceptionalShift b], ⟨0.964, 0.964, 0.964⟩, ← moveOrigin b x s)
  | none => return ([], t, s)

def nextShift (done b : ℕ) (s : RealSchur α n) :
    Outcome α (List Event × DoubleShift α × RealSchur α n) := do
  let a ← Size.sub b 1
  let t : DoubleShift α :=
    ⟨← s.form.read b b, ← s.form.read a a, (← s.form.read b a) * (← s.form.read a b)⟩
  if done = 10 then exceptionalShift b s
  else if done = 30 then secondExceptionalShift b t s
  else return ([], t, s)

def leadAt (h : Grid α n n) (t : DoubleShift α) (m : ℕ) : Outcome α (Lead α) := do
  let next ← Size.add m 1
  let z ← h.read m m
  let r := t.x - z
  let s := t.y - z
  let p := (r * s - t.w) / (← h.read next m) + (← h.read m next)
  let q := (← h.read next next) - z - r - s
  let r ← h.read (← Size.add m 2) next
  let s := abs p + abs q + abs r
  return ⟨p / s, q / s, r / s, t.x⟩

def mayStart (h : Grid α n n) (u : Lead α) (m : ℕ) : Outcome α Bool := do
  let prev ← Size.sub m 1
  let next ← Size.add m 1
  return decide (abs (← h.read m prev) * (abs u.q + abs u.r) < epsilon * (abs u.p *
    (abs (← h.read prev prev) + abs (← h.read m m) + abs (← h.read next next))))

def startLead (h : Grid α n n) (t : DoubleShift α) (l : ℕ) : ℕ → Outcome α (ℕ × Lead α)
  | 0 => do
    let u ← leadAt h t 0
    if l = 0 then return (0, u) else abort .subtractOverflow
  | m + 1 => do
    let u ← leadAt h t (m + 1)
    if m + 1 = l then return (m + 1, u)
    else if ← mayStart h u (m + 1) then return (m + 1, u)
    else startLead h t l m

def clearBulgeStep (first : ℕ) (h : Grid α n n) (i : ℕ) : Outcome α (Grid α n n) := do
  let h ← h.write i (← Size.sub i 2) 0
  if first < i then h.write i (← Size.sub i 3) 0 else return h

def clearBulge (m b : ℕ) (h : Grid α n n) : Outcome α (Grid α n n) := do
  let first ← Size.add m 2
  ascending first (b + 1) (clearBulgeStep first) h

def thirdEntry (h : Grid α n n) (b k prev : ℕ) : Outcome α α := do
  if k = (← Size.sub b 1) then return 0 else h.read (← Size.add k 2) prev

def leadBelow (h : Grid α n n) (b k : ℕ) : Outcome α (Lead α) := do
  let prev ← Size.sub k 1
  let p ← h.read k prev
  let q ← h.read (← Size.add k 1) prev
  let r ← thirdEntry h b k prev
  let size := abs p + abs q + abs r
  return if size == 0 then ⟨p, q, r, size⟩ else ⟨p / size, q / size, r / size, size⟩

structure Weights (α : Type) where
  x : α
  y : α
  z : α
  q : α
  r : α

def reflectRowsStep (w : Weights α) (notLast : Bool) (k : ℕ) (h : Grid α n n) (j : ℕ) :
    Outcome α (Grid α n n) := do
  let next ← Size.add k 1
  let f := (← h.read k j) + w.q * (← h.read next j)
  let (f, h) ← reflectThird notLast f h
  let h ← h.write k j ((← h.read k j) - f * w.x)
  h.write next j ((← h.read next j) - f * w.y)
where
  reflectThird (notLast : Bool) (f : α) (h : Grid α n n) : Outcome α (α × Grid α n n) := do
    if notLast then
      let after ← Size.add k 2
      let f := f + w.r * (← h.read after j)
      return (f, ← h.write after j ((← h.read after j) - f * w.z))
    else return (f, h)

def reflectColumnsStep (w : Weights α) (notLast : Bool) (k : ℕ) (h : Grid α n n) (i : ℕ) :
    Outcome α (Grid α n n) := do
  let next ← Size.add k 1
  let f := w.x * (← h.read i k) + w.y * (← h.read i next)
  let (f, h) ← reflectThird notLast f h
  let h ← h.write i k ((← h.read i k) - f)
  h.write i next ((← h.read i next) - f * w.q)
where
  reflectThird (notLast : Bool) (f : α) (h : Grid α n n) : Outcome α (α × Grid α n n) := do
    if notLast then
      let after ← Size.add k 2
      let f := f + w.z * (← h.read i after)
      return (f, ← h.write i after ((← h.read i after) - f * w.r))
    else return (f, h)

def markBefore (l m k : ℕ) (image : α) (h : Grid α n n) : Outcome α (Grid α n n) := do
  if k ≠ m then h.write k (← Size.sub k 1) image
  else if l ≠ m then
    let prev ← Size.sub k 1
    h.write k prev (-(← h.read k prev))
  else return h

def reflectAt (l m b k : ℕ) (u : Lead α) (s : RealSchur α n) : Outcome α (RealSchur α n) := do
  let size := negateIf (u.p < 0) (sqrt (u.p * u.p + u.q * u.q + u.r * u.r))
  if size == 0 then return s
  else
    let notLast := k ≠ (← Size.sub b 1)
    let form ← markBefore l m k ((-size) * u.size) s.form
    let p := u.p + size
    let w : Weights α := ⟨p / size, u.q / size, u.r / size, u.q / p, u.r / p⟩
    let form ← ascending k n (reflectRowsStep w notLast k) form
    let form ← ascending 0 (min b (← Size.add k 3) + 1) (reflectColumnsStep w notLast k) form
    let high ← Size.sub n 1
    let basis ← ascending 0 (high + 1) (reflectColumnsStep w notLast k) s.basis
    return { s with form, basis }

def chaseFrom (l m b k : ℕ) (u : Lead α) (s : RealSchur α n) : Outcome α (RealSchur α n) := do
  if u.size == 0 then return s
  else
    let s ← reflectAt l m b k u s
    if k + 1 < b then
      let u ← leadBelow s.form b (k + 1)
      chaseFrom l m b (k + 1) u s
    else return s
termination_by b - k

def doubleSweep (l b : ℕ) (t : DoubleShift α) (s : RealSchur α n) : Outcome α (RealSchur α n) := do
  let (m, u) ← startLead s.form t l (← Size.sub b 2)
  chaseFrom l m b m u { s with form := ← clearBulge m b s.form }

variable {h : Grid α n n} {s : RealSchur α n} {t : DoubleShift α}

theorem moveOrigin_eq (b : Fin n) (x : α) : moveOrigin b x s = .ok (s.moveOrigin b x) := by
  have hloop : ascending 0 (b + 1) (fun h i ↦ do h.write i i ((← h.read i i) - x)) s.form =
      .ok (Grid.ofFn fun i j ↦ if i = j ∧ i ≤ b then s.form i j - x else s.form i j) := by
    refine (ascending_row_entries id (F := fun i row ↦ row i - x) (Nat.zero_le _) b.isLt
      (fun i g _ _ ↦ ?_) s.form).trans (congrArg _ (Grid.ext fun r l ↦ ?_))
    · simp only [Grid.read_fin, Grid.write_fin, Outcome.ok_bind, id_eq]
    · rw [Grid.ofFn_apply, Grid.ofFn_apply]
      grind
  rw [moveOrigin, hloop]
  rfl

theorem secondExceptionalShift_eq (b : Fin n) (t : DoubleShift α) :
    secondExceptionalShift b t s = .ok (match nearRoot? t with
      | some x => ([.secondExceptionalShift b], ⟨0.964, 0.964, 0.964⟩, s.moveOrigin b x)
      | none => ([], t, s)) := by
  rw [secondExceptionalShift]
  cases nearRoot? t with
  | some x =>
    simp only [moveOrigin_eq, Outcome.ok_bind]
    rfl
  | none => rfl

theorem nextShift_eq (done : ℕ) {a b c : Fin n} (hab : a.val + 1 = b.val)
    (hca : c.val + 1 = a.val) : nextShift done b s = .ok (s.nextShift done c a b) := by
  have hsub : (Size.sub b 1 : Outcome α ℕ) = .ok a := by
    rw [← hab]
    exact Size.sub_of_le (Nat.le_add_left 1 _)
  have hsub₂ : (Size.sub b 2 : Outcome α ℕ) = .ok c := by
    rw [← hab, ← hca]
    exact Size.sub_of_le (Nat.le_add_left 2 _)
  simp only [nextShift, hsub, Grid.read_fin, Outcome.ok_bind]
  rw [RealSchur.nextShift]
  split
  case isTrue =>
    simp only [exceptionalShift, moveOrigin_eq, hsub, hsub₂, Grid.read_fin, Outcome.ok_bind,
      Outcome.pure_eq]
    rfl
  case isFalse =>
    split
    case isTrue => exact secondExceptionalShift_eq b _
    case isFalse => rfl

section Start

theorem leadAt_eq (hn : n + 3 < Size.wordBound) {m : ℕ} (hm : m + 2 < n) :
    leadAt h t m = .ok (firstColumn h t ⟨m, by omega⟩ ⟨m + 1, by omega⟩ ⟨m + 2, hm⟩) := by
  simp (disch := omega) only [leadAt, Size.add_of_lt, Grid.read_of_lt, Outcome.ok_bind,
    Outcome.pure_eq]
  rfl

theorem mayStart_eq (hn : n + 3 < Size.wordBound) {m : ℕ} (hm : m + 3 < n) :
    mayStart h (firstColumn h t ⟨m + 1, by omega⟩ ⟨m + 2, by omega⟩ ⟨m + 3, hm⟩) (m + 1) =
      .ok (decide (MayStart h t ⟨m, by omega⟩ ⟨m + 1, by omega⟩ ⟨m + 2, by omega⟩ ⟨m + 3, hm⟩)) := by
  simp (disch := omega) only [mayStart, Size.add_of_lt, Size.sub_of_le, Nat.add_sub_cancel,
    Grid.read_of_lt, Outcome.ok_bind, Outcome.pure_eq]
  rfl

/-- The search ends at the row `l` at the latest, before it runs out of rows. -/
theorem startLead_eq (hn : n + 3 < Size.wordBound) {l m k : ℕ} (hl : l ≤ m) (hm : m + 2 < n)
    (hstart : sweepStart h t l m hm = k) (hk : k + 2 < n) : startLead h t l m =
      .ok (k, firstColumn h t ⟨k, by omega⟩ ⟨k + 1, by omega⟩ ⟨k + 2, hk⟩) := by
  subst hstart
  induction m with
  | zero =>
    obtain rfl := Nat.le_zero.1 hl
    rw [startLead, leadAt_eq hn hm, Outcome.ok_bind, if_pos rfl]
    rfl
  | succ m ih =>
    rw [startLead, leadAt_eq hn hm, Outcome.ok_bind]
    by_cases hlast : m + 1 = l
    · have hstop : sweepStart h t l (m + 1) hm = m + 1 := if_pos (.inl hlast)
      rw [if_pos hlast, Outcome.pure_eq]
      simp only [hstop]
    · rw [if_neg hlast, mayStart_eq hn hm, Outcome.ok_bind]
      by_cases hmay : MayStart h t ⟨m, by omega⟩ ⟨m + 1, by omega⟩ ⟨m + 2, by omega⟩ ⟨m + 3, hm⟩
      · have hstop : sweepStart h t l (m + 1) hm = m + 1 := if_pos (.inr hmay)
        rw [if_pos (decide_eq_true hmay), Outcome.pure_eq]
        simp only [hstop]
      · have hnext : sweepStart h t l (m + 1) hm = sweepStart h t l m (by omega) :=
          if_neg fun h ↦ h.elim hlast hmay
        rw [if_neg fun h ↦ hmay (of_decide_eq_true h)]
        simp only [hnext] at hk ⊢
        exact ih (by omega) (by omega) hk

theorem clearBulge_eq (hn : n + 3 < Size.wordBound) {m b : ℕ} (hm : m + 2 ≤ b) (hb : b < n) :
    clearBulge m b h = .ok (RealSchur.clearBulge m b h) := by
  rw [clearBulge, Size.add_of_lt (by omega), Outcome.ok_bind]
  refine (ascending_rows (F := fun r row l ↦
      if l.val + 2 = r.val ∨ (l.val + 3 = r.val ∧ m + 2 < r.val) then 0 else row l) (by omega) hb
    (fun i g hi hib ↦ ?_) h).trans (congrArg _ (Grid.ext fun r l ↦ ?_))
  · have hi' := i.isLt
    rw [clearBulgeStep, Size.sub_of_le (by omega), Outcome.ok_bind,
      Grid.write_of_lt g i.isLt (by omega), Outcome.ok_bind]
    split
    case isTrue hlt =>
      rw [Size.sub_of_le (by omega), Outcome.ok_bind, Grid.write_of_lt _ i.isLt (by omega)]
      refine congrArg _ (Grid.ext fun r l ↦ ?_)
      simp only [Grid.set_apply, Grid.ofFn_apply, Fin.ext_iff]
      grind
    case isFalse hle =>
      refine congrArg _ (Grid.ext fun r l ↦ ?_)
      simp only [Grid.set_apply, Grid.ofFn_apply, Fin.ext_iff]
      grind
  · rw [RealSchur.clearBulge, Grid.ofFn_apply, Grid.ofFn_apply]
    grind

end Start

section Reflect

theorem thirdEntry_eq (hn : n + 3 < Size.wordBound) {b k : ℕ} (hb : b < n) (hk : k < b)
    (c : Fin n) : thirdEntry h b k c = .ok ((thirdRow k hb).elim 0 fun r ↦ h r c) := by
  have hc := c.isLt
  rw [thirdEntry, Size.sub_of_le (by omega), Outcome.ok_bind, thirdRow]
  by_cases hlast : k + 2 ≤ b
  · rw [if_neg (by omega), dif_pos hlast, Size.add_of_lt (by omega), Outcome.ok_bind,
      Grid.read_of_lt h (by omega) hc]
    rfl
  · rw [if_pos (by omega), dif_neg hlast]
    rfl

theorem leadBelow_eq (hn : n + 3 < Size.wordBound) {b k : ℕ} (hb : b < n) (hk : k + 2 ≤ b) :
    leadBelow h b (k + 1) = .ok (columnLead h ⟨k, by omega⟩ ⟨k + 1, by omega⟩ ⟨k + 2, by omega⟩
      (thirdRow (k + 1) hb)) := by
  have hthird := thirdEntry_eq (h := h) hn hb (k := k + 1) hk ⟨k, by omega⟩
  simp only at hthird
  simp (disch := omega) only [leadBelow, Size.sub_of_le, Size.add_of_lt, Nat.add_sub_cancel,
    Grid.read_of_lt, hthird, Outcome.ok_bind, Outcome.pure_eq]
  rfl

variable {T : Reflector α n}

def reflectedColumn (T : Reflector α n) (col : Fin n → α) (r : Fin n) : α :=
  let f := col T.i + T.q * col T.j
  let f := match T.third with
    | some k => f + T.r * col k
    | none => f
  if r = T.i then col r - f * T.x
  else if r = T.j then col r - f * T.y
  else if some r = T.third then col r - f * T.z
  else col r

def reflectedRow (T : Reflector α n) (row : Fin n → α) (l : Fin n) : α :=
  let f := T.x * row T.i + T.y * row T.j
  let f := match T.third with
    | some k => f + T.z * row k
    | none => f
  if l = T.i then row l - f
  else if l = T.j then row l - f * T.q
  else if some l = T.third then row l - f * T.r
  else row l

structure Adjacent (T : Reflector α n) : Prop where
  second : T.j.val = T.i.val + 1
  third : ∀ k, T.third = some k → k.val = T.i.val + 2

namespace Adjacent

variable (hT : Adjacent T)

include hT

omit [Scalar α] in
theorem ne : T.i ≠ T.j := fun h ↦ by
  have := hT.second
  rw [h] at this
  omega

omit [Scalar α] in
theorem ne_third {k : Fin n} (hk : T.third = some k) : T.i ≠ k ∧ T.j ≠ k := by
  have hsecond := hT.second
  have hthird := hT.third k hk
  refine ⟨fun h ↦ ?_, fun h ↦ ?_⟩
  · rw [h] at hthird
    omega
  · rw [h] at hsecond
    omega

omit [Scalar α] in
theorem add_one (hn : n + 3 < Size.wordBound) : (Size.add T.i 1 : Outcome α ℕ) = .ok T.j := by
  have hi := T.i.isLt
  rw [hT.second]
  exact Size.add_of_lt (by omega)

omit [Scalar α] in
theorem add_two (hn : n + 3 < Size.wordBound) {k : Fin n} (hk : T.third = some k) :
    (Size.add T.i 2 : Outcome α ℕ) = .ok k := by
  have hi := T.i.isLt
  rw [hT.third k hk]
  exact Size.add_of_lt (by omega)

end Adjacent

theorem reflectRowsStep_eq (hn : n + 3 < Size.wordBound) (hT : Adjacent T) (j : Fin n) :
    reflectRowsStep ⟨T.x, T.y, T.z, T.q, T.r⟩ T.third.isSome T.i h j =
      .ok (Grid.ofFn fun r l ↦ if l = j then reflectedColumn T (fun r ↦ h r l) r else h r l) := by
  have hne := hT.ne
  cases hthird : T.third with
  | none =>
    simp only [reflectRowsStep, reflectRowsStep.reflectThird, hT.add_one hn, Grid.read_fin,
      Grid.write_fin, Outcome.ok_bind, Option.isSome_none, Bool.false_eq_true, if_false,
      Outcome.pure_eq]
    refine congrArg _ (Grid.ext fun r l ↦ ?_)
    simp only [Grid.set_apply, Grid.ofFn_apply, reflectedColumn, hthird]
    grind
  | some c =>
    have hc := hT.ne_third hthird
    simp only [reflectRowsStep, reflectRowsStep.reflectThird, hT.add_one hn, hT.add_two hn hthird,
      Grid.read_fin, Grid.write_fin, Outcome.ok_bind, Option.isSome_some, if_true, Outcome.pure_eq]
    refine congrArg _ (Grid.ext fun r l ↦ ?_)
    simp only [Grid.set_apply, Grid.ofFn_apply, reflectedColumn, hthird]
    grind

theorem reflectColumnsStep_eq (hn : n + 3 < Size.wordBound) (hT : Adjacent T) (i : Fin n) :
    reflectColumnsStep ⟨T.x, T.y, T.z, T.q, T.r⟩ T.third.isSome T.i h i =
      .ok (Grid.ofFn fun r l ↦ if r = i then reflectedRow T (h r) l else h r l) := by
  have hne := hT.ne
  cases hthird : T.third with
  | none =>
    simp only [reflectColumnsStep, reflectColumnsStep.reflectThird, hT.add_one hn, Grid.read_fin,
      Grid.write_fin, Outcome.ok_bind, Option.isSome_none, Bool.false_eq_true, if_false,
      Outcome.pure_eq]
    refine congrArg _ (Grid.ext fun r l ↦ ?_)
    simp only [Grid.set_apply, Grid.ofFn_apply, reflectedRow, hthird]
    grind
  | some c =>
    have hc := hT.ne_third hthird
    simp only [reflectColumnsStep, reflectColumnsStep.reflectThird, hT.add_one hn,
      hT.add_two hn hthird, Grid.read_fin, Grid.write_fin, Outcome.ok_bind, Option.isSome_some,
      if_true, Outcome.pure_eq]
    refine congrArg _ (Grid.ext fun r l ↦ ?_)
    simp only [Grid.set_apply, Grid.ofFn_apply, reflectedRow, hthird]
    grind

theorem applyRows_eq (hn : n + 3 < Size.wordBound) (hT : Adjacent T) :
    ascending T.i n (reflectRowsStep ⟨T.x, T.y, T.z, T.q, T.r⟩ T.third.isSome T.i) h =
      .ok (T.applyRows h) := by
  refine (ascending_columns (F := fun _ column r ↦ reflectedColumn T column r) T.i.isLt.le le_rfl
    (fun j g _ _ ↦ reflectRowsStep_eq hn hT j) h).trans (congrArg _ (Grid.ext fun r l ↦ ?_))
  rw [Reflector.applyRows, Grid.ofFn_apply, Grid.ofFn_apply, Tuple.ofFn_apply]
  exact if_congr ⟨fun h ↦ h.1, fun h ↦ ⟨h, l.isLt⟩⟩ rfl rfl

theorem applyColumns_eq (hn : n + 3 < Size.wordBound) (hT : Adjacent T) {hi : ℕ} (hhi : hi ≤ n)
    {p : Fin n → Prop} [DecidablePred p] (hp : ∀ i, p i ↔ i.val < hi) :
    ascending 0 hi (reflectColumnsStep ⟨T.x, T.y, T.z, T.q, T.r⟩ T.third.isSome T.i) h =
      .ok (T.applyColumns p h) := by
  refine (ascending_rows (F := fun _ row l ↦ reflectedRow T row l) (Nat.zero_le _) hhi
    (fun i g _ _ ↦ reflectColumnsStep_eq hn hT i) h).trans (congrArg _ (Grid.ext fun r l ↦ ?_))
  rw [Reflector.applyColumns, Grid.ofFn_apply, Grid.ofFn_apply, Tuple.ofFn_apply]
  exact if_congr ((and_iff_right (Nat.zero_le _)).trans (hp r).symm) rfl rfl

theorem markBefore_eq {l m k : ℕ} (hk : k < n) (hlm : l ≤ m) (hmk : m ≤ k) (image : α) :
    markBefore l m k image h = .ok (
      let before : Fin n := ⟨k - 1, by omega⟩
      if m < k then h.set ⟨k, hk⟩ before image
      else if l < k then h.set ⟨k, hk⟩ before (-h ⟨k, hk⟩ before)
      else h) := by
  rw [markBefore]
  by_cases hm : m < k
  · rw [if_pos (by omega), Size.sub_of_le (by omega), Outcome.ok_bind,
      Grid.write_of_lt h hk (by omega)]
    exact congrArg _ (if_pos hm).symm
  · rw [if_neg (by omega)]
    by_cases hl : l < k
    · rw [if_pos (by omega), Size.sub_of_le (by omega), Outcome.ok_bind,
        Grid.read_of_lt h hk (by omega), Outcome.ok_bind, Grid.write_of_lt h hk (by omega)]
      exact congrArg _ ((if_neg hm).trans (if_pos hl)).symm
    · rw [if_neg (by omega)]
      exact congrArg _ ((if_neg hm).trans (if_neg hl)).symm

theorem isSome_thirdRow {b k : ℕ} (hb : b < n) (hk : k + 1 ≤ b) :
    (thirdRow k hb).isSome = decide (k ≠ b - 1) := by
  rw [thirdRow]
  by_cases hlast : k + 2 ≤ b
  · rw [dif_pos hlast]
    exact (decide_eq_true (by omega)).symm
  · rw [dif_neg hlast]
    exact (decide_eq_false (by omega)).symm

def reflectorAt {b k : ℕ} (hb : b < n) (hk : k + 1 ≤ b) (u : Lead α) (size : α) : Reflector α n where
  i := ⟨k, (Nat.lt_of_succ_le hk).trans hb⟩
  j := ⟨k + 1, hk.trans_lt hb⟩
  third := thirdRow k hb
  x := (u.p + size) / size
  y := u.q / size
  z := u.r / size
  q := u.q / (u.p + size)
  r := u.r / (u.p + size)

theorem adjacent_reflectorAt {b k : ℕ} (hb : b < n) (hk : k + 1 ≤ b) (u : Lead α) (size : α) :
    Adjacent (reflectorAt hb hk u size) where
  second := rfl
  third c hc := by
    have hthird : thirdRow k hb = some c := hc
    exact (val_of_thirdRow_eq_some hthird).1

theorem reflectAt_eq (hn : n + 3 < Size.wordBound) {l m b k : ℕ} (hb : b < n) (hk : k + 1 ≤ b)
    (hlm : l ≤ m) (hmk : m ≤ k) (u : Lead α) :
    reflectAt l m b k u s = .ok (s.reflect l m b k hb hk u) := by
  rw [reflectAt, RealSchur.reflect]
  simp only
  split
  case isTrue => rfl
  case isFalse =>
    obtain ⟨size, hsize⟩ : ∃ size, size =
      negateIf (u.p < 0) (sqrt (u.p * u.p + u.q * u.q + u.r * u.r)) := ⟨_, rfl⟩
    have hT := adjacent_reflectorAt hb hk u size
    have hlast : decide (k ≠ b - 1) = (reflectorAt hb hk u size).third.isSome :=
      (isSome_thirdRow hb hk).symm
    have hhigh : (Size.sub n 1 : Outcome α ℕ) = .ok (n - 1) := Size.sub_of_le (by omega)
    have hall : n - 1 + 1 = n := by omega
    rw [Size.sub_of_le (by omega), Outcome.ok_bind, Size.add_of_lt (by omega), hhigh]
    simp only [markBefore_eq (show k < n by omega) hlm hmk, Outcome.ok_bind, hlast, hall, ← hsize]
    exact Except.bind_eq_ok.2 ⟨_, applyRows_eq hn hT, Except.bind_eq_ok.2
      ⟨_, applyColumns_eq hn hT (by omega) fun i ↦ Nat.lt_succ_iff.symm, Except.bind_eq_ok.2
        ⟨_, applyColumns_eq hn hT le_rfl fun i ↦ iff_of_true trivial i.isLt, rfl⟩⟩⟩

end Reflect

theorem chaseFrom_eq (hn : n + 3 < Size.wordBound) {l m b k : ℕ} (hb : b < n) (hk : k + 1 ≤ b)
    (hlm : l ≤ m) (hmk : m ≤ k) (u : Lead α) :
    chaseFrom l m b k u s = .ok (s.chase l m hb k hk u) := by
  fun_induction RealSchur.chase l m hb k hk u s with
  | case1 k hk u s hzero => rw [chaseFrom, if_pos hzero, Outcome.pure_eq]
  | case2 k hk u s hsize s' hnext u' ih =>
    have hlt : k + 1 < b := hnext
    rw [chaseFrom, if_neg hsize, reflectAt_eq hn hb hk hlm hmk, Outcome.ok_bind, if_pos hlt,
      leadBelow_eq hn hb hnext, Outcome.ok_bind]
    exact ih (Nat.le_succ_of_le hmk)
  | case3 k hk u s hsize s' hlast =>
    have hge : ¬ k + 1 < b := hlast
    rw [chaseFrom, if_neg hsize, reflectAt_eq hn hb hk hlm hmk, Outcome.ok_bind, if_neg hge,
      Outcome.pure_eq]

theorem doubleSweep_eq (hn : n + 3 < Size.wordBound) {l b : ℕ} (hb : b < n) (hl : l + 2 ≤ b) :
    doubleSweep l b t s = .ok (s.sweep l hb hl t) := by
  have hstart := sweepStart_le s.form t l (b - 2) (by omega)
  have hle := le_sweepStart s.form t l (b - 2) (by omega) (by omega)
  rw [doubleSweep, Size.sub_of_le (by omega), Outcome.ok_bind,
    startLead_eq hn (by omega) (by omega) rfl (by omega), Outcome.ok_bind]
  simp only [clearBulge_eq hn (show sweepStart s.form t l (b - 2) (by omega) + 2 ≤ b by omega) hb,
    Outcome.ok_bind]
  exact chaseFrom_eq hn hb (by omega) hle le_rfl _

end DenseDecomp.Indexed
