import Mathlib.Data.List.FinRange
import DenseDecomp.Eigen.Spectrum
import DenseDecomp.Proofs.Indexed.Access

namespace DenseDecomp.Indexed

open Scalar RealSchur.BackSubstitution

variable {α : Type} [Scalar α] {n : ℕ}

structure Pending (α : Type) (n : ℕ) where
  form : Grid α n n
  solved : ℕ
  diag : α
  first : α
  second : α

def contribution (s : Pending α n) (b i l : ℕ) : Outcome α α :=
  ascending s.solved (b + 1)
    (fun acc j ↦ do return acc + (← s.form.read i j) * (← s.form.read j l)) 0

def divideEntry (l : ℕ) (t : α) (h : Grid α n n) (k : ℕ) : Outcome α (Grid α n n) := do
  h.write k l ((← h.read k l) / t)

def rescaleColumn (i b : ℕ) (t : α) (h : Grid α n n) : Outcome α (Grid α n n) := do
  if 1 < (epsilon * t) * t then ascending i (b + 1) (divideEntry b t) h else return h

def rescaleColumns (i a b : ℕ) (t : α) (h : Grid α n n) : Outcome α (Grid α n n) := do
  if 1 < (epsilon * t) * t then
    ascending i (b + 1) (fun h k ↦ do divideEntry b t (← divideEntry a t h k) k) h
  else return h

def realBlock (re im : Tuple α n) (b i : ℕ) (w r : α) (s : Pending α n) :
    Outcome α (Grid α n n) := do
  let next ← Size.add i 1
  let p ← re.read b
  let x ← s.form.read i next
  let y ← s.form.read next i
  let denom := ((← re.read i) - p) * ((← re.read i) - p) + (← im.read i) * (← im.read i)
  let t := (x * s.first - s.diag * r) / denom
  let form ← s.form.write i b t
  form.write next b
    (if abs s.diag < abs x then (-r - w * t) / x else (-s.first - y * t) / s.diag)

def realEntry (re im : Tuple α n) (norm : α) (b i : ℕ) (w r : α) (s : Pending α n) :
    Outcome α (Grid α n n) := do
  if (← im.read i) == 0 then s.form.write i b (-r / if w == 0 then epsilon * norm else w)
  else realBlock re im b i w r s

def realRow (re im : Tuple α n) (norm : α) (b : ℕ) (s : Pending α n) (i : ℕ) :
    Outcome α (Pending α n) := do
  let w := (← s.form.read i i) - (← re.read b)
  let r ← contribution s b i b
  if (← im.read i) < 0 then return { s with diag := w, first := r }
  else
    let form ← realEntry re im norm b i w r s
    let form ← rescaleColumn i b (abs (← form.read i b)) form
    return { s with form, solved := i }

def realColumn (re im : Tuple α n) (norm : α) (b : ℕ) (h : Grid α n n) :
    Outcome α (Grid α n n) := do
  let s ← descending 0 b (realRow re im norm b) ⟨← h.write b b 1, b, 0, 0, 0⟩
  return s.form

def setPair (i a b : ℕ) (z : α × α) (h : Grid α n n) : Outcome α (Grid α n n) := do
  (← h.write i a z.1).write i b z.2

def complexBlock (re im : Tuple α n) (norm : α) (a b i : ℕ) (w ra sa : α) (s : Pending α n) :
    Outcome α (Grid α n n) := do
  let next ← Size.add i 1
  let p ← re.read b
  let q ← im.read b
  let x ← s.form.read i next
  let y ← s.form.read next i
  let z := s.diag
  let vr := ((← re.read i) - p) * ((← re.read i) - p) + (← im.read i) * (← im.read i) - q * q
  let vi := ((← re.read i) - p) * 2.0 * q
  let vr :=
    if vr == 0 && vi == 0 then epsilon * norm * (abs w + abs q + abs x + abs y + abs z) else vr
  let u := complexQuotient (x * s.first - z * ra + q * sa) (x * s.second - z * sa - q * ra) vr vi
  let form ← setPair i a b u s.form
  setPair next a b
    (if abs z + abs q < abs x then
      ((-ra - w * u.1 + q * u.2) / x, (-sa - w * u.2 - q * u.1) / x)
    else complexQuotient (-s.first - y * u.1) (-s.second - y * u.2) z q) form

def complexEntry (re im : Tuple α n) (norm : α) (a b i : ℕ) (w ra sa : α) (s : Pending α n) :
    Outcome α (Grid α n n) := do
  if (← im.read i) == 0 then setPair i a b (complexQuotient (-ra) (-sa) w (← im.read b)) s.form
  else complexBlock re im norm a b i w ra sa s

def complexRow (re im : Tuple α n) (norm : α) (a b : ℕ) (s : Pending α n) (i : ℕ) :
    Outcome α (Pending α n) := do
  let ra ← contribution s b i a
  let sa ← contribution s b i b
  let w := (← s.form.read i i) - (← re.read b)
  if (← im.read i) < 0 then return { s with diag := w, first := ra, second := sa }
  else
    let form ← complexEntry re im norm a b i w ra sa s
    let t := maxNum (abs (← form.read i a)) (abs (← form.read i b))
    return { s with form := ← rescaleColumns i a b t form, solved := i }

def complexEnd (re im : Tuple α n) (a b : ℕ) (h : Grid α n n) : Outcome α (Grid α n n) := do
  let p ← re.read b
  let q ← im.read b
  let corner ← h.read b a
  let above ← h.read a b
  let upper ← h.read a a
  let lower ← h.read b b
  let z :=
    if abs above < abs corner then (q / corner, -(lower - p) / corner)
    else complexQuotient 0 (-above) (upper - p) q
  setPair b a b (0, 1) (← setPair a a b z h)

def complexColumns (re im : Tuple α n) (norm : α) (b : ℕ) (h : Grid α n n) :
    Outcome α (Grid α n n) := do
  let a ← Size.sub b 1
  let s ← descending 0 a (complexRow re im norm a b) ⟨← complexEnd re im a b h, a, 0, 0, 0⟩
  return s.form

def eigenvectorColumn (re im : Tuple α n) (norm : α) (h : Grid α n n) (b : ℕ) :
    Outcome α (Grid α n n) := do
  let q ← im.read b
  if q == 0 then realColumn re im norm b h
  else if q < 0 then complexColumns re im norm b h
  else return h

def eigenvectors (re im : Tuple α n) (norm : α) (h : Grid α n n) : Outcome α (Grid α n n) :=
  descending 0 n (eigenvectorColumn re im norm) h

def backTransformEntry (h : Grid α n n) (j : ℕ) (v : Grid α n n) (i : ℕ) :
    Outcome α (Grid α n n) := do
  let high ← Size.sub n 1
  let z ← ascending 0 (min j high + 1)
    (fun acc k ↦ do return acc + (← v.read i k) * (← h.read k j)) 0
  v.write i j z

def backTransform (v h : Grid α n n) : Outcome α (Grid α n n) :=
  descending 0 n (fun v j ↦ ascending 0 n (backTransformEntry h j) v) v

def Pending.ofState (s : State α n) : Pending α n := ⟨s.form, s.solved, s.diag, s.first, s.second⟩

omit [Scalar α] in
theorem Pending.form_ofState (s : State α n) : (ofState s).form = s.form := rfl

variable {B : Blocks α n} {a b i j : Fin n} {h : Grid α n n} {s : State α n} {t w r : α}

theorem contribution_eq (b i l : Fin n) : contribution (.ofState s) b i l =
    .ok (RealSchur.BackSubstitution.contribution s b i l) := by
  refine ascending_sum b.isLt (fun j ↦ and_congr_right fun _ ↦ Nat.lt_succ_iff.symm)
    fun j acc _ ↦ ?_
  simp only [Pending.ofState, Grid.read_fin, Outcome.ok_bind, Outcome.pure_eq]

theorem divideEntry_eq (l k : Fin n) : divideEntry l t h k = .ok (h.set k l (h k l / t)) := by
  rw [divideEntry, Grid.read_fin, Outcome.ok_bind, Grid.write_fin]

theorem rescaleColumn_eq (i b : Fin n) : rescaleColumn i b t h = .ok (rescale i b b t h) := by
  rw [rescaleColumn, rescale]
  split
  case isTrue =>
    obtain hib | hbi := le_or_gt i.val b.val
    · refine (ascending_row_entries (fun _ ↦ b) (F := fun _ row ↦ row b / t) (Nat.le_succ_of_le hib)
        b.isLt (fun k g _ _ ↦ divideEntry_eq b k) h).trans (congrArg _ (Grid.ext fun k l ↦ ?_))
      rw [Grid.ofFn_apply, Grid.ofFn_apply]
      grind
    · rw [ascending_of_le hbi]
      refine congrArg _ (Grid.ext fun k l ↦ ?_)
      rw [Grid.ofFn_apply, if_neg (by omega)]
  case isFalse => rfl

theorem rescaleColumns_eq (i : Fin n) (hab : a ≠ b) :
    rescaleColumns i a b t h = .ok (rescale i a b t h) := by
  rw [rescaleColumns, rescale]
  split
  case isTrue =>
    obtain hib | hbi := le_or_gt i.val b.val
    · refine (ascending_rows (F := fun _ row l ↦ if l = a ∨ l = b then row l / t else row l)
        (Nat.le_succ_of_le hib) b.isLt (fun k g _ _ ↦ ?_) h).trans
          (congrArg _ (Grid.ext fun k l ↦ ?_))
      · rw [divideEntry_eq, Outcome.ok_bind, divideEntry_eq]
        refine congrArg _ (Grid.ext fun r l ↦ ?_)
        simp only [Grid.set_apply, Grid.ofFn_apply]
        grind
      · rw [Grid.ofFn_apply, Grid.ofFn_apply]
        grind
    · rw [ascending_of_le hbi]
      refine congrArg _ (Grid.ext fun k l ↦ ?_)
      rw [Grid.ofFn_apply, if_neg (by omega)]
  case isFalse => rfl

theorem realBlock_eq (hn : n + 1 < Size.wordBound) (hj : j.val = i.val + 1) :
    realBlock B.re B.im b i w r (.ofState s) =
      .ok (RealSchur.BackSubstitution.realBlock B b i j w r s) := by
  have hi := i.isLt
  have hnext : (Size.add i 1 : Outcome α ℕ) = .ok j := by
    rw [hj]
    exact Size.add_of_lt (by omega)
  simp only [realBlock, hnext, Pending.ofState, Tuple.read_fin, Grid.read_fin, Grid.write_fin,
    Outcome.ok_bind]
  rfl

theorem realEntry_eq (hn : n + 1 < Size.wordBound) (hj : j.val = i.val + 1) :
    realEntry B.re B.im B.norm b i w r (.ofState s) = .ok (
      if B.im i == 0 then s.form.set i b (-r / if w == 0 then epsilon * B.norm else w)
      else RealSchur.BackSubstitution.realBlock B b i j w r s) := by
  rw [realEntry, Tuple.read_fin, Outcome.ok_bind]
  split
  case isTrue => rw [Pending.form_ofState, Grid.write_fin]
  case isFalse => exact realBlock_eq hn hj

theorem realRow_eq (hn : n + 1 < Size.wordBound) (hi : i < b) :
    realRow B.re B.im B.norm b (.ofState s) i =
      .ok (.ofState (RealSchur.BackSubstitution.realRow B b i hi s)) := by
  have hb := b.isLt
  rw [realRow, Pending.form_ofState, Grid.read_fin, Outcome.ok_bind, Tuple.read_fin,
    Outcome.ok_bind, contribution_eq, Outcome.ok_bind, Tuple.read_fin, Outcome.ok_bind,
    RealSchur.BackSubstitution.realRow]
  simp only
  split
  case isTrue => rfl
  case isFalse =>
    rw [realEntry_eq (j := ⟨i + 1, by omega⟩) hn rfl, Outcome.ok_bind, Grid.read_fin,
      Outcome.ok_bind, rescaleColumn_eq]
    rfl

omit [Scalar α] in
theorem rowLoop_eq {body : Pending α n → ℕ → Outcome α (Pending α n)}
    {step : (i : Fin n) → i < b → State α n → State α n}
    (hs : ∀ i s (hi : i < b), body (.ofState s) i = .ok (.ofState (step i hi s))) (s : State α n) :
    descending 0 b body (.ofState s) =
      .ok (.ofState (Fin.foldr n (fun i s ↦ if hi : i < b then step i hi s else s) s)) := by
  have hround : ∀ (i : Fin n) s, i < b → body (.ofState s) i =
      .ok (.ofState (if hi : i < b then step i hi s else s)) := fun i s hi ↦ by
    rw [dif_pos hi]
    exact hs i s hi
  have hloop : descending 0 b body (.ofState s) = .ok (.ofState (Fin.foldr n
      (fun i s ↦ if i < b then if hi : i < b then step i hi s else s else s) s)) :=
    descending_eq_map_foldr Pending.ofState 0 le_rfl b.isLt.le
      (fun i ↦ (and_iff_right (Nat.zero_le _)).symm) hround s
  have hstep : (fun i s ↦ if i < b then if hi : i < b then step i hi s else s else s) =
      fun i s ↦ if hi : i < b then step i hi s else s := by
    funext i s
    by_cases hi : i < b
    · rw [if_pos hi]
    · rw [if_neg hi, dif_neg hi]
  rwa [hstep] at hloop

theorem realColumn_eq (hn : n + 1 < Size.wordBound) :
    realColumn B.re B.im B.norm b h = .ok (RealSchur.BackSubstitution.realColumn B b h) := by
  rw [realColumn, Grid.write_fin, Outcome.ok_bind]
  exact Except.bind_eq_ok.2 ⟨_, rowLoop_eq (fun i s hi ↦ realRow_eq hn hi)
    { form := h.set b b 1, solved := b, diag := 0, first := 0, second := 0 }, rfl⟩

omit [Scalar α] in
theorem setPair_eq (i a b : Fin n) (z : α × α) :
    setPair i a b z h = .ok (RealSchur.BackSubstitution.setPair i a b z h) := by
  rw [setPair, Grid.write_fin, Outcome.ok_bind, Grid.write_fin]
  rfl

theorem complexBlock_eq (hn : n + 1 < Size.wordBound) (hj : j.val = i.val + 1) (ra sa : α) :
    complexBlock B.re B.im B.norm a b i w ra sa (.ofState s) =
      .ok (RealSchur.BackSubstitution.complexBlock B a b i j w ra sa s) := by
  have hi := i.isLt
  have hnext : (Size.add i 1 : Outcome α ℕ) = .ok j := by
    rw [hj]
    exact Size.add_of_lt (by omega)
  simp only [complexBlock, hnext, Pending.ofState, Tuple.read_fin, Grid.read_fin, setPair_eq,
    Outcome.ok_bind]
  rfl

theorem complexEntry_eq (hn : n + 1 < Size.wordBound) (hj : j.val = i.val + 1) (ra sa : α) :
    complexEntry B.re B.im B.norm a b i w ra sa (.ofState s) = .ok (
      if B.im i == 0 then
        RealSchur.BackSubstitution.setPair i a b (complexQuotient (-ra) (-sa) w (B.im b)) s.form
      else RealSchur.BackSubstitution.complexBlock B a b i j w ra sa s) := by
  rw [complexEntry, Tuple.read_fin, Outcome.ok_bind]
  split
  case isTrue => rw [Tuple.read_fin, Outcome.ok_bind, Pending.form_ofState, setPair_eq]
  case isFalse => exact complexBlock_eq hn hj ra sa

theorem complexRow_eq (hn : n + 1 < Size.wordBound) (hab : a ≠ b) (hi : i < a) :
    complexRow B.re B.im B.norm a b (.ofState s) i =
      .ok (.ofState (RealSchur.BackSubstitution.complexRow B a b i hi s)) := by
  have ha := a.isLt
  rw [complexRow, contribution_eq, Outcome.ok_bind, contribution_eq, Outcome.ok_bind,
    Pending.form_ofState, Grid.read_fin, Outcome.ok_bind, Tuple.read_fin, Outcome.ok_bind,
    Tuple.read_fin, Outcome.ok_bind, RealSchur.BackSubstitution.complexRow]
  simp only
  split
  case isTrue => rfl
  case isFalse =>
    rw [complexEntry_eq (j := ⟨i + 1, by omega⟩) hn rfl, Outcome.ok_bind, Grid.read_fin,
      Outcome.ok_bind, Grid.read_fin, Outcome.ok_bind, rescaleColumns_eq i hab]
    rfl

theorem complexEnd_eq : complexEnd B.re B.im a b h =
    .ok (RealSchur.BackSubstitution.complexEnd B a b h) := by
  simp only [complexEnd, Tuple.read_fin, Grid.read_fin, setPair_eq, Outcome.ok_bind]
  rfl

theorem complexColumns_eq (hn : n + 1 < Size.wordBound) (hab : a.val + 1 = b.val) :
    complexColumns B.re B.im B.norm b h =
      .ok (RealSchur.BackSubstitution.complexColumns B a b h) := by
  have hne : a ≠ b := fun h ↦ by
    rw [h] at hab
    omega
  have hsub : (Size.sub b 1 : Outcome α ℕ) = .ok a := by
    rw [← hab]
    exact Size.sub_of_le (Nat.le_add_left 1 _)
  rw [complexColumns, hsub, Outcome.ok_bind, complexEnd_eq, Outcome.ok_bind]
  exact Except.bind_eq_ok.2 ⟨_, rowLoop_eq (fun i s hi ↦ complexRow_eq hn hne hi)
    { form := RealSchur.BackSubstitution.complexEnd B a b h, solved := a, diag := 0, first := 0,
      second := 0 }, rfl⟩

/-- The one index that may fail is the one before the first, where a pair has no upper row. -/
theorem eigenvectorColumn_eq (hn : n + 1 < Size.wordBound) :
    eigenvectorColumn B.re B.im B.norm h b = column B b h := by
  rw [eigenvectorColumn, Tuple.read_fin, Outcome.ok_bind, column]
  split
  case isTrue => exact realColumn_eq hn
  case isFalse =>
    split
    case isTrue =>
      split
      case isTrue hb =>
        rw [complexColumns, hb]
        rfl
      case isFalse hb =>
        exact complexColumns_eq (a := ⟨b - 1, by omega⟩) hn (Nat.sub_add_cancel (by omega))
    case isFalse => rfl

theorem eigenvectors_eq (hn : n + 1 < Size.wordBound) (h : Grid α n n) :
    eigenvectors B.re B.im B.norm h = RealSchur.BackSubstitution.eigenvectors B h := by
  rw [eigenvectors, descending, Nat.sub_zero, ← List.range_eq_range',
    ← List.map_coe_finRange_eq_range, ← List.map_reverse, List.foldlM_map]
  refine congrArg (fun f ↦ List.foldlM f h (List.finRange n).reverse) ?_
  funext h b
  exact eigenvectorColumn_eq hn

theorem backTransformEntry_eq (v h : Grid α n n) (i j : Fin n) : backTransformEntry h j v i =
    .ok (v.set i j (sumWhere (· ≤ j) fun k ↦ v i k * h k j)) := by
  have hj := j.isLt
  have hsum : ascending 0 (min j.val (n - 1) + 1)
      (fun acc k ↦ do return acc + (← v.read i k) * (← h.read k j)) 0 =
        .ok (sumWhere (· ≤ j) fun k ↦ v i k * h k j) := by
    refine ascending_sum (by omega) (fun k ↦ ?_) fun k acc _ ↦ ?_
    · rw [Fin.le_def]
      omega
    · simp only [Grid.read_fin, Outcome.ok_bind, Outcome.pure_eq]
  rw [backTransformEntry, Size.sub_of_le (by omega), Outcome.ok_bind, hsum, Outcome.ok_bind,
    Grid.write_fin]

/-- The columns from `t` on are changed, and those before it are still the columns of the basis. -/
def changedFrom (v h : Grid α n n) (t : ℕ) : Grid α n n :=
  Grid.ofFn fun i l ↦ if t ≤ l.val then sumWhere (· ≤ l) fun k ↦ v i k * h k l else v i l

theorem changedFrom_step (v h : Grid α n n) (j : Fin n) :
    ascending 0 n (backTransformEntry h j) (changedFrom v h (j + 1)) = .ok (changedFrom v h j) := by
  refine (ascending_row_entries (fun _ ↦ j)
    (F := fun _ row ↦ sumWhere (· ≤ j) fun k ↦ row k * h k j) (Nat.zero_le _) le_rfl
    (fun i g _ _ ↦ backTransformEntry_eq g h i j) _).trans (congrArg _ (Grid.ext fun i l ↦ ?_))
  have hkept : (sumWhere (· ≤ j) fun k ↦ changedFrom v h (j + 1) i k * h k j) =
      sumWhere (· ≤ j) fun k ↦ v i k * h k j :=
    sumWhere_congr fun k hk ↦ by rw [changedFrom, Grid.ofFn_apply, if_neg (by omega)]
  rw [Grid.ofFn_apply, hkept, changedFrom, changedFrom, Grid.ofFn_apply, Grid.ofFn_apply]
  by_cases hl : l = j
  · rw [if_pos ⟨hl, Nat.zero_le _, i.isLt⟩, if_pos (by rw [hl]), hl]
  · have hval := Fin.val_ne_of_ne hl
    rw [if_neg fun h ↦ hl h.1]
    exact if_congr (by omega) rfl rfl

theorem backTransform_eq (v h : Grid α n n) :
    backTransform v h = .ok (Spectrum.changeBasis v h) := by
  have hloop : backTransform v h = .ok (changedFrom v h 0) := by
    refine descending_eq (changedFrom v h) (Nat.zero_le n) (Grid.ext fun i l ↦ ?_) fun t _ ht ↦ ?_
    · rw [changedFrom, Grid.ofFn_apply, if_neg (Nat.not_le_of_lt l.isLt)]
    · exact changedFrom_step v h ⟨t, ht⟩
  rw [hloop]
  refine congrArg _ (Grid.ext fun i l ↦ ?_)
  rw [changedFrom, Spectrum.changeBasis, Grid.ofFn_apply, Grid.ofFn_apply, if_pos (Nat.zero_le _)]

end DenseDecomp.Indexed
