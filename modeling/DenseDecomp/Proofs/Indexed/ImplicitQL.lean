import Mathlib.Data.Real.Basic
import DenseDecomp.Eigen.ImplicitQL
import DenseDecomp.Eigen.Pairs
import DenseDecomp.Proofs.ImplicitQL.Convergence
import DenseDecomp.Proofs.Indexed.Access
import DenseDecomp.Proofs.Sorting

namespace DenseDecomp.Indexed

open Scalar

variable {α : Type} [Scalar α] {n : ℕ}

def shiftLinks (e : Tuple α n) : Outcome α (Tuple α n) := do
  let e ← ascending 1 n (fun e i ↦ do e.write (← Size.sub i 1) (← e.read i)) e
  e.write (← Size.sub n 1) 0

def blockSearch (last : ℕ) (s : ImplicitQL α n) (m : ℕ) : Outcome α ℕ :=
  if m < last then do
    if epsilon * s.magnitude < abs (← s.link.read m) then
      let _ ← Size.add m 1
      blockSearch last s (m + 1)
    else return m
  else return m
termination_by last - m

def rotateRow (i next : ℕ) (cos sin : α) (v : Grid α n n) (k : ℕ) : Outcome α (Grid α n n) := do
  let h ← v.read k next
  let v ← v.write k next (sin * (← v.read k i) + cos * h)
  v.write k i (cos * (← v.read k i) - sin * h)

def chaseStep (t : ImplicitQL.Chase α n) (i : ℕ) : Outcome α (ImplicitQL.Chase α n) := do
  let next ← Size.add i 1
  let g := t.cos * (← t.link.read i)
  let h := t.cos * t.carried
  let r := hypot t.carried (← t.link.read i)
  let link ← t.link.write next (t.sin * r)
  let sin := (← link.read i) / r
  let cos := t.carried / r
  let carried := cos * (← t.diag.read i) - sin * g
  let diag ← t.diag.write next (h + sin * (cos * g + sin * (← t.diag.read i)))
  let basis ← ascending 0 n (rotateRow i next cos sin) t.basis
  return { basis, diag, link, carried, cos, cos₁ := t.cos, cos₂ := t.cos₁, sin, sin₁ := t.sin }

def sweep (l m : ℕ) (s : ImplicitQL α n) : Outcome α (ImplicitQL α n) := do
  let next ← Size.add l 1
  let g ← s.diag.read l
  let e ← s.link.read l
  let p := ((← s.diag.read next) - g) / (2.0 * e)
  let r := negateIf (p < 0) (hypot p 1)
  let d ← s.diag.write l (e / (p + r))
  let d ← d.write next (e * (p + r))
  let head ← d.read next
  let h := g - (← d.read l)
  let rest ← Size.add l 2
  d.checkSlice rest n
  let d ← ascending rest n (fun d i ↦ do d.write i ((← d.read i) - h)) d
  let t ← descending l m chaseStep
    ⟨s.basis, d, s.link, ← d.read m, 1, 1, 1, 0, 0⟩
  let q := (-t.sin) * t.sin₁ * t.cos₂ * (← s.link.read next) * (← t.link.read l) / head
  return ⟨t.basis, ← t.diag.write l (t.cos * q), ← t.link.write l (t.sin * q), s.shift + h,
    s.magnitude⟩

def converge (config : EigenConfig) (l m done : ℕ) (s : ImplicitQL α n) :
    Outcome α (ℕ × ImplicitQL α n) := do
  let e ← s.link.read l
  if epsilon * s.magnitude < abs e then
    config.attempt done (abs e) .error fun _ ↦ do
      let s ← sweep l m s
      converge config l m (done + 1) s
  else return (done, s)
termination_by EigenConfig.counterBound - done

def convergeBlock (config : EigenConfig) (l m : ℕ) (s : ImplicitQL α n) :
    Outcome α (ℕ × ImplicitQL α n) :=
  if l < m then converge config l m 0 s else .ok (0, s)

def settleBlock (config : EigenConfig) (s : ImplicitQL α n) (l : ℕ) :
    Outcome α (ℕ × ImplicitQL α n) := do
  let s := { s with magnitude := maxNum s.magnitude (abs (← s.diag.read l) + abs (← s.link.read l)) }
  let m ← blockSearch (← Size.sub n 1) s l
  let (sweeps, s) ← convergeBlock config l m s
  return (sweeps, { s with
    diag := ← s.diag.write l ((← s.diag.read l) + s.shift), link := ← s.link.write l 0 })

def leastStep (d : Tuple α n) (t : ℕ × α) (j : ℕ) : Outcome α (ℕ × α) := do
  let x ← d.read j
  if x < t.2 then return (j, x) else return t

def swapRow (i k : ℕ) (v : Grid α n n) (row : ℕ) : Outcome α (Grid α n n) := do
  let x ← v.read row i
  let v ← v.write row i (← v.read row k)
  v.write row k x

def sortStep (s : EigenPairs α n) (i : ℕ) : Outcome α (EigenPairs α n) := do
  let (k, p) ← ascending (← Size.add i 1) n (leastStep s.values) (i, ← s.values.read i)
  if k = i then return s
  else
    let d ← s.values.write k (← s.values.read i)
    return ⟨← d.write i p, ← ascending 0 n (swapRow i k) s.vectors⟩

def sortAscending (s : EigenPairs α n) : Outcome α (EigenPairs α n) :=
  ascending 0 (n - 1) sortStep s

def settleDiagonal (config : EigenConfig) (s : ImplicitQL α n) (l : ℕ) :
    Run (Failure α) (ImplicitQL α n) := do
  let (sweeps, s) ← Run.ofOutcome (settleBlock config s l)
  Run.emit (.sweepsDone l sweeps)
  return s

def diagonalize (config : EigenConfig) (t : Tridiagonal α n) :
    Run (Failure α) (EigenPairs α n × Tuple α n) := do
  let link ← Run.ofOutcome (shiftLinks t.below)
  let s ← (List.range n).foldlM (settleDiagonal config) ⟨t.basis, t.diag, link, 0, 0⟩
  let sorted ← Run.ofOutcome (sortAscending ⟨s.diag, s.basis⟩)
  return (sorted, s.link)

variable {s : ImplicitQL α (n + 1)} {c : Fin n} {m l : Fin (n + 1)} {config : EigenConfig}

section Sweep

variable {t : ImplicitQL.Chase α (n + 1)}

theorem shiftLinks_eq (e : Tuple α (n + 1)) : shiftLinks e = .ok (Tuple.ofFn fun i ↦
    if h : i.val + 1 < n + 1 then e ⟨i.val + 1, h⟩ else 0) := by
  have hloop : ascending 1 (n + 1) (fun e i ↦ do e.write (← Size.sub i 1) (← e.read i)) e =
      .ok (Tuple.ofFn fun i ↦ if h : i.val + 1 < n + 1 then e ⟨i.val + 1, h⟩ else e i) := by
    refine (ascending_eq (fun t ↦ Tuple.ofFn fun i ↦
      if h : i.val + 1 < n + 1 ∧ i.val + 1 < t then e ⟨i.val + 1, h.1⟩ else e i) (Nat.le_add_left 1 n)
      (Tuple.ext fun i ↦ ?_) fun t ht hn ↦ ?_).trans (congrArg _ (Tuple.ext fun i ↦ ?_))
    · rw [Tuple.ofFn_apply, dif_neg (by omega)]
    · have hlt : t - 1 < n + 1 := by omega
      simp (disch := omega) only [Size.sub_of_le, Tuple.read_of_lt, Tuple.write_of_lt,
        Outcome.ok_bind]
      refine congrArg _ (Tuple.ext fun i ↦ ?_)
      simp only [Tuple.set_apply, Tuple.ofFn_apply, Fin.ext_iff]
      grind
    · rw [Tuple.ofFn_apply, Tuple.ofFn_apply]
      grind
  rw [shiftLinks, hloop, Outcome.ok_bind, Size.sub_one_length, Outcome.ok_bind, Tuple.write_fin]
  refine congrArg _ (Tuple.ext fun i ↦ ?_)
  simp only [Tuple.set_apply, Tuple.ofFn_apply]
  have hlast : i = Fin.last n ↔ ¬ i.val + 1 < n + 1 := by
    rw [Fin.ext_iff, Fin.val_last]
    have hi := i.isLt
    omega
  grind

theorem rotateRow_eq (i k : Fin (n + 1)) (hik : i ≠ k) (cos sin : α) (v : Grid α (n + 1) (n + 1)) :
    ascending 0 (n + 1) (rotateRow i k cos sin) v =
      .ok (v.rotateColumns i k cos sin fun _ ↦ True) := by
  refine (ascending_rows (F := fun _ row l ↦
    if l = i then cos * row i - sin * row k else if l = k then sin * row i + cos * row k else row l)
    (Nat.zero_le _) le_rfl (fun r g _ _ ↦ ?_) v).trans (congrArg _ (Grid.ext fun r l ↦ ?_))
  · simp only [rotateRow, Grid.read_fin, Grid.write_fin, Outcome.ok_bind]
    refine congrArg _ (Grid.ext fun r l ↦ ?_)
    simp only [Grid.set_apply, Grid.ofFn_apply]
    grind
  · simp only [Grid.rotateColumns, Grid.ofFn_apply]
    grind

theorem chaseStep_eq (hn : n + 2 < Size.wordBound) :
    chaseStep t c.castSucc = .ok (t.rotate c) := by
  have hc := c.isLt
  have hnext : (Size.add c.castSucc 1 : Outcome α ℕ) = .ok c.succ :=
    Size.add_of_lt (by rw [Fin.val_castSucc]; omega)
  have hne : c.castSucc ≠ c.succ := c.castSucc_lt_succ.ne
  simp only [chaseStep, hnext, Outcome.ok_bind, Tuple.read_fin, Tuple.write_fin,
    rotateRow_eq _ _ hne, Tuple.set_apply, hne, if_false, Outcome.pure_eq]
  rfl

theorem chase_eq (hn : n + 2 < Size.wordBound) :
    descending c.castSucc m chaseStep t = .ok (Fin.foldr n
      (fun k t ↦ if c ≤ k ∧ k.castSucc < m then t.rotate k else t) t) :=
  descending_eq_foldr 0 (Nat.zero_le _) (Nat.le_of_lt_succ m.isLt) (fun _ ↦ Iff.rfl)
    (fun _ _ _ ↦ chaseStep_eq hn) t

/-- The chase writes below the head of the block only. -/
theorem link_chase (m : Fin (n + 1)) : (Fin.foldr n
    (fun k t ↦ if c ≤ k ∧ k.castSucc < m then t.rotate k else t) t).link c.castSucc =
      t.link c.castSucc := by
  refine foldr_invariant (fun _ (x : ImplicitQL.Chase α (n + 1)) ↦
    x.link c.castSucc = t.link c.castSucc) rfl fun k x hx ↦ ?_
  split
  case isTrue h =>
    have hlt : c.castSucc < k.succ := Fin.castSucc_lt_succ_iff.2 h.1
    rw [ImplicitQL.Chase.rotate, Tuple.set_apply, if_neg hlt.ne, hx]
  case isFalse => exact hx

theorem shiftTail_eq (d : Tuple α (n + 1)) (x y h : α) :
    ascending (c.val + 2) (n + 1) (fun d i ↦ do d.write i ((← d.read i) - h))
        ((d.set c.castSucc x).set c.succ y) =
      .ok (Tuple.ofFn fun i ↦
        if i = c.castSucc then x else if i = c.succ then y
        else if c.succ < i then d i - h else d i) := by
  have hc := c.isLt
  refine (ascending_entries (F := fun _ z ↦ z - h) (by omega) le_rfl (fun i z _ _ ↦ ?_) _).trans
    (congrArg _ (Tuple.ext fun i ↦ ?_))
  · simp only [Tuple.read_fin, Outcome.ok_bind, Tuple.write_fin]
  · have hrange : c.val + 2 ≤ i.val ∧ i.val < n + 1 ↔ c.succ < i := by
      rw [Fin.lt_def, Fin.val_succ]
      omega
    simp only [Tuple.ofFn_apply, Tuple.set_apply, hrange]
    grind

theorem sweep_eq (hn : n + 2 < Size.wordBound) :
    sweep c.castSucc m s = .ok (s.sweep c m) := by
  have hc := c.isLt
  have hnext : (Size.add c.castSucc 1 : Outcome α ℕ) = .ok c.succ :=
    Size.add_of_lt (by rw [Fin.val_castSucc]; omega)
  have hrest : (Size.add c.castSucc 2 : Outcome α ℕ) = .ok (c.val + 2) :=
    Size.add_of_lt (by rw [Fin.val_castSucc]; omega)
  have hne : c.castSucc ≠ c.succ := c.castSucc_lt_succ.ne
  have hhead : ∀ x y : α, ((s.diag.set c.castSucc x).set c.succ y) c.castSucc = x := fun x y ↦ by
    rw [Tuple.set_apply, if_neg hne, Tuple.set_apply, if_pos rfl]
  have hsecond : ∀ x y : α, ((s.diag.set c.castSucc x).set c.succ y) c.succ = y := fun x y ↦ by
    rw [Tuple.set_apply, if_pos rfl]
  simp (disch := omega) only [sweep, hnext, hrest, hhead, hsecond, shiftTail_eq, chase_eq hn, link_chase,
    Outcome.ok_bind, Tuple.read_fin, Tuple.write_fin, Tuple.checkSlice_of_le, Outcome.pure_eq]
  rfl

end Sweep

section Settle

theorem blockSearch_eq (hn : n + 2 < Size.wordBound) {i : Fin (n + 1)} (hl : l ≤ i)
    (hi : i ≤ s.blockEnd l) : blockSearch n s i = .ok (s.blockEnd l).val := by
  obtain ⟨k, hk⟩ : ∃ k, k = (s.blockEnd l).val - i.val := ⟨_, rfl⟩
  have hend := (s.blockEnd l).isLt
  induction k generalizing i with
  | zero =>
    obtain rfl : i = s.blockEnd l := le_antisymm hi (Fin.le_def.2 (by omega))
    rw [blockSearch]
    split
    case isTrue hlast =>
      have hsmall := ImplicitQL.negligible_blockEnd (s := s) (l := l) fun h ↦ by
        rw [h, Fin.val_last] at hlast
        exact Nat.lt_irrefl _ hlast
      rw [Tuple.read_fin, Outcome.ok_bind, if_neg hsmall, Outcome.pure_eq]
    case isFalse => rfl
  | succ k ih =>
    have hlt : i < s.blockEnd l := Fin.lt_def.2 (by omega)
    have hlarge := Classical.not_not.1 (ImplicitQL.not_negligible_of_lt_blockEnd hl hlt)
    have hlast : i.val < n := (Fin.lt_def.1 hlt).trans_le (Nat.le_of_lt_succ hend)
    rw [blockSearch, if_pos hlast, Tuple.read_fin, Outcome.ok_bind, if_pos hlarge,
      Size.add_of_lt (by omega), Outcome.ok_bind]
    exact ih (i := ⟨i.val + 1, by omega⟩) (Fin.le_def.2 (Nat.le_succ_of_le hl)) hlt
      (show k = (s.blockEnd l).val - (i.val + 1) by omega)

theorem converge_eq (hn : n + 2 < Size.wordBound) (done : ℕ) :
    converge config c.castSucc m done s = ImplicitQL.converge config c m done s := by
  fun_induction ImplicitQL.converge config c m done s with
  | case1 done s hsmall =>
    rw [converge, Tuple.read_fin, Outcome.ok_bind, if_neg hsmall, Outcome.pure_eq]
  | case2 done s hlarge ih =>
    rw [converge, Tuple.read_fin, Outcome.ok_bind, if_pos (Classical.not_not.1 hlarge)]
    refine congrArg _ (funext fun hd ↦ ?_)
    rw [sweep_eq hn, Outcome.ok_bind]
    exact ih hd

def sweptBlock (config : EigenConfig) (s : ImplicitQL α (n + 1)) (l : Fin (n + 1)) :
    Outcome α (ℕ × ImplicitQL α (n + 1)) :=
  if h : l < s.blockEnd l then ImplicitQL.converge config ⟨l, by omega⟩ (s.blockEnd l) 0 s
  else .ok (0, s)

theorem convergeBlock_eq (hn : n + 2 < Size.wordBound) :
    convergeBlock config l (s.blockEnd l) s = sweptBlock config s l := by
  rw [convergeBlock, sweptBlock]
  split
  case isTrue h =>
    rw [dif_pos (Fin.lt_def.2 h)]
    exact converge_eq (c := ⟨l, by omega⟩) hn 0
  case isFalse h => rw [dif_neg (Fin.lt_def.not.2 h)]

theorem settleBlock_eq (hn : n + 2 < Size.wordBound) :
    settleBlock config s l = sweptBlock config (s.raise l) l >>= fun x ↦ .ok (x.1, { x.2 with
      diag := x.2.diag.set l (x.2.diag l + x.2.shift), link := x.2.link.set l 0 }) := by
  have hsearch : blockSearch n (s.raise l) l = .ok ((s.raise l).blockEnd l).val :=
    blockSearch_eq hn le_rfl (ImplicitQL.le_blockEnd _ l)
  rw [← convergeBlock_eq hn]
  simp only [settleBlock, Tuple.read_fin, Tuple.write_fin, Outcome.ok_bind, Size.sub_one_length,
    Fin.val_last, Outcome.pure_eq]
  rw [ImplicitQL.raise] at hsearch
  rw [hsearch]
  rfl

theorem settleDiagonal_eq (hn : n + 2 < Size.wordBound) :
    settleDiagonal config s l = ImplicitQL.settle config s l := by
  have hsettle : ImplicitQL.settle config s l =
      Run.ofOutcome (sweptBlock config (s.raise l) l) >>= fun x ↦
        Run.emit (.sweepsDone l x.1) >>= fun _ ↦ pure { x.2 with
          diag := x.2.diag.set l (x.2.diag l + x.2.shift), link := x.2.link.set l 0 } := rfl
  rw [settleDiagonal, settleBlock_eq hn, hsettle]
  cases sweptBlock config (s.raise l) l with
  | ok x => rfl
  | error e => rfl

theorem settleAll_eq (hn : n + 2 < Size.wordBound) :
    (List.range (n + 1)).foldlM (settleDiagonal config) s =
      (List.finRange (n + 1)).foldlM (ImplicitQL.settle config) s := by
  rw [← List.map_coe_finRange_eq_range, List.foldlM_map]
  refine congrArg (fun f ↦ List.foldlM f s (List.finRange (n + 1))) ?_
  funext s l
  exact settleDiagonal_eq hn

end Settle

section Sorting

variable {x : EigenPairs α (n + 1)} {i k : Fin (n + 1)}

def leastUpTo (x : EigenPairs α (n + 1)) (i : Fin (n + 1)) (t : ℕ) : Fin (n + 1) :=
  Fin.foldl (n + 1)
    (fun k j ↦ if j.val < t then if i < j ∧ x.values j < x.values k then j else k else k) i

theorem leastUpTo_start : leastUpTo x i (i + 1) = i := by
  refine foldl_invariant (fun _ k ↦ k = i) rfl fun j k hk ↦ ?_
  split
  case isTrue hj => rw [if_neg fun h ↦ (Nat.le_of_lt_succ hj).not_gt h.1, hk]
  case isFalse => exact hk

theorem leastUpTo_succ (j : Fin (n + 1)) : leastUpTo x i (j + 1) =
    if i < j ∧ x.values j < x.values (leastUpTo x i j) then j else leastUpTo x i j :=
  foldl_lt_succ (fun k j ↦ if i < j ∧ x.values j < x.values k then j else k) j i

theorem leastUpTo_all : leastUpTo x i (n + 1) = x.leastFrom i := by
  simp only [leastUpTo, EigenPairs.leastFrom, Fin.is_lt, if_true]

theorem leastLoop_eq : ascending (i + 1) (n + 1) (leastStep x.values) (i.val, x.values i) =
    .ok ((x.leastFrom i).val, x.values (x.leastFrom i)) := by
  rw [← leastUpTo_all]
  refine ascending_eq (fun t ↦ ((leastUpTo x i t).val, x.values (leastUpTo x i t))) i.isLt ?_
    fun t hi ht ↦ ?_
  · rw [leastUpTo_start]
  · obtain ⟨j, rfl⟩ : ∃ j : Fin (n + 1), j.val = t := ⟨⟨t, ht⟩, rfl⟩
    have hij : i < j := hi
    rw [leastStep, Tuple.read_fin, Outcome.ok_bind, leastUpTo_succ]
    by_cases hless : x.values j < x.values (leastUpTo x i j)
    · rw [if_pos hless, if_pos ⟨hij, hless⟩, Outcome.pure_eq]
    · rw [if_neg hless, if_neg fun h ↦ hless h.2, Outcome.pure_eq]

omit [Scalar α] in
theorem swapRows_eq (hik : i ≠ k) (v : Grid α (n + 1) (n + 1)) :
    ascending 0 (n + 1) (swapRow i k) v = .ok (v.swapColumns i k) := by
  refine (ascending_rows (F := fun _ row l ↦ row (if l = i then k else if l = k then i else l))
    (Nat.zero_le _) le_rfl (fun r g _ _ ↦ ?_) v).trans (congrArg _ (Grid.ext fun r l ↦ ?_))
  · simp only [swapRow, Grid.read_fin, Grid.write_fin, Outcome.ok_bind]
    refine congrArg _ (Grid.ext fun r l ↦ ?_)
    simp only [Grid.set_apply, Grid.ofFn_apply]
    grind
  · rw [Grid.swapColumns, Grid.ofFn_apply, Grid.ofFn_apply, if_pos ⟨Nat.zero_le _, r.isLt⟩]

theorem sortStep_eq (hn : n + 2 < Size.wordBound) :
    sortStep x i = .ok (x.swap i (x.leastFrom i)) := by
  have hi := i.isLt
  rw [sortStep, Size.add_of_lt (by omega), Outcome.ok_bind, Tuple.read_fin, Outcome.ok_bind,
    leastLoop_eq, Outcome.ok_bind]
  simp only
  split
  case isTrue h => rw [Fin.ext h, EigenPairs.swap_self, Outcome.pure_eq]
  case isFalse h =>
    have hne : i ≠ x.leastFrom i := fun heq ↦ h (congrArg Fin.val heq).symm
    simp only [Tuple.write_fin, Outcome.ok_bind, swapRows_eq hne, Outcome.pure_eq]
    refine congrArg (fun d ↦ Except.ok (EigenPairs.mk d _)) (Tuple.ext fun j ↦ ?_)
    simp only [Tuple.set_apply, Tuple.ofFn_apply]
    grind

theorem sortAscending_eq (hn : n + 2 < Size.wordBound) (x : EigenPairs α (n + 1)) :
    sortAscending x = .ok x.sortAscending := by
  -- The last round, which the loop leaves out, exchanges the last value with itself.
  have hlast : x.sortAscending = Fin.foldl (n + 1)
      (fun x i ↦ if i.val < n then x.swap i (x.leastFrom i) else x) x := by
    have hsucc := foldl_lt_succ (fun (x : EigenPairs α (n + 1)) i ↦ x.swap i (x.leastFrom i))
      (Fin.last n) x
    simp only [Fin.val_last, Fin.is_lt, if_true] at hsucc
    have hleast : ∀ x : EigenPairs α (n + 1), x.leastFrom (Fin.last n) = Fin.last n := fun x ↦
      le_antisymm (Fin.le_last _) (x.le_leastFrom _)
    rw [hleast, EigenPairs.swap_self] at hsucc
    exact hsucc
  rw [hlast]
  exact ascending_eq_foldl 0 le_rfl (Nat.le_succ n)
    (fun k ↦ ⟨fun h ↦ ⟨Nat.zero_le _, h⟩, fun h ↦ h.2⟩) (fun i x _ ↦ sortStep_eq hn) x

end Sorting

/-- No sweep leaves the matrix or the two lists beside it, however many there are. -/
theorem diagonalize_eq (hn : n + 2 < Size.wordBound) (config : EigenConfig)
    (t : Tridiagonal α (n + 1)) :
    diagonalize config t = ImplicitQL.diagonalize config t >>= fun s ↦
      pure ((EigenPairs.mk s.diag s.basis).sortAscending, s.link) := by
  rw [diagonalize, shiftLinks_eq, Run.ofOutcome_ok_bind, settleAll_eq hn]
  simp only [sortAscending_eq hn, Run.ofOutcome_ok_bind]
  rfl

end DenseDecomp.Indexed
