import DenseDecomp.Proofs.RealSchur.Agreement

namespace DenseDecomp.RealSchur

open Scalar

variable {α : Type} [Scalar α] {n : ℕ}

def Lead.length (u : Lead α) : α := negateIf (u.p < 0) (sqrt (u.p * u.p + u.q * u.q + u.r * u.r))

/-- One reflection of a sweep, and the value that the entry before its first row takes. -/
structure SweepStep (α : Type) (n : ℕ) where
  reflector : Reflector α n
  before : Option α

namespace SweepStep

def onForm (b : ℕ) (h : Grid α n n) (x : SweepStep α n) : Grid α n n :=
  let i := x.reflector.i
  let h := x.before.elim h fun y ↦ h.set i ⟨i.val - 1, by omega⟩ y
  x.reflector.applyColumns (fun row ↦ row.val ≤ min b (i.val + 3)) (x.reflector.applyRows h)

def onBasis (v : Grid α n n) (x : SweepStep α n) : Grid α n n :=
  x.reflector.applyColumns (fun _ ↦ True) v

end SweepStep

section Rows

variable {b k : ℕ} (hb : b < n) (hk : k + 1 ≤ b)

include hb hk

theorem row_lt : k < n := by omega

theorem pred_row_lt : k - 1 < n := by omega

theorem succ_row_lt : k + 1 < n := by omega

end Rows

def step? (l m b k : ℕ) (hb : b < n) (hk : k + 1 ≤ b) (u : Lead α) (h : Grid α n n) :
    Option (SweepStep α n) :=
  if u.length == 0 then none
  else
    let i : Fin n := ⟨k, row_lt hb hk⟩
    some
      { reflector :=
          { i, j := ⟨k + 1, succ_row_lt hb hk⟩, third := thirdRow k hb
            x := (u.p + u.length) / u.length, y := u.q / u.length, z := u.r / u.length
            q := u.q / (u.p + u.length), r := u.r / (u.p + u.length) }
        before :=
          if m < k then some ((-u.length) * u.size)
          else if l < k then some (-h i ⟨k - 1, pred_row_lt hb hk⟩) else none }

theorem reflect_eq (l m b k : ℕ) (hb : b < n) (hk : k + 1 ≤ b) (u : Lead α) (s : RealSchur α n) :
    s.reflect l m b k hb hk u =
      { s with
        form := (step? l m b k hb hk u s.form).toList.foldl (SweepStep.onForm b) s.form
        basis := (step? l m b k hb hk u s.form).toList.foldl SweepStep.onBasis s.basis } := by
  rw [reflect, step?]
  change (if u.length == 0 then s else _) = _
  split
  case isTrue => rfl
  case isFalse =>
    rw [Option.toList_some, List.foldl_cons, List.foldl_nil, SweepStep.onForm]
    by_cases hm : m < k
    · simp only [hm, if_true]
      rfl
    · by_cases hl : l < k
      · simp only [hm, hl, if_true, if_false]
        rfl
      · simp only [hm, hl, if_false]
        rfl

def steps (l m : ℕ) {b : ℕ} (hb : b < n) (k : ℕ) (hk : k + 1 ≤ b) (u : Lead α)
    (s : RealSchur α n) : List (SweepStep α n) :=
  if u.size == 0 then []
  else
    let first := (step? l m b k hb hk u s.form).toList
    if h : k + 2 ≤ b then
      let s := s.reflect l m b k hb hk u
      let u := columnLead s.form ⟨k, row_lt hb hk⟩ ⟨k + 1, succ_row_lt hb hk⟩
        ⟨k + 2, succ_row_lt hb h⟩ (thirdRow (k + 1) hb)
      first ++ steps l m hb (k + 1) h u s
    else first
termination_by b - k

theorem chase_eq (l m : ℕ) {b : ℕ} (hb : b < n) (k : ℕ) (hk : k + 1 ≤ b) (u : Lead α)
    (s : RealSchur α n) : chase l m hb k hk u s =
      { s with
        form := (steps l m hb k hk u s).foldl (SweepStep.onForm b) s.form
        basis := (steps l m hb k hk u s).foldl SweepStep.onBasis s.basis } := by
  fun_induction chase l m hb k hk u s with
  | case1 k hk u s hsize =>
    rw [steps, if_pos hsize]
    rfl
  | case2 k hk u s hsize t hnext lead ih =>
    have ht := reflect_eq l m b k hb hk u s
    have hform := congrArg RealSchur.form ht
    have hbasis := congrArg RealSchur.basis ht
    have hre := congrArg RealSchur.re ht
    have him := congrArg RealSchur.im ht
    have hshift := congrArg RealSchur.shift ht
    dsimp only at hform hbasis hre him hshift
    rw [steps, if_neg hsize, dif_pos hnext, List.foldl_append, List.foldl_append, ih, ← hform,
      ← hbasis, hre, him, hshift]
  | case3 k hk u s hsize t hlast =>
    rw [steps, if_neg hsize, dif_neg hlast]
    exact reflect_eq l m b k hb hk u s

theorem step?_row {l m b k : ℕ} {hb : b < n} {hk : k + 1 ≤ b} {u : Lead α} {h : Grid α n n}
    {x : SweepStep α n} (hx : step? l m b k hb hk u h = some x) : x.reflector.i.val = k := by
  rw [step?] at hx
  split at hx
  · cases hx
  · obtain rfl := Option.some.inj hx
    rfl

theorem le_row_of_mem_steps {l m b k : ℕ} {hb : b < n} {hk : k + 1 ≤ b} {u : Lead α}
    {s : RealSchur α n} {x : SweepStep α n} (hx : x ∈ steps l m hb k hk u s) :
    k ≤ x.reflector.i.val := by
  fun_induction steps l m hb k hk u s with
  | case1 k hk u s hsize => cases hx
  | case2 k hk u s hsize first hnext t lead ih =>
    obtain hx | hx := List.mem_append.1 hx
    · exact (step?_row (Option.mem_toList.1 hx)).ge
    · exact (Nat.le_succ k).trans (ih hx)
  | case3 k hk u s hsize first hlast => exact (step?_row (Option.mem_toList.1 hx)).ge

theorem step?_isSome_iff (l m : ℕ) {b k : ℕ} (hb : b < n) (hk : k + 1 ≤ b) {u : Lead α}
    (h : Grid α n n) : (∃ x, step? l m b k hb hk u h = some x) ↔ (u.length == 0) = false := by
  rw [step?]
  split
  case isTrue hlength => exact iff_of_false nofun (by rw [hlength]; decide)
  case isFalse hlength => exact iff_of_true ⟨_, rfl⟩ (Bool.eq_false_iff.2 hlength)

/-- The first reflection of a sweep is made unless the test for its end meets a zero at once, or
the column has no length. -/
theorem exists_first_step_iff {l m b k : ℕ} {hb : b < n} {hk : k + 1 ≤ b} {u : Lead α}
    {s : RealSchur α n} : (∃ x ∈ steps l m hb k hk u s, x.reflector.i.val = k) ↔
      (u.size == 0) = false ∧ (u.length == 0) = false := by
  rw [← step?_isSome_iff l m hb hk s.form, steps]
  split
  case isTrue hsize =>
    refine iff_of_false nofun fun h ↦ ?_
    rw [hsize] at h
    cases h.1
  case isFalse hsize =>
    rw [Bool.not_eq_true] at hsize
    rw [and_iff_right hsize]
    dsimp only
    constructor
    · rintro ⟨x, hx, hrow⟩
      split at hx
      case isTrue hnext =>
        obtain hx | hx := List.mem_append.1 hx
        · exact ⟨x, Option.mem_toList.1 hx⟩
        · have hle := le_row_of_mem_steps hx
          omega
      case isFalse => exact ⟨x, Option.mem_toList.1 hx⟩
    · rintro ⟨x, hx⟩
      refine ⟨x, ?_, step?_row hx⟩
      have hmem := Option.mem_toList.2 hx
      split
      case isTrue => exact List.mem_append_left _ hmem
      case isFalse => exact hmem

section Sweep

variable {b : ℕ}

def firstLead (l : ℕ) (hb : b < n) (hl : l + 2 ≤ b) (t : DoubleShift α) (h : Grid α n n) : Lead α :=
  have hm := sweepStart_le h t l (b - 2) (by omega)
  let m := sweepStart h t l (b - 2) (by omega)
  firstColumn h t ⟨m, by omega⟩ ⟨m + 1, by omega⟩ ⟨m + 2, by omega⟩

def sweepSteps (l : ℕ) (hb : b < n) (hl : l + 2 ≤ b) (t : DoubleShift α) (s : RealSchur α n) :
    List (SweepStep α n) :=
  have hm := sweepStart_le s.form t l (b - 2) (by omega)
  let m := sweepStart s.form t l (b - 2) (by omega)
  steps l m hb m (by omega) (firstLead l hb hl t s.form) { s with form := clearBulge m b s.form }

theorem sweep_eq (l : ℕ) (hb : b < n) (hl : l + 2 ≤ b) (t : DoubleShift α) (s : RealSchur α n) :
    s.sweep l hb hl t =
      { s with
        form := (sweepSteps l hb hl t s).foldl (SweepStep.onForm b)
          (clearBulge (sweepStart s.form t l (b - 2) (by omega)) b s.form)
        basis := (sweepSteps l hb hl t s).foldl SweepStep.onBasis s.basis } := by
  rw [sweep, sweepFrom, chase_eq]
  rfl

variable {l : ℕ} {hb : b < n} {hl : l + 2 ≤ b} {t : DoubleShift α} {s : RealSchur α n}

theorem exists_first_sweepStep_iff :
    (∃ x ∈ sweepSteps l hb hl t s,
        x.reflector.i.val = sweepStart s.form t l (b - 2) (by omega)) ↔
      (t.x == 0) = false ∧ ((firstLead l hb hl t s.form).length == 0) = false :=
  exists_first_step_iff

theorem clearBulge_agreeOn_upper (m b : ℕ) (h : Grid α n n) :
    (clearBulge m b h).AgreeOn Hessenberg.Upper h := by
  intro i j hij
  rw [Hessenberg.Upper] at hij
  rw [clearBulge, Grid.ofFn_apply, if_neg (by omega)]

/-- A sweep whose first shift is zero is lost: all it does is to clear what stands below the first
subdiagonal. -/
theorem sweep_of_zero_shift (ht : (t.x == 0) = true) :
    AgreeOn Hessenberg.Upper (s.sweep l hb hl t) s := by
  have hnone : sweepSteps l hb hl t s = [] := by
    rw [sweepSteps, steps]
    exact if_pos ht
  rw [sweep_eq, hnone]
  exact ⟨clearBulge_agreeOn_upper _ b s.form, rfl, rfl, rfl, rfl⟩

end Sweep

end DenseDecomp.RealSchur
