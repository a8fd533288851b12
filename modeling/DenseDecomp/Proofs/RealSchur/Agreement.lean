import Mathlib.Data.List.FinRange
import DenseDecomp.Eigen.Hessenberg
import DenseDecomp.Proofs.Agreement
import DenseDecomp.Proofs.RealSchur.Iteration
import DenseDecomp.RealSchur.Iteration

namespace DenseDecomp

open Scalar

variable {α : Type} {n : ℕ}

def Hessenberg.Upper (i j : Fin n) : Prop := i.val ≤ j.val + 1

namespace RealSchur

/-- The positions a sweep from row `m` to row `b` reads: those of a Hessenberg matrix and those it
has cleared itself. -/
def Cleared (m b : ℕ) (i j : Fin n) : Prop :=
  Hessenberg.Upper i j ∨
    (m + 2 ≤ i.val ∧ i.val ≤ b ∧ (j.val + 2 = i.val ∨ (j.val + 3 = i.val ∧ m + 2 < i.val)))

structure AgreeOn (P : Fin n → Fin n → Prop) (s s' : RealSchur α n) : Prop where
  form : s.form.AgreeOn P s'.form
  basis : s.basis = s'.basis
  re : s.re = s'.re
  im : s.im = s'.im
  shift : s.shift = s'.shift

variable {g g' : Grid α n n} {s s' : RealSchur α n}

theorem AgreeOn.refl {P : Fin n → Fin n → Prop} (s : RealSchur α n) : AgreeOn P s s :=
  ⟨fun _ _ _ ↦ rfl, rfl, rfl, rfl, rfl⟩

theorem AgreeOn.trans {P : Fin n → Fin n → Prop} {s'' : RealSchur α n} (h : AgreeOn P s s')
    (h' : AgreeOn P s' s'') : AgreeOn P s s'' where
  form i j hij := (h.form i j hij).trans (h'.form i j hij)
  basis := h.basis.trans h'.basis
  re := h.re.trans h'.re
  im := h.im.trans h'.im
  shift := h.shift.trans h'.shift

theorem agreeOn_ofHessenberg [Scalar α] (h : g.AgreeOn Hessenberg.Upper g') (basis : Grid α n n) :
    AgreeOn Hessenberg.Upper (ofHessenberg g basis) (ofHessenberg g' basis) :=
  ⟨h, rfl, rfl, rfl, rfl⟩

section Search

variable [Scalar α]

theorem hessenbergNorm_congr (h : g.AgreeOn Hessenberg.Upper g') :
    hessenbergNorm g = hessenbergNorm g' := by
  have hrow : ∀ i : Fin n, (fun (acc : α) (j : Fin n) ↦
      if i.val ≤ j.val + 1 then acc + abs (g i j) else acc) =
      fun acc j ↦ if i.val ≤ j.val + 1 then acc + abs (g' i j) else acc := by
    intro i
    funext acc j
    split
    case isTrue hij => rw [h i j hij]
    case isFalse => rfl
  simp only [hessenbergNorm, hrow]

theorem negligible_congr (h : g.AgreeOn Hessenberg.Upper g') (norm : α) {i j : Fin n}
    (hij : i.val + 1 = j.val) : Negligible norm g i j ↔ Negligible norm g' i j := by
  rw [Negligible, Negligible, h i i (Nat.le_succ _), h j j (Nat.le_succ _), h j i hij.ge]

theorem blockStart_congr (h : g.AgreeOn Hessenberg.Upper g') (norm : α) (l : ℕ) (hl : l < n) :
    blockStart norm g l hl = blockStart norm g' l hl := by
  induction l with
  | zero => rfl
  | succ l ih =>
    rw [blockStart, blockStart, ih (by omega)]
    exact if_congr (negligible_congr h norm rfl) rfl rfl

theorem firstColumn_congr (h : g.AgreeOn Hessenberg.Upper g') (t : DoubleShift α) {i j k : Fin n}
    (hij : i.val + 1 = j.val) (hjk : j.val + 1 = k.val) :
    firstColumn g t i j k = firstColumn g' t i j k := by
  have hij' : g i j = g' i j := h i j (by rw [Hessenberg.Upper]; omega)
  rw [firstColumn, firstColumn, hij', h i i (Nat.le_succ _), h j j (Nat.le_succ _), h j i hij.ge,
    h k j hjk.ge]

theorem mayStart_congr (h : g.AgreeOn Hessenberg.Upper g') (t : DoubleShift α) {a i j k : Fin n}
    (hai : a.val + 1 = i.val) (hij : i.val + 1 = j.val) (hjk : j.val + 1 = k.val) :
    MayStart g t a i j k ↔ MayStart g' t a i j k := by
  rw [MayStart, MayStart, firstColumn_congr h t hij hjk, h i a hai.ge, h a a (Nat.le_succ _),
    h i i (Nat.le_succ _), h j j (Nat.le_succ _)]

theorem sweepStart_congr (h : g.AgreeOn Hessenberg.Upper g') (t : DoubleShift α) (l m : ℕ)
    (hm : m + 2 < n) : sweepStart g t l m hm = sweepStart g' t l m hm := by
  induction m with
  | zero => rfl
  | succ m ih =>
    rw [sweepStart, sweepStart, ih (by omega)]
    exact if_congr (or_congr Iff.rfl (mayStart_congr h t rfl rfl rfl)) rfl rfl

end Search

section Deflation

variable [Scalar α] {a b : Fin n}

theorem AgreeOn.deflateOne (h : AgreeOn Hessenberg.Upper s s') (b : Fin n) :
    AgreeOn Hessenberg.Upper (s.deflateOne b) (s'.deflateOne b) := by
  have hx : s.form b b + s.shift = s'.form b b + s'.shift := by
    rw [h.form b b (Nat.le_succ _), h.shift]
  constructor
  case form =>
    rw [RealSchur.deflateOne, RealSchur.deflateOne, hx]
    exact h.form.set b b _
  case basis => exact h.basis
  case re => rw [RealSchur.deflateOne, RealSchur.deflateOne, hx, h.re]
  case im => rw [RealSchur.deflateOne, RealSchur.deflateOne, h.im]
  case shift => exact h.shift

theorem AgreeOn.unshiftPair (h : AgreeOn Hessenberg.Upper s s') (a b : Fin n) :
    (s.unshiftPair a b).AgreeOn Hessenberg.Upper (s'.unshiftPair a b) := by
  rw [RealSchur.unshiftPair, RealSchur.unshiftPair, h.form a a (Nat.le_succ _),
    h.form b b (Nat.le_succ _), h.shift]
  exact (h.form.set b b _).set a a _

/-- The rotation of a split pair reads rows from column `a` on and columns down to row `b`. -/
theorem AgreeOn.splitPair (h : AgreeOn Hessenberg.Upper s s') (hab : a.val + 1 = b.val) (z w : α) :
    AgreeOn Hessenberg.Upper (s.splitPair a b z w) (s'.splitPair a b z w) := by
  rw [RealSchur.splitPair, RealSchur.splitPair, h.form b a hab.ge, h.form b b (Nat.le_succ _),
    h.basis, h.re, h.im, h.shift]
  refine ⟨?_, rfl, rfl, rfl, rfl⟩
  refine ((h.unshiftPair a b).rotateRows (fun l hl ↦ ?_) (fun l hl ↦ ?_) _ _).rotateColumns
    (fun r hr ↦ ?_) (fun r hr ↦ ?_) _ _
  all_goals rw [Hessenberg.Upper]; omega

theorem AgreeOn.deflatePair (h : AgreeOn Hessenberg.Upper s s') (hab : a.val + 1 = b.val) :
    AgreeOn Hessenberg.Upper (s.deflatePair a b) (s'.deflatePair a b) := by
  have hba : s.form a b = s'.form a b := h.form a b (by rw [Hessenberg.Upper]; omega)
  rw [RealSchur.deflatePair, RealSchur.deflatePair, h.form b a hab.ge, hba,
    h.form a a (Nat.le_succ _), h.form b b (Nat.le_succ _)]
  split
  case isTrue => exact h.splitPair hab _ _
  case isFalse =>
    rw [h.shift, h.re, h.im]
    exact ⟨h.unshiftPair a b, h.basis, rfl, rfl, rfl⟩

end Deflation

section Shift

variable [Scalar α]

theorem AgreeOn.moveOrigin (h : AgreeOn Hessenberg.Upper s s') (b : Fin n) (x : α) :
    AgreeOn Hessenberg.Upper (s.moveOrigin b x) (s'.moveOrigin b x) := by
  refine ⟨.ofFn fun i j hij ↦ ?_, h.basis, h.re, h.im, congrArg (· + x) h.shift⟩
  rw [h.form i j hij]

/-- The shift is chosen from entries of the trailing three rows. -/
theorem AgreeOn.nextShift (h : AgreeOn Hessenberg.Upper s s') (done : ℕ) {c a b : Fin n}
    (hca : c.val + 1 = a.val) (hab : a.val + 1 = b.val) :
    (s.nextShift done c a b).1 = (s'.nextShift done c a b).1 ∧
      (s.nextShift done c a b).2.1 = (s'.nextShift done c a b).2.1 ∧
      AgreeOn Hessenberg.Upper (s.nextShift done c a b).2.2 (s'.nextShift done c a b).2.2 := by
  have hba : s.form a b = s'.form a b := h.form a b (by rw [Hessenberg.Upper]; omega)
  have ht : trailingShift s.form a b = trailingShift s'.form a b := by
    rw [trailingShift, trailingShift, hba, h.form b b (Nat.le_succ _), h.form a a (Nat.le_succ _),
      h.form b a hab.ge]
  rw [RealSchur.nextShift, RealSchur.nextShift, ht]
  split
  case isTrue =>
    dsimp only
    have hmoved := h.moveOrigin b (trailingShift s'.form a b).x
    rw [hmoved.form b a hab.ge, hmoved.form a c hca.ge]
    exact ⟨rfl, rfl, hmoved⟩
  case isFalse =>
    split
    case isTrue =>
      cases nearRoot? (trailingShift s'.form a b) with
      | some x =>
        dsimp only
        exact ⟨rfl, rfl, h.moveOrigin b x⟩
      | none => exact ⟨rfl, rfl, h⟩
    case isFalse => exact ⟨rfl, rfl, h⟩

end Shift

section Sweep

variable [Scalar α] {m b k : ℕ}

theorem clearBulge_agreeOn (h : g.AgreeOn Hessenberg.Upper g') (m b : ℕ) :
    (clearBulge m b g).AgreeOn (Cleared m b) (clearBulge m b g') := by
  refine .ofFn fun i j hij ↦ ?_
  split
  case isTrue => rfl
  case isFalse hclear =>
    obtain hij | hij := hij
    · exact h i j hij
    · exact absurd hij hclear

theorem cleared_rows (hmk : m ≤ k) {i j : Fin n} (hi : i.val ≤ k + 2) (hib : i.val ≤ b)
    (hj : k ≤ j.val) : Cleared m b i j := by
  rw [Cleared, Hessenberg.Upper]
  omega

/-- The columns `k`, `k + 1` and `k + 2`: a reflection reads four of their rows below `k - 1`. -/
theorem cleared_columns (hmk : m ≤ k) {i j : Fin n} (hi : i.val ≤ k + 3) (hib : i.val ≤ b)
    (hj : k ≤ j.val) : Cleared m b i j := by
  rw [Cleared, Hessenberg.Upper]
  omega

theorem Reflector.applyRows_agreeOn {P : Fin n → Fin n → Prop} (t : Reflector α n)
    (h : g.AgreeOn P g') (hi : ∀ l, t.i ≤ l → P t.i l) (hj : ∀ l, t.i ≤ l → P t.j l)
    (hk : ∀ k, t.third = some k → ∀ l, t.i ≤ l → P k l) :
    (t.applyRows g).AgreeOn P (t.applyRows g') := by
  refine .ofFn fun r l hrl ↦ ?_
  simp only [Tuple.ofFn_apply]
  split
  case isTrue hl =>
    rw [h r l hrl, h t.i l (hi l hl), h t.j l (hj l hl)]
    cases ht : t.third with
    | none => rfl
    | some k => simp only [h k l (hk k ht l hl)]
  case isFalse => exact h r l hrl

theorem Reflector.applyColumns_agreeOn {P : Fin n → Fin n → Prop} (t : Reflector α n)
    {p : Fin n → Prop} [DecidablePred p] (h : g.AgreeOn P g') (hi : ∀ r, p r → P r t.i)
    (hj : ∀ r, p r → P r t.j) (hk : ∀ k, t.third = some k → ∀ r, p r → P r k) :
    (t.applyColumns p g).AgreeOn P (t.applyColumns p g') := by
  refine .ofFn fun r l hrl ↦ ?_
  simp only [Tuple.ofFn_apply]
  split
  case isTrue hr =>
    rw [h r l hrl, h r t.i (hi r hr), h r t.j (hj r hr)]
    cases ht : t.third with
    | none => rfl
    | some k => simp only [h r k (hk k ht r hr)]
  case isFalse => exact h r l hrl

theorem columnLead_congr {hb : b < n} (h : g.AgreeOn (Cleared m b) g') (hmk : m ≤ k) {c i j : Fin n}
    (hc : c.val = k) (hi : i.val = k + 1) (hj : j.val = k + 2) (hjb : k + 2 ≤ b) :
    columnLead g c i j (thirdRow (k + 1) hb) = columnLead g' c i j (thirdRow (k + 1) hb) := by
  have hic : g i c = g' i c :=
    h i c (cleared_columns hmk (by omega) (by omega) (by omega))
  have hjc : g j c = g' j c :=
    h j c (cleared_columns hmk (by omega) (by omega) (by omega))
  rw [columnLead, columnLead, hic, hjc]
  cases hthird : thirdRow (k + 1) hb with
  | none => rfl
  | some r =>
    obtain ⟨hr, hrb⟩ := val_of_thirdRow_eq_some hthird
    have hrc : g r c = g' r c :=
      h r c (cleared_columns hmk (by omega) (by omega) (by omega))
    rw [Option.elim_some, Option.elim_some, hrc]

/-- A reflection of the rows from `k` on stays within what the sweep has cleared. -/
theorem Reflector.agreeOn_cleared (t : Reflector α n) (hb : b < n) (hi : t.i.val = k)
    (hj : t.j.val = k + 1) (hthird : t.third = thirdRow k hb) (hk : k + 1 ≤ b) (hmk : m ≤ k)
    (h : g.AgreeOn (Cleared m b) g') :
    (t.applyColumns (fun row ↦ row.val ≤ min b (k + 3)) (t.applyRows g)).AgreeOn (Cleared m b)
      (t.applyColumns (fun row ↦ row.val ≤ min b (k + 3)) (t.applyRows g')) := by
  have hval : ∀ r, t.third = some r → r.val = k + 2 ∧ k + 2 ≤ b := by
    intro r hr
    rw [hthird] at hr
    exact val_of_thirdRow_eq_some hr
  have hrows : (t.applyRows g).AgreeOn (Cleared m b) (t.applyRows g') := by
    refine t.applyRows_agreeOn h (fun c hc ↦ ?_) (fun c hc ↦ ?_) (fun r hr c hc ↦ ?_)
    · exact cleared_rows hmk (by omega) (by omega) (by omega)
    · exact cleared_rows hmk (by omega) (by omega) (by omega)
    · obtain ⟨hr, hrb⟩ := hval r hr
      exact cleared_rows hmk (by omega) (by omega) (by omega)
  refine t.applyColumns_agreeOn hrows (fun r hr ↦ ?_) (fun r hr ↦ ?_) (fun c hc r hr ↦ ?_)
  · exact cleared_columns hmk (by omega) (by omega) (by omega)
  · exact cleared_columns hmk (by omega) (by omega) (by omega)
  · obtain ⟨hc, -⟩ := hval c hc
    exact cleared_columns hmk (by omega) (by omega) (by omega)

theorem AgreeOn.reflect (h : AgreeOn (Cleared m b) s s') (hmk : m ≤ k) (l : ℕ) (hb : b < n)
    (hk : k + 1 ≤ b) (u : Lead α) :
    AgreeOn (Cleared m b) (s.reflect l m b k hb hk u) (s'.reflect l m b k hb hk u) := by
  rw [RealSchur.reflect, RealSchur.reflect]
  split
  case isTrue => exact h
  case isFalse =>
    have hbefore : s.form ⟨k, by omega⟩ ⟨k - 1, by omega⟩ =
        s'.form ⟨k, by omega⟩ ⟨k - 1, by omega⟩ :=
      h.form _ _ (.inl (by rw [Hessenberg.Upper]; dsimp only; omega))
    dsimp only
    rw [hbefore]
    refine ⟨Reflector.agreeOn_cleared _ hb rfl rfl rfl hk hmk ?_, ?_, h.re, h.im, h.shift⟩
    · split
      · exact h.form.set _ _ _
      · split
        · exact h.form.set _ _ _
        · exact h.form
    · rw [h.basis]

theorem AgreeOn.chase (h : AgreeOn (Cleared m b) s s') (hmk : m ≤ k) (l : ℕ) (hb : b < n)
    (hk : k + 1 ≤ b) (u : Lead α) :
    AgreeOn (Cleared m b) (RealSchur.chase l m hb k hk u s) (RealSchur.chase l m hb k hk u s') := by
  fun_induction RealSchur.chase l m hb k hk u s generalizing s' with
  | case1 k hk u s hsize =>
    rw [RealSchur.chase.eq_def l m hb k hk u s', if_pos hsize]
    exact h
  | case2 k hk u s hsize t hnext lead =>
    rename_i ih
    have ht := h.reflect hmk l hb hk u
    have hlead : lead = columnLead (s'.reflect l m b k hb hk u).form ⟨k, by omega⟩
        ⟨k + 1, by omega⟩ ⟨k + 2, by omega⟩ (thirdRow (k + 1) hb) :=
      columnLead_congr ht.form hmk rfl rfl rfl hnext
    rw [RealSchur.chase.eq_def l m hb k hk u s', if_neg hsize, dif_pos hnext]
    dsimp only
    rw [← hlead]
    exact ih ht (by omega)
  | case3 k hk u s hsize t =>
    rename_i hlast
    rw [RealSchur.chase.eq_def l m hb k hk u s', if_neg hsize, dif_neg hlast]
    exact h.reflect hmk l hb hk u

/-- What a sweep reads below the first subdiagonal it has cleared before. -/
theorem AgreeOn.sweep (h : AgreeOn Hessenberg.Upper s s') (l : ℕ) (hb : b < n) (hl : l + 2 ≤ b)
    (t : DoubleShift α) : AgreeOn Hessenberg.Upper (s.sweep l hb hl t) (s'.sweep l hb hl t) := by
  obtain ⟨m, hm⟩ : ∃ m, m = sweepStart s.form t l (b - 2) (by omega) := ⟨_, rfl⟩
  have hstart : sweepStart s'.form t l (b - 2) (by omega) = m := by
    rw [hm, sweepStart_congr h.form]
  have hcleared : AgreeOn (Cleared m b) { s with form := clearBulge m b s.form }
      { s' with form := clearBulge m b s'.form } :=
    ⟨clearBulge_agreeOn h.form m b, h.basis, h.re, h.im, h.shift⟩
  have hmb : m + 2 ≤ b := by
    have hle := sweepStart_le s.form t l (b - 2) (by omega)
    omega
  have hchase := hcleared.chase le_rfl l hb (by omega)
    (firstColumn s.form t ⟨m, by omega⟩ ⟨m + 1, by omega⟩ ⟨m + 2, by omega⟩)
  have hcolumn := firstColumn_congr h.form t (i := ⟨m, by omega⟩) (j := ⟨m + 1, by omega⟩)
    (k := ⟨m + 2, by omega⟩) rfl rfl
  rw [RealSchur.sweep, RealSchur.sweep]
  simp only [← hm, hstart, sweepFrom, ← hcolumn]
  exact ⟨hchase.form.mono fun i j ↦ .inl, hchase.basis, hchase.re, hchase.im, hchase.shift⟩

end Sweep

/-- Two runs of the iteration that start alike, but for what stands below the first subdiagonal,
take the same course. -/
theorem AgreeOn.settle [Scalar α] (h : AgreeOn Hessenberg.Upper s s') (config : EigenConfig)
    (norm : α) (top : ℕ) (ht : top ≤ n) (done : ℕ) :
    Run.Related (AgreeOn Hessenberg.Upper) (RealSchur.settle config norm top ht done s)
      (RealSchur.settle config norm top ht done s') := by
  induction top, ht, done, s using settle_induction norm generalizing s' with
  | zero done s =>
    rw [settle_zero, settle_zero]
    exact ⟨rfl, .ok h⟩
  | single b done s hl ih =>
    have hl' : blockStart norm s'.form b b.isLt = b := by rw [← blockStart_congr h.form, hl]
    rw [settle_of_single rfl hl, settle_of_single rfl hl']
    exact (ih (h.deflateOne b)).after _
  | pair a b done s hab hl ih =>
    have hl' : blockStart norm s'.form b b.isLt = a := by rw [← blockStart_congr h.form, hl]
    rw [settle_of_pair rfl hab hl, settle_of_pair rfl hab hl']
    exact (ih (h.deflatePair hab)).after _
  | block c a b l done s hca hab hl hlb ih =>
    have hl' : blockStart norm s'.form b b.isLt = l := by rw [← blockStart_congr h.form, hl]
    obtain ⟨hevents, hshift, hs⟩ := h.nextShift done hca hab
    rw [settle_of_block rfl hca hab hl hlb, settle_of_block rfl hca hab hl' hlb, hevents, hshift,
      hs.form b a hab.ge]
    refine EigenConfig.attempt_related config done _ (fun e ↦ ⟨rfl, .error e⟩) fun hd ↦ ?_
    rw [hshift] at ih
    exact (ih hd (hs.sweep l b.isLt hlb _)).after _

end RealSchur

end DenseDecomp
