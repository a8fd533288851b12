import DenseDecomp.RealSchur.Shift

namespace DenseDecomp.RealSchur

open Scalar

/-- The column a reflection has to turn into a multiple of its first entry, divided by `size`. -/
structure Lead (α : Type) where
  p : α
  q : α
  r : α
  size : α

/-- The reflection `1 - (x, y, z)ᵀ (1, q, r)` of the rows `i`, `j` and, unless it is the last of its
sweep, of a third one. -/
structure Reflector (α : Type) (n : Nat) where
  i : Fin n
  j : Fin n
  third : Option (Fin n)
  x : α
  y : α
  z : α
  q : α
  r : α

variable {α : Type} [Scalar α] {n : Nat}

namespace Reflector

def applyRows (t : Reflector α n) (h : Grid α n n) : Grid α n n :=
  let f := Tuple.ofFn fun l ↦
    let f := h t.i l + t.q * h t.j l
    match t.third with
    | some k => f + t.r * h k l
    | none => f
  Grid.ofFn fun i l ↦
    if t.i ≤ l then
      if i = t.i then h i l - f l * t.x
      else if i = t.j then h i l - f l * t.y
      else if some i = t.third then h i l - f l * t.z
      else h i l
    else h i l

def applyColumns (t : Reflector α n) (p : Fin n → Prop) [DecidablePred p] (h : Grid α n n) :
    Grid α n n :=
  let f := Tuple.ofFn fun i ↦
    let f := t.x * h i t.i + t.y * h i t.j
    match t.third with
    | some k => f + t.z * h i k
    | none => f
  Grid.ofFn fun i l ↦
    if p i then
      if l = t.i then h i l - f i
      else if l = t.j then h i l - f i * t.q
      else if some l = t.third then h i l - f i * t.r
      else h i l
    else h i l

end Reflector

def firstColumn (h : Grid α n n) (t : DoubleShift α) (i j k : Fin n) : Lead α :=
  let z := h i i
  let r := t.x - z
  let s := t.y - z
  let p := (r * s - t.w) / h j i + h i j
  let q := h j j - z - r - s
  let r := h k j
  let s := abs p + abs q + abs r
  ⟨p / s, q / s, r / s, t.x⟩

/-- Whether a sweep may start at row `i` below row `a`: the two subdiagonal entries that it would
disturb are small together. -/
def MayStart (h : Grid α n n) (t : DoubleShift α) (a i j k : Fin n) : Prop :=
  let u := firstColumn h t i j k
  abs (h i a) * (abs u.q + abs u.r) <
    epsilon * (abs u.p * (abs (h a a) + abs (h i i) + abs (h j j)))

instance (h : Grid α n n) (t : DoubleShift α) (a i j k : Fin n) :
    Decidable (MayStart h t a i j k) :=
  inferInstanceAs (Decidable (_ < _))

def sweepStart (h : Grid α n n) (t : DoubleShift α) (l : Nat) : (m : Nat) → m + 2 < n → Nat
  | 0, _ => 0
  | m + 1, hm =>
    if m + 1 = l ∨
        MayStart h t ⟨m, by omega⟩ ⟨m + 1, by omega⟩ ⟨m + 2, by omega⟩ ⟨m + 3, hm⟩ then m + 1
    else sweepStart h t l m (by omega)

theorem sweepStart_le (h : Grid α n n) (t : DoubleShift α) (l m : Nat) (hm : m + 2 < n) :
    sweepStart h t l m hm ≤ m := by
  induction m with
  | zero => exact Nat.le_refl 0
  | succ m ih =>
    rw [sweepStart]
    split
    · exact Nat.le_refl _
    · exact Nat.le_succ_of_le (ih (by omega))

theorem le_sweepStart (h : Grid α n n) (t : DoubleShift α) (l m : Nat) (hm : m + 2 < n)
    (hl : l ≤ m) : l ≤ sweepStart h t l m hm := by
  induction m with
  | zero => exact hl
  | succ m ih =>
    rw [sweepStart]
    split
    · exact hl
    · rename_i hn
      exact ih (by omega) (by omega)

def clearBulge (m b : Nat) (h : Grid α n n) : Grid α n n :=
  Grid.ofFn fun i j ↦
    if m + 2 ≤ i.val ∧ i.val ≤ b ∧
        (j.val + 2 = i.val ∨ (j.val + 3 = i.val ∧ m + 2 < i.val)) then 0
    else h i j

def thirdRow (k : Nat) {b : Nat} (hb : b < n) : Option (Fin n) :=
  if h : k + 2 ≤ b then some ⟨k + 2, by omega⟩ else none

def columnLead (h : Grid α n n) (c i j : Fin n) (third : Option (Fin n)) : Lead α :=
  let p := h i c
  let q := h j c
  let r := third.elim 0 fun k ↦ h k c
  let size := abs p + abs q + abs r
  if size == 0 then ⟨p, q, r, size⟩ else ⟨p / size, q / size, r / size, size⟩

/-- Applies the reflection that the lead asks for to the rows from `k` on. The entry before row `k`
receives its image: on the first row of the sweep it only changes its sign. -/
def reflect (l m b k : Nat) (hb : b < n) (hk : k + 1 ≤ b) (u : Lead α) (s : RealSchur α n) :
    RealSchur α n :=
  let i : Fin n := ⟨k, by omega⟩
  let size := negateIf (u.p < 0) (sqrt (u.p * u.p + u.q * u.q + u.r * u.r))
  if size == 0 then s
  else
    let before : Fin n := ⟨k - 1, by omega⟩
    let form :=
      if m < k then s.form.set i before ((-size) * u.size)
      else if l < k then s.form.set i before (-s.form i before)
      else s.form
    let p := u.p + size
    let t : Reflector α n :=
      { i, j := ⟨k + 1, by omega⟩, third := thirdRow k hb
        x := p / size, y := u.q / size, z := u.r / size, q := u.q / p, r := u.r / p }
    { s with
      form := t.applyColumns (fun row ↦ row.val ≤ min b (k + 3)) (t.applyRows form)
      basis := t.applyColumns (fun _ ↦ True) s.basis }

/-- Chases the bulge down from row `k`. A lead of size zero ends the sweep. -/
def chase (l m : Nat) {b : Nat} (hb : b < n) (k : Nat) (hk : k + 1 ≤ b) (u : Lead α)
    (s : RealSchur α n) : RealSchur α n :=
  if u.size == 0 then s
  else
    let s := s.reflect l m b k hb hk u
    if h : k + 2 ≤ b then
      let u := columnLead s.form ⟨k, by omega⟩ ⟨k + 1, by omega⟩ ⟨k + 2, by omega⟩
        (thirdRow (k + 1) hb)
      chase l m hb (k + 1) (by omega) u s
    else s
termination_by b - k

def sweepFrom (l m : Nat) {b : Nat} (hb : b < n) (hm : m + 2 ≤ b) (t : DoubleShift α)
    (s : RealSchur α n) : RealSchur α n :=
  let u := firstColumn s.form t ⟨m, by omega⟩ ⟨m + 1, by omega⟩ ⟨m + 2, by omega⟩
  chase l m hb m (by omega) u { s with form := clearBulge m b s.form }

def sweep (l : Nat) {b : Nat} (hb : b < n) (hl : l + 2 ≤ b) (t : DoubleShift α)
    (s : RealSchur α n) : RealSchur α n :=
  have hm := sweepStart_le s.form t l (b - 2) (by omega)
  sweepFrom l (sweepStart s.form t l (b - 2) (by omega)) hb (by omega) t s

end DenseDecomp.RealSchur
