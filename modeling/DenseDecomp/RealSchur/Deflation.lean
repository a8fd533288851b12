import DenseDecomp.Grid.Rotation

namespace DenseDecomp

open Scalar

/-- A Hessenberg matrix on its way to real Schur form, in the basis it is written in. The trailing
rows are settled: their eigenvalues stand in `re` and `im`. The diagonal entries above them still
have `shift` to be added. -/
structure RealSchur (α : Type) (n : Nat) where
  form : Grid α n n
  basis : Grid α n n
  re : Tuple α n
  im : Tuple α n
  shift : α

namespace RealSchur

variable {α : Type} [Scalar α] {n : Nat}

def hessenbergNorm (h : Grid α n n) : α :=
  Fin.foldl n
    (fun acc i ↦
      Fin.foldl n (fun acc j ↦ if i.val ≤ j.val + 1 then acc + abs (h i j) else acc) acc) 0

def ofHessenberg (form basis : Grid α n n) : RealSchur α n where
  form
  basis
  re := Tuple.fill 0
  im := Tuple.fill 0
  shift := 0

/-- Whether the entry that links the rows `i` and `j` is small against their diagonal entries, or
against the norm where both of these are zero. -/
def Negligible (norm : α) (h : Grid α n n) (i j : Fin n) : Prop :=
  let s := abs (h i i) + abs (h j j)
  abs (h j i) < epsilon * (if s == 0 then norm else s)

instance (norm : α) (h : Grid α n n) (i j : Fin n) : Decidable (Negligible norm h i j) :=
  inferInstanceAs (Decidable (_ < _))

def blockStart (norm : α) (h : Grid α n n) : (l : Nat) → l < n → Nat
  | 0, _ => 0
  | l + 1, hl =>
    if Negligible norm h ⟨l, by omega⟩ ⟨l + 1, hl⟩ then l + 1
    else blockStart norm h l (by omega)

theorem blockStart_le (norm : α) (h : Grid α n n) (l : Nat) (hl : l < n) :
    blockStart norm h l hl ≤ l := by
  induction l with
  | zero => exact Nat.le_refl 0
  | succ l ih =>
    rw [blockStart]
    split
    · exact Nat.le_refl _
    · exact Nat.le_succ_of_le (ih (by omega))

def deflateOne (b : Fin n) (s : RealSchur α n) : RealSchur α n :=
  let x := s.form b b + s.shift
  { s with form := s.form.set b b x, re := s.re.set b x, im := s.im.set b 0 }

def unshiftPair (a b : Fin n) (s : RealSchur α n) : Grid α n n :=
  (s.form.set b b (s.form b b + s.shift)).set a a (s.form a a + s.shift)

/-- Splits a block with real roots by a rotation that clears its lower corner. The roots lie at the
distances `z` and `-w / z` from the trailing entry, `z` being the larger one. -/
def splitPair (a b : Fin n) (z w : α) (s : RealSchur α n) : RealSchur α n :=
  let x := s.form b b + s.shift
  let first := x + z
  let corner := s.form b a
  let size := abs corner + abs z
  let p := corner / size
  let q := z / size
  let r := sqrt (p * p + q * q)
  let cos := q / r
  let sin := -(p / r)
  { s with
    form := ((s.unshiftPair a b).rotateRows a b cos sin (a ≤ ·)).rotateColumns a b cos sin (· ≤ b)
    basis := s.basis.rotateColumns a b cos sin (fun _ ↦ True)
    re := (s.re.set a first).set b (if z == 0 then first else x - w / z)
    im := (s.im.set a 0).set b 0 }

def deflatePair (a b : Fin n) (s : RealSchur α n) : RealSchur α n :=
  let h := s.form
  let w := h b a * h a b
  let p := (h a a - h b b) / 2.0
  let q := p * p + w
  let root := sqrt (abs q)
  if 0 ≤ q then
    s.splitPair a b (if 0 ≤ p then p + root else p - root) w
  else
    let center := h b b + s.shift + p
    { s with
      form := s.unshiftPair a b
      re := (s.re.set a center).set b center
      im := (s.im.set a root).set b (-root) }

end RealSchur

end DenseDecomp
