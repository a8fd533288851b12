import DenseDecomp.Failure
import DenseDecomp.Grid
import DenseDecomp.Scalar.ComplexQuotient

namespace DenseDecomp.RealSchur.BackSubstitution

open Scalar

/-- The block diagonal of a real Schur form: eigenvalues `re ± i im`, and a scale for entries that
would be divided by zero. -/
structure Blocks (α : Type) (n : Nat) where
  re : Tuple α n
  im : Tuple α n
  norm : α

/-- The rows from `solved` on are solved. The lower row of a two by two block waits for the upper
one in `diag`, `first` and `second`. -/
structure State (α : Type) (n : Nat) where
  form : Grid α n n
  solved : Fin n
  diag : α
  first : α
  second : α

variable {α : Type} [Scalar α] {n : Nat}

/-- Divides the columns `a` and `b` by `t` from row `i` to row `b`, once its square is beyond the
precision. -/
def rescale (i a b : Fin n) (t : α) (h : Grid α n n) : Grid α n n :=
  if 1 < (epsilon * t) * t then
    Grid.ofFn fun k l ↦ if (l = a ∨ l = b) ∧ i ≤ k ∧ k ≤ b then h k l / t else h k l
  else h

def contribution (s : State α n) (b i l : Fin n) : α :=
  sumWhere (fun j ↦ s.solved ≤ j ∧ j ≤ b) fun j ↦ s.form i j * s.form j l

def realBlock (B : Blocks α n) (b i j : Fin n) (w r : α) (s : State α n) : Grid α n n :=
  let p := B.re b
  let x := s.form i j
  let y := s.form j i
  let denom := (B.re i - p) * (B.re i - p) + B.im i * B.im i
  let t := (x * s.first - s.diag * r) / denom
  (s.form.set i b t).set j b
    (if abs s.diag < abs x then (-r - w * t) / x else (-s.first - y * t) / s.diag)

def realRow (B : Blocks α n) (b i : Fin n) (hi : i < b) (s : State α n) : State α n :=
  let w := s.form i i - B.re b
  let r := contribution s b i b
  if B.im i < 0 then { s with diag := w, first := r }
  else
    let form :=
      if B.im i == 0 then
        s.form.set i b (-r / if w == 0 then epsilon * B.norm else w)
      else realBlock B b i ⟨i + 1, by omega⟩ w r s
    { s with form := rescale i b b (abs (form i b)) form, solved := i }

def realColumn (B : Blocks α n) (b : Fin n) (h : Grid α n n) : Grid α n n :=
  (Fin.foldr n (fun i s ↦ if hi : i < b then realRow B b i hi s else s)
    { form := h.set b b 1, solved := b, diag := 0, first := 0, second := 0 }).form

def setPair (i a b : Fin n) (z : α × α) (h : Grid α n n) : Grid α n n :=
  (h.set i a z.1).set i b z.2

def complexBlock (B : Blocks α n) (a b i j : Fin n) (w ra sa : α) (s : State α n) : Grid α n n :=
  let p := B.re b
  let q := B.im b
  let x := s.form i j
  let y := s.form j i
  let z := s.diag
  let vr := (B.re i - p) * (B.re i - p) + B.im i * B.im i - q * q
  let vi := (B.re i - p) * 2.0 * q
  let vr :=
    if vr == 0 && vi == 0 then epsilon * B.norm * (abs w + abs q + abs x + abs y + abs z) else vr
  let u := complexQuotient (x * s.first - z * ra + q * sa) (x * s.second - z * sa - q * ra) vr vi
  let v :=
    if abs z + abs q < abs x then
      ((-ra - w * u.1 + q * u.2) / x, (-sa - w * u.2 - q * u.1) / x)
    else complexQuotient (-s.first - y * u.1) (-s.second - y * u.2) z q
  setPair j a b v (setPair i a b u s.form)

def complexRow (B : Blocks α n) (a b i : Fin n) (hi : i < a) (s : State α n) : State α n :=
  let q := B.im b
  let ra := contribution s b i a
  let sa := contribution s b i b
  let w := s.form i i - B.re b
  if B.im i < 0 then { s with diag := w, first := ra, second := sa }
  else
    let form :=
      if B.im i == 0 then setPair i a b (complexQuotient (-ra) (-sa) w q) s.form
      else complexBlock B a b i ⟨i + 1, by omega⟩ w ra sa s
    { s with form := rescale i a b (maxNum (abs (form i a)) (abs (form i b))) form, solved := i }

/-- Chooses the last component to be `i`, so that the one above it comes from either row of the
block: from the row with the larger corner. -/
def complexEnd (B : Blocks α n) (a b : Fin n) (h : Grid α n n) : Grid α n n :=
  let p := B.re b
  let q := B.im b
  let z :=
    if abs (h a b) < abs (h b a) then (q / h b a, -(h b b - p) / h b a)
    else complexQuotient 0 (-h a b) (h a a - p) q
  setPair b a b (0, 1) (setPair a a b z h)

def complexColumns (B : Blocks α n) (a b : Fin n) (h : Grid α n n) : Grid α n n :=
  (Fin.foldr n (fun i s ↦ if hi : i < a then complexRow B a b i hi s else s)
    { form := complexEnd B a b h, solved := a, diag := 0, first := 0, second := 0 }).form

def column (B : Blocks α n) (b : Fin n) (h : Grid α n n) : Outcome α (Grid α n n) :=
  if B.im b == 0 then .ok (realColumn B b h)
  else if B.im b < 0 then
    if hb : b.val = 0 then abort .subtractOverflow
    else .ok (complexColumns B ⟨b - 1, by omega⟩ b h)
  else .ok h

/-- The eigenvectors of a quasi-triangular matrix, each in the columns of its eigenvalue. A column
is overwritten only after all columns to its right. -/
def eigenvectors (B : Blocks α n) (h : Grid α n n) : Outcome α (Grid α n n) :=
  (List.finRange n).reverse.foldlM (fun h b ↦ column B b h) h

end DenseDecomp.RealSchur.BackSubstitution
