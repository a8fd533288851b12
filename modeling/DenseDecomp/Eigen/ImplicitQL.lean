import DenseDecomp.Eigen.Config
import DenseDecomp.Eigen.Tridiagonal
import DenseDecomp.Grid.Rotation
import DenseDecomp.Run

namespace DenseDecomp

open Scalar

/-- A tridiagonal matrix on its way to a diagonal one. `link i` stands beside the diagonal between
the indices `i` and `i + 1`. The entries not settled yet still have `shift` to be added, and
`magnitude` is the largest `|diag i| + |link i|` met so far. -/
structure ImplicitQL (α : Type) (n : Nat) where
  basis : Grid α n n
  diag : Tuple α n
  link : Tuple α n
  shift : α
  magnitude : α

namespace ImplicitQL

variable {α : Type} [Scalar α] {n : Nat}

def ofTridiagonal (t : Tridiagonal α n) : ImplicitQL α n where
  basis := t.basis
  diag := t.diag
  link := Tuple.ofFn fun i ↦ if h : i.val + 1 < n then t.below ⟨i.val + 1, h⟩ else 0
  shift := 0
  magnitude := 0

/-- A sweep under way up the matrix: the diagonal entry it carries along, and the last rotations,
of which `cos` and `sin` belong to the latest. -/
structure Chase (α : Type) (n : Nat) where
  basis : Grid α n n
  diag : Tuple α n
  link : Tuple α n
  carried : α
  cos : α
  cos₁ : α
  cos₂ : α
  sin : α
  sin₁ : α

def Chase.rotate (k : Fin n) (t : Chase α (n + 1)) : Chase α (n + 1) :=
  let i := k.castSucc
  let g := t.cos * t.link i
  let h := t.cos * t.carried
  let r := hypot t.carried (t.link i)
  let sin := t.link i / r
  let cos := t.carried / r
  { basis := t.basis.rotateColumns i k.succ cos sin (fun _ ↦ True)
    diag := t.diag.set k.succ (h + sin * (cos * g + sin * t.diag i))
    link := t.link.set k.succ (t.sin * r)
    carried := cos * t.diag i - sin * g
    cos
    cos₁ := t.cos
    cos₂ := t.cos₁
    sin
    sin₁ := t.sin }

/-- One sweep over the block `c, …, m`. The eigenvalue of the leading two by two block nearer to its
first entry is shifted to zero, and rotations from the bottom up restore the three diagonals. -/
def sweep (c : Fin n) (m : Fin (n + 1)) (s : ImplicitQL α (n + 1)) : ImplicitQL α (n + 1) :=
  let l := c.castSucc
  let e := s.link l
  let p := (s.diag c.succ - s.diag l) / (2.0 * e)
  let r := negateIf (p < 0) (hypot p 1)
  let next := e * (p + r)
  let h := s.diag l - e / (p + r)
  let diag := Tuple.ofFn fun i ↦
    if i = l then e / (p + r)
    else if i = c.succ then next
    else if c.succ < i then s.diag i - h
    else s.diag i
  let t := Fin.foldr n
    (fun k t ↦ if c ≤ k ∧ k.castSucc < m then t.rotate k else t)
    ({ basis := s.basis, diag, link := s.link, carried := diag m,
       cos := 1, cos₁ := 1, cos₂ := 1, sin := 0, sin₁ := 0 } : Chase α (n + 1))
  let q := (-t.sin) * t.sin₁ * t.cos₂ * s.link c.succ * e / next
  { basis := t.basis
    diag := t.diag.set l (t.cos * q)
    link := t.link.set l (t.sin * q)
    shift := s.shift + h
    magnitude := s.magnitude }

def Negligible (s : ImplicitQL α n) (i : Fin n) : Prop :=
  ¬ epsilon * s.magnitude < abs (s.link i)

instance (s : ImplicitQL α n) (i : Fin n) : Decidable (s.Negligible i) :=
  inferInstanceAs (Decidable (¬ _))

def blockEnd (s : ImplicitQL α (n + 1)) (l : Fin (n + 1)) : Fin (n + 1) :=
  match (List.finRange n).find? fun k ↦ l ≤ k.castSucc ∧ s.Negligible k.castSucc with
  | some k => k.castSucc
  | none => Fin.last n

def converge (config : EigenConfig) (c : Fin n) (m : Fin (n + 1)) (done : Nat)
    (s : ImplicitQL α (n + 1)) : Outcome α (Nat × ImplicitQL α (n + 1)) :=
  if s.Negligible c.castSucc then .ok (done, s)
  else config.attempt done (abs (s.link c.castSucc)) .error fun _ ↦
    converge config c m (done + 1) (s.sweep c m)
termination_by EigenConfig.counterBound - done

def raise (s : ImplicitQL α n) (l : Fin n) : ImplicitQL α n :=
  { s with magnitude := maxNum s.magnitude (abs (s.diag l) + abs (s.link l)) }

def settle (config : EigenConfig) (s : ImplicitQL α (n + 1)) (l : Fin (n + 1)) :
    Run (Failure α) (ImplicitQL α (n + 1)) := do
  let s := s.raise l
  let m := s.blockEnd l
  let (sweeps, s) ← Run.ofOutcome <|
    if h : l < m then converge config ⟨l, by omega⟩ m 0 s else .ok (0, s)
  Run.emit (.sweepsDone l sweeps)
  return { s with diag := s.diag.set l (s.diag l + s.shift), link := s.link.set l 0 }

def diagonalize (config : EigenConfig) (t : Tridiagonal α (n + 1)) :
    Run (Failure α) (ImplicitQL α (n + 1)) :=
  (List.finRange (n + 1)).foldlM (settle config) (ofTridiagonal t)

end ImplicitQL

end DenseDecomp
