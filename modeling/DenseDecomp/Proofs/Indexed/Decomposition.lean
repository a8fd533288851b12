import DenseDecomp.Proofs.HeldMatrix
import DenseDecomp.Proofs.Indexed.BackSubstitution
import DenseDecomp.Proofs.Indexed.Hessenberg
import DenseDecomp.Proofs.Indexed.ImplicitQL
import DenseDecomp.Proofs.Indexed.RealSchur
import DenseDecomp.Proofs.Indexed.Tridiagonal

namespace DenseDecomp.Indexed

open Scalar

variable {α : Type} [Scalar α] {n : ℕ}

section Eigen

def symmetricEntry (g : Grid α n n) (i : ℕ) (ok : Bool) (j : ℕ) : Outcome α Bool := do
  if ok then return (← g.read i j) == (← g.read j i) else return false

def isSymmetric (g : Grid α n n) : Outcome α Bool :=
  ascending 0 n (fun ok i ↦ ascending 0 i (symmetricEntry g i) ok) true

def symmetricSpectrum (config : EigenConfig) (g : Grid α n n) : Run (Failure α) (Spectrum α n) := do
  let t ← Run.ofOutcome (tridiagonalize g (Tuple.fill 0) (Tuple.fill 0))
  let x ← diagonalize config t
  return ⟨x.1.vectors, x.1.values, x.2⟩

def generalSpectrum (config : EigenConfig) (g : Grid α n n) : Run (Failure α) (Spectrum α n) := do
  let h ← Run.ofOutcome (hessenberg g (Grid.ofFn fun _ _ ↦ 0))
  let norm ← Run.ofOutcome (hessenbergNorm h.1)
  let s ← settleRows config norm n 0 (.ofHessenberg h.1 h.2)
  if norm == 0 then return ⟨s.basis, s.re, s.im⟩
  else
    let x ← Run.ofOutcome (eigenvectors s.re s.im norm s.form)
    let v ← Run.ofOutcome (backTransform s.basis x)
    return ⟨v, s.re, s.im⟩

/-- The decomposition by programs that check every index they use and every size they compute. -/
def decompose (config : EigenConfig) (a : DenseMatrix α) : Run (Failure α) (EigenDecomposition α) :=
  if a.rows = a.cols then do
    let n := a.rows
    let g ← Run.ofOutcome (a.toGrid n n)
    if ← Run.ofOutcome (isSymmetric g) then
      Run.emit (.symmetricInput n)
      let s ← symmetricSpectrum config g
      return .ofSpectrum true s
    else
      Run.emit (.generalInput n)
      Run.ofOutcome (DenseMatrix.allocate n n)
      let s ← generalSpectrum config g
      return .ofSpectrum false s
  else .ofOutcome (refuse (.notSquare a.rows a.cols))

def blockRow (re im : Tuple α n) (d : Grid α n n) (i : ℕ) : Outcome α (Grid α n n) := do
  let d ← d.write i i (← re.read i)
  let e ← im.read i
  let next ← Size.add i 1
  if 0 < e ∧ next < n then d.write i next e
  else if e < 0 ∧ 0 < i then d.write i (← Size.sub i 1) e
  else return d

def blockDiagonal (x : EigenDecomposition α) : Outcome α (DenseMatrix α) := do
  let n := x.dimension
  let length ← Size.mul n n
  Size.reserve length
  match Tuple.ofArray? n x.re, Tuple.ofArray? n x.im with
  | some re, some im => .ofGrid <$> ascending 0 n (blockRow re im) (Grid.ofFn fun _ _ ↦ 0)
  | _, _ => abort (.offsetOutOfBounds n x.im.size)

variable {config : EigenConfig}

theorem symmetricSpectrum_eq (hn : n + 2 < Size.wordBound) (g : Grid α (n + 1) (n + 1)) :
    symmetricSpectrum config g = Spectrum.ofSymmetric config g := by
  rw [symmetricSpectrum, tridiagonalize_eq hn, Run.ofOutcome_ok_bind, diagonalize_eq hn,
    Run.bind_pure_bind]
  rfl

theorem generalSpectrum_eq (hn : n + 4 < Size.wordBound) (g : Grid α (n + 1) (n + 1)) :
    generalSpectrum config g = Spectrum.ofGeneral config g := by
  rw [generalSpectrum, hessenberg_eq (by omega), Run.ofOutcome_ok_bind, hessenbergNorm_eq,
    Run.ofOutcome_ok_bind, settleRows_eq (by omega) (n + 1) le_rfl, Spectrum.ofGeneral,
    Spectrum.ofHessenberg]
  refine congrArg _ (funext fun s ↦ ?_)
  have hvectors : eigenvectors s.re s.im (RealSchur.hessenbergNorm (Hessenberg.reduce g).form)
      s.form = RealSchur.BackSubstitution.eigenvectors
        ⟨s.re, s.im, RealSchur.hessenbergNorm (Hessenberg.reduce g).form⟩ s.form :=
    eigenvectors_eq (B := ⟨s.re, s.im, _⟩) (by omega) s.form
  simp only [hvectors, backTransform_eq, Run.ofOutcome_ok_bind]

theorem symmetricEntry_eq (g : Grid α n n) (i j : Fin n) (ok : Bool) :
    symmetricEntry g i ok j = .ok (ok && g i j == g j i) := by
  rw [symmetricEntry]
  cases ok with
  | true => rw [if_pos rfl, Grid.read_fin, Outcome.ok_bind, Grid.read_fin]; rfl
  | false => rfl

theorem isSymmetric_eq (g : Grid α n n) :
    isSymmetric g = .ok (DenseMatrix.ofGrid g).isSymmetric := by
  have hsquare : (DenseMatrix.ofGrid g).isSquare = true := beq_self_eq_true n
  have hrows : (DenseMatrix.ofGrid g).rows = n := rfl
  rw [DenseMatrix.isSymmetric, hsquare, Bool.true_and, hrows]
  refine ascending_eq (fun t ↦ (List.range t).all fun i ↦ (List.range i).all fun j ↦
    (DenseMatrix.ofGrid g).entry i j == (DenseMatrix.ofGrid g).entry j i) (Nat.zero_le n) rfl
    fun i _ hi ↦ ?_
  rw [List.range_succ, List.all_append, List.all_cons, List.all_nil, Bool.and_true]
  refine ascending_eq (fun t ↦ ((List.range i).all fun i ↦ (List.range i).all fun j ↦
    (DenseMatrix.ofGrid g).entry i j == (DenseMatrix.ofGrid g).entry j i) &&
      (List.range t).all fun j ↦
        (DenseMatrix.ofGrid g).entry i j == (DenseMatrix.ofGrid g).entry j i) (Nat.zero_le i)
    (Bool.and_true _) fun j _ hj ↦ ?_
  rw [List.range_succ, List.all_append, List.all_cons, List.all_nil, Bool.and_true,
    ← Bool.and_assoc]
  have hentry := DenseMatrix.entry_ofGrid g ⟨i, hi⟩ ⟨j, hj.trans hi⟩
  have hmirror := DenseMatrix.entry_ofGrid g ⟨j, hj.trans hi⟩ ⟨i, hi⟩
  simp only at hentry hmirror
  rw [hentry, hmirror]
  exact symmetricEntry_eq g ⟨i, hi⟩ ⟨j, hj.trans hi⟩ _

/-- A matrix that exists is decomposed without a step out of range. -/
theorem decompose_eq {a : DenseMatrix α} (ha : a.Held) :
    decompose config a = EigenDecomposition.decompose config a := by
  by_cases hsq : a.rows = a.cols
  case neg => rw [decompose, EigenDecomposition.decompose, if_neg hsq, if_neg hsq]
  obtain ⟨n, data, rfl, hsize⟩ := ha.exists_square hsq
  obtain ⟨g, hg, hdecompose⟩ := EigenDecomposition.exists_decompose_eq ha
  have hofGrid : (⟨n + 1, n + 1, data⟩ : DenseMatrix α) = .ofGrid g := by
    obtain ⟨g', hg'⟩ := ha.exists_ofGrid
    have htoGrid := hg'.symm ▸ DenseMatrix.toGrid_ofGrid g'
    rw [hg', Except.ok.inj (htoGrid.symm.trans hg)]
  have hn : n + 4 < Size.wordBound := ha.rows_add_lt
  have halloc : (DenseMatrix.allocate (n + 1) (n + 1) : Outcome α Unit) = .ok () := ha.allocate_eq
  have hsymm : isSymmetric g = .ok (⟨n + 1, n + 1, data⟩ : DenseMatrix α).isSymmetric := by
    rw [isSymmetric_eq, hofGrid]
  rw [hdecompose, decompose, if_pos rfl]
  simp only [hg, hsymm, halloc, Run.ofOutcome_ok_bind, generalSpectrum_eq hn,
    symmetricSpectrum_eq (show n + 2 < Size.wordBound by omega)]

end Eigen

section BlockDiagonal

def blockRowEntry (re im : Tuple α n) (i : Fin n) (row : Fin n → α) (l : Fin n) : α :=
  if l = i then re i
  else if 0 < im i then if i.val + 1 = l.val then im i else row l
  else if im i < 0 then if l.val + 1 = i.val then im i else row l
  else row l

variable {re im : Tuple α n} (hasymm : ∀ x : α, 0 < x → ¬ x < 0)

include hasymm

theorem blockRow_eq (hn : n < Size.wordBound) (d : Grid α n n) (i : Fin n) :
    blockRow re im d i =
      .ok (Grid.ofFn fun r l ↦ if r = i then blockRowEntry re im r (d r) l else d r l) := by
  have hadd : (Size.add i 1 : Outcome α ℕ) = .ok (i + 1) := Size.add_of_lt (by omega)
  rw [blockRow, Tuple.read_fin, Outcome.ok_bind, Grid.write_fin, Outcome.ok_bind, Tuple.read_fin,
    Outcome.ok_bind, hadd, Outcome.ok_bind]
  split
  case isTrue h =>
    rw [Grid.write_of_lt _ i.isLt h.2]
    refine congrArg _ (Grid.ext fun r l ↦ ?_)
    simp only [Grid.set_apply, Grid.ofFn_apply, blockRowEntry, Fin.ext_iff]
    grind
  case isFalse hnext =>
    split
    case isTrue h =>
      rw [Size.sub_of_le h.2, Outcome.ok_bind, Grid.write_of_lt _ i.isLt (by omega)]
      refine congrArg _ (Grid.ext fun r l ↦ ?_)
      simp only [Grid.set_apply, Grid.ofFn_apply, blockRowEntry, Fin.ext_iff]
      grind
    case isFalse hprev =>
      refine congrArg _ (Grid.ext fun r l ↦ ?_)
      simp only [Grid.set_apply, Grid.ofFn_apply, blockRowEntry, Fin.ext_iff]
      grind

theorem blockRows_eq (hn : n < Size.wordBound) :
    ascending 0 n (blockRow re im) (Grid.ofFn fun _ _ ↦ 0) =
      .ok (Spectrum.blockDiagonal re im) := by
  refine (ascending_rows (F := blockRowEntry re im) (Nat.zero_le n) le_rfl
    (fun i d _ _ ↦ blockRow_eq hasymm hn d i) _).trans (congrArg _ (Grid.ext fun i l ↦ ?_))
  simp only [Spectrum.blockDiagonal, Grid.ofFn_apply, blockRowEntry, Nat.zero_le, Fin.is_lt,
    and_self, if_true]
  grind

theorem blockDiagonal_eq (x : EigenDecomposition α) : blockDiagonal x = x.blockDiagonal := by
  rw [blockDiagonal, EigenDecomposition.blockDiagonal]
  by_cases hsize : x.dimension * x.dimension < Size.wordBound
  case neg =>
    simp only [Size.mul, if_neg hsize]
    rfl
  have hn : x.dimension < Size.wordBound := (Nat.le_mul_self _).trans_lt hsize
  simp only [blockRows_eq hasymm hn]
  rfl

end BlockDiagonal

end DenseDecomp.Indexed
