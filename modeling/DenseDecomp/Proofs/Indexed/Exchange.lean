import DenseDecomp.DenseMatrix.Exchange
import DenseDecomp.Proofs.Indexed.Access
import DenseDecomp.Proofs.MatrixEntries

namespace DenseDecomp.Indexed

open DenseMatrix

variable {α : Type} [Scalar α]

def ofColumnMajor (x : ColumnMajor α) : Outcome α (DenseMatrix α) := do
  let out ← zeros x.rows x.cols
  ascending 0 x.rows
    (fun out i ↦ ascending 0 x.cols (fun out j ↦ out.set i j (x.entry i j)) out) out

def collect (rows cols : ℕ) (entry : ℕ → ℕ → Outcome α α) : Outcome α (Array α) :=
  ascending 0 rows
    (fun out i ↦ ascending 0 cols (fun out j ↦ do return out.push (← entry i j)) out) #[]

def ofStrided (x : Strided α) : Outcome α (DenseMatrix α) := do
  Size.checkShape x.rows x.cols
  let _ ← Size.mul x.rows x.cols
  return ⟨x.rows, x.cols, ← collect x.rows x.cols fun i j ↦ .ok (x.entry i j)⟩

def transpose (a : DenseMatrix α) : Outcome α (DenseMatrix α) := do
  return ⟨a.cols, a.rows, ← collect a.cols a.rows fun j i ↦ a.get i j⟩

section Collect

variable {rows cols : ℕ} {entry : ℕ → ℕ → Outcome α α}

omit [Scalar α] in
/-- The buffer grows by the entries in the order in which a grid is stored. -/
theorem collect_eq {f : ℕ → ℕ → α} (h : ∀ i < rows, ∀ j < cols, entry i j = .ok (f i j)) :
    collect rows cols entry =
      .ok (Array.ofFn fun k : Fin (rows * cols) ↦ f (k / cols) (k % cols)) := by
  let S := fun length ↦ Array.ofFn fun k : Fin length ↦ f (k / cols) (k % cols)
  refine ascending_eq (fun i ↦ S (i * cols)) (Nat.zero_le rows) ?_ fun i _ hi ↦ ?_
  case refine_1 => simp only [S, Nat.zero_mul, Array.ofFn_zero]
  case refine_2 =>
    rw [Nat.succ_mul]
    refine ascending_eq (fun j ↦ S (i * cols + j)) (Nat.zero_le cols) rfl fun j _ hj ↦ ?_
    have hpush := Array.ofFn_succ (f := fun k : Fin (i * cols + j + 1) ↦ f (k / cols) (k % cols))
    simp only [Fin.val_castSucc, mul_add_div hj, mul_add_mod hj] at hpush
    rw [h i hi j hj, Outcome.ok_bind, Outcome.pure_eq]
    exact congrArg _ hpush.symm

theorem transpose_eq {a : DenseMatrix α} (ha : a.Held) : transpose a = .ok a.transpose := by
  rw [transpose, collect_eq fun j hj i hi ↦ ha.get_eq hi hj, DenseMatrix.transpose, ofGrid]
  simp only [Grid.ofFn_apply]
  rfl

end Collect

section Fill

variable {r c : ℕ}

def filledUpTo (r c : ℕ) (f : ℕ → ℕ → α) (k : ℕ) : DenseMatrix α :=
  ofGrid (Grid.ofFn fun (i : Fin r) (j : Fin c) ↦ if i * c + j < k then f i j else 0)

theorem zeros_eq_filledUpTo (f : ℕ → ℕ → α) (h : (allocate r c : Outcome α Unit) = .ok ()) :
    zeros r c = .ok (filledUpTo r c f 0) := by
  rw [zeros, h, Outcome.ok_bind]
  refine congrArg (fun data ↦ Except.ok (DenseMatrix.mk r c data)) (Array.ext ?_ fun k hk hk' ↦ ?_)
  · rw [Array.size_replicate, Array.size_ofFn]
  · simp only [Array.getElem_replicate, Array.getElem_ofFn, Grid.ofFn_apply, Nat.not_lt_zero,
      if_false]

theorem set_filledUpTo (f : ℕ → ℕ → α) (hlt : r * c < Size.wordBound) {i j : ℕ} (hi : i < r)
    (hj : j < c) : (filledUpTo r c f (i * c + j)).set i j (f i j) =
      .ok (filledUpTo r c f (i * c + j + 1)) := by
  rw [filledUpTo, set_ofGrid _ hlt, Grid.write_of_lt _ hi hj]
  refine congrArg (fun g ↦ Except.ok (ofGrid g)) (Grid.ext fun k l ↦ ?_)
  simp only [Grid.set_apply, Grid.ofFn_apply, Fin.ext_iff]
  by_cases hkl : k.val = i ∧ l.val = j
  case pos =>
    obtain ⟨rfl, rfl⟩ := hkl
    rw [if_pos ⟨rfl, rfl⟩, if_pos (Nat.lt_succ_self _)]
  case neg =>
    have hne : k.val * c + l.val ≠ i * c + j := fun heq ↦ hkl (mul_add_inj l.isLt hj heq)
    rw [if_neg hkl]
    exact if_congr (by omega) rfl rfl

theorem fill_eq {f : ℕ → ℕ → α} (entry : ℕ → ℕ → Outcome α α) (hlt : r * c < Size.wordBound)
    (h : ∀ i < r, ∀ j < c, entry i j = .ok (f i j)) :
    ascending 0 r (fun out i ↦ ascending 0 c (fun out j ↦ do out.set i j (← entry i j)) out)
      (filledUpTo r c f 0) = .ok (ofGrid (Grid.ofFn fun (i : Fin r) (j : Fin c) ↦ f i j)) := by
  refine (ascending_eq (fun i ↦ filledUpTo r c f (i * c)) (Nat.zero_le r) ?_
    fun i _ hi ↦ ?_).trans ?_
  case refine_1 => rw [Nat.zero_mul]
  case refine_2 =>
    rw [Nat.succ_mul]
    refine ascending_eq (fun j ↦ filledUpTo r c f (i * c + j)) (Nat.zero_le c) rfl
      fun j _ hj ↦ ?_
    rw [h i hi j hj, Outcome.ok_bind]
    exact set_filledUpTo f hlt hi hj
  case refine_3 =>
    refine congrArg (fun g ↦ Except.ok (ofGrid g)) (Grid.ext fun i j ↦ ?_)
    rw [Grid.ofFn_apply, Grid.ofFn_apply, if_pos (mul_add_lt i.isLt j.isLt)]

end Fill

end DenseDecomp.Indexed
