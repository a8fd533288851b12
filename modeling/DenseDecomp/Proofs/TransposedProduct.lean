import Mathlib
import DenseDecomp.Proofs.Binary64.Order
import DenseDecomp.Proofs.Indexed.Product
import DenseDecomp.Proofs.WellFormedValues

namespace DenseDecomp

namespace Binary64

open Float.Model (UnpackedFloat)

theorem sign_mul_comm (s t : UnpackedFloat.Sign) : s * t = t * s := by
  cases s <;> cases t <;> rfl

theorem unpacked_mul_comm (u v : UnpackedFloat) :
    UnpackedFloat.mul .binary64 u v = UnpackedFloat.mul .binary64 v u := by
  cases u <;> cases v <;>
    simp only [UnpackedFloat.mul, sign_mul_comm, Nat.mul_comm, Int.add_comm]

protected theorem mul_comm (x y : Float) : x * y = y * x :=
  congrArg (fun u ↦ Float.ofModel (.pack u)) (unpacked_mul_comm _ _)

end Binary64

namespace DenseMatrix

open Scalar

section Product

variable {α : Type} [Scalar α] {a b : DenseMatrix α} {r c n : ℕ}

theorem transpose_ofGrid (g : Grid α r c) :
    (ofGrid g).transpose = ofGrid (Grid.ofFn fun j i ↦ g i j) := by
  have hentry : (fun (j : Fin c) (i : Fin r) ↦ (ofGrid g).entry i j) = fun j i ↦ g i j := by
    funext j i
    exact entry_ofGrid g i j
  exact congrArg (fun f ↦ ofGrid (Grid.ofFn f)) hentry

theorem entry_transpose (a : DenseMatrix α) {i j : ℕ} (hi : i < a.rows) (hj : j < a.cols) :
    a.transpose.entry j i = a.entry i j := by
  rw [transpose, entry_ofGrid_of_lt _ hj hi, Grid.ofFn_apply]

theorem WellFormed.transpose_transpose (h : a.WellFormed) : a.transpose.transpose = a := by
  obtain ⟨g, hg⟩ := h.exists_ofGrid
  rw [hg, transpose_ofGrid, transpose_ofGrid]
  simp

def product (a b : DenseMatrix α) : DenseMatrix α :=
  ofGrid (Grid.ofFn fun (i : Fin a.rows) (j : Fin b.cols) ↦ a.innerProduct b i j)

theorem multiply_eq (h : a.cols = b.rows) :
    a.multiply b = (Size.mul a.rows b.cols >>= Size.reserve).map fun _ ↦ a.product b := by
  rw [multiply, if_pos h]
  cases (Size.mul a.rows b.cols : Outcome α ℕ) with
  | error e => rfl
  | ok length =>
    rw [Outcome.ok_bind, Outcome.ok_bind]
    cases (Size.reserve length : Outcome α Unit) <;> rfl

theorem multiply_of_ne (h : a.cols ≠ b.rows) :
    a.multiply b = refuse (.dimensionMismatch a.rows a.cols b.rows b.cols) := if_neg h

theorem exists_multiply (h : a.cols = b.rows)
    (hfits : Size.entryBytes * (a.rows * b.cols) < Size.byteBound) :
    ∃ m, a.multiply b = .ok m := by
  have hlength : (Size.mul a.rows b.cols : Outcome α ℕ) = .ok (a.rows * b.cols) :=
    Size.mul_eq_ok_iff.2 ⟨Size.lt_wordBound hfits, rfl⟩
  have hreserve : (Size.reserve (a.rows * b.cols) : Outcome α Unit) = .ok () := if_pos hfits
  rw [multiply_eq h, hlength, Outcome.ok_bind, hreserve]
  exact ⟨_, rfl⟩

/-- Row and column change places. The terms are the same in the same order, and only the factors
of each of them are exchanged. -/
theorem innerProduct_transpose (hcomm : ∀ x y : α, x * y = y * x) (h : a.cols = b.rows) {i j : ℕ}
    (hi : i < a.rows) (hj : j < b.cols) :
    b.transpose.innerProduct a.transpose j i = a.innerProduct b i j := by
  obtain ⟨r, k, x⟩ := a
  obtain ⟨k', c, y⟩ := b
  obtain rfl : k = k' := h
  apply sumWhere_congr
  intro l _
  have hleft := entry_transpose ⟨r, k, x⟩ hi l.isLt
  have hright := entry_transpose ⟨k, c, y⟩ l.isLt hj
  exact (congrArg₂ (· * ·) hright hleft).trans (hcomm _ _)

theorem transpose_product (hcomm : ∀ x y : α, x * y = y * x) (h : a.cols = b.rows) :
    (a.product b).transpose = b.transpose.product a.transpose := by
  have hentry : ∀ (j : Fin b.cols) (i : Fin a.rows), a.innerProduct b i j =
      b.transpose.innerProduct a.transpose j i := fun j i ↦
    (innerProduct_transpose hcomm h i.isLt j.isLt).symm
  rw [product, transpose_ofGrid]
  simp only [Grid.ofFn_apply, hentry]
  rfl

theorem map_transpose_multiply (hcomm : ∀ x y : α, x * y = y * x) (h : a.cols = b.rows) :
    (a.multiply b).map transpose = b.transpose.multiply a.transpose := by
  have hlength : (Size.mul b.transpose.rows a.transpose.cols : Outcome α ℕ) =
      Size.mul a.rows b.cols := by
    change Size.mul b.cols a.rows = _
    rw [Size.mul, Size.mul, Nat.mul_comm]
  have hfactors : b.transpose.cols = a.transpose.rows := h.symm
  rw [multiply_eq h, multiply_eq hfactors, hlength, ← transpose_product hcomm h]
  cases (Size.mul a.rows b.cols >>= Size.reserve : Outcome α Unit) <;> rfl

end Product

section Equality

variable {α : Type} [Scalar α] {r c n : ℕ}

theorem beq_ofGrid_iff (g h : Grid α r c) :
    (ofGrid g == ofGrid h) = true ↔ ∀ i j, (g i j == h i j) = true := by
  have hshape : ((ofGrid g).shape == (ofGrid h).shape) = true := beq_self_eq_true (r, c)
  have hdata : (ofGrid g == ofGrid h) = true ↔ ((ofGrid g).data == (ofGrid h).data) = true := by
    change ((ofGrid g).shape == (ofGrid h).shape && (ofGrid g).data == (ofGrid h).data) = true ↔ _
    rw [hshape, Bool.true_and]
  have hsize : (ofGrid g).data.size = (ofGrid h).data.size := by
    rw [size_ofGrid, size_ofGrid]
  rw [hdata, Array.beq_eq_decide, dif_pos hsize, decide_eq_true_iff]
  constructor
  · intro h' i j
    have hentry := h' _ (lt_size_ofGrid g i.isLt j.isLt)
    rwa [getElem_ofGrid, getElem_ofGrid] at hentry
  · intro h' k hk
    simp only [ofGrid, Array.getElem_ofFn]
    exact h' _ _

theorem beq_of_shape_ne {a b : DenseMatrix α} (h : a.shape ≠ b.shape) : (a == b) = false := by
  change (a.shape == b.shape && a.data == b.data) = false
  rw [beq_eq_false_iff_ne.2 h, Bool.false_and]

end Equality

section Float

variable {a : DenseMatrix Float}

/-- Besides the entries that face each other, the equality compares those on the diagonal with
themselves. -/
theorem beq_transpose_ofGrid_iff {n : ℕ} (g : Grid Float n n) :
    (ofGrid g == (ofGrid g).transpose) = true ↔
      (ofGrid g).isSymmetric = true ∧ ∀ i, (g i i).isNaN = false := by
  rw [transpose_ofGrid, beq_ofGrid_iff, isSymmetric_ofGrid_iff]
  simp only [Grid.ofFn_apply]
  constructor
  · intro h
    refine ⟨fun i j _ ↦ h i j, fun i ↦ ?_⟩
    exact (Binary64.beq_iff.1 (h i i)).1
  · rintro ⟨hsymm, hdiag⟩ i j
    rcases lt_trichotomy j i with hij | rfl | hij
    · exact hsymm i j hij
    · exact Binary64.beq_iff.2 ⟨hdiag j, hdiag j, rfl⟩
    · rw [Binary64.beq_comm]
      exact hsymm j i hij

theorem WellFormed.isSymmetric_iff (h : a.WellFormed) (hnum : ∀ x ∈ a.data, x.isNaN = false) :
    a.isSymmetric = true ↔ (a == a.transpose) = true := by
  by_cases hsq : a.rows = a.cols
  · obtain ⟨n, g, rfl⟩ := h.exists_ofGrid_square hsq
    have hdiag : ∀ i, (g i i).isNaN = false := by
      intro i
      have hi := lt_size_ofGrid g i.isLt i.isLt
      rw [← getElem_ofGrid g i i hi]
      exact hnum _ (Array.getElem_mem hi)
    rw [beq_transpose_ofGrid_iff]
    exact ⟨fun hsymm ↦ ⟨hsymm, hdiag⟩, And.left⟩
  · have hshape : a.shape ≠ a.transpose.shape := fun heq ↦ hsq (Prod.mk.inj heq).1
    have hsquare : a.isSquare = false := beq_eq_false_iff_ne.2 hsq
    rw [beq_of_shape_ne hshape, isSymmetric, hsquare, Bool.false_and]

end Float

theorem Held.transpose {α : Type} [Scalar α] {a : DenseMatrix α} (h : a.Held) :
    a.transpose.Held where
  toWellFormed := h.toWellFormed.transpose
  fits := Nat.mul_comm a.rows a.cols ▸ h.fits

/-- The product of two matrices read across the diagonal is that of the two read so, in the other
order. Factors that do not fit together are refused, in both orders with the shapes they have. -/
structure TransposesProduct (a b : DenseMatrix Float) : Prop where
  program_eq : Indexed.multiply a b = a.multiply b
  transpose_eq : a.cols = b.rows →
    (a.multiply b).map DenseMatrix.transpose = b.transpose.multiply a.transpose
  exists_product : a.cols = b.rows → Size.entryBytes * (a.rows * b.cols) < Size.byteBound →
    ∃ m, a.multiply b = .ok m
  mismatch : a.cols ≠ b.rows →
    a.multiply b = refuse (.dimensionMismatch a.rows a.cols b.rows b.cols)
  mismatch_transpose : a.cols ≠ b.rows →
    b.transpose.multiply a.transpose = refuse (.dimensionMismatch b.cols b.rows a.cols a.rows)

theorem Held.transposesProduct {a b : DenseMatrix Float} (ha : a.Held) (hb : b.Held) :
    TransposesProduct a b where
  program_eq := Indexed.multiply_eq ha hb
  transpose_eq := map_transpose_multiply Binary64.mul_comm
  exists_product := exists_multiply
  mismatch := multiply_of_ne
  mismatch_transpose h := multiply_of_ne h.symm

/-- A matrix comes back when it is read across the diagonal twice, and without an entry that is not
a number it is symmetric when it comes back at once. -/
structure TransposesBack (a : DenseMatrix Float) : Prop where
  held : a.transpose.Held
  program_eq : Indexed.transpose a = .ok a.transpose
  transpose_transpose : a.transpose.transpose = a
  isSymmetric_iff : (∀ x ∈ a.data, x.isNaN = false) →
    (a.isSymmetric = true ↔ (a == a.transpose) = true)

theorem Held.transposesBack {a : DenseMatrix Float} (h : a.Held) : TransposesBack a where
  held := h.transpose
  program_eq := Indexed.transpose_eq h
  transpose_transpose := h.toWellFormed.transpose_transpose
  isSymmetric_iff := h.toWellFormed.isSymmetric_iff

/-- To read across the diagonal reverses products and undoes itself, for matrices of any shape and
whatever their entries are. -/
theorem transpose_reverses :
    (∀ a b : DenseMatrix Float, a.Held → b.Held → TransposesProduct a b) ∧
      ∀ a : DenseMatrix Float, a.Held → TransposesBack a :=
  ⟨fun _ _ ha hb ↦ ha.transposesProduct hb, fun _ ha ↦ ha.transposesBack⟩

/-- Among the terms are an infinity, a product that overflows, and a zero of each sign. -/
theorem transpose_reverses_two :
    let a : DenseMatrix Float := ⟨2, 3, #[1, -0.0, 1e308, 0, 1.0 / 0.0, 3]⟩
    let b : DenseMatrix Float := ⟨3, 2, #[10, 1, 0.5, 2, 10, -5]⟩
    let s : DenseMatrix Float := ⟨2, 2, #[1, 0.0, -0.0, 2]⟩
    a.Held ∧ b.Held ∧ s.Held ∧
      (∃ m, a.multiply b = .ok m ∧ b.transpose.multiply a.transpose = .ok m.transpose) ∧
      a.multiply a = refuse (.dimensionMismatch 2 3 2 3) ∧ a.transpose.transpose = a ∧
      (∀ x ∈ s.data, x.isNaN = false) ∧ (s == s.transpose) = true := by
  intro a b s
  have ha : a.Held := ⟨⟨by decide, by decide, by decide, by decide⟩, by decide⟩
  have hb : b.Held := ⟨⟨by decide, by decide, by decide, by decide⟩, by decide⟩
  have hs : s.Held := ⟨⟨by decide, by decide, by decide, by decide⟩, by decide⟩
  obtain ⟨hproduct, hback⟩ := transpose_reverses
  refine ⟨ha, hb, hs, ?_, ?_, ?_, ?_⟩
  · obtain ⟨m, hm⟩ := (hproduct a b ha hb).exists_product rfl (by decide)
    have htranspose := (hproduct a b ha hb).transpose_eq rfl
    rw [hm] at htranspose
    exact ⟨m, hm, htranspose.symm⟩
  · exact (hproduct a a ha ha).mismatch (by decide)
  · exact (hback a ha).transpose_transpose
  · have hnum : ∀ x ∈ s.data, x.isNaN = false := by decide +kernel
    exact ⟨hnum, ((hback s hs).isSymmetric_iff hnum).1 (by decide +kernel)⟩

end DenseMatrix

end DenseDecomp
