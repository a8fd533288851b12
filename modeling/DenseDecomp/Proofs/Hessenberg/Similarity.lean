import Mathlib.Data.Real.Basic
import DenseDecomp.Proofs.Agreement
import DenseDecomp.Proofs.Hessenberg.Basis

namespace DenseDecomp.Hessenberg

open Matrix Scalar

variable {n : ℕ}

section Divisors

variable {α : Type} [Scalar α]

def columnDivisors (s : Hessenberg α (n + 1)) (c : Fin n) : List α :=
  let scale := sumWhere (c.succ ≤ ·) fun i ↦ abs (s.form i c.castSucc)
  if scale == 0 then []
  else
    let x := Tuple.ofFn fun i ↦ if c.succ ≤ i then s.form i c.castSucc / scale else s.heads i
    let length := sumWhereDown (c.succ ≤ ·) fun i ↦ x i * x i
    [scale, length - x c.succ * negateIf (0 < x c.succ) (sqrt length)]

def accumulationDivisors (form : Grid α (n + 1) (n + 1)) (c : Fin n)
    (p : Tuple α (n + 1) × Grid α (n + 1) (n + 1)) : List α :=
  if form c.succ c.castSucc == 0 then [] else [p.1 c.succ, form c.succ c.castSucc]

def tracedReduce (a : Grid α (n + 1) (n + 1)) : Hessenberg α (n + 1) × List α :=
  Fin.foldl n
    (fun p c ↦ if c.succ < Fin.last n then (p.1.reduceColumn c, p.2 ++ columnDivisors p.1 c) else p)
    (⟨a, Tuple.fill 0⟩, [])

def tracedBasis (s : Hessenberg α (n + 1)) :
    (Tuple α (n + 1) × Grid α (n + 1) (n + 1)) × List α :=
  Fin.foldr n
    (fun c p ↦ if c.succ < Fin.last n then
      (accumulateColumn s.form c p.1, p.2 ++ accumulationDivisors s.form c p.1) else p)
    ((s.heads, unit), [])

end Divisors

section Quotient

variable (D D' : DivisionByZero) {F : ℕ → Matrix (Fin (n + 1)) (Fin (n + 1)) ℝ}
  {r : Hessenberg ℝ (n + 1)} {c : Fin n} {p : Tuple ℝ (n + 1) × Grid ℝ (n + 1) (n + 1)}

theorem reflectRows_quotient {m : Fin n} {u : Tuple ℝ n} {half : ℝ} (hhalf : half ≠ 0)
    (h : Grid ℝ n n) : (letI : DivisionByZero := D; reflectRows m u half h) =
      (letI : DivisionByZero := D'; reflectRows m u half h) := by
  simp only [reflectRows, @div_of_ne_zero D _ _ hhalf, @div_of_ne_zero D' _ _ hhalf]
  rfl

theorem reflectColumns_quotient {m : Fin n} {u : Tuple ℝ n} {half : ℝ} (hhalf : half ≠ 0)
    (h : Grid ℝ n n) : (letI : DivisionByZero := D; reflectColumns m u half h) =
      (letI : DivisionByZero := D'; reflectColumns m u half h) := by
  simp only [reflectColumns, @div_of_ne_zero D _ _ hhalf, @div_of_ne_zero D' _ _ hhalf]
  rfl

theorem reduceColumn_quotient (s : Hessenberg ℝ (n + 1)) (c : Fin n) :
    (letI : DivisionByZero := D; s.reduceColumn c) =
      (letI : DivisionByZero := D'; s.reduceColumn c) := by
  by_cases hne : s.columnScale c = 0
  · rw [@reduceColumn_eq_self _ D _ _ hne, @reduceColumn_eq_self _ D' _ _ hne]
  · have hhalf := (columnHalf_pos hne).ne'
    rw [@reduceColumn_eq _ D _ _ hne, @reduceColumn_eq _ D' _ _ hne, reflectRows_quotient D D' hhalf,
      reflectColumns_quotient D D' hhalf]

theorem reduce_quotient (a : Grid ℝ (n + 1) (n + 1)) :
    (letI : DivisionByZero := D; reduce a) = (letI : DivisionByZero := D'; reduce a) := by
  have hstep : (letI : DivisionByZero := D; @reduceColumn ℝ _ n) =
      (letI : DivisionByZero := D'; @reduceColumn ℝ _ n) := by
    funext s c
    exact reduceColumn_quotient D D' s c
  simp only [reduce, hstep]

/-- Where a vector is put together again, it has a head. -/
theorem Accumulated.head_ne (hr : Reduced F n r) (hc : c.succ < Fin.last n)
    (h : Accumulated F r (c + 1) p) (hsub : r.form c.succ c.castSucc ≠ 0) : p.1 c.succ ≠ 0 := by
  rw [h.heads_eq _ le_rfl]
  exact hr.head_ne c c.isLt hc hsub

theorem Accumulated.accumulateColumn_quotient (hr : Reduced F n r) (hc : c.succ < Fin.last n)
    (h : Accumulated F r (c + 1) p) :
    (letI : DivisionByZero := D; Hessenberg.accumulateColumn r.form c p) =
      (letI : DivisionByZero := D'; Hessenberg.accumulateColumn r.form c p) := by
  by_cases hsub : r.form c.succ c.castSucc = 0
  · have hstay : ∀ D : DivisionByZero, Hessenberg.accumulateColumn r.form c p = p := fun D ↦
      if_pos (decide_eq_true hsub)
    rw [hstay D, hstay D']
  · have hhead := h.head_ne hr hc hsub
    rw [@accumulateColumn_of_ne _ _ _ _ D hsub hhead, @accumulateColumn_of_ne _ _ _ _ D' hsub hhead]

theorem Reduced.basis_quotient (hr : Reduced F n r) :
    (letI : DivisionByZero := D; r.basis) = (letI : DivisionByZero := D'; r.basis) := by
  refine congrArg Prod.snd (foldr_related (fun t p q ↦ Accumulated F r t q ∧ p = q) ⟨.start, rfl⟩
    fun c p q ⟨h, hp⟩ ↦ ?_).2
  rw [hp]
  split
  case isTrue hc => exact ⟨h.accumulateColumn hr hc, h.accumulateColumn_quotient D D' hr hc⟩
  case isFalse hc => exact ⟨h.skip hr hc, rfl⟩

end Quotient

variable [DivisionByZero] {F : ℕ → Matrix (Fin (n + 1)) (Fin (n + 1)) ℝ} {r : Hessenberg ℝ (n + 1)}
  {c : Fin n} {p : Tuple ℝ (n + 1) × Grid ℝ (n + 1) (n + 1)}

theorem columnDivisors_eq {s : Hessenberg ℝ (n + 1)} (hne : s.columnScale c ≠ 0) :
    columnDivisors s c = [s.columnScale c, s.columnHalf c] := by
  rw [columnDivisors]
  simp only [sumWhere_columnScale, beq_iff_eq, hne, if_false, sumWhereDown_real, Tuple.ofFn_apply,
    le_refl, if_true, div_of_ne_zero _ hne, sqrt_real, scaledColumn_length, scaledPart_column,
    div_columnScale, negateIf_columnHead, columnHalf]

theorem ne_zero_of_mem_columnDivisors {s : Hessenberg ℝ (n + 1)} {x : ℝ}
    (hx : x ∈ columnDivisors s c) : x ≠ 0 := by
  by_cases hne : s.columnScale c = 0
  · rw [columnDivisors, sumWhere_columnScale, if_pos (beq_iff_eq.2 hne)] at hx
    cases hx
  · rw [columnDivisors_eq hne] at hx
    simp only [List.mem_cons, List.not_mem_nil, or_false] at hx
    obtain rfl | rfl := hx
    · exact hne
    · exact (columnHalf_pos hne).ne'

theorem Accumulated.ne_zero_of_mem_divisors (hr : Reduced F n r) (hc : c.succ < Fin.last n)
    (h : Accumulated F r (c + 1) p) {x : ℝ} (hx : x ∈ accumulationDivisors r.form c p) : x ≠ 0 := by
  rw [accumulationDivisors] at hx
  split at hx
  case isTrue => cases hx
  case isFalse hne =>
    have hsub : r.form c.succ c.castSucc ≠ 0 := fun h₀ ↦ hne (beq_iff_eq.2 h₀)
    simp only [List.mem_cons, List.not_mem_nil, or_false] at hx
    obtain rfl | rfl := hx
    · exact h.head_ne hr hc hsub
    · exact hsub

theorem traces_tracedReduce (a : Grid ℝ (n + 1) (n + 1)) : Traces (tracedReduce a) (reduce a) := by
  refine foldl_related (fun _ ↦ Traces) ⟨rfl, nofun⟩ fun c p s h ↦ ?_
  split
  case isTrue => exact h.step (reduceColumn · c) fun _ ↦ ne_zero_of_mem_columnDivisors
  case isFalse => exact h

theorem traces_tracedBasis (hr : Reduced F n r) : Traces (tracedBasis r) (Fin.foldr n
    (fun c p ↦ if c.succ < Fin.last n then accumulateColumn r.form c p else p) (r.heads, unit)) := by
  refine (foldr_related (fun t p q ↦ Accumulated F r t q ∧ Traces p q) ⟨.start, rfl, nofun⟩
    fun c p q ⟨h, hp⟩ ↦ ?_).2
  split
  case isTrue hc =>
    refine ⟨h.accumulateColumn hr hc, hp.step (accumulateColumn r.form c) fun x hx ↦ ?_⟩
    rw [hp.fst_eq] at hx
    exact h.ne_zero_of_mem_divisors hr hc hx
  case isFalse hc => exact ⟨h.skip hr hc, hp⟩

/-- The reduction of a matrix to Hessenberg form is an orthogonal similarity, with the leftovers
below the first subdiagonal read as zero. It never divides by zero, and nothing hangs on what such
a division would give. -/
theorem reduce_similar (a : Grid ℝ (n + 1) (n + 1)) :
    let s := reduce a
    let v := s.basis
    v.toMatrixᵀ * v.toMatrix = 1 ∧ a.toMatrix * v.toMatrix = v.toMatrix * s.form.hessenberg ∧
      (tracedReduce a).1 = s ∧ (tracedBasis s).1.2 = v ∧
      (∀ x ∈ (tracedReduce a).2 ++ (tracedBasis s).2, x ≠ 0) ∧
      ∀ D : DivisionByZero, (letI : DivisionByZero := D; reduce a) = s ∧
        (letI : DivisionByZero := D; s.basis) = v := by
  intro s v
  obtain ⟨F, hF, hr⟩ := exists_reduced a
  have h := hr.accumulated
  have horthogonal : v.toMatrixᵀ * v.toMatrix = 1 := mul_eq_one_comm.1 h.orthogonal
  have hconj : v.toMatrix * s.form.hessenberg * v.toMatrixᵀ = a.toMatrix := by
    rw [← hr.hessenberg_eq, ← hF]
    exact h.conj_eq
  obtain ⟨hreduce, hdivisors⟩ := traces_tracedReduce a
  obtain ⟨hbasis, hdivisors'⟩ := traces_tracedBasis hr
  refine ⟨horthogonal, ?_, hreduce, congrArg Prod.snd hbasis, fun x hx ↦ ?_, fun D ↦ ⟨?_, ?_⟩⟩
  · rw [← hconj, mul_assoc, horthogonal, mul_one]
  · exact (List.mem_append.1 hx).elim (hdivisors x) (hdivisors' x)
  · exact reduce_quotient D _ a
  · exact hr.basis_quotient D _

end DenseDecomp.Hessenberg
