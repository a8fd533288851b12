import DenseDecomp.Proofs.RealSchur.Reached
import DenseDecomp.Proofs.TriangularInput

namespace DenseDecomp

open Scalar

variable {n : ℕ}

namespace RealSchur

section Shift

variable {α : Type} [Scalar α]

theorem nextShift_of_lt {done : ℕ} (hdone : done < 10) (c a b : Fin n) (s : RealSchur α n) :
    s.nextShift done c a b = ([], trailingShift s.form a b, s) := by
  rw [nextShift, if_neg hdone.ne, if_neg (by omega)]

theorem form_nextShift_of_ne (done : ℕ) (c a b : Fin n) (s : RealSchur α n) {i j : Fin n}
    (hij : i ≠ j) : (s.nextShift done c a b).2.2.form i j = s.form i j := by
  have hmoved : ∀ x : α, (s.moveOrigin b x).form i j = s.form i j := by
    intro x
    rw [moveOrigin, Grid.ofFn_apply, if_neg fun h ↦ hij h.1]
  rw [nextShift]
  split
  case isTrue => exact hmoved _
  case isFalse =>
    split
    case isTrue =>
      split
      case h_1 x _ => exact hmoved x
      case h_2 => rfl
    case isFalse => rfl

variable {norm : α} {s s' : RealSchur α n} {l : ℕ} {c a b : Fin n}

theorem Block.congr (h : Block norm s l c a b) (hs : AgreeOn Hessenberg.Upper s' s) :
    Block norm s' l c a b where
  before := h.before
  last := h.last
  start := by rw [blockStart_congr hs.form, h.start]
  rows := h.rows

/-- While the trailing entry is zero, an iteration before the eleventh changes nothing. -/
theorem iterate_of_zero {done : ℕ} (hdone : done < 10) (hl : l + 2 ≤ b.val)
    (hzero : (s.form b b == 0) = true) :
    AgreeOn Hessenberg.Upper (s.iterate done l c a b hl) s := by
  rw [iterate, nextShift_of_lt hdone]
  exact sweep_of_zero_shift hzero

end Shift

section Stall

variable {α : Type} [Scalar α] {config : EigenConfig} {norm : α} {s₀ s : RealSchur α n} {l : ℕ}
  {c a b : Fin n} {done : ℕ}

/-- A run that meets a zero at the end of its block stays there until the tenth iteration. -/
theorem Reached.exists_idle (hs : Reached config norm s₀ (b + 1) done s)
    (hblock : Block norm s l c a b) (hzero : (s.form b b == 0) = true) {done' : ℕ}
    (hle : done ≤ done') (hten : done' ≤ 10)
    (hlimit : ∀ k, config.maxIterations = some k → done' ≤ k.toNat) :
    ∃ s', Reached config norm s₀ (b + 1) done' s' ∧ AgreeOn Hessenberg.Upper s' s := by
  induction done', hle using Nat.le_induction with
  | base => exact ⟨s, hs, .refl s⟩
  | succ k hk ih =>
    obtain ⟨s', hs', hagree⟩ := ih (Nat.le_of_succ_le hten) fun j hj ↦
      Nat.le_of_succ_le (hlimit j hj)
    have hblock' := hblock.congr hagree
    have hallows : config.Allows k := by
      refine ⟨?_, hlimit⟩
      rw [EigenConfig.counterBound]
      omega
    have hzero' : (s'.form b b == 0) = true := by
      rw [hagree.form b b (Nat.le_succ _), hzero]
    refine ⟨s'.iterate k l c a b hblock'.rows, hs'.sweep hblock' hallows, ?_⟩
    exact (iterate_of_zero (Nat.lt_of_succ_le hten) hblock'.rows hzero').trans hagree

theorem Reached.outcome_of_zero (hs : Reached config norm s₀ (b + 1) done s)
    (hblock : Block norm s l c a b) (hzero : (s.form b b == 0) = true) {k : UInt32}
    (hk : config.maxIterations = some k) (hdone : done ≤ k.toNat) (hten : k.toNat ≤ 10) :
    (settle config norm n le_rfl 0 s₀).outcome =
      .error (.error (.convergenceFailed k (abs (s.form b a)))) := by
  have hlimit : ∀ j, config.maxIterations = some j → k.toNat ≤ j.toNat := by
    intro j hj
    rw [Option.some.inj (hk.symm.trans hj)]
  obtain ⟨s', hs', hagree⟩ := hs.exists_idle hblock hzero hdone hten hlimit
  have hbound : k.toNat + 1 < EigenConfig.counterBound := by
    rw [EigenConfig.counterBound]
    omega
  have hab : b ≠ a := fun heq ↦ by
    have hlast := hblock.last
    rw [heq] at hlast
    omega
  have hentry : s'.form b a = s.form b a := hagree.form b a hblock.last.ge
  rw [hs'.outcome_settle, (hblock.congr hagree).settle_of_exhausted hk hbound le_rfl,
    form_nextShift_of_ne _ _ _ _ _ hab, hentry]

end Stall

/-- Behind its first reflection a sweep ends only where a column has vanished. -/
theorem columnLead_size_eq_zero_iff {h : Grid Float n n} {c i j : Fin n} {third : Option (Fin n)} :
    ((columnLead h c i j third).size == 0) = true ↔
      (h i c == 0) = true ∧ (h j c == 0) = true ∧ ∀ k, third = some k → (h k c == 0) = true := by
  have hsize : (columnLead h c i j third).size = (h i c).abs + (h j c).abs +
      (third.elim 0 fun k ↦ h k c).abs := by
    rw [columnLead]
    split
    · rfl
    · rfl
  rw [hsize, Binary64.abs_sum_beq_zero_iff]
  cases third with
  | none =>
    have hzero : ((0 : Float) == 0) = true := by decide
    simp [hzero]
  | some k => simp

end RealSchur

namespace EigenDecomposition

open RealSchur (Block Reached hessenbergNorm sweepStart sweepSteps firstLead columnLead)

variable {config : EigenConfig} {g : Grid Float (n + 1) (n + 1)}

def initial (g : Grid Float (n + 1) (n + 1)) : RealSchur Float (n + 1) :=
  .ofHessenberg (Hessenberg.reduce g).form (Hessenberg.reduce g).basis

theorem outcome_decompose_of_error (hheld : (DenseMatrix.ofGrid g).Held)
    (hgeneral : (DenseMatrix.ofGrid g).isSymmetric = false) {e : Failure Float}
    (h : (RealSchur.settle config (hessenbergNorm (Hessenberg.reduce g).form) (n + 1) le_rfl 0
      (initial g)).outcome = .error e) : (decompose config (.ofGrid g)).outcome = .error e := by
  have hspectrum : (Spectrum.ofGeneral config g).outcome = .error e := by
    rw [Spectrum.ofGeneral]
    exact congrArg Run.outcome (Run.bind_of_error h)
  rw [decompose_of_general config hheld hgeneral, Run.outcome_emit_bind]
  exact congrArg Run.outcome (Run.bind_of_error hspectrum)

/-- Whether an iteration makes its first reflection is decided by its shift, which shares a test
with the columns further down. An iteration whose shift is zero is lost, and a zero at the end of the
block is lost time up to the tenth iteration: a run with no more than ten of them fails. -/
theorem first_reflection_iff (hheld : (DenseMatrix.ofGrid g).Held)
    (hgeneral : (DenseMatrix.ofGrid g).isSymmetric = false) {s : RealSchur Float (n + 1)}
    {l done : ℕ} {c a b : Fin (n + 1)}
    (hs : Reached config (hessenbergNorm (Hessenberg.reduce g).form) (initial g) (b + 1) done s)
    (hblock : Block (hessenbergNorm (Hessenberg.reduce g).form) s l c a b)
    (hallows : config.Allows done) :
    let t := (s.nextShift done c a b).2.1
    let r := (s.nextShift done c a b).2.2
    ((∃ x ∈ sweepSteps l b.isLt hblock.rows t r,
        x.reflector.i.val = sweepStart r.form t l (b - 2) (by have := hblock.rows; omega)) ↔
      (t.x == 0) = false ∧ ((firstLead l b.isLt hblock.rows t r.form).length == 0) = false) ∧
    ((t.x == 0) = true →
      (s.iterate done l c a b hblock.rows).AgreeOn Hessenberg.Upper r) ∧
    (∀ (h : Grid Float (n + 1) (n + 1)) (k i j : Fin (n + 1)) (third : Option (Fin (n + 1))),
      ((columnLead h k i j third).size == 0) = true →
        (h i k == 0) = true ∧ (h j k == 0) = true ∧ ∀ q, third = some q → (h q k == 0) = true) ∧
    ((s.form b b == 0) = true → ∀ k, config.maxIterations = some k → k.toNat ≤ 10 →
      (decompose config (.ofGrid g)).outcome =
        .error (.error (.convergenceFailed k (s.form b a).abs))) := by
  intro t r
  refine ⟨RealSchur.exists_first_sweepStep_iff, RealSchur.sweep_of_zero_shift,
    fun h k i j third ↦ RealSchur.columnLead_size_eq_zero_iff.1, ?_⟩
  intro hzero k hk hten
  exact outcome_decompose_of_error hheld hgeneral
    (hs.outcome_of_zero hblock hzero hk (hallows.2 k hk).le hten)

/-- The last diagonal entry is zero. -/
theorem first_reflection_iff_three :
    let g : Grid Float 3 3 := Grid.ofFn fun i j ↦ (#v[#v[1, 2, 3], #v[4, 5, 6], #v[0, 7, 0]].get i).get j
    let s := initial g
    ∃ hblock : Block (hessenbergNorm (Hessenberg.reduce g).form) s 0 0 1 2,
      (s.iterate 0 0 0 1 2 hblock.rows).AgreeOn Hessenberg.Upper s ∧
      (decompose ⟨some 10⟩ (.ofGrid g)).outcome = .error (.error (.convergenceFailed 10 7)) := by
  intro g s
  have hheld : (DenseMatrix.ofGrid g).Held :=
    DenseMatrix.held_ofGrid g (by decide) (by decide) (by decide)
  have hgeneral : (DenseMatrix.ofGrid g).isSymmetric = false := by decide +kernel
  have hblock : Block (hessenbergNorm (Hessenberg.reduce g).form) s 0 0 1 2 :=
    ⟨rfl, rfl, by decide +kernel, by decide⟩
  have hallows : EigenConfig.Allows ⟨some 10⟩ 0 := ⟨by decide, fun k hk ↦ by cases hk; decide⟩
  have hzero : (s.form 2 2 == 0) = true := by decide +kernel
  have hcorner : (s.form 2 1).abs = 7 := by decide +kernel
  have hstart : Reached ⟨some 10⟩ (hessenbergNorm (Hessenberg.reduce g).form) s 3 0 s := .start
  obtain ⟨-, hlost, -, hfails⟩ := first_reflection_iff hheld hgeneral hstart hblock hallows
  refine ⟨hblock, hlost hzero, ?_⟩
  rw [hfails hzero 10 rfl (by decide), hcorner]

theorem not_forall_first_reflection :
    ¬ ∀ (config : EigenConfig) (m : ℕ) (g : Grid Float (m + 1) (m + 1)),
      (DenseMatrix.ofGrid g).Held → (DenseMatrix.ofGrid g).isSymmetric = false →
      (∀ i j, (g i j).isFinite = true) →
      ∀ (s : RealSchur Float (m + 1)) (l done : ℕ) (c a b : Fin (m + 1)),
        Reached config (hessenbergNorm (Hessenberg.reduce g).form) (initial g) (b + 1) done s →
        ∀ hblock : Block (hessenbergNorm (Hessenberg.reduce g).form) s l c a b,
          config.Allows done →
          ∃ x ∈ sweepSteps l b.isLt hblock.rows (s.nextShift done c a b).2.1
              (s.nextShift done c a b).2.2,
            x.reflector.i.val = sweepStart (s.nextShift done c a b).2.2.form
              (s.nextShift done c a b).2.1 l (b - 2) (by have := hblock.rows; omega) := by
  intro h
  let g : Grid Float 3 3 := Grid.ofFn fun i j ↦ (#v[#v[1, 2, 3], #v[4, 5, 6], #v[0, 7, 0]].get i).get j
  have hheld : (DenseMatrix.ofGrid g).Held :=
    DenseMatrix.held_ofGrid g (by decide) (by decide) (by decide)
  have hgeneral : (DenseMatrix.ofGrid g).isSymmetric = false := by decide +kernel
  have hfinite : ∀ i j, (g i j).isFinite = true := by decide +kernel
  have hblock : Block (hessenbergNorm (Hessenberg.reduce g).form) (initial g) 0 0 1 2 :=
    ⟨rfl, rfl, by decide +kernel, by decide⟩
  have hallows : EigenConfig.unlimited.Allows 0 := ⟨by decide, nofun⟩
  have hzero : ((initial g).form 2 2 == 0) = true := by decide +kernel
  have hfirst := h .unlimited 2 g hheld hgeneral hfinite (initial g) 0 0 0 1 2 .start hblock hallows
  obtain ⟨hshift, -⟩ := RealSchur.exists_first_sweepStep_iff.1 hfirst
  cases hzero.symm.trans hshift

end EigenDecomposition

end DenseDecomp
