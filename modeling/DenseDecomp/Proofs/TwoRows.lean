import DenseDecomp.Proofs.PairOverflow
import DenseDecomp.Proofs.RealSchur.SettledRows

namespace DenseDecomp

open Scalar Binary64
open Float.Model (UnpackedFloat)

variable {n : ℕ}

namespace Binary64

variable {x y : Float}

section Scaling

theorem abs_toReal_one_le_one : |toReal 1| ≤ 1 := by
  rw [toReal_one, abs_one]

theorem abs_toReal_zero_le_one : |toReal 0| ≤ 1 := by
  rw [toReal_of_zero unpacked_zero, abs_zero]
  exact zero_le_one

theorem unpacked_abs_of_pos (hx : 0 < x) : unpacked x.abs = unpacked x := by
  rw [unpacked_abs]
  obtain h | ⟨m, e, hm, h⟩ := zero_lt_iff.1 hx
  · rw [h]
    rfl
  · rw [h]
    rfl

theorem one_le_abs_toReal (hx : x.isFinite = true) (h : 1 < x) : 1 ≤ |toReal x| := by
  obtain ⟨hone, hnan, hrank⟩ := lt_iff.1 h
  have hzero : (0 : Float) ≤ 1 := by decide
  have hpos : 0 < x := Binary64.lt_of_le_of_lt hzero h
  have hle : (1 : Float).abs ≤ x.abs := by
    rw [le_iff, isNaN_abs, isNaN_abs, unpacked_abs_of_pos hpos,
      unpacked_abs_of_pos (x := 1) (by decide)]
    exact ⟨hone, hnan, hrank.le⟩
  have habs := abs_toReal_le_of_abs_le (by decide) hx hle
  rwa [toReal_one, abs_one] at habs

theorem Nearest.abs_le_half {u w : ℝ} (h : Nearest u w) (hu : |u| ≤ 1 / 2) : |w| ≤ 1 / 2 := by
  have hhalf : (1 / 2 : ℝ) = (1 : ℕ) * 2 ^ (-1 : ℤ) := by norm_num
  rw [hhalf] at hu ⊢
  exact h.abs_le_of_le (by norm_num) (by norm_num) hu

theorem isFinite_epsilon : (Scalar.epsilon : Float).isFinite = true := by decide

theorem abs_toReal_epsilon_le : |toReal epsilon| ≤ 1 / 2 := by
  have hunpacked : unpacked epsilon = .finite .positive (2 ^ 52) (-104) (by decide) := rfl
  rw [toReal_of_finite hunpacked, signed, abs_of_nonneg (by positivity)]
  norm_num

theorem mul_le_half {r : Float} (hr : r.isFinite = true) (hrle : |toReal r| ≤ 1 / 2)
    (hx : x.isFinite = true) (hxle : |toReal x| ≤ 1) :
    (r * x).isFinite = true ∧ |toReal (r * x)| ≤ 1 / 2 := by
  have hle : |toReal r * toReal x| ≤ 1 / 2 := by
    rw [abs_mul]
    linarith [mul_le_mul hrle hxle (abs_nonneg _) (by norm_num)]
  obtain ⟨hfinite, hnear⟩ := (rounds_mul hr hx).of_le (by linarith [thousand_le_maxFinite])
  exact ⟨hfinite, hnear.abs_le_half hle⟩

theorem one_lt_of_infinity (h : unpacked x = .infinity .positive) : 1 < x := by
  have hnan : x.isNaN = false := by
    rw [← Bool.not_eq_true, isNaN_iff, h]
    exact nofun
  rw [lt_iff, h, unpacked_one]
  refine ⟨by decide, hnan, ?_⟩
  simp [rank, Prod.Lex.toLex_lt_toLex]

theorem isFinite_mul_of_le_one (hx : x.isFinite = true) (hy : y.isFinite = true)
    (hone : |toReal y| ≤ 1) : (x * y).isFinite = true := by
  refine ((rounds_mul hx hy).of_le ?_).1
  rw [abs_mul]
  exact (mul_le_of_le_one_right (abs_nonneg _) hone).trans (abs_toReal_le x)

end Scaling

theorem isNaN_sumWhere {p : Fin n → Prop} [DecidablePred p] {f : Fin n → Float} {k : Fin n}
    (hk : p k) (h : (f k).isNaN = true) : (sumWhere p f).isNaN = true := by
  induction n with
  | zero => exact k.elim0
  | succ n ih =>
    rw [sumWhere, Fin.foldl_succ_last]
    induction k using Fin.lastCases with
    | last =>
      rw [if_pos hk]
      exact isNaN_add_iff.2 (.inr (.inl h))
    | cast j =>
      have hsum : (sumWhere (fun i : Fin n ↦ p i.castSucc) fun i ↦ f i.castSucc).isNaN = true :=
        ih hk h
      rw [sumWhere] at hsum
      split
      · exact isNaN_add_iff.2 (.inl hsum)
      · exact hsum

end Binary64

namespace RealSchur

section Two

variable {α : Type} [Scalar α] {config : EigenConfig} {norm : α} {g basis : Grid α 2 2}

def settleTwo (norm : α) (g basis : Grid α 2 2) : RealSchur α 2 :=
  if Negligible norm g 0 1 then ((ofHessenberg g basis).deflateOne 1).deflateOne 0
  else (ofHessenberg g basis).deflatePair 0 1

theorem outcome_settle_two (config : EigenConfig) (norm : α) (g basis : Grid α 2 2) :
    (settle config norm 2 le_rfl 0 (ofHessenberg g basis)).outcome =
      .ok (settleTwo norm g basis) := by
  have htwo : (1 : Fin 2).val + 1 = 2 := rfl
  rw [settleTwo]
  split
  case isTrue h =>
    have hlower : blockStart norm (ofHessenberg g basis).form 1 (1 : Fin 2).isLt = 1 := if_pos h
    have hupper :
        blockStart norm ((ofHessenberg g basis).deflateOne 1).form 0 (0 : Fin 2).isLt = 0 := rfl
    have hone : (0 : Fin 2).val + 1 = 1 := rfl
    rw [settle_of_single htwo hlower, Run.outcome_after]
    change (settle config norm 1 (by decide) 0 _).outcome = _
    rw [settle_of_single hone hupper, Run.outcome_after]
    exact congrArg Run.outcome settle_zero
  case isFalse h =>
    have hwhole : blockStart norm (ofHessenberg g basis).form 1 (1 : Fin 2).isLt = 0 := if_neg h
    rw [settle_of_pair (a := 0) htwo rfl hwhole, Run.outcome_after]
    exact congrArg Run.outcome settle_zero

end Two

theorem exists_notNumber_settleTwo_iff (norm : Float) {g : Grid Float 2 2} (basis : Grid Float 2 2)
    (hg : ∀ i j, (g i j).isFinite = true) :
    (∃ i, (settleTwo norm g basis).NotNumber i) ↔
      ¬ Negligible norm g 0 1 ∧ Overflows ((g 0 0 - g 1 1) / 2.0) (g 1 0 * g 0 1) := by
  have hdiag : ∀ i, (g i i + 0).isFinite = true := fun i ↦ isFinite_add_zero (hg i i)
  rw [settleTwo, Fin.exists_fin_two]
  split
  case isTrue h =>
    refine iff_of_false ?_ fun hover ↦ hover.1 h
    rw [notNumber_deflateOne, notNumber_deflateOne_of_ne (by decide), notNumber_deflateOne,
      deflateOne, Grid.set_apply, if_neg (by decide)]
    have hupper : (g 0 0 + 0).isNaN = false := (of_isFinite (hdiag 0)).1
    have hlower : (g 1 1 + 0).isNaN = false := (of_isFinite (hdiag 1)).1
    rintro (hnan | hnan)
    · cases hupper.symm.trans hnan
    · cases hlower.symm.trans hnan
  case isFalse h =>
    have hp : ((g 0 0 - g 1 1) / 2.0).isNaN = false :=
      isNaN_half (isNaN_sub_of_isFinite (hg 0 0) (of_isFinite (hg 1 1)).1)
    have hw : (g 1 0 * g 0 1).isNaN = false := isNaN_mul_of_isFinite (hg 1 0) (hg 0 1)
    have hpair := notNumber_deflatePair_iff (s := ofHessenberg g basis) (a := 0) (b := 1)
      (by decide) rfl rfl rfl (hdiag 1) hp hw
    exact hpair.trans (and_iff_right h).symm

namespace BackSubstitution

section Two

variable {α : Type} [Scalar α] {B : Blocks α 2} {h : Grid α 2 2}

def scaleDown (y x : α) : α := if 1 < (epsilon * abs y) * abs y then x / abs y else x

def upperEntry (B : Blocks α 2) (h : Grid α 2 2) : α :=
  let w := h 0 0 - B.re 1
  (-(0 + h 0 1 * 1)) / (if w == 0 then epsilon * B.norm else w)

theorem contribution_two (h : Grid α 2 2) : contribution
    { form := h.set 1 1 1, solved := 1, diag := 0, first := 0, second := 0 } 1 0 1 =
      0 + h 0 1 * 1 := by
  have hlink : (h.set 1 1 1) 0 1 = h 0 1 := by rw [Grid.set_apply, if_neg (by decide)]
  have hunit : (h.set 1 1 1) 1 1 = 1 := by rw [Grid.set_apply, if_pos (by decide)]
  calc
    _ = 0 + (h.set 1 1 1) 0 1 * (h.set 1 1 1) 1 1 := rfl
    _ = 0 + h 0 1 * 1 := by rw [hlink, hunit]

theorem realColumn_one (hneg : ¬ B.im 0 < 0) (hzero : (B.im 0 == 0) = true) (h : Grid α 2 2) :
    realColumn B 1 h =
      rescale 0 1 1 (abs (upperEntry B h)) ((h.set 1 1 1).set 0 1 (upperEntry B h)) := by
  have hlow : (0 : Fin 2) < 1 := by decide
  have hcolumn : realColumn B 1 h = (realRow B 1 0 hlow
      { form := h.set 1 1 1, solved := 1, diag := 0, first := 0, second := 0 }).form := rfl
  have hdiag : (h.set 1 1 1) 0 0 = h 0 0 := by rw [Grid.set_apply, if_neg (by decide)]
  have hentry : ((h.set 1 1 1).set 0 1 (upperEntry B h)) 0 1 = upperEntry B h := by
    rw [Grid.set_apply, if_pos (by decide)]
  rw [hcolumn, realRow, if_neg hneg, if_pos hzero]
  simp only [contribution_two, hdiag]
  change rescale 0 1 1 (abs (((h.set 1 1 1).set 0 1 (upperEntry B h)) 0 1)) _ = _
  rw [hentry]
  rfl

theorem eigenvectors_two (B : Blocks α 2) (h : Grid α 2 2) :
    eigenvectors B h = column B 1 h >>= column B 0 := by
  have horder : (List.finRange 2).reverse = [1, 0] := by decide
  rw [eigenvectors, horder, List.foldlM_cons]
  refine congrArg (column B 1 h >>= ·) (funext fun g ↦ ?_)
  rw [List.foldlM_cons]
  exact bind_pure _

theorem exists_eigenvectors_of_real (hneg : ¬ B.im 0 < 0) (h₀ : (B.im 0 == 0) = true)
    (h₁ : (B.im 1 == 0) = true) (h : Grid α 2 2) :
    ∃ x, eigenvectors B h = .ok x ∧ x 0 0 = 1 ∧
      x 0 1 = scaleDown (upperEntry B h) (upperEntry B h) ∧
      x 1 1 = scaleDown (upperEntry B h) 1 := by
  have hone : column B 1 h = .ok (realColumn B 1 h) := if_pos h₁
  have hlast : column B 0 (realColumn B 1 h) = .ok ((realColumn B 1 h).set 0 0 1) := if_pos h₀
  have hrescaled : ∀ k l : Fin 2, l = 1 → (realColumn B 1 h) k l = scaleDown (upperEntry B h)
      (((h.set 1 1 1).set 0 1 (upperEntry B h)) k l) := by
    rintro k l rfl
    rw [realColumn_one hneg h₀, rescale, scaleDown]
    split
    case isTrue =>
      have hrows : (0 : Fin 2) ≤ k ∧ k ≤ 1 := ⟨Fin.zero_le k, Fin.le_last k⟩
      rw [Grid.ofFn_apply, if_pos ⟨.inl rfl, hrows⟩]
    case isFalse => rfl
  refine ⟨(realColumn B 1 h).set 0 0 1, ?_, ?_, ?_, ?_⟩
  · rw [eigenvectors_two, hone]
    exact hlast
  · rw [Grid.set_apply, if_pos (by decide)]
  · rw [Grid.set_apply, if_neg (by decide), hrescaled 0 1 rfl, Grid.set_apply, if_pos (by decide)]
  · rw [Grid.set_apply, if_neg (by decide), hrescaled 1 1 rfl, Grid.set_apply, if_neg (by decide),
      Grid.set_apply, if_pos (by decide)]

/-- Both columns of a conjugate pair come from its upper row alone. -/
theorem eigenvectors_of_pair (h₀ : ¬ (B.im 0 == 0) = true) (h₀' : ¬ B.im 0 < 0)
    (h₁ : ¬ (B.im 1 == 0) = true) (h₁' : B.im 1 < 0) (h : Grid α 2 2) :
    eigenvectors B h = .ok (complexEnd B 0 1 h) := by
  have hone : column B 1 h = .ok (complexEnd B 0 1 h) := by
    rw [column, if_neg h₁, if_pos h₁']
    rfl
  have hzero : column B 0 (complexEnd B 0 1 h) = .ok (complexEnd B 0 1 h) := by
    rw [column, if_neg h₀, if_neg h₀']
  rw [eigenvectors_two, hone]
  exact hzero

theorem eigenvectors_of_neither (h₀ : ¬ (B.im 0 == 0) = true) (h₀' : ¬ B.im 0 < 0)
    (h₁ : ¬ (B.im 1 == 0) = true) (h₁' : ¬ B.im 1 < 0) (h : Grid α 2 2) :
    eigenvectors B h = .ok h := by
  have hone : column B 1 h = .ok h := by rw [column, if_neg h₁, if_neg h₁']
  have hzero : column B 0 h = .ok h := by rw [column, if_neg h₀, if_neg h₀']
  rw [eigenvectors_two, hone]
  exact hzero

theorem complexEnd_two (B : Blocks α 2) (h : Grid α 2 2) : (complexEnd B 0 1 h) 1 1 = 1 := by
  rw [complexEnd, setPair, Grid.set_apply, if_pos (by decide)]

end Two

section Scaling

variable {y : Float}

theorem scaleDown_of_lt (h : 1 < (Scalar.epsilon * y.abs) * y.abs) (x : Float) :
    scaleDown y x = x / y.abs := if_pos h

theorem scaleDown_of_not_lt (h : ¬ 1 < (Scalar.epsilon * y.abs) * y.abs) (x : Float) :
    scaleDown y x = x := if_neg h

theorem one_le_of_scaled (hy : y.isFinite = true) (h : 1 < (Scalar.epsilon * y.abs) * y.abs) :
    1 ≤ |toReal y.abs| := by
  by_contra hlt
  have hle : |toReal y.abs| ≤ 1 := (not_le.1 hlt).le
  have habs : y.abs.isFinite = true := (isFinite_abs y).trans hy
  obtain ⟨hscaled, hhalf⟩ := mul_le_half isFinite_epsilon abs_toReal_epsilon_le habs hle
  obtain ⟨hsquare, hhalf⟩ := mul_le_half hscaled hhalf habs hle
  linarith [one_le_abs_toReal hsquare h]

theorem scaleDown_of_isFinite (hy : y.isFinite = true) :
    (scaleDown y y).isFinite = true ∧ (scaleDown y 1).isFinite = true ∧
      |toReal (scaleDown y 1)| ≤ 1 := by
  have habs : y.abs.isFinite = true := (isFinite_abs y).trans hy
  have hone := abs_toReal_one_le_one
  by_cases h : 1 < (Scalar.epsilon * y.abs) * y.abs
  · have hlarge := one_le_of_scaled hy h
    have hne : toReal y.abs ≠ 0 := fun hzero ↦ by
      rw [hzero, abs_zero] at hlarge
      linarith
    have hself : |toReal y| ≤ |toReal y.abs| := by rw [toReal_abs, abs_abs]
    obtain ⟨hfirst, -, -⟩ := ratio_spec hy habs hne hself
    obtain ⟨hsecond, hnear, hle⟩ := ratio_spec (l := 1) (by decide) habs hne (hone.trans hlarge)
    rw [scaleDown_of_lt h, scaleDown_of_lt h]
    exact ⟨hfirst, hsecond, hnear.abs_le_one hle⟩
  · rw [scaleDown_of_not_lt h, scaleDown_of_not_lt h]
    exact ⟨hy, by decide, hone⟩

/-- An infinite entry is divided by itself. -/
theorem isNaN_scaleDown (hy : y.isFinite = false) : (scaleDown y y).isNaN = true := by
  obtain hnan | ⟨s, hs⟩ := cases_of_not_isFinite hy
  · by_cases h : 1 < (Scalar.epsilon * y.abs) * y.abs
    · rw [scaleDown_of_lt h]
      exact isNaN_div_iff.2 (.inl hnan)
    · rwa [scaleDown_of_not_lt h]
  · have habs : unpacked y.abs = .infinity .positive := by
      rw [unpacked_abs, hs]
      rfl
    have hscaled : unpacked (Scalar.epsilon * y.abs) = .infinity .positive := by
      rw [unpacked_epsilon_mul, habs]
      exact stored_infinity _
    have hsquare : unpacked ((Scalar.epsilon * y.abs) * y.abs) = .infinity .positive := by
      change stored (UnpackedFloat.mul .binary64 (unpacked (Scalar.epsilon * y.abs)) (unpacked y.abs)) = _
      rw [hscaled, habs]
      exact stored_infinity _
    rw [scaleDown_of_lt (one_lt_of_infinity hsquare)]
    exact isNaN_div_iff.2 (.inr (.inr ⟨s, .positive, .inl ⟨hs, habs⟩⟩))

end Scaling

end BackSubstitution

end RealSchur

namespace Hessenberg

theorem isFinite_unit {n : ℕ} (i j : Fin n) : (unit i j : Float).isFinite = true ∧
    |toReal (unit i j)| ≤ 1 := by
  rw [unit, Grid.ofFn_apply]
  split
  · exact ⟨by decide, abs_toReal_one_le_one⟩
  · exact ⟨by decide, abs_toReal_zero_le_one⟩

variable {α : Type} [Scalar α]

/-- Two rows have nothing below the first subdiagonal. -/
theorem reduce_two (g : Grid α 2 2) : reduce g = ⟨g, Tuple.fill 0⟩ := by
  rw [reduce, Fin.foldl_succ, Fin.foldl_zero]
  exact if_neg (by decide)

theorem basis_reduce_two (g : Grid α 2 2) : (reduce g).basis = unit := by
  rw [basis, Fin.foldr_succ, Fin.foldr_zero, if_neg (by decide)]

end Hessenberg

namespace Spectrum

theorem isNaN_changeBasis {v x : Grid Float n n} {i j k : Fin n} (hk : k ≤ j)
    (hv : (v i k).isNaN = true) : (changeBasis v x i j).isNaN = true := by
  rw [changeBasis, Grid.ofFn_apply]
  exact isNaN_sumWhere hk (isNaN_mul_iff.2 (.inl hv))

theorem changeBasis_two {α : Type} [Scalar α] (v x : Grid α 2 2) (i : Fin 2) :
    changeBasis v x i 0 = 0 + v i 0 * x 0 0 ∧
      changeBasis v x i 1 = 0 + v i 0 * x 0 1 + v i 1 * x 1 1 := by
  rw [changeBasis, Grid.ofFn_apply, Grid.ofFn_apply]
  exact ⟨rfl, rfl⟩

variable {v x : Grid Float 2 2} {y : Float}

theorem isNaN_changeBasis_two {i : Fin 2} (hv : ∀ j, (v i j).isFinite = true)
    (h₀ : (x 0 0).isFinite = true) (h₁ : (x 0 1).isFinite = true)
    (h₂ : (v i 1 * x 1 1).isFinite = true) (j : Fin 2) : (changeBasis v x i j).isNaN = false := by
  obtain ⟨hfirst, hsecond⟩ := changeBasis_two v x i
  have hzero : (0 : Float).isFinite = true := by decide
  have hhead : (0 + v i 0 * x 0 1).isNaN = false :=
    isNaN_add_of_isFinite hzero (isNaN_mul_of_isFinite (hv 0) h₁)
  obtain rfl | rfl : j = 0 ∨ j = 1 := by omega
  · rw [hfirst]
    exact isNaN_add_of_isFinite hzero (isNaN_mul_of_isFinite (hv 0) h₀)
  · rw [hsecond]
    exact isNaN_add_of_isFinite_right hhead h₂

open RealSchur.BackSubstitution (scaleDown scaleDown_of_isFinite isNaN_scaleDown)

/-- A finite basis stays one unless the upper entry of the second column leaves the range. -/
theorem exists_isNaN_changeBasis_iff (hv : ∀ i j, (v i j).isFinite = true) (h₀ : x 0 0 = 1)
    (h₁ : x 0 1 = scaleDown y y) (h₂ : x 1 1 = scaleDown y 1) :
    (∃ i j, (changeBasis v x i j).isNaN = true) ↔ y.isFinite = false := by
  constructor
  · rintro ⟨i, j, hnan⟩
    by_contra hy
    obtain ⟨hupper, hlower, hone⟩ := scaleDown_of_isFinite (Bool.not_eq_false _ ▸ hy)
    rw [← h₁] at hupper
    rw [← h₂] at hlower hone
    have hnumber := isNaN_changeBasis_two (hv i) (by rw [h₀]; decide) hupper
      (isFinite_mul_of_le_one (hv i 1) hlower hone) j
    cases hnumber.symm.trans hnan
  · intro hy
    have hentry : (v 0 0 * x 0 1).isNaN = true := by
      rw [h₁]
      exact isNaN_mul_iff.2 (.inr (.inl (isNaN_scaleDown hy)))
    refine ⟨0, 1, ?_⟩
    rw [(changeBasis_two v x 0).2]
    exact isNaN_add_iff.2 (.inl (isNaN_add_iff.2 (.inr (.inl hentry))))

/-- In the basis of the axes each entry of the upper row is multiplied by a zero as well. -/
theorem exists_isNaN_changeBasis_unit_iff (h : (x 1 1).isFinite = true) :
    (∃ i j, (changeBasis Hessenberg.unit x i j).isNaN = true) ↔
      ¬ ((x 0 0).isFinite = true ∧ (x 0 1).isFinite = true) := by
  have hunit (i j : Fin 2) := Hessenberg.isFinite_unit i j
  have hzero : (Hessenberg.unit : Grid Float 2 2) 1 0 = 0 := by
    rw [Hessenberg.unit, Grid.ofFn_apply]
    exact if_neg (by decide)
  constructor
  · rintro ⟨i, j, hnan⟩ ⟨h₀, h₁⟩
    have hlast : (Hessenberg.unit i 1 * x 1 1).isFinite = true :=
      (product_spec (hunit i 1).1 (hunit i 1).2 h).1
    have hnumber := isNaN_changeBasis_two (fun j ↦ (hunit i j).1) h₀ h₁ hlast j
    cases hnumber.symm.trans hnan
  · intro hlost
    obtain ⟨hfirst, hsecond⟩ := changeBasis_two Hessenberg.unit x 1
    rw [hzero] at hfirst hsecond
    by_cases h₀ : (x 0 0).isFinite = true
    · have h₁ : (x 0 1).isFinite = false := Bool.not_eq_true _ ▸ fun h₁ ↦ hlost ⟨h₀, h₁⟩
      refine ⟨1, 1, ?_⟩
      rw [hsecond]
      exact isNaN_add_iff.2 (.inl (isNaN_add_iff.2 (.inr (.inl (isNaN_zero_mul h₁)))))
    · refine ⟨1, 0, ?_⟩
      rw [hfirst]
      exact isNaN_add_iff.2 (.inr (.inl (isNaN_zero_mul (Bool.not_eq_true _ ▸ h₀))))

end Spectrum

namespace RealSchur

open BackSubstitution Spectrum

theorem hessenbergNorm_two {g : Grid Float 2 2} (hg : ∀ i j, (g i j).isFinite = true)
    (h : (hessenbergNorm g == 0) = true) : (g 0 1 == 0) = true ∧ (g 1 0 == 0) = true := by
  have hsum : hessenbergNorm g =
      0 + (g 0 0).abs + (g 0 1).abs + (g 1 0).abs + (g 1 1).abs := rfl
  have habs (i j : Fin 2) : 0 ≤ (g i j).abs := zero_le_abs (of_isFinite (hg i j)).1
  have h₀ : (0 : Float) ≤ 0 + (g 0 0).abs := zero_le_add (by decide) (habs 0 0)
  have h₁ := zero_le_add h₀ (habs 0 1)
  have h₂ := zero_le_add h₁ (habs 1 0)
  rw [hsum] at h
  obtain ⟨h, -⟩ := beq_zero_of_add_abs h₂ h
  obtain ⟨h, hlower⟩ := beq_zero_of_add_abs h₁ h
  exact ⟨(beq_zero_of_add_abs h₀ h).2, hlower⟩

section Two

variable {norm : Float} {g : Grid Float 2 2} {s : RealSchur Float 2}

/-- What costs the eigenvectors of two rows their values: a rotation without a direction, or the
entries of the upper row where they leave the range. -/
def VectorsLost (norm : Float) (g : Grid Float 2 2) : Prop :=
  let s := settleTwo norm g Hessenberg.unit
  let B : Blocks Float 2 := ⟨s.re, s.im, norm⟩
  let p := (g 0 0 - g 1 1) / 2.0
  let w := g 1 0 * g 0 1
  if Negligible norm g 0 1 then (upperEntry B s.form).isFinite = false
  else if 0 ≤ p * p + w then
    ¬ Turns (g 1 0) (farRoot p w) ∨ (upperEntry B s.form).isFinite = false
  else p * p + w < 0 ∧ ¬ ((complexEnd B 0 1 s.form 0 0).isFinite = true ∧
    (complexEnd B 0 1 s.form 0 1).isFinite = true)

theorem exists_eigenvectors_two_of_real (norm : Float) (h₀ : s.im 0 = 0) (h₁ : s.im 1 = 0) :
    ∃ x, eigenvectors ⟨s.re, s.im, norm⟩ s.form = .ok x ∧
      ((∀ i j, (s.basis i j).isFinite = true) →
        ((∃ i j, (changeBasis s.basis x i j).isNaN = true) ↔
          (upperEntry ⟨s.re, s.im, norm⟩ s.form).isFinite = false)) := by
  have hneg : ¬ s.im 0 < 0 := by
    rw [h₀]
    decide
  have hzero (i : Fin 2) (h : s.im i = 0) : (s.im i == 0) = true := by
    rw [h]
    decide
  obtain ⟨x, hx, hfirst, hupper, hlower⟩ :=
    exists_eigenvectors_of_real (B := ⟨s.re, s.im, norm⟩) hneg (hzero 0 h₀) (hzero 1 h₁) s.form
  exact ⟨x, hx, fun hv ↦ exists_isNaN_changeBasis_iff hv hfirst hupper hlower⟩

theorem exists_vectors_of_negligible (norm : Float) (g : Grid Float 2 2) :
    let s := ((ofHessenberg g Hessenberg.unit).deflateOne 1).deflateOne 0
    ∃ x, eigenvectors ⟨s.re, s.im, norm⟩ s.form = .ok x ∧
      ((∃ i j, (changeBasis s.basis x i j).isNaN = true) ↔
        (upperEntry ⟨s.re, s.im, norm⟩ s.form).isFinite = false) := by
  intro s
  have hlower : s.im 1 = 0 :=
    (deflateOne_keepsIndex (by decide) _).im_eq.trans (Tuple.set_apply ..)
  have hupper : s.im 0 = 0 := Tuple.set_apply ..
  obtain ⟨x, hx, hiff⟩ := exists_eigenvectors_two_of_real norm hupper hlower
  exact ⟨x, hx, hiff fun i j ↦ (Hessenberg.isFinite_unit i j).1⟩

theorem exists_vectors_of_roots (norm : Float) {p w : Float} (hp : (g 0 0 - g 1 1) / 2.0 = p)
    (hw : g 1 0 * g 0 1 = w) (hq : 0 ≤ p * p + w) :
    let s := (ofHessenberg g Hessenberg.unit).deflatePair 0 1
    ∃ x, eigenvectors ⟨s.re, s.im, norm⟩ s.form = .ok x ∧
      ((∃ i j, (changeBasis s.basis x i j).isNaN = true) ↔
        ¬ Turns (g 1 0) (farRoot p w) ∨
          (upperEntry ⟨s.re, s.im, norm⟩ s.form).isFinite = false) := by
  intro s
  have hne : (0 : Fin 2) ≠ 1 := by decide
  have hsplit : s = (ofHessenberg g Hessenberg.unit).splitPair 0 1 (farRoot p w) w :=
    deflatePair_eq_splitPair hp hw hq
  obtain ⟨-, -, hupper, hlower⟩ := deflatePair_of_nonneg (s := ofHessenberg g Hessenberg.unit)
    hne rfl hp hw hq
  obtain ⟨x, hx, hiff⟩ := exists_eigenvectors_two_of_real (s := s) norm hupper hlower
  refine ⟨x, hx, ?_⟩
  by_cases hturns : Turns (g 1 0) (farRoot p w)
  · rw [hiff fun i j ↦ ?_, or_iff_right (not_not.2 hturns)]
    have hunit (j : Fin 2) := Hessenberg.isFinite_unit (n := 2) i j
    have hle (j : Fin 2) : |toReal ((Hessenberg.unit : Grid Float 2 2) i j)| ≤ maxFinite / 16 :=
      (hunit j).2.trans (by linarith [thousand_le_maxFinite])
    obtain ⟨hfirst, hsecond⟩ := isFinite_basis_splitPair (s := ofHessenberg g Hessenberg.unit)
      hne hturns w (hunit 0).1 (hunit 1).1 (hle 0) (hle 1)
    rw [hsplit]
    obtain rfl | rfl : j = 0 ∨ j = 1 := by omega
    · exact hfirst
    · exact hsecond
  · refine iff_of_true ⟨0, 0, isNaN_changeBasis le_rfl ?_⟩ (.inl hturns)
    rw [hsplit]
    exact (isNaN_basis_splitPair (s := ofHessenberg g Hessenberg.unit) hne hturns w 0).1

/-- A positive part and its opposite make a conjugate pair. -/
theorem exists_vectors_of_pair (norm : Float) (hbasis : s.basis = Hessenberg.unit) {r : Float}
    (h₀ : s.im 0 = r) (h₁ : s.im 1 = -r) (hr : 0 < r) :
    let h := complexEnd ⟨s.re, s.im, norm⟩ 0 1 s.form
    ∃ x, eigenvectors ⟨s.re, s.im, norm⟩ s.form = .ok x ∧
      ((∃ i j, (changeBasis s.basis x i j).isNaN = true) ↔
        ¬ ((h 0 0).isFinite = true ∧ (h 0 1).isFinite = true)) := by
  intro h
  have hneg := neg_lt_zero hr
  rw [← h₁] at hneg
  rw [← h₀] at hr
  have hlast : (h 1 1).isFinite = true := by
    rw [complexEnd_two]
    decide
  refine ⟨h, eigenvectors_of_pair (B := ⟨s.re, s.im, norm⟩)
    (fun heq ↦ not_zero_lt_of_beq_zero heq hr) (Binary64.lt_asymm hr) (not_beq_of_lt hneg) hneg
    s.form, ?_⟩
  rw [hbasis]
  exact exists_isNaN_changeBasis_unit_iff hlast

/-- Parts that are not numbers make neither real columns nor complex ones. -/
theorem exists_vectors_of_isNaN (norm : Float) (hbasis : s.basis = Hessenberg.unit) {r : Float}
    (h₀ : s.im 0 = r) (h₁ : s.im 1 = -r) (hr : r.isNaN = true)
    (hform : ∀ i j, (s.form i j).isFinite = true) :
    ∃ x, eigenvectors ⟨s.re, s.im, norm⟩ s.form = .ok x ∧
      ¬ ∃ i j, (changeBasis s.basis x i j).isNaN = true := by
  have hr' : (s.im 1).isNaN = true := by rwa [h₁, isNaN_neg]
  rw [← h₀] at hr
  obtain ⟨hne₀, hlt₀⟩ := incomparable_of_isNaN hr 0
  obtain ⟨hne₁, hlt₁⟩ := incomparable_of_isNaN hr' 0
  refine ⟨s.form, eigenvectors_of_neither (B := ⟨s.re, s.im, norm⟩) hne₀ hlt₀ hne₁ hlt₁ s.form, ?_⟩
  rw [hbasis, exists_isNaN_changeBasis_unit_iff (hform 1 1), not_not]
  exact ⟨hform 0 0, hform 0 1⟩

theorem isFinite_unshiftPair_two {basis : Grid Float 2 2} (hg : ∀ i j, (g i j).isFinite = true)
    (i j : Fin 2) : ((ofHessenberg g basis).unshiftPair 0 1 i j).isFinite = true := by
  have hdiag (i : Fin 2) : (g i i + 0).isFinite = true := isFinite_add_zero (hg i i)
  rw [unshiftPair, Grid.set_apply, Grid.set_apply]
  split
  · exact hdiag 0
  · split
    · exact hdiag 1
    · exact hg i j

theorem exists_vectors_of_no_roots (norm : Float) (hg : ∀ i j, (g i j).isFinite = true)
    {p w : Float} (hp : (g 0 0 - g 1 1) / 2.0 = p) (hw : g 1 0 * g 0 1 = w)
    (hq : ¬ 0 ≤ p * p + w) :
    let s := (ofHessenberg g Hessenberg.unit).deflatePair 0 1
    let h := complexEnd ⟨s.re, s.im, norm⟩ 0 1 s.form
    ∃ x, eigenvectors ⟨s.re, s.im, norm⟩ s.form = .ok x ∧
      ((∃ i j, (changeBasis s.basis x i j).isNaN = true) ↔
        p * p + w < 0 ∧ ¬ ((h 0 0).isFinite = true ∧ (h 0 1).isFinite = true)) := by
  intro s h
  obtain ⟨-, -, hupper, hlower⟩ := deflatePair_of_not_nonneg
    (s := ofHessenberg g Hessenberg.unit) (a := 0) (b := 1) (by decide) rfl hp hw hq
  obtain ⟨hbasis, hform⟩ := deflatePair_rest_of_not_nonneg
    (s := ofHessenberg g Hessenberg.unit) (a := 0) (b := 1) hp hw hq
  obtain hroot | hroot := sqrt_abs_cases _ hq
  · have hnumber : (p * p + w).isNaN = false := by
      rw [← Bool.not_eq_true]
      intro hnan
      cases (isNaN_sqrt_abs hnan).symm.trans (not_isNaN_of_lt hroot).2
    have hneg : p * p + w < 0 := by
      by_contra h
      exact hq ((not_lt_iff hnumber (by decide)).1 h)
    obtain ⟨x, hx, hiff⟩ := exists_vectors_of_pair norm hbasis hupper hlower hroot
    exact ⟨x, hx, hiff.trans (and_iff_right hneg).symm⟩
  · have hfinite : ∀ i j, (s.form i j).isFinite = true := by
      rw [show s.form = _ from hform]
      exact isFinite_unshiftPair_two hg
    obtain ⟨x, hx, hnone⟩ := exists_vectors_of_isNaN norm hbasis hupper hlower hroot hfinite
    refine ⟨x, hx, iff_of_false hnone fun h ↦ ?_⟩
    have hnumber := sqrt_abs_nonneg (not_isNaN_of_lt h.1).1
    cases hroot.symm.trans (le_iff.1 hnumber).2.1

theorem exists_isNaN_vectors_iff (norm : Float) (hg : ∀ i j, (g i j).isFinite = true) :
    ∃ x, eigenvectors ⟨(settleTwo norm g Hessenberg.unit).re,
        (settleTwo norm g Hessenberg.unit).im, norm⟩
        (settleTwo norm g Hessenberg.unit).form = .ok x ∧
      ((∃ i j, (changeBasis (settleTwo norm g Hessenberg.unit).basis x i j).isNaN = true) ↔
        VectorsLost norm g) := by
  rw [VectorsLost, settleTwo]
  split
  case isTrue h => exact exists_vectors_of_negligible norm g
  case isFalse h =>
    split
    case isTrue hroots => exact exists_vectors_of_roots norm rfl rfl hroots
    case isFalse hroots => exact exists_vectors_of_no_roots norm hg rfl rfl hroots

end Two

end RealSchur

end DenseDecomp
