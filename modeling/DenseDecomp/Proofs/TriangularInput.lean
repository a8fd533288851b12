import DenseDecomp.Proofs.Binary64.Underflow
import DenseDecomp.Proofs.DeflationLog
import DenseDecomp.Proofs.PairOverflow

namespace DenseDecomp

open Scalar Binary64

variable {n : ℕ}

def Grid.UpperTriangular (g : Grid Float n n) : Prop := ∀ i j, j < i → (g i j == 0) = true

namespace Hessenberg

/-- No column has anything to clear. -/
theorem reduce_of_upperTriangular {g : Grid Float (n + 1) (n + 1)} (hg : g.UpperTriangular) :
    reduce g = ⟨g, Tuple.fill 0⟩ := by
  rw [reduce]
  refine foldl_invariant (fun _ (s : Hessenberg Float (n + 1)) ↦ s = ⟨g, Tuple.fill 0⟩) rfl
    fun c s hs ↦ ?_
  subst hs
  split
  case isTrue =>
    refine if_pos (sumWhere_abs_zero fun i hi ↦ hg i c.castSucc ?_)
    exact (Fin.castSucc_lt_succ).trans_le hi
  case isFalse => rfl

end Hessenberg

namespace RealSchur

theorem blockStart_eq_self_iff {α : Type} [Scalar α] {norm : α} {h : Grid α n n} {b : Fin n} :
    blockStart norm h b b.isLt = b ↔ ∀ a : Fin n, a.val + 1 = b.val → Negligible norm h a b := by
  obtain ⟨b, hb⟩ := b
  cases b with
  | zero => exact iff_of_true rfl nofun
  | succ l =>
    have hle := blockStart_le norm h l (Nat.lt_of_succ_lt hb)
    have hlinked : (∀ a : Fin n, a.val + 1 = l + 1 → Negligible norm h a ⟨l + 1, hb⟩) ↔
        Negligible norm h ⟨l, Nat.lt_of_succ_lt hb⟩ ⟨l + 1, hb⟩ := by
      refine ⟨fun h ↦ h _ rfl, fun h a ha ↦ ?_⟩
      obtain rfl : a = ⟨l, Nat.lt_of_succ_lt hb⟩ := Fin.ext (Nat.succ.inj ha)
      exact h
    rw [hlinked, blockStart]
    split
    case isTrue h => exact iff_of_true rfl h
    case isFalse h =>
      refine iff_of_false (fun heq ↦ ?_) h
      dsimp only at heq
      omega

def linkScale (norm : Float) (h : Grid Float n n) (i j : Fin n) : Float :=
  if Scalar.abs (h i i) + Scalar.abs (h j j) == 0 then norm
  else Scalar.abs (h i i) + Scalar.abs (h j j)

/-- A zero is negligible unless the threshold underflows to zero as well. -/
theorem negligible_iff_of_zero {norm : Float} {h : Grid Float n n} {i j : Fin n}
    (hzero : (h j i == 0) = true) : Negligible norm h i j ↔ vanishingBound < linkScale norm h i j :=
  (abs_lt_iff_of_zero hzero).trans zero_lt_epsilon_mul_iff

def singleRoots : ℕ → List Event
  | 0 => []
  | b + 1 => .realRoot b 0 :: singleRoots b

/-- The rows below `top` are settled, with their diagonal entries for eigenvalues, and those above
are as they were. -/
structure Peeled (g : Grid Float n n) (top : ℕ) (s : RealSchur Float n) : Prop where
  form : ∀ i j : Fin n, i.val < top → j.val < top → s.form i j = g i j
  shift : s.shift = 0
  re : ∀ i : Fin n, top ≤ i.val → s.re i = g i i + 0
  im : ∀ i, s.im i = 0

namespace Peeled

variable {g : Grid Float n n} {s : RealSchur Float n}

theorem ofHessenberg (g basis : Grid Float n n) : Peeled g n (ofHessenberg g basis) where
  form _ _ _ _ := rfl
  shift := rfl
  re i hi := absurd hi i.isLt.not_ge
  im i := Tuple.fill_apply _ i

theorem deflateOne {b : Fin n} (h : Peeled g (b + 1) s) : Peeled g b (s.deflateOne b) where
  form i j hi hj := by
    have hne : ¬ (i = b ∧ j = b) := fun heq ↦ hi.ne (congrArg Fin.val heq.1)
    rw [RealSchur.deflateOne, Grid.set_apply, if_neg hne]
    exact h.form i j (hi.trans b.val.lt_succ_self) (hj.trans b.val.lt_succ_self)
  shift := h.shift
  re i hi := by
    rw [RealSchur.deflateOne, Tuple.set_apply]
    split
    case isTrue heq =>
      subst heq
      rw [h.form i i i.val.lt_succ_self i.val.lt_succ_self, h.shift]
    case isFalse hne =>
      exact h.re i (Nat.succ_le_of_lt (lt_of_le_of_ne hi fun heq ↦ hne (Fin.ext heq.symm)))
  im i := by
    rw [RealSchur.deflateOne, Tuple.set_apply]
    split
    case isTrue => rfl
    case isFalse => exact h.im i

theorem negligible_iff (h : Peeled g top s) (hg : g.UpperTriangular) (norm : Float) {a b : Fin n}
    (hab : a.val + 1 = b) (hb : b.val < top) :
    Negligible norm s.form a b ↔ vanishingBound < linkScale norm g a b := by
  have ha : a.val < top := by omega
  have hzero : (s.form b a == 0) = true := by
    rw [h.form b a hb ha]
    exact hg b a (Fin.lt_def.2 (by omega))
  rw [negligible_iff_of_zero hzero, linkScale, h.form a a ha ha, h.form b b hb hb, linkScale]

end Peeled

def Separable (norm : Float) (g : Grid Float n n) (top : ℕ) : Prop :=
  ∀ a b : Fin n, a.val + 1 = b.val → b.val < top → vanishingBound < linkScale norm g a b

theorem settle_of_separable (config : EigenConfig) {norm : Float} {g : Grid Float n n}
    (hg : g.UpperTriangular) {top : ℕ} (ht : top ≤ n) {s : RealSchur Float n}
    (hs : Peeled g top s) (hsep : Separable norm g top) :
    ∃ s', settle config norm top ht 0 s = ⟨singleRoots top, .ok s'⟩ ∧ Peeled g 0 s' := by
  induction top generalizing s with
  | zero => exact ⟨s, settle_zero, hs⟩
  | succ b ih =>
    have hstart : blockStart norm s.form b ht = b := blockStart_eq_self_iff (b := ⟨b, ht⟩).2
      fun a hab ↦ (hs.negligible_iff hg norm hab b.lt_succ_self).2 (hsep a _ hab b.lt_succ_self)
    obtain ⟨s', hrun, hpeeled⟩ := ih (Nat.le_of_succ_le ht) (Peeled.deflateOne (b := ⟨b, ht⟩) hs)
      fun a c hac hc ↦ hsep a c hac (hc.trans b.lt_succ_self)
    refine ⟨s', ?_, hpeeled⟩
    rw [settle_of_single (b := ⟨b, ht⟩) rfl hstart, hrun]
    rfl

section Log

variable {config : EigenConfig} {norm : Float} {s : RealSchur Float n}

theorem nextShift_events (done : ℕ) (c a b : Fin n) (s : RealSchur Float n) :
    (s.nextShift done c a b).1 = [] ∨
      ∃ e, (s.nextShift done c a b).1 = [e] ∧ ∀ i k, e ≠ .realRoot i k := by
  rw [nextShift]
  split
  case isTrue => exact .inr ⟨_, rfl, fun _ _ heq ↦ by cases heq⟩
  case isFalse =>
    split
    case isTrue =>
      split
      case h_1 => exact .inr ⟨_, rfl, fun _ _ heq ↦ by cases heq⟩
      case h_2 => exact .inl rfl
    case isFalse => exact .inl rfl

theorem log_settle_of_block {top done l : ℕ} {ht : top ≤ n} {a b c : Fin n} (hb : b.val + 1 = top)
    (hca : c.val + 1 = a.val) (hab : a.val + 1 = b.val)
    (hl : blockStart norm s.form b b.isLt = l) (hlb : l + 2 ≤ b) :
    (settle config norm top ht done s).log = (s.nextShift done c a b).1 ∨
      done + 1 < EigenConfig.counterBound ∧ (settle config norm top ht done s).log =
        (s.nextShift done c a b).1 ++ (settle config norm top ht (done + 1)
          ((s.nextShift done c a b).2.2.sweep l b.isLt hlb (s.nextShift done c a b).2.1)).log := by
  rw [settle_of_block hb hca hab hl hlb]
  obtain ⟨e, heq⟩ | ⟨hd, heq⟩ := config.attempt_cases done
    (Scalar.abs ((s.nextShift done c a b).2.2.form b a))
    (fun e ↦ (⟨(s.nextShift done c a b).1, .error e⟩ : Run (Failure Float) (RealSchur Float n)))
    (fun _ ↦ (settle config norm top ht (done + 1) ((s.nextShift done c a b).2.2.sweep l b.isLt hlb
      (s.nextShift done c a b).2.1)).after (s.nextShift done c a b).1)
  · exact .inl (by rw [heq])
  · exact .inr ⟨hd, by rw [heq, Run.log_after]⟩

/-- The first event is a root that took no iteration only where the last row is split off at
once. -/
theorem start_of_head_log_settle {top : ℕ} {ht : top ≤ n} {done i : ℕ}
    (h : (settle config norm top ht done s).log.head? = some (.realRoot i 0)) :
    done = 0 ∧ ∀ b : Fin n, b.val + 1 = top → blockStart norm s.form b b.isLt = b := by
  induction top, ht, done, s using settle_induction norm with
  | zero done s =>
    rw [settle_zero] at h
    cases h
  | single b done s hl ih =>
    rw [settle_of_single rfl hl] at h
    obtain ⟨-, hdone⟩ := Event.realRoot.inj (Option.some.inj h)
    refine ⟨hdone, fun c hc ↦ ?_⟩
    obtain rfl : c = b := Fin.ext (Nat.succ.inj hc)
    exact hl
  | pair a b done s hab hl ih =>
    rw [settle_of_pair rfl hab hl] at h
    cases Option.some.inj h
  | block c a b l done s hca hab hl hlb ih =>
    exfalso
    obtain hnone | ⟨e, hsome, he⟩ := nextShift_events done c a b s
    · obtain hlog | ⟨hd, hlog⟩ := log_settle_of_block rfl hca hab hl hlb
      · rw [hlog, hnone] at h
        cases h
      · rw [hlog, hnone, List.nil_append] at h
        exact done.succ_ne_zero (ih hd h).1
    · have hhead : (settle config norm (b + 1) b.isLt done s).log.head? = some e := by
        obtain hlog | ⟨hd, hlog⟩ := log_settle_of_block rfl hca hab hl hlb
        · rw [hlog, hsome, List.head?_cons]
        · rw [hlog, hsome, List.cons_append, List.head?_cons]
      exact he i 0 (Option.some.inj (hhead.symm.trans h))

theorem separable_of_log_settle {g : Grid Float n n} (hg : g.UpperTriangular) {top : ℕ}
    {ht : top ≤ n} (hs : Peeled g top s)
    (hlog : (settle config norm top ht 0 s).log = singleRoots top) : Separable norm g top := by
  induction top generalizing s with
  | zero => exact fun a b _ hb ↦ absurd hb b.val.not_lt_zero
  | succ b ih =>
    have hhead : (settle config norm (b + 1) ht 0 s).log.head? = some (.realRoot b 0) := by
      rw [hlog, singleRoots, List.head?_cons]
    have hstart := (start_of_head_log_settle hhead).2 ⟨b, ht⟩ rfl
    rw [settle_of_single (b := ⟨b, ht⟩) rfl hstart, Run.log_after, singleRoots,
      List.singleton_append, List.cons.injEq] at hlog
    have hrest := ih (Peeled.deflateOne (b := ⟨b, ht⟩) hs) hlog.2
    intro a c hac hc
    obtain hlt | heq := Nat.lt_succ_iff_lt_or_eq.1 hc
    · exact hrest a c hac hlt
    · obtain rfl : c = ⟨b, ht⟩ := Fin.ext heq
      exact (hs.negligible_iff hg norm hac hc).1 (blockStart_eq_self_iff.1 hstart a hac)

end Log

end RealSchur

theorem Run.log_bind_of_silent {ε β γ : Type} {r : Run ε β} {f : β → Run ε γ}
    (hf : ∀ b, r.outcome = .ok b → (f b).log = []) : (r >>= f).log = r.log := by
  cases h : r.outcome with
  | error e => rw [Run.bind_of_error h]
  | ok b =>
    rw [Run.bind_of_ok h, hf b h]
    exact List.append_nil _

theorem Spectrum.log_ofHessenberg (config : EigenConfig) (form basis : Grid Float n n) :
    (ofHessenberg config form basis).log = (RealSchur.settle config
      (RealSchur.hessenbergNorm form) n le_rfl 0 (.ofHessenberg form basis)).log := by
  rw [ofHessenberg]
  refine Run.log_bind_of_silent fun s hs ↦ ?_
  split
  case isTrue => rfl
  case isFalse =>
    obtain ⟨x, hx⟩ := exists_eigenvectors_of_settle hs
    rw [hx, Run.ofOutcome_ok_bind]
    rfl

namespace EigenDecomposition

open RealSchur (Peeled Separable singleRoots hessenbergNorm)

theorem decompose_of_general (config : EigenConfig) {g : Grid Float (n + 1) (n + 1)}
    (hheld : (DenseMatrix.ofGrid g).Held) (hgeneral : (DenseMatrix.ofGrid g).isSymmetric = false) :
    decompose config (.ofGrid g) = (Run.emit (.generalInput (n + 1)) >>= fun _ ↦
      Spectrum.ofGeneral config g >>= fun s ↦ pure (ofSpectrum false s)) := by
  obtain ⟨g', hg', hdecompose⟩ := exists_decompose_eq hheld
  obtain rfl : g = g' := Except.ok.inj ((DenseMatrix.toGrid_ofGrid g).symm.trans hg')
  have hne : ¬ (DenseMatrix.ofGrid g).isSymmetric = true := by
    rw [hgeneral]
    exact Bool.false_ne_true
  exact (hdecompose config).trans (if_neg hne)

variable {g : Grid Float (n + 1) (n + 1)}

theorem decompose_eq_ok_iff_of_general {config : EigenConfig} (hheld : (DenseMatrix.ofGrid g).Held)
    (hgeneral : (DenseMatrix.ofGrid g).isSymmetric = false) {x : EigenDecomposition Float} :
    (decompose config (.ofGrid g)).outcome = .ok x ↔
      ∃ t, (Spectrum.ofGeneral config g).outcome = .ok t ∧ ofSpectrum false t = x := by
  rw [decompose_of_general config hheld hgeneral, Run.outcome_emit_bind]
  exact Run.outcome_bind_pure_eq_ok

theorem log_decompose_of_upperTriangular (config : EigenConfig)
    (hheld : (DenseMatrix.ofGrid g).Held) (hgeneral : (DenseMatrix.ofGrid g).isSymmetric = false)
    (hg : g.UpperTriangular) : (decompose config (.ofGrid g)).log = .generalInput (n + 1) ::
      (RealSchur.settle config (hessenbergNorm g) (n + 1) le_rfl 0
        (.ofHessenberg g (Hessenberg.reduce g).basis)).log := by
  rw [decompose_of_general config hheld hgeneral, Run.log_emit_bind,
    Run.log_bind_of_silent fun _ _ ↦ rfl, Spectrum.ofGeneral]
  simp only [Hessenberg.reduce_of_upperTriangular hg, Spectrum.log_ofHessenberg]

theorem exists_decompose_of_separable (config : EigenConfig)
    (hheld : (DenseMatrix.ofGrid g).Held) (hgeneral : (DenseMatrix.ofGrid g).isSymmetric = false)
    (hfinite : ∀ i j, (g i j).isFinite = true) (hg : g.UpperTriangular)
    (hsep : Separable (hessenbergNorm g) g (n + 1)) :
    ∃ x, (decompose config (.ofGrid g)).outcome = .ok x ∧
      (∀ i : Fin (n + 1), ∃ y, x.re[i.val]? = some y ∧ (y == g i i) = true) ∧
      ∀ i : Fin (n + 1), x.im[i.val]? = some 0 := by
  obtain ⟨s, hs, hpeeled⟩ := RealSchur.settle_of_separable config hg le_rfl
    (.ofHessenberg g (Hessenberg.reduce g).basis) hsep
  obtain ⟨v, hv⟩ := Spectrum.exists_ofHessenberg_of_settle (congrArg Run.outcome hs)
  have hspectrum : (Spectrum.ofGeneral config g).outcome = .ok ⟨v, s.re, s.im⟩ := by
    rw [Spectrum.ofGeneral]
    simp only [Hessenberg.reduce_of_upperTriangular hg] at hv ⊢
    exact hv
  refine ⟨ofSpectrum false ⟨v, s.re, s.im⟩, ?_, fun i ↦ ⟨g i i + 0, ?_, ?_⟩, fun i ↦ ?_⟩
  · exact (decompose_eq_ok_iff_of_general hheld hgeneral).2 ⟨_, hspectrum, rfl⟩
  · rw [← hpeeled.re i i.val.zero_le]
    exact Tuple.getElem?_toArray s.re i
  · exact add_zero_beq (of_isFinite (hfinite i i)).1
  · rw [← hpeeled.im i]
    exact Tuple.getElem?_toArray s.im i

/-- An upper triangular matrix is read off its diagonal, with no iteration, unless the scale by
which two of its rows are compared is so small that the threshold underflows. -/
theorem decompose_upperTriangular_iff (config : EigenConfig)
    (hheld : (DenseMatrix.ofGrid g).Held) (hgeneral : (DenseMatrix.ofGrid g).isSymmetric = false)
    (hfinite : ∀ i j, (g i j).isFinite = true) (hg : g.UpperTriangular) :
    ((decompose config (.ofGrid g)).log = .generalInput (n + 1) :: singleRoots (n + 1) ↔
      ∀ a b : Fin (n + 1), a.val + 1 = b.val →
        vanishingBound < RealSchur.linkScale (hessenbergNorm g) g a b) ∧
    ((decompose config (.ofGrid g)).log = .generalInput (n + 1) :: singleRoots (n + 1) →
      ∃ x, (decompose config (.ofGrid g)).outcome = .ok x ∧
        (∀ i : Fin (n + 1), ∃ y, x.re[i.val]? = some y ∧ (y == g i i) = true) ∧
        ∀ i : Fin (n + 1), x.im[i.val]? = some 0) := by
  have hlog := log_decompose_of_upperTriangular config hheld hgeneral hg
  have hpeeled : Peeled g (n + 1) (.ofHessenberg g (Hessenberg.reduce g).basis) := .ofHessenberg g _
  have hiff : (decompose config (.ofGrid g)).log = .generalInput (n + 1) :: singleRoots (n + 1) ↔
      Separable (hessenbergNorm g) g (n + 1) := by
    rw [hlog, List.cons.injEq, eq_self_iff_true, true_and]
    refine ⟨RealSchur.separable_of_log_settle hg hpeeled, fun hsep ↦ ?_⟩
    obtain ⟨s, hs, -⟩ := RealSchur.settle_of_separable config hg le_rfl hpeeled hsep
    rw [hs]
  constructor
  · rw [hiff]
    exact ⟨fun h a b hab ↦ h a b hab b.isLt, fun h a b hab _ ↦ h a b hab⟩
  · intro h
    exact exists_decompose_of_separable config hheld hgeneral hfinite hg (hiff.1 h)

/-- The limit allows no iteration, and the middle entry of the diagonal is zero. -/
theorem decompose_upperTriangular_iff_three :
    let g : Grid Float 3 3 := Grid.ofFn fun i j ↦ #v[#v[2, 1, -3], #v[0, 0, 5], #v[0, 0, 4]][i][j]
    (DenseMatrix.ofGrid g).Held ∧ (DenseMatrix.ofGrid g).isSymmetric = false ∧
      (∀ i j, (g i j).isFinite = true) ∧ g.UpperTriangular ∧
      (decompose ⟨some 0⟩ (.ofGrid g)).log =
        [.generalInput 3, .realRoot 2 0, .realRoot 1 0, .realRoot 0 0] ∧
      ∃ x, (decompose ⟨some 0⟩ (.ofGrid g)).outcome = .ok x ∧
        (∀ i : Fin 3, ∃ y, x.re[i.val]? = some y ∧ (y == g i i) = true) ∧
        ∀ i : Fin 3, x.im[i.val]? = some 0 := by
  intro g
  have hheld : (DenseMatrix.ofGrid g).Held :=
    DenseMatrix.held_ofGrid g (by decide) (by decide) (by decide)
  have hgeneral : (DenseMatrix.ofGrid g).isSymmetric = false := by decide +kernel
  have hfinite : ∀ i j, (g i j).isFinite = true := by decide +kernel
  have hg : g.UpperTriangular := by
    unfold Grid.UpperTriangular
    decide +kernel
  obtain ⟨hlog, hvalues⟩ := decompose_upperTriangular_iff ⟨some 0⟩ hheld hgeneral hfinite hg
  have hlog := hlog.2 (by decide +kernel)
  exact ⟨hheld, hgeneral, hfinite, hg, hlog, hvalues hlog⟩

/-- The entries are the least positive value and its multiples. -/
theorem not_forall_exists_decompose_upperTriangular :
    ¬ ∀ (config : EigenConfig) (m : ℕ) (g : Grid Float (m + 1) (m + 1)), 2 ≤ m + 1 →
      (DenseMatrix.ofGrid g).Held → (DenseMatrix.ofGrid g).isSymmetric = false →
      (∀ i j, (g i j).isFinite = true) → g.UpperTriangular →
        ∃ x, (decompose config (.ofGrid g)).outcome = .ok x ∧
          (∀ i : Fin (m + 1), ∃ y, x.re[i.val]? = some y ∧ (y == g i i) = true) ∧
          (∀ i : Fin (m + 1), x.im[i.val]? = some 0) ∧
          (decompose config (.ofGrid g)).log = .generalInput (m + 1) :: singleRoots (m + 1) := by
  intro h
  let g : Grid Float 3 3 := Grid.ofFn fun i j ↦
    #v[#v[1.5e-323, 5e-324, 0], #v[0, 1e-323, 5e-324], #v[0, 0, 5e-324]][i][j]
  have hheld : (DenseMatrix.ofGrid g).Held :=
    DenseMatrix.held_ofGrid g (by decide) (by decide) (by decide)
  have hg : g.UpperTriangular := by
    unfold Grid.UpperTriangular
    decide +kernel
  have hfails : (decompose ⟨some 0⟩ (.ofGrid g)).outcome.toOption.isNone = true := by
    decide +kernel
  have hgeneral : (DenseMatrix.ofGrid g).isSymmetric = false := by decide +kernel
  have hfinite : ∀ i j, (g i j).isFinite = true := by decide +kernel
  obtain ⟨x, hx, -⟩ := h ⟨some 0⟩ 2 g (by decide) hheld hgeneral hfinite hg
  rw [hx] at hfails
  cases hfails

end EigenDecomposition

end DenseDecomp
