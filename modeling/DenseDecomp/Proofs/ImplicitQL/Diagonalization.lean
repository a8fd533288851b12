import Mathlib.Data.Real.Basic
import DenseDecomp.Proofs.ImplicitQL.Convergence
import DenseDecomp.Proofs.Tridiagonal.Accumulation

namespace DenseDecomp.ImplicitQL

open Matrix Scalar

variable {n : ℕ}

section Settle

variable {α : Type} [Scalar α]

def put (s : ImplicitQL α n) (l : Fin n) : ImplicitQL α n :=
  { s with diag := s.diag.set l (s.diag l + s.shift), link := s.link.set l 0 }

theorem settle_eq_ok {config : EigenConfig} {s s' : ImplicitQL α (n + 1)} {l : Fin (n + 1)}
    (h : (settle config s l).outcome = .ok s') :
    (¬ l < (s.raise l).blockEnd l ∧ s' = (s.raise l).put l) ∨
      ∃ (c : Fin n) (sweeps : ℕ) (t : ImplicitQL α (n + 1)), c.castSucc = l ∧
        l < (s.raise l).blockEnd l ∧
        converge config c ((s.raise l).blockEnd l) 0 (s.raise l) = .ok (sweeps, t) ∧
        s' = t.put l := by
  rw [settle] at h
  obtain ⟨⟨sweeps, t⟩, ht, h⟩ := Run.outcome_bind_eq_ok.1 h
  obtain ⟨-, -, h⟩ := Run.outcome_bind_eq_ok.1 h
  cases h
  by_cases hl : l < (s.raise l).blockEnd l
  · rw [dif_pos hl] at ht
    exact Or.inr ⟨_, sweeps, t, rfl, hl, ht, rfl⟩
  · rw [dif_neg hl] at ht
    cases ht
    exact Or.inl ⟨hl, rfl⟩

end Settle

theorem form_of_link_eq_zero {s : ImplicitQL ℝ (n + 1)} (h : ∀ i, s.link i = 0) :
    s.form (n + 1) = diagonal s.diag := by
  rw [← band_diagonal]
  refine band_congr (fun i ↦ ?_) (fun i _ ↦ h i) (fun _ _ ↦ rfl)
  rw [if_neg (Nat.not_le.2 i.isLt), add_zero]

theorem cost_succ {l : ℕ} (hl : l < n) (x : ℝ) :
    ((2 * min l n : ℕ) : ℝ) * x + x + x = (2 * min (l + 1) n : ℕ) * x := by
  rw [min_eq_left hl.le, min_eq_left hl]
  push_cast
  ring

section Exact

variable [DivisionByZero] {A V : Matrix (Fin (n + 1)) (Fin (n + 1)) ℝ} {b : ℝ}
  {s t : ImplicitQL ℝ (n + 1)} {l m : Fin (n + 1)}

theorem put_form (s : ImplicitQL ℝ (n + 1)) (l : Fin (n + 1)) :
    (s.put l).form (l + 1) = (s.drop l).form l := by
  refine band_congr (fun i ↦ ?_) (fun _ _ ↦ rfl) (fun _ _ ↦ rfl)
  simp only [put, drop, Tuple.set_apply]
  by_cases hi : i = l
  · subst hi
    rw [if_pos rfl, if_neg (Nat.not_succ_le_self _), if_pos le_rfl, add_zero]
  · have hv : i.val ≠ l.val := fun h ↦ hi (Fin.ext h)
    have hle : l.val + 1 ≤ i.val ↔ l.val ≤ i.val := by omega
    simp only [hi, hle, if_false]

theorem approximates_drop (hm : m ≠ Fin.last n → s.Negligible m) (hmag : 0 ≤ s.magnitude) {j : ℕ}
    (h : Approximates A b V (s.form j)) :
    Approximates A (b + epsilon * s.magnitude) V ((s.drop m).form j) := by
  by_cases hlast : m = Fin.last n
  · rw [hlast, drop_last_form]
    exact h.mono (le_add_of_nonneg_right (mul_nonneg epsilon_nonneg hmag))
  · obtain ⟨k, rfl⟩ := Fin.exists_castSucc_eq.2 hlast
    exact h.replace ((drop_residual s k j).mono (negligible_iff.1 (hm hlast)))

/-- What holds once the entries before `l` are settled: each of them has cost two links. -/
structure Settled (A : Matrix (Fin (n + 1)) (Fin (n + 1)) ℝ) (l : ℕ)
    (s : ImplicitQL ℝ (n + 1)) : Prop where
  approximates : Approximates A ((2 * min l n : ℕ) * (epsilon * s.magnitude)) s.basis.toMatrix
    (s.form l)
  magnitude_nonneg : 0 ≤ s.magnitude
  link_before : ∀ i : Fin (n + 1), i.val < l → s.link i = 0

theorem Settled.raise {j : ℕ} (h : Settled A j s) (l : Fin (n + 1)) : Settled A j (s.raise l) where
  approximates := by
    refine h.approximates.mono ?_
    rw [epsilon_real]
    have hle : s.magnitude ≤ (s.raise l).magnitude := by
      rw [ImplicitQL.raise, maxNum_real]
      exact le_max_left _ _
    gcongr
  magnitude_nonneg := by
    rw [ImplicitQL.raise, maxNum_real]
    exact h.magnitude_nonneg.trans (le_max_left _ _)
  link_before := h.link_before

theorem Settled.put (hmag : 0 ≤ s.magnitude)
    (h : Approximates A ((2 * min (l.val + 1) n : ℕ) * (epsilon * s.magnitude)) s.basis.toMatrix
      ((s.drop l).form l)) (hbefore : ∀ i : Fin (n + 1), i < l → s.link i = 0) :
    Settled A (l + 1) (s.put l) where
  approximates := by
    rw [put_form]
    exact h
  magnitude_nonneg := hmag
  link_before i hi := by
    rw [ImplicitQL.put, Tuple.set_apply]
    split
    case isTrue => rfl
    case isFalse hne => exact hbefore i (lt_of_le_of_ne (Nat.le_of_lt_succ hi) hne)

/-- An entry without a link to the next one needs no sweep. -/
theorem Settled.put_alone (h : Settled A l s) (hend : s.blockEnd l = l) :
    Settled A (l + 1) (s.put l) := by
  refine Settled.put h.magnitude_nonneg ?_ h.link_before
  by_cases hlast : l = Fin.last n
  · have hmin : min (l.val + 1) n = min l.val n := by
      rw [hlast, Fin.val_last, min_self, min_eq_right (Nat.le_succ n)]
    rw [hmin, hlast, drop_last_form, ← hlast]
    exact h.approximates
  · have hneg : s.Negligible l := by
      have hblock := negligible_blockEnd (s := s) (l := l) (by rwa [hend])
      rwa [hend] at hblock
    refine (approximates_drop (fun _ ↦ hneg) h.magnitude_nonneg h.approximates).mono ?_
    rw [← cost_succ (Fin.val_lt_last hlast)]
    exact le_add_of_nonneg_right (mul_nonneg epsilon_nonneg h.magnitude_nonneg)

/-- The sweeps of a block neglect one link at its end, and at last the one at its start. -/
theorem Settled.put_block {c : Fin n} (h : Settled A c.castSucc s)
    (hblock : Block c (s.blockEnd c.castSucc) s t) (hsmall : t.Negligible c.castSucc) :
    Settled A (c.castSucc + 1) (t.put c.castSucc) := by
  have hmag : 0 ≤ t.magnitude := by
    rw [hblock.magnitude_eq]
    exact h.magnitude_nonneg
  have hdrop := (approximates_drop negligible_blockEnd h.magnitude_nonneg
    h.approximates).rebase hblock.rebases
  rw [drop_of_link_eq_zero (hblock.link_end hsmall)] at hdrop
  have hput := approximates_drop (fun _ ↦ hsmall) hmag hdrop
  rw [← hblock.magnitude_eq, Fin.val_castSucc, cost_succ c.isLt] at hput
  exact Settled.put hmag hput hblock.link_before

theorem Settled.settle {config : EigenConfig} (h : Settled A l s)
    (ht : (settle config s l).outcome = .ok t) : Settled A (l + 1) t := by
  have hr := h.raise l
  obtain ⟨hl, rfl⟩ | ⟨c, sweeps, t, rfl, hl, hconv, rfl⟩ := settle_eq_ok ht
  · exact hr.put_alone (le_antisymm (not_lt.1 hl) (le_blockEnd _ l))
  · have hstart := Block.start hr.magnitude_nonneg hl hr.link_before
    obtain ⟨hblock, hsmall⟩ := converge_invariant
      (fun t ht hlarge ↦ ht.sweep hl hr.magnitude_nonneg hlarge) hstart hconv
    exact hr.put_block hblock hsmall

theorem ofTridiagonal_form (u : Tridiagonal ℝ (n + 1)) : (ofTridiagonal u).form 0 = u.matrix := by
  ext i j
  simp only [form, ofTridiagonal, tridiagonal, band, Tridiagonal.matrix, of_apply, Tuple.ofFn_apply,
    ite_self, add_zero, Pi.zero_apply]
  obtain rfl | hij := eq_or_ne i j
  · rw [if_pos rfl, if_pos rfl]
  · rw [if_neg hij, if_neg hij]
    by_cases hi : i.val + 1 = j.val
    · have hi' : i.val + 1 < n + 1 := by omega
      have hj : (⟨i.val + 1, hi'⟩ : Fin (n + 1)) = j := Fin.ext hi
      rw [if_neg (by omega), if_pos hi, if_pos hi, dif_pos hi', hj]
    · rw [if_neg hi, if_neg hi]
      by_cases hj : j.val + 1 = i.val
      · have hj' : j.val + 1 < n + 1 := by omega
        have hi' : (⟨j.val + 1, hj'⟩ : Fin (n + 1)) = i := Fin.ext hj
        rw [if_pos hj, if_pos hj, dif_pos hj', hi']
      · rw [if_neg hj, if_neg hj]

/-- The diagonalization of a symmetric matrix loses no more than two negligible links for each
entry but the last. -/
theorem diagonalize_approximates {config : EigenConfig} {u : Tridiagonal ℝ (n + 1)}
    (hV : u.basis.toMatrix * u.basis.toMatrixᵀ = 1)
    (hA : u.basis.toMatrix * u.matrix * u.basis.toMatrixᵀ = A)
    (h : (diagonalize config u).outcome = .ok s) :
    Approximates A (2 * n * (epsilon * s.magnitude)) s.basis.toMatrix (diagonal s.diag) ∧
      ∀ i, s.link i = 0 := by
  have hstart : Settled A 0 (ofTridiagonal u) := by
    refine ⟨⟨hV, ?_⟩, le_rfl, fun i hi ↦ absurd hi (Nat.not_lt_zero _)⟩
    rw [ofTridiagonal_form]
    change Residual _ (A - u.basis.toMatrix * u.matrix * u.basis.toMatrixᵀ)
    rw [hA, sub_self, Nat.zero_min, Nat.mul_zero, Nat.cast_zero, zero_mul]
    exact Residual.zero
  have hend := Run.foldlM_invariant (fun l s ↦ Settled A l s) hstart
    (fun l s t hs ht ↦ hs.settle ht) h
  have hlink : ∀ i, s.link i = 0 := fun i ↦ hend.link_before i i.isLt
  refine ⟨?_, hlink⟩
  have happrox := hend.approximates
  rw [form_of_link_eq_zero hlink, min_eq_right (Nat.le_succ n), Nat.cast_mul,
    Nat.cast_ofNat] at happrox
  exact happrox

theorem exists_converge_succ {c : Fin n} (hmag : 0 ≤ s.magnitude) :
    ∃ r, converge .unlimited c c.succ 0 s = .ok r := by
  by_cases hsmall : s.Negligible c.castSucc
  · rw [converge, if_pos hsmall]
    exact ⟨_, rfl⟩
  · have he : s.link c.castSucc ≠ 0 := fun h ↦ hsmall (negligible_of_link_eq_zero hmag h)
    have hmag' : 0 ≤ (s.sweep c c.succ).magnitude := hmag
    have hswept := negligible_of_link_eq_zero hmag' (sweep_link_of_succ he)
    have hcount : 0 + 1 < EigenConfig.counterBound := by decide
    rw [converge, if_neg hsmall, EigenConfig.attempt, dif_pos hcount]
    change ∃ r, converge .unlimited c c.succ 1 (s.sweep c c.succ) = .ok r
    rw [converge, if_pos hswept]
    exact ⟨_, rfl⟩

theorem exists_settle (config : EigenConfig) (h : ∀ hl : l < (s.raise l).blockEnd l, ∃ r,
    converge config ⟨l, by omega⟩ ((s.raise l).blockEnd l) 0 (s.raise l) = .ok r) :
    ∃ t, (settle config s l).outcome = .ok t := by
  by_cases hl : l < (s.raise l).blockEnd l
  · obtain ⟨⟨sweeps, t⟩, ht⟩ := h hl
    refine ⟨t.put l, ?_⟩
    rw [settle, Run.outcome_bind_eq_ok]
    refine ⟨(sweeps, t), ?_, Run.outcome_bind_eq_ok.2 ⟨(), rfl, rfl⟩⟩
    rw [dif_pos hl]
    exact ht
  · refine ⟨(s.raise l).put l, ?_⟩
    rw [settle, Run.outcome_bind_eq_ok]
    refine ⟨(0, s.raise l), ?_, Run.outcome_bind_eq_ok.2 ⟨(), rfl, rfl⟩⟩
    rw [dif_neg hl]
    rfl

theorem exists_diagonalize_two (u : Tridiagonal ℝ 2) :
    ∃ s, (diagonalize .unlimited u).outcome = .ok s := by
  -- The first entry takes at most one sweep, and the last one none.
  have hmag : 0 ≤ ((ofTridiagonal u).raise 0).magnitude := by
    rw [raise, maxNum_real]
    exact le_max_left _ _
  obtain ⟨s, hs⟩ := exists_settle .unlimited (s := ofTridiagonal u) (l := 0) fun hl ↦ by
    have hend : ((ofTridiagonal u).raise 0).blockEnd 0 = (0 : Fin 1).succ :=
      le_antisymm (Fin.le_last _) (Fin.castSucc_lt_iff_succ_le.1 hl)
    rw [hend]
    exact exists_converge_succ (c := 0) hmag
  obtain ⟨t, ht⟩ := exists_settle .unlimited (s := s) (l := 1) fun hl ↦
    absurd hl (not_lt.2 (Fin.le_last _))
  have hrange : List.finRange 2 = [0, 1] := rfl
  refine ⟨t, ?_⟩
  rw [diagonalize, hrange, List.foldlM_cons, Run.outcome_bind_eq_ok]
  refine ⟨s, hs, ?_⟩
  rw [List.foldlM_cons, Run.outcome_bind_eq_ok]
  exact ⟨t, ht, rfl⟩

end Exact

end DenseDecomp.ImplicitQL
