import Mathlib.Data.Fintype.Perm
import DenseDecomp.Eigen.Pairs
import DenseDecomp.Proofs.Loop

namespace DenseDecomp.EigenPairs

variable {α : Type} {n : ℕ} {s t : EigenPairs α n}

/-- The pairs of `t` are those of `s`, the one at `i` coming from `σ i`. -/
structure Reorders (s : EigenPairs α n) (σ : Equiv.Perm (Fin n)) (t : EigenPairs α n) : Prop where
  values_eq : ∀ i, t.values i = s.values (σ i)
  vectors_eq : ∀ i j, t.vectors i j = s.vectors i (σ j)

theorem Reorders.refl (s : EigenPairs α n) : Reorders s (Equiv.refl _) s := ⟨fun _ ↦ rfl, fun _ _ ↦ rfl⟩

theorem Reorders.swap {σ : Equiv.Perm (Fin n)} (h : Reorders s σ t) (i k : Fin n) :
    Reorders s ((Equiv.swap i k).trans σ) (t.swap i k) where
  values_eq j := by
    rw [Equiv.trans_apply, Equiv.swap_apply_def, ← h.values_eq, EigenPairs.swap, Tuple.ofFn_apply]
  vectors_eq j l := by
    rw [Equiv.trans_apply, Equiv.swap_apply_def, ← h.vectors_eq, EigenPairs.swap, Grid.swapColumns,
      Grid.ofFn_apply]

theorem swap_self (s : EigenPairs α n) (i : Fin n) : s.swap i i = s := by
  rw [EigenPairs.swap, Grid.swapColumns]
  obtain ⟨values, vectors⟩ := s
  congr 1
  · ext j
    rw [Tuple.ofFn_apply]
    grind
  · ext r j
    rw [Grid.ofFn_apply]
    grind

variable [Scalar α]

structure Comparable (s : EigenPairs α n) : Prop where
  asymm : ∀ i j, s.values i < s.values j → ¬ s.values j < s.values i
  trans : ∀ i j k, ¬ s.values j < s.values i → ¬ s.values k < s.values j →
    ¬ s.values k < s.values i

theorem Comparable.reorders {σ : Equiv.Perm (Fin n)} (hs : s.Comparable) (h : Reorders s σ t) :
    t.Comparable where
  asymm i j := by
    rw [h.values_eq, h.values_eq]
    exact hs.asymm _ _
  trans i j k := by
    rw [h.values_eq, h.values_eq, h.values_eq]
    exact hs.trans _ _ _

theorem le_leastFrom (s : EigenPairs α n) (i : Fin n) : i ≤ s.leastFrom i := by
  refine foldl_invariant (fun _ k ↦ i ≤ k) le_rfl fun j k hk ↦ ?_
  split
  case isTrue h => exact h.1.le
  case isFalse => exact hk

theorem Comparable.leastFrom_le (hs : s.Comparable) {i j : Fin n} (hij : i ≤ j) :
    ¬ s.values j < s.values (s.leastFrom i) := by
  have hirrefl : ∀ j, ¬ s.values j < s.values j := fun j h ↦ hs.asymm j j h h
  have h := foldl_invariant
    (fun r k ↦ ∀ j : Fin n, i ≤ j → (j.val < r ∨ j = i) → ¬ s.values j < s.values k)
    (f := fun k j ↦ if i < j ∧ s.values j < s.values k then j else k) (b := i)
    (fun j _ hj ↦ by
      obtain hj | rfl := hj
      · exact absurd hj (Nat.not_lt_zero _)
      · exact hirrefl j)
    (fun r k hk j hij hj ↦ by
      have hold : j ≠ r → ¬ s.values j < s.values k := fun hjr ↦
        hk j hij (hj.imp_left fun h ↦ by
          have := Fin.val_ne_of_ne hjr
          omega)
      split
      case isTrue h =>
        by_cases hjr : j = r
        · rw [hjr]
          exact hirrefl r
        · exact hs.trans r k j (hs.asymm _ _ h.2) (hold hjr)
      case isFalse h =>
        by_cases hjr : j = r
        · subst hjr
          obtain rfl | hij := eq_or_lt_of_le hij
          · exact hk i le_rfl (Or.inr rfl)
          · exact fun hlt ↦ h ⟨hij, hlt⟩
        · exact hold hjr)
  exact h j hij (Or.inl j.isLt)

/-- The first `r` places of a selection sort hold the least values in order. -/
structure Sorted (s : EigenPairs α n) (r : ℕ) (t : EigenPairs α n) : Prop where
  reorders : ∃ σ, Reorders s σ t
  sorted : s.Comparable → ∀ i j : Fin n, i.val < r → i ≤ j → ¬ t.values j < t.values i

theorem Sorted.step {i : Fin n} (h : Sorted s i t) : Sorted s (i + 1) (t.swap i (t.leastFrom i)) := by
  obtain ⟨σ, hσ⟩ := h.reorders
  refine ⟨⟨_, hσ.swap _ _⟩, fun hs k j hk hkj ↦ ?_⟩
  have ht := hs.reorders hσ
  have hvalues : ∀ j, (t.swap i (t.leastFrom i)).values j =
      t.values (Equiv.swap i (t.leastFrom i) j) := ((Reorders.refl t).swap _ _).values_eq
  have hleast := le_leastFrom t i
  rw [hvalues, hvalues]
  -- The exchange stays within the places from `i` on.
  have hmoved : ∀ l ≤ i, l ≤ j → l ≤ Equiv.swap i (t.leastFrom i) j := fun l hl hlj ↦ by
    rw [Equiv.swap_apply_def]
    split_ifs
    · exact hl.trans hleast
    · exact hl
    · exact hlj
  obtain hk | hk := Nat.lt_succ_iff_lt_or_eq.1 hk
  · have hk' : k < i := hk
    rw [Equiv.swap_apply_of_ne_of_ne hk'.ne (hk'.trans_le hleast).ne]
    exact h.sorted hs k _ hk (hmoved k hk'.le hkj)
  · obtain rfl : k = i := Fin.ext hk
    rw [Equiv.swap_apply_left]
    exact ht.leastFrom_le (hmoved k le_rfl hkj)

theorem sorted_sortAscending (s : EigenPairs α n) : Sorted s n s.sortAscending := by
  refine foldl_invariant (fun r t ↦ Sorted s r t) ⟨⟨_, Reorders.refl s⟩, ?_⟩ (fun i t h ↦ h.step)
  intro _ i _ hi
  exact absurd hi (Nat.not_lt_zero _)

end DenseDecomp.EigenPairs
