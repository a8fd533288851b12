import DenseDecomp.Proofs.Indexed.ImplicitQL
import DenseDecomp.Proofs.SpectrumShape

namespace DenseDecomp.EigenPairs

variable {n : ℕ}

section Selection

variable {α : Type} [Scalar α] {s : EigenPairs α n}

theorem leastFrom_eq_self {i : Fin n} (h : ∀ j, i ≤ j → ¬ s.values j < s.values i) :
    s.leastFrom i = i := by
  refine foldl_invariant (fun _ k ↦ k = i) rfl fun j k hk ↦ ?_
  subst hk
  exact if_neg fun hj ↦ h j hj.1.le hj.2

theorem sortAscending_eq_self (h : ∀ i j, i ≤ j → ¬ s.values j < s.values i) :
    s.sortAscending = s := by
  refine foldl_invariant (fun _ t ↦ t = s) rfl fun i t ht ↦ ?_
  subst ht
  rw [leastFrom_eq_self (h i), swap_self]

theorem sortAscending_sortAscending (hs : s.Comparable) :
    s.sortAscending.sortAscending = s.sortAscending :=
  sortAscending_eq_self fun i j hij ↦ (sorted_sortAscending s).sorted hs i j i.isLt hij

theorem indexed_sortAscending_eq (hn : n + 1 < Size.wordBound) (s : EigenPairs α n) :
    Indexed.sortAscending s = .ok s.sortAscending := by
  cases n with
  | zero => rfl
  | succ n => exact Indexed.sortAscending_eq hn s

end Selection

/-- One rearrangement moves the values and the columns, whatever the scalars are and however they
compare, and the loops that exchange a value by hand and a column entry by entry make it. Values
that are all numbers ascend in it. -/
theorem sortAscending_reorders (n : ℕ) :
    (∀ {α : Type} [Scalar α] (s : EigenPairs α n), (∃ σ, Reorders s σ s.sortAscending) ∧
        (n + 1 < Size.wordBound → Indexed.sortAscending s = .ok s.sortAscending)) ∧
      ∀ s : EigenPairs Float n, (∀ i, (s.values i).isNaN = false) →
        ∀ i j, i ≤ j → s.sortAscending.values i ≤ s.sortAscending.values j := by
  refine ⟨fun s ↦ ⟨(sorted_sortAscending s).reorders, fun hn ↦ indexed_sortAscending_eq hn s⟩,
    fun s hs i j hij ↦ ?_⟩
  obtain ⟨σ, hσ⟩ := (sorted_sortAscending s).reorders
  refine ascending_sortAscending (fun k ↦ ?_) hij
  rw [hσ.values_eq]
  exact hs (σ k)

theorem sortAscending_reorders_five :
    let s : EigenPairs Float 5 :=
      ⟨⟨#v[2, 0, 1.0 / 0.0, 2, -0.0]⟩, Grid.ofFn fun _ j ↦ j.val.toFloat⟩
    (∃ σ : Equiv.Perm (Fin 5), Reorders s σ s.sortAscending) ∧
      Indexed.sortAscending s = .ok s.sortAscending ∧
      s.sortAscending.values 0 ≤ s.sortAscending.values 1 := by
  intro s
  have hs : ∀ i, (s.values i).isNaN = false := by decide +kernel
  obtain ⟨hmoves, hascending⟩ := sortAscending_reorders 5
  obtain ⟨hreorders, hindexed⟩ := hmoves s
  exact ⟨hreorders, hindexed (by decide), hascending s hs 0 1 (by decide)⟩

end DenseDecomp.EigenPairs
