import Mathlib.Data.List.FinRange
import DenseDecomp.Proofs.HeldMatrix
import DenseDecomp.Proofs.Indexed.Access

namespace DenseDecomp

variable {α β γ : Type} {n : ℕ}

theorem Outcome.mapM_eq_ok {f : γ → Outcome α β} {g : γ → β} {l : List γ}
    (h : ∀ c ∈ l, f c = .ok (g c)) : l.mapM f = .ok (l.map g) := by
  induction l with
  | nil => rfl
  | cons c l ih =>
    have hhead := h c List.mem_cons_self
    have htail := ih fun c hc ↦ h c (List.mem_cons_of_mem _ hc)
    simp only [List.mapM_cons, hhead, htail, ok_bind, pure_eq, List.map_cons]

theorem toArray_map_range (f : ℕ → β) :
    ((List.range n).map f).toArray = Array.ofFn fun i : Fin n ↦ f i := by
  apply Array.ext
  · rw [List.size_toArray, List.length_map, List.length_range, Array.size_ofFn]
  · intro i hi hi'
    rw [List.getElem_toArray, List.getElem_map, List.getElem_range, Array.getElem_ofFn]

namespace DenseMatrix

variable {a : DenseMatrix α} {i j : ℕ}

theorem Held.exists_ofGrid_of_rows (h : a.Held) (hrows : a.rows = n) :
    ∃ (m : ℕ) (g : Grid α n m), a = .ofGrid g := by
  subst hrows
  exact ⟨_, h.exists_ofGrid⟩

variable [Scalar α]

theorem Held.get_eq (h : a.Held) (hi : i < a.rows) (hj : j < a.cols) :
    a.get i j = .ok (a.entry i j) := by
  obtain ⟨g, hg⟩ := h.exists_ofGrid
  rw [hg, get_ofGrid g h.size_lt, Grid.read_of_lt g hi hj, entry_ofGrid_of_lt g hi hj]

theorem Held.column_eq (h : a.Held) (hj : j < a.cols) :
    a.column j = .ok (Array.ofFn fun i : Fin a.rows ↦ a.entry i j) := by
  have hentries : (List.range a.rows).mapM (fun i ↦ a.get i j) =
      .ok ((List.range a.rows).map fun i ↦ a.entry i j) :=
    Outcome.mapM_eq_ok fun i hi ↦ h.get_eq (List.mem_range.1 hi) hj
  rw [column, hentries, Outcome.ok_bind, toArray_map_range]

theorem Held.diagonal_eq (h : a.Held) (hsq : a.rows = a.cols) :
    a.diagonal = .ok (Array.ofFn fun i : Fin a.rows ↦ a.entry i i) := by
  have hmin : min a.rows a.cols = a.rows := by rw [← hsq, min_self]
  have hentries : (List.range a.rows).mapM (fun i ↦ a.get i i) =
      .ok ((List.range a.rows).map fun i ↦ a.entry i i) := by
    apply Outcome.mapM_eq_ok
    intro i hi
    have hi := List.mem_range.1 hi
    exact h.get_eq hi (hsq ▸ hi)
  rw [diagonal, hmin, hentries, Outcome.ok_bind, toArray_map_range]

end DenseMatrix

end DenseDecomp
