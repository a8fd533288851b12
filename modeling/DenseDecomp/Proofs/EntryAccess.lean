import Mathlib.Data.Set.Function
import DenseDecomp.Failure.Message
import DenseDecomp.Proofs.Indexed.Access
import DenseDecomp.Proofs.SessionInvariant

namespace DenseDecomp

namespace DenseMatrix

variable {α : Type} {m a : DenseMatrix α} {i j k l : ℕ} {x : α}

def Contains (m : DenseMatrix α) (i j : ℕ) : Prop := i < m.rows ∧ j < m.cols

instance (m : DenseMatrix α) (i j : ℕ) : Decidable (m.Contains i j) :=
  inferInstanceAs (Decidable (_ ∧ _))

section Address

theorem WellFormed.address_eq (h : m.WellFormed) (hij : m.Contains i j) :
    m.address i j = .ok (i * m.cols + j) := by
  obtain ⟨g, hg⟩ := h.exists_ofGrid
  rw [hg]
  exact address_ofGrid g h.size_lt hij.1 hij.2

/-- The quotient and the remainder by the width lead back from an offset to its position. -/
theorem WellFormed.address_bijOn (h : m.WellFormed) :
    Set.BijOn (fun p : ℕ × ℕ ↦ m.address p.1 p.2) {p | m.Contains p.1 p.2}
      (Except.ok '' Set.Iio (m.rows * m.cols)) := by
  refine ⟨?mapsTo, ?injOn, ?surjOn⟩
  case mapsTo =>
    rintro ⟨i, j⟩ hij
    exact ⟨i * m.cols + j, mul_add_lt hij.1 hij.2, (h.address_eq hij).symm⟩
  case injOn =>
    rintro ⟨i, j⟩ hij ⟨k, l⟩ hkl heq
    have hoffset : i * m.cols + j = k * m.cols + l := by
      apply Except.ok.inj
      rw [← h.address_eq hij, ← h.address_eq hkl]
      exact heq
    obtain ⟨rfl, rfl⟩ := mul_add_inj hij.2 hkl.2 hoffset
    rfl
  case surjOn =>
    rintro _ ⟨k, hk, rfl⟩
    have hpos : m.Contains (k / m.cols) (k % m.cols) :=
      ⟨div_lt_rows hk, Nat.mod_lt k h.cols_pos⟩
    refine ⟨(k / m.cols, k % m.cols), hpos, ?_⟩
    dsimp only
    rw [h.address_eq hpos, Nat.div_add_mod']

end Address

section Access

/-- The bounds are tested before an address is formed. -/
theorem get_outside (h : ¬ m.Contains i j) :
    m.get i j = abort (.indexOutOfBounds i j m.rows m.cols) := if_neg h

theorem set_outside (h : ¬ m.Contains i j) (x : α) :
    m.set i j x = abort (.indexOutOfBounds i j m.rows m.cols) := if_neg h

theorem contains_of_set (h : m.set i j x = .ok a) : m.Contains i j := by
  by_contra hij
  rw [set_outside hij] at h
  cases h

theorem contains_of_get (h : m.get i j = .ok x) : m.Contains i j := by
  by_contra hij
  rw [get_outside hij] at h
  cases h

theorem WellFormed.exists_get (h : m.WellFormed) (hij : m.Contains i j) :
    ∃ x, m.get i j = .ok x := by
  obtain ⟨g, hg⟩ := h.exists_ofGrid
  rw [hg, get_ofGrid g h.size_lt, Grid.read_of_lt g hij.1 hij.2]
  exact ⟨_, rfl⟩

theorem WellFormed.exists_set (h : m.WellFormed) (hij : m.Contains i j) (x : α) :
    ∃ a, m.set i j x = .ok a := by
  obtain ⟨g, hg⟩ := h.exists_ofGrid
  rw [hg, set_ofGrid g h.size_lt, Grid.write_of_lt g hij.1 hij.2]
  exact ⟨_, rfl⟩

theorem WellFormed.exists_grid_of_set (h : m.WellFormed) (ha : m.set i j x = .ok a) :
    ∃ (g : Grid α m.rows m.cols) (hi : i < m.rows) (hj : j < m.cols),
      m = ofGrid g ∧ a = ofGrid (g.set ⟨i, hi⟩ ⟨j, hj⟩ x) := by
  obtain ⟨hi, hj⟩ := contains_of_set ha
  obtain ⟨g, hg⟩ := h.exists_ofGrid
  refine ⟨g, hi, hj, hg, ?_⟩
  rw [hg, set_ofGrid g h.size_lt, Grid.write_of_lt g hi hj] at ha
  exact (Except.ok.inj ha).symm

theorem WellFormed.shape_set (h : m.WellFormed) (ha : m.set i j x = .ok a) :
    a.shape = m.shape := by
  obtain ⟨g, hi, hj, hm, rfl⟩ := h.exists_grid_of_set ha
  rfl

theorem WellFormed.get_set_self (h : m.WellFormed) (ha : m.set i j x = .ok a) :
    a.get i j = .ok x := by
  obtain ⟨g, hi, hj, hm, rfl⟩ := h.exists_grid_of_set ha
  rw [get_ofGrid _ h.size_lt, Grid.read_of_lt _ hi hj, Grid.set_apply]
  simp

theorem WellFormed.get_set_of_ne (h : m.WellFormed) (ha : m.set i j x = .ok a)
    (hne : (k, l) ≠ (i, j)) : a.get k l = m.get k l := by
  obtain ⟨g, hi, hj, hm, rfl⟩ := h.exists_grid_of_set ha
  have hget : m.get k l = g.read k l := by
    rw [← get_ofGrid g h.size_lt, ← hm]
  rw [hget, get_ofGrid _ h.size_lt, Grid.read, Grid.read]
  by_cases hkl : k < m.rows ∧ l < m.cols
  · have hother : ¬ (k = i ∧ l = j) := by simpa using hne
    simp [hkl, hother, Grid.set_apply, Fin.ext_iff]
  · rw [dif_neg hkl, dif_neg hkl]

end Access

/-- A matrix as a store of entries by row and column. Inside the shape every position is read and
written, at a place of its own in the buffer; outside it the bounds refuse the access. -/
structure StoresEntries (m : DenseMatrix α) : Prop where
  get_iff : ∀ i j, (∃ x, m.get i j = .ok x) ↔ m.Contains i j
  set_iff : ∀ i j x, (∃ a, m.set i j x = .ok a) ↔ m.Contains i j
  get_set_self : ∀ i j x a, m.set i j x = .ok a → a.get i j = .ok x
  get_set_of_ne : ∀ i j x a, m.set i j x = .ok a →
    ∀ k l, (k, l) ≠ (i, j) → a.get k l = m.get k l
  shape_set : ∀ i j x a, m.set i j x = .ok a → a.shape = m.shape
  get_outside : ∀ i j, ¬ m.Contains i j → m.get i j = abort (.indexOutOfBounds i j m.rows m.cols)
  set_outside : ∀ i j x, ¬ m.Contains i j →
    m.set i j x = abort (.indexOutOfBounds i j m.rows m.cols)
  address_eq : ∀ i j, m.Contains i j → m.address i j = .ok (i * m.cols + j)
  address_bijOn : Set.BijOn (fun p : ℕ × ℕ ↦ m.address p.1 p.2) {p | m.Contains p.1 p.2}
    (Except.ok '' Set.Iio (m.rows * m.cols))

theorem WellFormed.storesEntries (h : m.WellFormed) : m.StoresEntries where
  get_iff _ _ := ⟨fun ⟨_, hx⟩ ↦ contains_of_get hx, h.exists_get⟩
  set_iff _ _ x := ⟨fun ⟨_, ha⟩ ↦ contains_of_set ha, fun hij ↦ h.exists_set hij x⟩
  get_set_self _ _ _ _ ha := h.get_set_self ha
  get_set_of_ne _ _ _ _ ha _ _ hne := h.get_set_of_ne ha hne
  shape_set _ _ _ _ ha := h.shape_set ha
  get_outside _ _ hij := DenseMatrix.get_outside hij
  set_outside _ _ x hij := DenseMatrix.set_outside hij x
  address_eq _ _ hij := h.address_eq hij
  address_bijOn := h.address_bijOn

end DenseMatrix

namespace Session

variable {s : Session} {name : String} {m a : DenseMatrix Float} {i j : ℕ} {x : Float}

theorem step_set_of_ok (hm : s.matrix name = .ok m) (ha : m.set i j x = .ok a) :
    s.step (.set name i j x) =
      (s.put name (.matrix a), .ofOutcome (.ok (.value (.matrix a)))) := by
  simp [step, hm, ha, lift, Except.mapError, bind, Except.bind]

theorem step_set_of_fault {f : Fault} (hm : s.matrix name = .ok m) (ha : m.set i j x = abort f) :
    s.step (.set name i j x) = (s, .ofOutcome (.error (.failure (.fault f)))) := by
  simp [step, hm, ha, lift, abort, Except.mapError, bind, Except.bind]

theorem step_get {r : Outcome Float Float} (hm : s.matrix name = .ok m) (hr : m.get i j = r) :
    s.step (.ask (.get name i j)) = (s, .ofOutcome ((lift r).map .number)) := by
  subst hr
  simp [step, ask, hm, bind, Except.bind, pure, Except.pure, Except.map]

end Session

/-- A matrix keeps its entries apart, and so does the register that holds it: a write inside the
shape replaces the matrix by the one that is written to, and an access outside it leaves all
registers as they are. -/
theorem entries_stored {m : DenseMatrix Float} (h : m.WellFormed) :
    m.StoresEntries ∧ ∀ (s : Session) (name : String), s.matrix name = .ok m →
      (∀ i j x, m.Contains i j → ∃ a, m.set i j x = .ok a ∧
        s.step (.set name i j x) = (s.put name (.matrix a), .ofOutcome (.ok (.value (.matrix a))))) ∧
      ∀ i j, ¬ m.Contains i j →
        let refusal : Refusal := .failure (.fault (.indexOutOfBounds i j m.rows m.cols))
        s.step (.ask (.get name i j)) = (s, .ofOutcome (.error refusal)) ∧
          ∀ x, s.step (.set name i j x) = (s, .ofOutcome (.error refusal)) := by
  have hstores := h.storesEntries
  refine ⟨hstores, fun s name hm ↦ ⟨?_, ?_⟩⟩
  · intro i j x hij
    obtain ⟨a, ha⟩ := (hstores.set_iff i j x).2 hij
    exact ⟨a, ha, Session.step_set_of_ok hm ha⟩
  · intro i j hij
    constructor
    · exact Session.step_get hm (hstores.get_outside i j hij)
    · intro x
      exact Session.step_set_of_fault hm (hstores.set_outside i j x hij)

/-- Column `5` of row `0` has an address inside the buffer, but no column of three. -/
theorem entries_stored_two :
    let m : DenseMatrix Float := ⟨2, 3, #[0, 1, 2, 3, 4, 5]⟩
    let s := Session.empty.put "m" (.matrix m)
    let outside : Fault := .indexOutOfBounds 1 18446744073709551615 2 3
    m.WellFormed ∧ s.matrix "m" = .ok m ∧
      m.address 0 5 = .ok 5 ∧ m.get 0 5 = abort (.indexOutOfBounds 0 5 2 3) ∧
      s.step (.set "m" 1 18446744073709551615 7) =
        (s, .ofOutcome (.error (.failure (.fault outside)))) ∧
      outside.message = "index (1, 18446744073709551615) out of bounds for 2x3 matrix" ∧
      ∃ a, m.set 1 2 7 = .ok a ∧ a.get 1 2 = .ok 7 ∧ a.get 0 2 = m.get 0 2 := by
  intro m s outside
  have hm : m.WellFormed := ⟨by decide, by decide, by decide, by decide⟩
  have hs : s.matrix "m" = .ok m := rfl
  obtain ⟨hstores, hsession⟩ := entries_stored hm
  obtain ⟨hwrites, hrefuses⟩ := hsession s "m" hs
  obtain ⟨a, ha, -⟩ := hwrites 1 2 7 ⟨by decide, by decide⟩
  refine ⟨hm, hs, rfl, ?_, ?_, by decide +kernel, a, ha, ?_, ?_⟩
  · exact hstores.get_outside 0 5 (by decide)
  · exact (hrefuses 1 18446744073709551615 (by decide)).2 7
  · exact hstores.get_set_self 1 2 7 a ha
  · exact hstores.get_set_of_ne 1 2 7 a ha 0 2 (by decide)

end DenseDecomp
