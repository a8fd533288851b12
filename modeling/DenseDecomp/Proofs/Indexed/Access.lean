import Mathlib.Data.List.FinRange
import DenseDecomp.Grid
import DenseDecomp.Proofs.Loop
import DenseDecomp.Proofs.MatrixStorage
import DenseDecomp.Scalar

namespace DenseDecomp

open Scalar

variable {α β γ σ τ : Type} {m n : ℕ}

@[simp] theorem Outcome.ok_bind (b : β) (f : β → Outcome α γ) : (Except.ok b >>= f) = f b := rfl

@[simp] theorem Outcome.pure_eq (b : β) : (pure b : Outcome α β) = .ok b := rfl

section Access

def Size.sub (a b : ℕ) : Outcome α ℕ := if b ≤ a then .ok (a - b) else abort .subtractOverflow

@[simp] theorem Size.sub_of_le {a b : ℕ} (h : b ≤ a) : (sub a b : Outcome α ℕ) = .ok (a - b) :=
  if_pos h

theorem Size.sub_one_succ (c : Fin n) : (sub c.succ 1 : Outcome α ℕ) = .ok c.castSucc :=
  sub_of_le (Nat.le_add_left 1 c.val)

theorem Size.sub_one_length (n : ℕ) : (sub (n + 1) 1 : Outcome α ℕ) = .ok (Fin.last n) :=
  sub_of_le (Nat.le_add_left 1 n)

@[simp] theorem Size.add_of_lt {a b : ℕ} (h : a + b < Size.wordBound) :
    (add a b : Outcome α ℕ) = .ok (a + b) := if_pos h

def Tuple.read (x : Tuple α n) (i : ℕ) : Outcome α α :=
  if h : i < n then .ok (x ⟨i, h⟩) else abort (.offsetOutOfBounds i n)

def Tuple.write (x : Tuple α n) (i : ℕ) (a : α) : Outcome α (Tuple α n) :=
  if h : i < n then .ok (x.set ⟨i, h⟩ a) else abort (.offsetOutOfBounds i n)

def Tuple.checkSlice (_ : Tuple α n) (lo hi : ℕ) : Outcome α Unit :=
  if lo ≤ hi ∧ hi ≤ n then .ok () else abort (.offsetOutOfBounds (max lo hi) n)

def Grid.read (g : Grid α m n) (i j : ℕ) : Outcome α α :=
  if h : i < m ∧ j < n then .ok (g ⟨i, h.1⟩ ⟨j, h.2⟩) else abort (.indexOutOfBounds i j m n)

def Grid.write (g : Grid α m n) (i j : ℕ) (x : α) : Outcome α (Grid α m n) :=
  if h : i < m ∧ j < n then .ok (g.set ⟨i, h.1⟩ ⟨j, h.2⟩ x) else abort (.indexOutOfBounds i j m n)

@[simp] theorem Tuple.read_of_lt (x : Tuple α n) {i : ℕ} (h : i < n) : x.read i = .ok (x ⟨i, h⟩) :=
  dif_pos h

@[simp] theorem Tuple.write_of_lt (x : Tuple α n) {i : ℕ} (h : i < n) (a : α) :
    x.write i a = .ok (x.set ⟨i, h⟩ a) := dif_pos h

@[simp] theorem Tuple.checkSlice_of_le (x : Tuple α n) {lo hi : ℕ} (h : lo ≤ hi) (hn : hi ≤ n) :
    x.checkSlice lo hi = .ok () := if_pos ⟨h, hn⟩

@[simp] theorem Grid.read_of_lt (g : Grid α m n) {i j : ℕ} (hi : i < m) (hj : j < n) :
    g.read i j = .ok (g ⟨i, hi⟩ ⟨j, hj⟩) := dif_pos ⟨hi, hj⟩

@[simp] theorem Grid.write_of_lt (g : Grid α m n) {i j : ℕ} (hi : i < m) (hj : j < n) (x : α) :
    g.write i j x = .ok (g.set ⟨i, hi⟩ ⟨j, hj⟩ x) := dif_pos ⟨hi, hj⟩

@[simp] theorem Tuple.read_fin (x : Tuple α n) (i : Fin n) : x.read i = .ok (x i) :=
  x.read_of_lt i.isLt

@[simp] theorem Tuple.write_fin (x : Tuple α n) (i : Fin n) (a : α) :
    x.write i a = .ok (x.set i a) := x.write_of_lt i.isLt a

@[simp] theorem Grid.read_fin (g : Grid α m n) (i : Fin m) (j : Fin n) :
    g.read i j = .ok (g i j) := g.read_of_lt i.isLt j.isLt

@[simp] theorem Grid.write_fin (g : Grid α m n) (i : Fin m) (j : Fin n) (x : α) :
    g.write i j x = .ok (g.set i j x) := g.write_of_lt i.isLt j.isLt x

theorem DenseMatrix.address_ofGrid (g : Grid α m n) (hfits : m * n < Size.wordBound) {i j : ℕ}
    (hi : i < m) (hj : j < n) : (ofGrid g).address i j = .ok (i * n + j) := by
  have hlt := (mul_add_lt hi hj).trans hfits
  have hmul : (Size.mul i (ofGrid g).cols : Outcome α ℕ) = .ok (i * n) :=
    if_pos ((Nat.le_add_right _ _).trans_lt hlt)
  rw [address, hmul]
  exact if_pos hlt

theorem DenseMatrix.get_ofGrid (g : Grid α m n) (hfits : m * n < Size.wordBound) (i j : ℕ) :
    (ofGrid g).get i j = g.read i j := by
  by_cases h : i < m ∧ j < n
  · have hsize := lt_size_ofGrid g h.1 h.2
    have hshape : i < (ofGrid g).rows ∧ j < (ofGrid g).cols := h
    rw [Grid.read_of_lt g h.1 h.2, get, if_pos hshape, address_ofGrid g hfits h.1 h.2,
      Outcome.ok_bind, Array.getElem?_eq_getElem hsize, getElem_ofGrid g ⟨i, h.1⟩ ⟨j, h.2⟩ hsize]
  · rw [Grid.read, dif_neg h, get]
    exact if_neg h

theorem DenseMatrix.set_ofGrid (g : Grid α m n) (hfits : m * n < Size.wordBound) (i j : ℕ) (x : α) :
    (ofGrid g).set i j x = (g.write i j x).map ofGrid := by
  by_cases h : i < m ∧ j < n
  · have hsize := lt_size_ofGrid g h.1 h.2
    have hshape : i < (ofGrid g).rows ∧ j < (ofGrid g).cols := h
    rw [Grid.write_of_lt g h.1 h.2, set, if_pos hshape, address_ofGrid g hfits h.1 h.2,
      Outcome.ok_bind, dif_pos hsize]
    refine congrArg (fun data ↦ Except.ok (DenseMatrix.mk m n data)) (Array.ext ?_ fun k _ _ ↦ ?_)
    · rw [Array.size_set, size_ofGrid, Array.size_ofFn]
    · have hpos : i * n + j = k ↔ k / n = i ∧ k % n = j := by
        constructor
        · rintro rfl
          exact ⟨mul_add_div h.2, mul_add_mod h.2⟩
        · rintro ⟨rfl, rfl⟩
          rw [Nat.mul_comm, Nat.div_add_mod]
      simp only [Array.getElem_set, ofGrid, Array.getElem_ofFn, Grid.set_apply, Fin.mk.injEq, hpos]
  · rw [Grid.write, dif_neg h, set]
    exact if_neg h

/-- The matrix is read and written as the grid is, with the same checks. -/
structure DenseMatrix.Stores (a : DenseMatrix α) (g : Grid α m n) : Prop where
  get_eq : ∀ i j, a.get i j = g.read i j
  set_eq : ∀ i j x, a.set i j x = (g.write i j x).map ofGrid

theorem DenseMatrix.stores_ofGrid (g : Grid α m n) (hfits : m * n < Size.wordBound) :
    (ofGrid g).Stores g := ⟨get_ofGrid g hfits, set_ofGrid g hfits⟩

end Access

section Loop

def ascending (lo hi : ℕ) (body : σ → ℕ → Outcome α σ) (s : σ) : Outcome α σ :=
  (List.range' lo (hi - lo)).foldlM body s

def descending (lo hi : ℕ) (body : σ → ℕ → Outcome α σ) (s : σ) : Outcome α σ :=
  (List.range' lo (hi - lo)).reverse.foldlM body s

variable {lo hi : ℕ} {body : σ → ℕ → Outcome α σ} {s : σ}

theorem ascending_of_le (h : hi ≤ lo) (body : σ → ℕ → Outcome α σ) (s : σ) :
    ascending lo hi body s = .ok s := by
  rw [ascending, Nat.sub_eq_zero_of_le h]
  rfl

theorem ascending_self (body : σ → ℕ → Outcome α σ) (s : σ) : ascending lo lo body s = .ok s :=
  ascending_of_le le_rfl body s

theorem ascending_succ (h : lo ≤ hi) (body : σ → ℕ → Outcome α σ) (s : σ) :
    ascending lo (hi + 1) body s = ascending lo hi body s >>= fun s ↦ body s hi := by
  have hlength : hi + 1 - lo = (hi - lo) + 1 := by omega
  have hlast : lo + (hi - lo) = hi := by omega
  rw [ascending, ascending, hlength, List.range'_concat, List.foldlM_append, Nat.one_mul, hlast]
  simp only [List.foldlM_cons, List.foldlM_nil, bind_pure]

theorem descending_of_le (h : hi ≤ lo) (body : σ → ℕ → Outcome α σ) (s : σ) :
    descending lo hi body s = .ok s := by
  rw [descending, Nat.sub_eq_zero_of_le h]
  rfl

theorem descending_self (body : σ → ℕ → Outcome α σ) (s : σ) : descending lo lo body s = .ok s :=
  descending_of_le le_rfl body s

theorem descending_cons (h : lo < hi) (body : σ → ℕ → Outcome α σ) (s : σ) :
    descending lo hi body s = descending (lo + 1) hi body s >>= fun s ↦ body s lo := by
  have hlength : hi - lo = (hi - (lo + 1)) + 1 := by omega
  rw [descending, descending, hlength, List.range'_succ, List.reverse_cons, List.foldlM_append]
  simp only [List.foldlM_cons, List.foldlM_nil, bind_pure]

theorem descending_succ (h : lo ≤ hi) (body : σ → ℕ → Outcome α σ) (s : σ) :
    descending lo (hi + 1) body s = body s hi >>= descending lo hi body := by
  have hlength : hi + 1 - lo = (hi - lo) + 1 := by omega
  have hlast : lo + (hi - lo) = hi := by omega
  rw [descending, hlength, List.range'_concat, List.reverse_append, Nat.one_mul, hlast]
  rfl

/-- A loop whose rounds lead from `S i` to `S (i + 1)`. -/
theorem ascending_eq (S : ℕ → σ) (h : lo ≤ hi) (h₀ : S lo = s)
    (hs : ∀ i, lo ≤ i → i < hi → body (S i) i = .ok (S (i + 1))) :
    ascending lo hi body s = .ok (S hi) := by
  induction hi, h using Nat.le_induction with
  | base => rw [ascending_self, h₀]
  | succ hi h ih =>
    rw [ascending_succ h, ih fun i hlo hhi ↦ hs i hlo (by omega)]
    exact hs hi h (Nat.lt_succ_self _)

theorem descending_eq (S : ℕ → σ) (h : lo ≤ hi) (h₀ : S hi = s)
    (hs : ∀ i, lo ≤ i → i < hi → body (S (i + 1)) i = .ok (S i)) :
    descending lo hi body s = .ok (S lo) := by
  induction hi, h using Nat.le_induction generalizing s with
  | base => rw [descending_self, h₀]
  | succ hi h ih =>
    rw [descending_succ h, ← h₀, hs hi h (Nat.lt_succ_self _)]
    exact ih rfl fun i hlo hhi ↦ hs i hlo (by omega)

theorem ascending_invariant (P : ℕ → σ → Prop) (h : lo ≤ hi) (h₀ : P lo s)
    (hs : ∀ i s, lo ≤ i → i < hi → P i s → ∃ t, body s i = .ok t ∧ P (i + 1) t) :
    ∃ t, ascending lo hi body s = .ok t ∧ P hi t := by
  induction hi, h using Nat.le_induction with
  | base => exact ⟨s, ascending_self body s, h₀⟩
  | succ hi h ih =>
    obtain ⟨t, ht, hP⟩ := ih fun i s hlo hhi ↦ hs i s hlo (by omega)
    rw [ascending_succ h, ht]
    exact hs hi t h (Nat.lt_succ_self _) hP

variable {p : Fin n → Prop} [DecidablePred p]

/-- A loop over the indices `k + o` with `p k`. -/
theorem ascending_eq_foldl (o : ℕ) {step : σ → Fin n → σ} (hlo : o ≤ lo) (hhi : hi ≤ n + o)
    (hp : ∀ k, p k ↔ lo ≤ k.val + o ∧ k.val + o < hi)
    (hs : ∀ k s, p k → body s (k.val + o) = .ok (step s k)) (s : σ) :
    ascending lo hi body s = .ok (Fin.foldl n (fun s k ↦ if p k then step s k else s) s) := by
  obtain hle | hempty := le_or_gt lo hi
  case inr =>
    rw [ascending_of_le hempty.le]
    refine congrArg _ (Eq.symm ?_)
    refine foldl_invariant (fun _ t ↦ t = s) rfl fun k t ht ↦ ?_
    rw [if_neg (by rw [hp]; omega), ht]
  -- The indices before `t + o` have been run through, as far as they belong to the loop.
  have h := foldl_invariant
    (fun t s' ↦ ascending lo (max lo (min hi (t + o))) body s = .ok s')
    (f := fun s k ↦ if p k then step s k else s) (b := s)
    (by rw [show max lo (min hi (0 + o)) = lo by omega, ascending_self])
    (fun k s' hk ↦ by
      split
      case isTrue hpk =>
        have hbounds := (hp k).1 hpk
        rw [show max lo (min hi (k.val + o)) = k.val + o by omega] at hk
        rw [show max lo (min hi (k.val + 1 + o)) = k.val + o + 1 by omega,
          ascending_succ hbounds.1, hk, Outcome.ok_bind, hs k s' hpk]
      case isFalse hpk =>
        rw [hp k] at hpk
        rwa [show max lo (min hi (k.val + 1 + o)) = max lo (min hi (k.val + o)) by omega])
  rwa [show max lo (min hi (n + o)) = hi by omega] at h

/-- The same from the last index down, where the loop keeps `g s` in place of `s`. -/
theorem descending_eq_map_foldr (g : τ → σ) (o : ℕ) {step : Fin n → τ → τ} (hlo : o ≤ lo)
    (hhi : hi ≤ n + o) (hp : ∀ k, p k ↔ lo ≤ k.val + o ∧ k.val + o < hi)
    (hs : ∀ k t, p k → body (g t) (k.val + o) = .ok (g (step k t))) (t : τ) :
    descending lo hi body (g t) =
      .ok (g (Fin.foldr n (fun k t ↦ if p k then step k t else t) t)) := by
  obtain hle | hempty := le_or_gt lo hi
  case inr =>
    rw [descending_of_le hempty.le]
    refine congrArg (fun t ↦ Except.ok (g t)) (Eq.symm ?_)
    refine foldr_invariant (fun _ u ↦ u = t) rfl fun k u hu ↦ ?_
    rw [if_neg (by rw [hp]; omega), hu]
  have h := foldr_invariant
    (fun i u ↦ descending (max lo (min hi (i + o))) hi body (g t) = .ok (g u))
    (f := fun k t ↦ if p k then step k t else t) (b := t)
    (by rw [show max lo (min hi (n + o)) = hi by omega, descending_self])
    (fun k u hk ↦ by
      split
      case isTrue hpk =>
        have hbounds := (hp k).1 hpk
        rw [show max lo (min hi (k.val + 1 + o)) = k.val + o + 1 by omega] at hk
        rw [show max lo (min hi (k.val + o)) = k.val + o by omega,
          descending_cons hbounds.2, hk, Outcome.ok_bind, hs k u hpk]
      case isFalse hpk =>
        rw [hp k] at hpk
        rwa [show max lo (min hi (k.val + o)) = max lo (min hi (k.val + 1 + o)) by omega])
  rwa [show max lo (min hi (0 + o)) = lo by omega] at h

theorem descending_eq_foldr (o : ℕ) {step : Fin n → σ → σ} (hlo : o ≤ lo) (hhi : hi ≤ n + o)
    (hp : ∀ k, p k ↔ lo ≤ k.val + o ∧ k.val + o < hi)
    (hs : ∀ k s, p k → body s (k.val + o) = .ok (step k s)) (s : σ) :
    descending lo hi body s = .ok (Fin.foldr n (fun k s ↦ if p k then step k s else s) s) :=
  descending_eq_map_foldr id o hlo hhi hp hs s

theorem ascending_all {step : σ → Fin n → σ} (hs : ∀ (k : Fin n) s, body s k = .ok (step s k))
    (s : σ) : ascending 0 n body s = .ok (Fin.foldl n step s) := by
  have h := ascending_eq_foldl (p := fun _ : Fin n ↦ True) 0 le_rfl le_rfl
    (fun k ↦ ⟨fun _ ↦ ⟨Nat.zero_le _, k.isLt⟩, fun _ ↦ trivial⟩) (fun k s _ ↦ hs k s) s
  simpa only [if_true, Nat.add_zero] using h

theorem descending_all {step : Fin n → σ → σ} (hs : ∀ (k : Fin n) s, body s k = .ok (step k s))
    (s : σ) : descending 0 n body s = .ok (Fin.foldr n step s) := by
  have h := descending_eq_foldr (p := fun _ : Fin n ↦ True) 0 le_rfl le_rfl
    (fun k ↦ ⟨fun _ ↦ ⟨Nat.zero_le _, k.isLt⟩, fun _ ↦ trivial⟩) (fun k s _ ↦ hs k s) s
  simpa only [if_true, Nat.add_zero] using h

theorem foldl_lt_zero (step : σ → Fin n → σ) (s : σ) :
    Fin.foldl n (fun s i ↦ if i.val < 0 then step s i else s) s = s :=
  foldl_invariant (fun _ t ↦ t = s) rfl fun i t h ↦ by rw [if_neg (Nat.not_lt_zero _), h]

theorem foldl_lt_succ (step : σ → Fin n → σ) (k : Fin n) (s : σ) :
    Fin.foldl n (fun s i ↦ if i.val < k.val + 1 then step s i else s) s =
      step (Fin.foldl n (fun s i ↦ if i.val < k.val then step s i else s) s) k := by
  have hloop : ∀ t ≤ n, ascending 0 t (fun s i ↦ if h : i < n then .ok (step s ⟨i, h⟩)
      else (abort (.offsetOutOfBounds i n) : Outcome Unit σ)) s =
        .ok (Fin.foldl n (fun s i ↦ if i.val < t then step s i else s) s) := fun t ht ↦
    ascending_eq_foldl 0 le_rfl ht (fun i ↦ by omega)
      (fun i s _ ↦ dif_pos i.isLt) s
  have hsucc := hloop (k.val + 1) k.isLt
  rw [ascending_succ (Nat.zero_le _), hloop k.val k.isLt.le, Outcome.ok_bind,
    dif_pos k.isLt] at hsucc
  exact (Except.ok.inj hsucc).symm

theorem foldr_ge_length (step : Fin n → σ → σ) (s : σ) :
    Fin.foldr n (fun i s ↦ if n ≤ i.val then step i s else s) s = s :=
  foldr_invariant (fun _ t ↦ t = s) rfl fun i t h ↦ by rw [if_neg (Nat.not_le_of_lt i.isLt), h]

theorem foldr_ge (step : Fin n → σ → σ) (k : Fin n) (s : σ) :
    Fin.foldr n (fun i s ↦ if k.val ≤ i.val then step i s else s) s =
      step k (Fin.foldr n (fun i s ↦ if k.val + 1 ≤ i.val then step i s else s) s) := by
  have hloop : ∀ t ≤ n, descending t n (fun s i ↦ if h : i < n then .ok (step ⟨i, h⟩ s)
      else (abort (.offsetOutOfBounds i n) : Outcome Unit σ)) s =
        .ok (Fin.foldr n (fun i s ↦ if t ≤ i.val then step i s else s) s) := fun t ht ↦
    descending_eq_foldr 0 (Nat.zero_le _) le_rfl
      (fun i ↦ ⟨fun h ↦ ⟨h, i.isLt⟩, fun h ↦ h.1⟩) (fun i s _ ↦ dif_pos i.isLt) s
  have hcons := hloop k.val k.isLt.le
  rw [descending_cons k.isLt, hloop (k.val + 1) k.isLt, Outcome.ok_bind, dif_pos k.isLt] at hcons
  exact (Except.ok.inj hcons).symm

theorem ascending_entries {F : Fin n → α → α} (hle : lo ≤ hi) (hhi : hi ≤ n)
    {body : Tuple α n → ℕ → Outcome α (Tuple α n)}
    (hs : ∀ (i : Fin n) x, lo ≤ i.val → i.val < hi → body x i = .ok (x.set i (F i (x i))))
    (x : Tuple α n) : ascending lo hi body x =
      .ok (Tuple.ofFn fun i ↦ if lo ≤ i.val ∧ i.val < hi then F i (x i) else x i) := by
  refine ascending_eq (fun t ↦ Tuple.ofFn fun i ↦ if lo ≤ i.val ∧ i.val < t then F i (x i) else x i)
    hle ?_ fun i hlo hi ↦ ?_
  · ext i
    rw [Tuple.ofFn_apply, if_neg (by omega)]
  · refine (hs ⟨i, by omega⟩ _ hlo hi).trans (congrArg _ (Tuple.ext fun k ↦ ?_))
    simp only [Tuple.set_apply, Tuple.ofFn_apply, Fin.ext_iff]
    by_cases hk : k.val = i
    · subst hk
      rw [if_pos rfl, if_neg (by omega), if_pos (by omega)]
    · rw [if_neg hk]
      exact if_congr (by omega) rfl rfl

theorem ascending_rows {F : Fin m → (Fin n → α) → Fin n → α} (hle : lo ≤ hi) (hhi : hi ≤ m)
    {body : Grid α m n → ℕ → Outcome α (Grid α m n)}
    (hs : ∀ (i : Fin m) g, lo ≤ i.val → i.val < hi →
      body g i = .ok (Grid.ofFn fun r l ↦ if r = i then F r (g r) l else g r l))
    (g : Grid α m n) : ascending lo hi body g =
      .ok (Grid.ofFn fun r l ↦ if lo ≤ r.val ∧ r.val < hi then F r (g r) l else g r l) := by
  refine ascending_eq
    (fun t ↦ Grid.ofFn fun r l ↦ if lo ≤ r.val ∧ r.val < t then F r (g r) l else g r l)
    hle ?_ fun i hlo hi ↦ ?_
  · ext r l
    rw [Grid.ofFn_apply, if_neg (by omega)]
  · refine (hs ⟨i, by omega⟩ _ hlo hi).trans (congrArg _ (Grid.ext fun r l ↦ ?_))
    simp only [Grid.ofFn_apply, Fin.ext_iff]
    by_cases hr : r.val = i
    · have hrow : (Grid.ofFn fun r l ↦ if lo ≤ r.val ∧ r.val < i then F r (g r) l else g r l) r =
          g r := by
        funext l
        rw [Grid.ofFn_apply, if_neg (by omega)]
      rw [if_pos hr, hrow, if_pos (by omega)]
    · rw [if_neg hr]
      exact if_congr (by omega) rfl rfl

theorem ascending_columns {F : Fin n → (Fin m → α) → Fin m → α} (hle : lo ≤ hi) (hhi : hi ≤ n)
    {body : Grid α m n → ℕ → Outcome α (Grid α m n)}
    (hs : ∀ (j : Fin n) g, lo ≤ j.val → j.val < hi →
      body g j = .ok (Grid.ofFn fun r l ↦ if l = j then F l (fun r ↦ g r l) r else g r l))
    (g : Grid α m n) : ascending lo hi body g = .ok (Grid.ofFn fun r l ↦
      if lo ≤ l.val ∧ l.val < hi then F l (fun r ↦ g r l) r else g r l) := by
  refine ascending_eq
    (fun t ↦ Grid.ofFn fun r l ↦ if lo ≤ l.val ∧ l.val < t then F l (fun r ↦ g r l) r else g r l)
    hle ?_ fun j hlo hj ↦ ?_
  · ext r l
    rw [Grid.ofFn_apply, if_neg (by omega)]
  · refine (hs ⟨j, by omega⟩ _ hlo hj).trans (congrArg _ (Grid.ext fun r l ↦ ?_))
    simp only [Grid.ofFn_apply, Fin.ext_iff]
    by_cases hl : l.val = j
    · simp only [hl, if_true, Nat.lt_irrefl, and_false, if_false, hlo, Nat.lt_succ_self, and_self]
    · rw [if_neg hl]
      exact if_congr (by omega) rfl rfl

theorem ascending_row_entries (p : Fin m → Fin n) {F : Fin m → (Fin n → α) → α} (hle : lo ≤ hi)
    (hhi : hi ≤ m) {body : Grid α m n → ℕ → Outcome α (Grid α m n)}
    (hs : ∀ (i : Fin m) g, lo ≤ i.val → i.val < hi → body g i = .ok (g.set i (p i) (F i (g i))))
    (g : Grid α m n) : ascending lo hi body g = .ok (Grid.ofFn fun r l ↦
      if l = p r ∧ lo ≤ r.val ∧ r.val < hi then F r (g r) else g r l) := by
  refine (ascending_rows (F := fun i row l ↦ if l = p i then F i row else row l) hle hhi
    (fun i g hlo hi ↦ ?_) g).trans (congrArg _ (Grid.ext fun r l ↦ ?_))
  · rw [hs i g hlo hi]
    refine congrArg _ (Grid.ext fun r l ↦ ?_)
    rw [Grid.set_apply, Grid.ofFn_apply]
    grind
  · rw [Grid.ofFn_apply, Grid.ofFn_apply]
    grind

theorem ascending_column_entries (p : Fin n → Fin m) {F : Fin n → (Fin m → α) → α} (hle : lo ≤ hi)
    (hhi : hi ≤ n) {body : Grid α m n → ℕ → Outcome α (Grid α m n)}
    (hs : ∀ (j : Fin n) g, lo ≤ j.val → j.val < hi →
      body g j = .ok (g.set (p j) j (F j fun r ↦ g r j)))
    (g : Grid α m n) : ascending lo hi body g = .ok (Grid.ofFn fun r l ↦
      if r = p l ∧ lo ≤ l.val ∧ l.val < hi then F l (fun r ↦ g r l) else g r l) := by
  refine (ascending_columns (F := fun j column r ↦ if r = p j then F j column else column r) hle hhi
    (fun j g hlo hj ↦ ?_) g).trans (congrArg _ (Grid.ext fun r l ↦ ?_))
  · rw [hs j g hlo hj]
    refine congrArg _ (Grid.ext fun r l ↦ ?_)
    rw [Grid.set_apply, Grid.ofFn_apply]
    grind
  · rw [Grid.ofFn_apply, Grid.ofFn_apply]
    grind

variable [Scalar α] {f : Fin n → α}

theorem ascending_sum (hhi : hi ≤ n) (hp : ∀ k, p k ↔ lo ≤ k.val ∧ k.val < hi)
    {body : α → ℕ → Outcome α α} (hs : ∀ (k : Fin n) acc, p k → body acc k = .ok (acc + f k)) :
    ascending lo hi body 0 = .ok (sumWhere p f) :=
  ascending_eq_foldl 0 (Nat.zero_le _) hhi hp (fun k acc hk ↦ hs k acc hk) 0

theorem sumWhere_succ (f : Fin n → α) (k : Fin n) :
    sumWhere (fun i ↦ i.val < k.val + 1) f = sumWhere (· < k) f + f k :=
  foldl_lt_succ (fun acc i ↦ acc + f i) k 0

theorem descending_sum (hhi : hi ≤ n) (hp : ∀ k, p k ↔ lo ≤ k.val ∧ k.val < hi)
    {body : α → ℕ → Outcome α α} (hs : ∀ (k : Fin n) acc, p k → body acc k = .ok (acc + f k)) :
    descending lo hi body 0 = .ok (sumWhereDown p f) :=
  descending_eq_foldr 0 (Nat.zero_le _) hhi hp (fun k acc hk ↦ hs k acc hk) 0

theorem ascending_entries_sum {F W : Fin n → α → α} (hhi : hi ≤ n)
    {body : Tuple α n × α → ℕ → Outcome α (Tuple α n × α)}
    (hs : ∀ (i : Fin n) x acc, i.val < hi →
      body (x, acc) i = .ok (x.set i (F i (x i)), acc + W i (x i))) (x : Tuple α n) :
    ascending 0 hi body (x, 0) =
      .ok (Tuple.ofFn fun i ↦ if i.val < hi then F i (x i) else x i,
        sumWhere (fun i ↦ i.val < hi) fun i ↦ W i (x i)) := by
  refine ascending_eq (fun t ↦ (Tuple.ofFn fun i ↦ if i.val < t then F i (x i) else x i,
    sumWhere (fun i ↦ i.val < t) fun i ↦ W i (x i))) (Nat.zero_le _) ?_ fun t _ ht ↦ ?_
  · have hsum : sumWhere (fun i ↦ i.val < 0) (fun i ↦ W i (x i)) = 0 :=
      foldl_lt_zero (fun acc i ↦ acc + W i (x i)) 0
    refine Prod.ext (Tuple.ext fun i ↦ ?_) hsum
    rw [Tuple.ofFn_apply, if_neg (Nat.not_lt_zero _)]
  · obtain ⟨k, rfl⟩ : ∃ k : Fin n, k.val = t := ⟨⟨t, by omega⟩, rfl⟩
    rw [hs k _ _ ht, Tuple.ofFn_apply, if_neg (Nat.lt_irrefl _), sumWhere_succ]
    refine congrArg _ (Prod.ext (Tuple.ext fun i ↦ ?_) rfl)
    simp only [Tuple.set_apply, Tuple.ofFn_apply]
    by_cases hi : i = k
    · rw [if_pos hi, hi, if_pos (Nat.lt_succ_self _)]
    · have := Fin.val_ne_of_ne hi
      rw [if_neg hi]
      exact if_congr (by omega) rfl rfl

theorem descending_entries_sum {u w : Fin n → α} (hlo : lo ≤ n)
    {body : Tuple α n × α → ℕ → Outcome α (Tuple α n × α)}
    (hs : ∀ (i : Fin n) x acc, lo ≤ i.val → body (x, acc) i = .ok (x.set i (u i), acc + w i))
    (x : Tuple α n) : descending lo n body (x, 0) =
      .ok (Tuple.ofFn fun i ↦ if lo ≤ i.val then u i else x i,
        sumWhereDown (fun i ↦ lo ≤ i.val) w) := by
  refine descending_eq (fun t ↦ (Tuple.ofFn fun i ↦ if t ≤ i.val then u i else x i,
    sumWhereDown (fun i ↦ t ≤ i.val) w)) hlo ?_ fun t hlo ht ↦ ?_
  · have hsum : sumWhereDown (fun i ↦ n ≤ i.val) w = 0 :=
      foldr_ge_length (fun i acc ↦ acc + w i) 0
    refine Prod.ext (Tuple.ext fun i ↦ ?_) hsum
    rw [Tuple.ofFn_apply, if_neg (Nat.not_le_of_lt i.isLt)]
  · obtain ⟨k, rfl⟩ : ∃ k : Fin n, k.val = t := ⟨⟨t, ht⟩, rfl⟩
    refine (hs k _ _ hlo).trans (congrArg _ (Prod.ext (Tuple.ext fun i ↦ ?_) ?_))
    · simp only [Tuple.set_apply, Tuple.ofFn_apply]
      by_cases hi : i = k
      · rw [if_pos hi, hi, if_pos le_rfl]
      · have := Fin.val_ne_of_ne hi
        rw [if_neg hi]
        exact if_congr (by omega) rfl rfl
    · exact (foldr_ge (fun i acc ↦ acc + w i) k 0).symm

end Loop

end DenseDecomp
