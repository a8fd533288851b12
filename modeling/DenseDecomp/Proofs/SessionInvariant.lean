import DenseDecomp.Proofs.WellFormedValues
import DenseDecomp.Session

namespace DenseDecomp

/-- The parts of a value have the sizes that its shape asks for. -/
def Value.WellFormed : Value → Prop
  | .matrix m => m.WellFormed
  | .cholesky c => c.WellFormed
  | .eigen x => x.WellFormed

def Command.target? : Command → Option String
  | .make target _ => some target
  | .set name .. => some name
  | .ask _ => none

namespace Session

def WellFormed (s : Session) : Prop := ∀ name v, s name = some v → v.WellFormed

variable {s : Session} {name : String} {v : Value} {m : DenseMatrix Float} {c : Cholesky Float}
  {x : EigenDecomposition Float}

theorem wellFormed_empty : empty.WellFormed := by
  intro name v h
  cases h

theorem WellFormed.put (hs : s.WellFormed) (target : String) (hv : v.WellFormed) :
    (s.put target v).WellFormed := by
  intro other w h
  rw [Session.put] at h
  split at h
  · obtain rfl := Option.some.inj h
    exact hv
  · exact hs other w h

section Registers

theorem WellFormed.value (hs : s.WellFormed) (h : s.value name = .ok v) : v.WellFormed := by
  rw [Session.value] at h
  split at h
  case h_1 w hw =>
    obtain rfl := Except.ok.inj h
    exact hs name w hw
  case h_2 => cases h

theorem WellFormed.matrix (hs : s.WellFormed) (h : s.matrix name = .ok m) : m.WellFormed := by
  obtain ⟨v, hv, h⟩ := Except.bind_eq_ok.1 h
  have hwf := hs.value hv
  cases v with
  | matrix a =>
    obtain rfl := Except.ok.inj h
    exact hwf
  | cholesky => cases h
  | eigen => cases h

theorem WellFormed.cholesky (hs : s.WellFormed) (h : s.cholesky name = .ok c) : c.WellFormed := by
  obtain ⟨v, hv, h⟩ := Except.bind_eq_ok.1 h
  have hwf := hs.value hv
  cases v with
  | matrix => cases h
  | cholesky d =>
    obtain rfl := Except.ok.inj h
    exact hwf
  | eigen => cases h

theorem WellFormed.eigen (hs : s.WellFormed) (h : s.eigen name = .ok x) : x.WellFormed := by
  obtain ⟨v, hv, h⟩ := Except.bind_eq_ok.1 h
  have hwf := hs.value hv
  cases v with
  | matrix => cases h
  | cholesky => cases h
  | eigen y =>
    obtain rfl := Except.ok.inj h
    exact hwf

end Registers

section Make

theorem lift_eq_ok {β : Type} {r : Outcome Float β} {b : β} : lift r = .ok b ↔ r = .ok b := by
  cases r with
  | ok b => exact ⟨fun h ↦ congrArg _ (Except.ok.inj h), fun h ↦ congrArg _ (Except.ok.inj h)⟩
  | error e => exact ⟨nofun, nofun⟩

theorem outcome_mapError_eq_ok {ε δ β : Type} {f : ε → δ} {r : Run ε β} {b : β} :
    (r.mapError f).outcome = .ok b ↔ r.outcome = .ok b := by
  obtain ⟨log, r⟩ := r
  cases r with
  | ok b => exact ⟨fun h ↦ congrArg _ (Except.ok.inj h), fun h ↦ congrArg _ (Except.ok.inj h)⟩
  | error e => exact ⟨nofun, nofun⟩

theorem wellFormed_of_lift {r : Outcome Float (DenseMatrix Float)}
    (hr : ∀ m, r = .ok m → m.WellFormed) (h : lift (do return .matrix (← r)) = .ok v) :
    v.WellFormed := by
  obtain ⟨m, hm, hv⟩ := Except.bind_eq_ok.1 (lift_eq_ok.1 h)
  obtain rfl := Except.ok.inj hv
  exact hr m hm

theorem wellFormed_of_register {β : Type} {r : Except Refusal β}
    {f : β → Outcome Float (DenseMatrix Float)} (hf : ∀ b m, r = .ok b → f b = .ok m → m.WellFormed)
    (h : (do return .matrix (← lift (f (← r)))) = Except.ok v) : v.WellFormed := by
  obtain ⟨b, hb, h⟩ := Except.bind_eq_ok.1 h
  obtain ⟨m, hm, hv⟩ := Except.bind_eq_ok.1 h
  obtain rfl := Except.ok.inj hv
  exact hf b m hb (lift_eq_ok.1 hm)

theorem WellFormed.make (hs : s.WellFormed) {source : Source}
    (h : (s.make source).outcome = .ok v) : v.WellFormed := by
  cases source with
  | zeros r c => exact wellFormed_of_lift (fun _ ↦ DenseMatrix.wellFormed_of_zeros) h
  | ofArray r c data => exact wellFormed_of_lift (fun _ ↦ DenseMatrix.wellFormed_of_ofArray) h
  | ofRows rows => exact wellFormed_of_lift (fun _ ↦ DenseMatrix.wellFormed_of_ofRows) h
  | identity n => exact wellFormed_of_lift (fun _ ↦ DenseMatrix.wellFormed_of_allocate) h
  | ofDiagonal xs => exact wellFormed_of_lift (fun _ ↦ DenseMatrix.wellFormed_of_allocate) h
  | ofColumnMajor x => exact wellFormed_of_lift (fun _ ↦ ColumnMajor.wellFormed_of_toDense) h
  | ofStrided x => exact wellFormed_of_lift (fun _ ↦ Strided.wellFormed_of_toDense) h
  | copy name => exact hs.value h
  | transpose name =>
    obtain ⟨m, hm, hv⟩ := Except.bind_eq_ok.1 h
    obtain rfl := Except.ok.inj hv
    exact (hs.matrix hm).transpose
  | scale name factor =>
    obtain ⟨m, hm, hv⟩ := Except.bind_eq_ok.1 h
    obtain rfl := Except.ok.inj hv
    exact (hs.matrix hm).scale factor
  | multiply left right =>
    obtain ⟨a, ha, h⟩ := Except.bind_eq_ok.1 h
    exact wellFormed_of_register (fun b m hb hm ↦ (hs.matrix ha).multiply (hs.matrix hb) hm) h
  | sub left right =>
    obtain ⟨a, ha, h⟩ := Except.bind_eq_ok.1 h
    exact wellFormed_of_register (fun b m hb hm ↦ (hs.matrix ha).sub (hs.matrix hb) hm) h
  | cholesky name =>
    obtain ⟨a, ha, h⟩ := Run.outcome_bind_eq_ok.1 h
    obtain ⟨c, hc, hv⟩ := Run.outcome_bind_pure_eq_ok.1 h
    rw [← hv]
    exact Cholesky.wellFormed_of_decompose (hs.matrix ha) (outcome_mapError_eq_ok.1 hc)
  | eigen name config =>
    obtain ⟨a, ha, h⟩ := Run.outcome_bind_eq_ok.1 h
    obtain ⟨x, hx, hv⟩ := Run.outcome_bind_pure_eq_ok.1 h
    rw [← hv]
    exact EigenDecomposition.wellFormed_of_decompose (hs.matrix ha) (outcome_mapError_eq_ok.1 hx)
  | factor name =>
    obtain ⟨c, hc, hv⟩ := Except.bind_eq_ok.1 h
    obtain rfl := Except.ok.inj hv
    exact (hs.cholesky hc).factor
  | inverse name => exact wellFormed_of_register (fun _ _ _ ↦ Cholesky.wellFormed_of_inverse) h
  | solve name rhs =>
    obtain ⟨c, hc, h⟩ := Except.bind_eq_ok.1 h
    exact wellFormed_of_register (fun b m hb ↦ Cholesky.wellFormed_of_solve (hs.matrix hb)) h
  | vectors name =>
    obtain ⟨x, hx, hv⟩ := Except.bind_eq_ok.1 h
    obtain rfl := Except.ok.inj hv
    exact (hs.eigen hx).vectors
  | blockDiagonal name =>
    exact wellFormed_of_register
      (fun x m hx ↦ EigenDecomposition.wellFormed_of_blockDiagonal (hs.eigen hx)) h

end Make

section Step

theorem WellFormed.step (hs : s.WellFormed) (c : Command) : (s.step c).1.WellFormed := by
  cases c with
  | make target source =>
    rw [Session.step]
    split
    case h_1 v hv => exact hs.put target (hs.make hv)
    case h_2 => exact hs
  | set name i j x =>
    rw [Session.step]
    split
    case h_1 m hm =>
      obtain ⟨a, ha, hm⟩ := Except.bind_eq_ok.1 hm
      exact hs.put name ((hs.matrix ha).set (lift_eq_ok.1 hm))
    case h_2 => exact hs
  | ask query => exact hs

theorem step_of_error {c : Command} {e : Refusal} (h : (s.step c).2.outcome = .error e) :
    (s.step c).1 = s := by
  cases c with
  | make target source =>
    rw [Session.step] at h ⊢
    split at h
    case h_1 => cases h
    case h_2 => rfl
  | set name i j x =>
    rw [Session.step] at h ⊢
    split at h
    case h_1 => cases h
    case h_2 => rfl
  | ask query => rfl

theorem put_of_ne {target : String} (h : name ≠ target) : s.put target v name = s name :=
  if_neg h

theorem step_of_ne {c : Command} (h : c.target? ≠ some name) : (s.step c).1 name = s name := by
  cases c with
  | make target source =>
    have hne : name ≠ target := fun heq ↦ h (congrArg some heq.symm)
    rw [Session.step]
    split
    case h_1 => exact put_of_ne hne
    case h_2 => rfl
  | set target i j x =>
    have hne : name ≠ target := fun heq ↦ h (congrArg some heq.symm)
    rw [Session.step]
    split
    case h_1 => exact put_of_ne hne
    case h_2 => rfl
  | ask query => rfl

end Step

theorem WellFormed.run (hs : s.WellFormed) (cs : List Command) : (s.run cs).1.WellFormed := by
  induction cs generalizing s with
  | nil => exact hs
  | cons c cs ih => exact ih (hs.step c)

/-- Whatever commands have been run: all values are well-formed, and the next command leaves them as
they are but for the register it writes, and that one too if it fails. -/
theorem run_wellFormed (cs : List Command) :
    let s := (empty.run cs).1
    (∀ name v, s name = some v → v.WellFormed) ∧
      ∀ c : Command, (∀ name, c.target? ≠ some name → (s.step c).1 name = s name) ∧
        ∀ e, (s.step c).2.outcome = .error e → (s.step c).1 = s := by
  intro s
  refine ⟨wellFormed_empty.run cs, fun c ↦ ⟨fun name hname ↦ ?_, fun e he ↦ ?_⟩⟩
  · exact step_of_ne hname
  · exact step_of_error he

/-- A product of unsuitable shapes, which would have replaced its own factor. -/
theorem run_wellFormed_one :
    let s := (empty.run [.make "a" (.zeros 2 3)]).1
    (∃ v, s "a" = some v) ∧ (∀ name v, s name = some v → v.WellFormed) ∧
      (s.step (.make "a" (.multiply "a" "a"))).2.outcome =
        .error (.failure (.error (.dimensionMismatch 2 3 2 3))) ∧
      (s.step (.make "a" (.multiply "a" "a"))).1 = s := by
  intro s
  obtain ⟨hvalues, hstep⟩ := run_wellFormed [.make "a" (.zeros 2 3)]
  have hfails : (s.step (.make "a" (.multiply "a" "a"))).2.outcome =
      .error (.failure (.error (.dimensionMismatch 2 3 2 3))) := rfl
  exact ⟨⟨_, rfl⟩, hvalues, hfails, (hstep _).2 _ hfails⟩

end Session

end DenseDecomp
