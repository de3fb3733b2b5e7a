import RefactEngine.RunExecution

/-! # A run and its permit

The counts of a run are the guards that are alive, an operation keeps the permit in the slot, and
one holder at a time has the permit or the ticket. The argument is about what one task contributes
to the counts; the other tasks enter as numbers.
-/
namespace ExecutionSafety

open AdmissionScheduler (AdmissionError TicketId)
open RunExecution

def acquiringReacquire : Reacquire → Bool
  | .checking _ => true
  | .selecting _ => true
  | .storing _ => true
  | _ => false

def holdingReacquire : Reacquire → Bool
  | .checking _ => true
  | .selecting _ => true
  | .storing (.ok _) => true
  | _ => false

def reacquireOf : Opening → Option Reacquire
  | .reacquiring phase => some phase
  | _ => none

def acquiring : Task → Bool
  | .resume phase => acquiringReacquire phase
  | .operation phase => (reacquireOf phase).any acquiringReacquire
  | .batch _ phase => (reacquireOf phase).any acquiringReacquire
  | .abandoned => true
  | _ => false

def holding : Task → Bool
  | .resume phase => holdingReacquire phase
  | .operation phase => (reacquireOf phase).any holdingReacquire
  | .batch _ phase => (reacquireOf phase).any holdingReacquire
  | _ => false

def holdsGate : Task → Bool
  | .gated _ => true
  | .closing _ => true
  | _ => false

def holdsWait : Task → Bool
  | .suspend _ => true
  | .leaving _ => true
  | _ => false

theorem acquiring_of_holding {task : Task} (h : holding task = true) : acquiring task = true := by
  have hreacquire : ∀ phase, holdingReacquire phase = true → acquiringReacquire phase = true := by
    intro phase hphase
    cases phase with
    | entering => cases hphase
    | sleeping => cases hphase
    | checking => rfl
    | selecting => rfl
    | storing => rfl
  cases task with
  | resume phase => exact hreacquire phase h
  | operation phase =>
    obtain ⟨r, hr, hh⟩ := (Option.any_eq_true _ _).mp h
    exact (Option.any_eq_true _ _).mpr ⟨r, hr, hreacquire r hh⟩
  | batch waits phase =>
    obtain ⟨r, hr, hh⟩ := (Option.any_eq_true _ _).mp h
    exact (Option.any_eq_true _ _).mpr ⟨r, hr, hreacquire r hh⟩
  | abandoned => rfl
  | _ => cases h

structure Consistent (state : Shared) (operations waits acquisitions : ℕ) : Prop where
  active : state.activeOps = operations
  pending : state.pendingWaits = waits
  running : state.cancelled = false → 0 < operations → state.slot.isRunning = true
  holds : state.slot.isRunning = true ∨ state.slot.isParked = true → acquisitions = 0
  acquiring : state.slot = .acquiring → acquisitions = 1
  gone : state.slot = .gone → acquisitions = 0 ∨ acquisitions = 1 ∧ state.cancelled = true
  parked : state.slot.isParked = true → state.cancelled = false

structure Final (state after : Shared) : Prop where
  cancelled : state.cancelled = true → after.cancelled = true
  gone : state.slot = .gone → after.slot = .gone
  stopped : state.cancelled = true → state.slot.isRunning = false → after.slot.isRunning = false

theorem Final.refl (state : Shared) : Final state state :=
  ⟨fun h => h, fun h => h, fun _ h => h⟩

theorem Final.trans {a b c : Shared} (h : Final a b) (k : Final b c) : Final a c where
  cancelled := fun ha => k.cancelled (h.cancelled ha)
  gone := fun ha => k.gone (h.gone ha)
  stopped := fun ha hs => k.stopped (h.cancelled ha) (h.stopped ha hs)

section Transitions

variable {state : Shared} {o w a : ℕ}

theorem Consistent.only (h : Consistent state o w (a + 1)) :
    a = 0 ∧ state.slot.isRunning = false ∧ (state.cancelled = false → state.slot = .acquiring) := by
  cases hslot : state.slot with
  | running permit =>
    have hzero := h.holds (Or.inl (by rw [hslot]; rfl))
    omega
  | parked ticket =>
    have hzero := h.holds (Or.inr (by rw [hslot]; rfl))
    omega
  | acquiring =>
    have hone := h.acquiring hslot
    exact ⟨by omega, rfl, fun _ => rfl⟩
  | gone =>
    rcases h.gone hslot with hzero | ⟨hone, hc⟩
    · omega
    · exact ⟨by omega, rfl, fun hf => by rw [hf] at hc; cases hc⟩

theorem Consistent.quiet (h : Consistent state o w (a + 1)) (hc : state.cancelled = false) :
    o = 0 := by
  by_contra hne
  have hrun := h.running hc (Nat.pos_of_ne_zero hne)
  rw [h.only.2.1] at hrun
  cases hrun

theorem Consistent.take (h : Consistent state o w a) (hslot : state.slot.isParked = true)
    (hc : state.cancelled = false) :
    Consistent { state with slot := .acquiring } o w (a + 1) where
  active := h.active
  pending := h.pending
  running _ hpos := by
    have hrun := h.running hc hpos
    cases hs : state.slot <;> rw [hs] at hslot hrun <;> simp [Slot.isParked, Slot.isRunning] at *
  holds hor := by rcases hor with hor | hor <;> cases hor
  acquiring _ := by rw [h.holds (Or.inr hslot)]
  gone hgone := by cases hgone
  parked hparked := by cases hparked

/-- The slot stays as it is, and an operation that goes on was there before or has the permit. -/
theorem Consistent.recount (h : Consistent state o w a) {ops waits o' w' : ℕ} (ho : ops = o')
    (hw : waits = w') (hrun : state.cancelled = false → 0 < o' → state.slot.isRunning = true) :
    Consistent { state with activeOps := ops, pendingWaits := waits } o' w' a :=
  ⟨ho, hw, hrun, h.holds, h.acquiring, h.gone, h.parked⟩

theorem Consistent.vacate (h : Consistent state o w a) {a' : ℕ} {cancelled : Bool}
    (hquiet : cancelled = false → o = 0) (hgone : a' = 0 ∨ a' = 1 ∧ cancelled = true) :
    Consistent { state with slot := .gone, cancelled } o w a' where
  active := h.active
  pending := h.pending
  running hc hpos := absurd (hquiet hc) hpos.ne'
  holds hor := by rcases hor with hor | hor <;> cases hor
  acquiring hacq := by cases hacq
  gone _ := hgone
  parked hparked := by cases hparked

theorem Consistent.giveUp (h : Consistent state o w (a + 1)) :
    Consistent { state with slot := .gone } o w a :=
  h.vacate h.quiet (Or.inl h.only.1)

theorem Consistent.store (h : Consistent state o w (a + 1)) (permit : Permit) :
    Consistent { state with slot := .running permit } o w a where
  active := h.active
  pending := h.pending
  running _ _ := rfl
  holds _ := h.only.1
  acquiring hacq := by cases hacq
  gone hgone := by cases hgone
  parked hparked := by cases hparked

theorem Final.giveUp (state : Shared) : Final state { state with slot := .gone } :=
  ⟨fun h => h, fun _ => rfl, fun _ _ => rfl⟩

theorem Final.take (hslot : state.slot.isParked = true) :
    Final state { state with slot := .acquiring } where
  cancelled := fun h => h
  gone hgone := by
    rw [hgone] at hslot
    cases hslot
  stopped := fun _ _ => rfl

theorem Consistent.store_final (h : Consistent state o w (a + 1)) (hc : state.cancelled = false)
    (permit : Permit) : Final state { state with slot := .running permit } where
  cancelled := fun h => h
  gone hgone := by
    rw [h.only.2.2 hc] at hgone
    cases hgone
  stopped hcanc := by
    rw [hc] at hcanc
    cases hcanc

end Transitions

def nextAcquiring : Next Reacquire (Except AdmissionError Unit) → Bool
  | .at_ phase => acquiringReacquire phase
  | .done _ => false

theorem reacquire_poll {state : Shared} {o w a : ℕ} (phase : Reacquire)
    (h : Consistent state o w (a + (acquiringReacquire phase).toNat)) :
    Consistent (phase.poll state).1 o w (a + (nextAcquiring (phase.poll state).2).toNat) ∧
      Final state (phase.poll state).1 := by
  cases phase with
  | entering =>
    rw [Reacquire.poll]
    by_cases hc : state.cancelled = true ∧ state.slot ≠ .gone
    · rw [if_pos hc]
      exact ⟨h, Final.refl state⟩
    · rw [if_neg hc]
      cases hslot : state.slot with
      | running permit => exact ⟨h, Final.refl state⟩
      | gone => exact ⟨h, Final.refl state⟩
      | acquiring => exact ⟨h, Final.refl state⟩
      | parked ticket =>
        have hparked : state.slot.isParked = true := by rw [hslot]; rfl
        have hrunning : state.cancelled = false := by
          by_contra hne
          exact hc ⟨Bool.eq_true_of_not_eq_false hne, by rw [hslot]; exact nofun⟩
        exact ⟨h.take hparked hrunning, Final.take hparked⟩
  | sleeping => exact ⟨h, Final.refl state⟩
  | checking ticket =>
    rw [Reacquire.poll]
    split_ifs
    · exact ⟨h, Final.refl state⟩
    · exact ⟨h, Final.refl state⟩
  | selecting ticket => exact ⟨h, Final.refl state⟩
  | storing acquired =>
    cases acquired with
    | error err => exact ⟨h.giveUp, Final.giveUp state⟩
    | ok permit =>
      rw [Reacquire.poll]
      by_cases hc : state.cancelled = true
      · rw [if_pos hc]
        exact ⟨h.giveUp, Final.giveUp state⟩
      · rw [if_neg hc]
        have hrunning := Bool.eq_false_of_not_eq_true hc
        exact ⟨h.store permit, h.store_final hrunning permit⟩

def nextOpening : Next Opening (Except AdmissionError Unit) → Bool
  | .at_ phase => (reacquireOf phase).any acquiringReacquire
  | .done _ => false

def granted : Next Opening (Except AdmissionError Unit) → ℕ
  | .done (.ok ()) => 1
  | _ => 0

theorem Consistent.addOperation {state : Shared} {o w a : ℕ} (h : Consistent state o w a)
    (hslot : state.slot.isRunning = true) (n : ℕ) :
    Consistent { state with activeOps := state.activeOps + n } (o + n) w a :=
  h.recount (congrArg (· + n) h.active) h.pending fun _ _ => hslot

theorem Final.of_slot {state after : Shared} (hslot : after.slot = state.slot)
    (hc : after.cancelled = state.cancelled) : Final state after where
  cancelled := fun h => hc.trans h
  gone := fun h => hslot.trans h
  stopped := fun _ h => by rw [hslot, h]

theorem opening_poll {state : Shared} {o w a : ℕ} (phase : Opening)
    (h : Consistent state o w (a + ((reacquireOf phase).any acquiringReacquire).toNat)) :
    Consistent (phase.poll state).1 (o + granted (phase.poll state).2) w
        (a + (nextOpening (phase.poll state).2).toNat) ∧
      Final state (phase.poll state).1 ∧
      (state.cancelled = true → granted (phase.poll state).2 = 0) := by
  cases phase with
  | checking =>
    rw [Opening.poll]
    by_cases hc : state.cancelled = true
    · rw [if_pos hc]
      exact ⟨h, Final.refl state, fun _ => rfl⟩
    rw [if_neg hc]
    by_cases hgone : state.slot = .gone
    · rw [if_pos hgone]
      exact ⟨h, Final.refl state, fun _ => rfl⟩
    rw [if_neg hgone]
    by_cases hrun : state.slot.isRunning = true ∧ state.pendingWaits = 0
    · rw [if_pos hrun]
      exact ⟨h.addOperation hrun.1 1, Final.of_slot rfl rfl, fun hcanc => absurd hcanc hc⟩
    rw [if_neg hrun]
    split_ifs
    · exact ⟨h, Final.refl state, fun _ => rfl⟩
    · exact ⟨h, Final.refl state, fun _ => rfl⟩
  | sleeping => exact ⟨h, Final.refl state, fun _ => rfl⟩
  | reacquiring phase =>
    obtain ⟨hcons, hfinal⟩ := reacquire_poll phase h
    rw [Opening.poll]
    rcases hpoll : phase.poll state with ⟨after, phase' | ⟨err | ok⟩⟩
    all_goals
      rw [hpoll] at hcons hfinal
      exact ⟨hcons, hfinal, fun _ => rfl⟩

section Park

variable {state : Shared} {w a : ℕ}

theorem Consistent.park (h : Consistent state 0 w a) (hrun : state.slot.isRunning = true)
    (hc : state.cancelled = false) (ticket : Ticket) :
    Consistent { state with slot := .parked ticket } 0 w a where
  active := h.active
  pending := h.pending
  running _ hpos := absurd hpos (lt_irrefl 0)
  holds _ := h.holds (Or.inl hrun)
  acquiring hacq := by cases hacq
  gone hgone := by cases hgone
  parked _ := hc

theorem Consistent.lose (h : Consistent state 0 w a) (hrun : state.slot.isRunning = true) :
    Consistent { state with slot := .gone } 0 w a :=
  h.vacate (fun _ => rfl) (Or.inl (h.holds (Or.inl hrun)))

theorem Final.park (hrun : state.slot.isRunning = true) (ticket : Ticket) :
    Final state { state with slot := .parked ticket } where
  cancelled := fun h => h
  gone hgone := by
    rw [hgone] at hrun
    cases hrun
  stopped := fun _ _ => rfl

theorem park_in_place (parked : Except AdmissionError Unit) (h : Consistent state 0 w a)
    (hc : state.slot ≠ .gone → state.cancelled = false) :
    Consistent (parkInPlace parked state).1 0 w a ∧ Final state (parkInPlace parked state).1 := by
  rw [parkInPlace]
  cases hslot : state.slot with
  | acquiring => exact ⟨h, Final.refl state⟩
  | parked ticket => exact ⟨h, Final.refl state⟩
  | gone => exact ⟨h, Final.refl state⟩
  | running permit =>
    have hrun : state.slot.isRunning = true := by rw [hslot]; rfl
    have hcanc : state.cancelled = false := hc (by rw [hslot]; exact nofun)
    cases parked with
    | ok _ => exact ⟨h.park hrun hcanc _, Final.park hrun _⟩
    | error err => exact ⟨h.lose hrun, Final.giveUp state⟩

end Park

theorem suspend_poll {state : Shared} {o w a : ℕ} (parked : Except AdmissionError Unit)
    (phase : Suspend) (h : Consistent state o w a) :
    Consistent (phase.poll parked state).1 o w a ∧ Final state (phase.poll parked state).1 := by
  cases phase with
  | sleeping => exact ⟨h, Final.refl state⟩
  | checking =>
    rw [Suspend.poll]
    split_ifs with hgone hc hparked hrun
    · exact ⟨h, Final.refl state⟩
    · exact ⟨h, Final.refl state⟩
    · exact ⟨h, Final.refl state⟩
    · obtain rfl : o = 0 := h.active.symm.trans hrun.2
      exact park_in_place parked h fun _ => Bool.eq_false_of_not_eq_true hc
    · exact ⟨h, Final.refl state⟩

theorem Consistent.dropOperation {state : Shared} {o w a : ℕ} (h : Consistent state (o + 1) w a) :
    Consistent state.dropOperation o w a :=
  h.recount (congrArg (· - 1) h.active) h.pending fun hc _ => h.running hc (Nat.succ_pos o)

theorem Consistent.dropWait {state : Shared} {o w a : ℕ} (h : Consistent state o (w + 1) a) :
    Consistent state.dropWait o w a :=
  h.recount h.active (congrArg (· - 1) h.pending) h.running

theorem Consistent.dropAcquire {state : Shared} {o w a : ℕ} (h : Consistent state o w (a + 1)) :
    Consistent state.dropAcquire o w a ∧ Final state state.dropAcquire := by
  by_cases hslot : state.slot = .acquiring
  · have heq : state.dropAcquire = { state with slot := .gone } := by
      rw [Shared.dropAcquire, if_pos hslot]
    rw [heq]
    exact ⟨h.giveUp, Final.giveUp state⟩
  · have heq : state.dropAcquire = { state with slot := .gone } := by
      have hc : state.cancelled = true := by
        by_contra hne
        exact hslot (h.only.2.2 (Bool.eq_false_of_not_eq_true hne))
      cases hs : state.slot with
      | running permit =>
        have hrun := h.only.2.1
        rw [hs] at hrun
        cases hrun
      | parked ticket =>
        have hzero := h.holds (Or.inr (by rw [hs]; rfl))
        omega
      | acquiring => exact absurd hs hslot
      | gone => rw [Shared.dropAcquire, hs, if_neg nofun]
    rw [heq]
    exact ⟨h.giveUp, Final.giveUp state⟩

section Calls

variable {state : Shared} {o w a : ℕ}

theorem Consistent.le_one (h : Consistent state o w a) : a ≤ 1 := by
  cases hslot : state.slot with
  | running permit => exact (h.holds (Or.inl (by rw [hslot]; rfl))).le.trans zero_le_one
  | parked ticket => exact (h.holds (Or.inr (by rw [hslot]; rfl))).le.trans zero_le_one
  | acquiring => exact (h.acquiring hslot).le
  | gone =>
    rcases h.gone hslot with hzero | ⟨hone, -⟩
    · omega
    · omega

theorem Consistent.release (h : Consistent state o w a) : Consistent state.release o w a :=
  h.vacate nofun ((Nat.le_one_iff_eq_zero_or_eq_one.mp h.le_one).imp_right fun hone => ⟨hone, rfl⟩)

theorem Final.release (state : Shared) : Final state state.release :=
  ⟨fun _ => rfl, fun _ => rfl, fun _ _ => rfl⟩

theorem Consistent.cancel (h : Consistent state o w a) : Consistent state.cancel o w a := by
  by_cases hparked : state.slot.isParked = true
  · have hzero := h.holds (Or.inr hparked)
    have heq : state.cancel = { state with slot := .gone, cancelled := true } := by
      rw [Shared.cancel, if_pos hparked]
    rw [heq]
    exact h.vacate nofun (Or.inl hzero)
  · have heq : state.cancel = { state with cancelled := true } := by
      rw [Shared.cancel, if_neg hparked]
    rw [heq]
    exact {
      active := h.active
      pending := h.pending
      running := nofun
      holds := h.holds
      acquiring := h.acquiring
      gone := fun hgone => (h.gone hgone).imp_right fun hone => ⟨hone.1, rfl⟩
      parked := fun hstill => absurd hstill hparked }

theorem Final.cancel (state : Shared) : Final state state.cancel where
  cancelled := fun _ => rfl
  gone hgone := by
    rw [Shared.cancel, hgone]
    rfl
  stopped _ hstopped := by
    rw [Shared.cancel]
    split_ifs
    · rfl
    · exact hstopped

theorem Consistent.beginWait (h : Consistent state o w a) :
    Consistent state.beginWait o (w + 1) a :=
  h.recount h.active (congrArg (· + 1) h.pending) h.running

theorem park_now (parked : Except AdmissionError Unit) (h : Consistent state o w a) :
    Consistent (parkNow parked state).1 o w a ∧ Final state (parkNow parked state).1 := by
  rw [parkNow]
  split_ifs with hc hactive
  · exact ⟨h, Final.refl state⟩
  · exact ⟨h, Final.refl state⟩
  · obtain rfl : o = 0 := by
      have hcount := h.active
      omega
    refine park_in_place parked h fun hslot => ?_
    by_contra hne
    exact hc ⟨Bool.eq_true_of_not_eq_false hne, hslot⟩

theorem register_operation (h : Consistent state o w a) :
    Consistent (registerOperation state).1
        (o + if (registerOperation state).2 then 1 else 0) w a ∧
      Final state (registerOperation state).1 ∧
      (state.cancelled = true → (registerOperation state).2 = false) := by
  by_cases hclosed : state.cancelled = true ∨ 0 < state.pendingWaits
  · rw [registerOperation, if_pos hclosed]
    exact ⟨h, Final.refl state, fun _ => rfl⟩
  by_cases hrun : state.slot.isRunning = true
  · rw [registerOperation, if_neg hclosed, if_pos hrun]
    exact ⟨h.addOperation hrun 1, Final.of_slot rfl rfl, fun hc => absurd (Or.inl hc) hclosed⟩
  · rw [registerOperation, if_neg hclosed, if_neg hrun]
    exact ⟨h, Final.refl state, fun _ => rfl⟩

end Calls

def share (p : Task → Bool) (task : Option Task) : ℕ := (task.any p).toNat

structure Reacts (state : Shared) (task : Task) (o w a : ℕ) (after : Shared × ℕ × Option Task) :
    Prop where
  consistent : Consistent after.1 (o + after.2.1 + share holdsGate after.2.2)
    (w + share holdsWait after.2.2) (a + share acquiring after.2.2)
  final : Final state after.1
  closed : state.cancelled = true →
    after.2.1 = 0 ∧ ∀ t, after.2.2 = some t → holdsGate t = true → holdsGate task = true

section Events

variable {state : Shared} {o w a : ℕ}

theorem resume_poll (phase : Reacquire) (parked : Except AdmissionError Unit)
    (h : Consistent state o w (a + (acquiringReacquire phase).toNat)) :
    Reacts state (.resume phase) o w a ((Task.resume phase).poll parked state) := by
  obtain ⟨hcons, hfinal⟩ := reacquire_poll phase h
  rw [Task.poll]
  rcases hpoll : phase.poll state with ⟨after, phase' | result⟩
  all_goals rw [hpoll] at hcons hfinal
  · exact ⟨hcons, hfinal, fun _ => ⟨rfl, by rintro t ⟨⟩ hgate; exact hgate⟩⟩
  · exact ⟨hcons, hfinal, fun _ => ⟨rfl, nofun⟩⟩

variable (phase : Opening)

theorem operation_poll (parked : Except AdmissionError Unit)
    (h : Consistent state o w (a + ((reacquireOf phase).any acquiringReacquire).toNat)) :
    Reacts state (.operation phase) o w a ((Task.operation phase).poll parked state) := by
  obtain ⟨hcons, hfinal, hclosed⟩ := opening_poll phase h
  rw [Task.poll]
  rcases hpoll : phase.poll state with ⟨after, phase' | ⟨err | ok⟩⟩
  all_goals rw [hpoll] at hcons hfinal hclosed
  · exact ⟨hcons, hfinal, fun _ => ⟨rfl, by rintro t ⟨⟩ hgate; exact hgate⟩⟩
  · exact ⟨hcons, hfinal, fun _ => ⟨rfl, nofun⟩⟩
  · exact ⟨hcons, hfinal, fun hc => ⟨hclosed hc, nofun⟩⟩

theorem batch_poll (waits : List Bool) (phase : Opening) (parked : Except AdmissionError Unit)
    (h : Consistent state o w (a + ((reacquireOf phase).any acquiringReacquire).toNat)) :
    Reacts state (.batch waits phase) o w a ((Task.batch waits phase).poll parked state) := by
  obtain ⟨hcons, hfinal, hclosed⟩ := opening_poll phase h
  rw [Task.poll]
  rcases hpoll : phase.poll state with ⟨after, phase' | ⟨err | ok⟩⟩
  all_goals rw [hpoll] at hcons hfinal hclosed
  · exact ⟨hcons, hfinal, fun _ => ⟨rfl, by rintro t ⟨⟩ hgate; exact hgate⟩⟩
  · exact ⟨hcons, hfinal, fun _ => ⟨rfl, nofun⟩⟩
  · exact ⟨hcons, hfinal, fun hc => absurd (hclosed hc) nofun⟩

theorem gated_poll (waits : List Bool) (parked : Except AdmissionError Unit)
    (h : Consistent state (o + 1) w a) :
    Reacts state (.gated waits) o w a ((Task.gated waits).poll parked state) := by
  rw [Task.poll]
  by_cases hc : state.cancelled = true
  · rw [if_pos hc]
    exact ⟨h, Final.refl state, fun _ => ⟨rfl, fun _ _ _ => rfl⟩⟩
  · rw [if_neg hc]
    have hrun := h.running (Bool.eq_false_of_not_eq_true hc) (Nat.succ_pos o)
    have hadded := h.addOperation hrun (waits.countP fun isWait => !isWait)
    rw [Nat.add_right_comm] at hadded
    exact ⟨hadded, Final.of_slot rfl rfl, fun hcanc => absurd hcanc hc⟩

theorem suspend_task_poll (phase : Suspend) (parked : Except AdmissionError Unit)
    (h : Consistent state o (w + 1) a) :
    Reacts state (.suspend phase) o w a ((Task.suspend phase).poll parked state) := by
  obtain ⟨hcons, hfinal⟩ := suspend_poll parked phase h
  rw [Task.poll]
  rcases hpoll : phase.poll parked state with ⟨after, phase' | result⟩
  all_goals
    rw [hpoll] at hcons hfinal
    exact ⟨hcons, hfinal, fun _ => ⟨rfl, by rintro t ⟨⟩ hgate; exact hgate⟩⟩

theorem task_poll (task : Task) (parked : Except AdmissionError Unit)
    (h : Consistent state (o + (holdsGate task).toNat) (w + (holdsWait task).toNat)
      (a + (acquiring task).toNat)) :
    Reacts state task o w a (task.poll parked state) := by
  cases task with
  | resume phase => exact resume_poll phase parked h
  | operation phase => exact operation_poll phase parked h
  | batch waits phase => exact batch_poll waits phase parked h
  | gated waits => exact gated_poll waits parked h
  | closing result =>
    exact ⟨Consistent.dropOperation h, Final.of_slot rfl rfl, fun _ => ⟨rfl, nofun⟩⟩
  | suspend phase => exact suspend_task_poll phase parked h
  | leaving result =>
    exact ⟨Consistent.dropWait h, Final.of_slot rfl rfl, fun _ => ⟨rfl, nofun⟩⟩
  | abandoned =>
    obtain ⟨hcons, hfinal⟩ := Consistent.dropAcquire h
    exact ⟨hcons, hfinal, fun _ => ⟨rfl, nofun⟩⟩

variable {task : Task}

theorem reacts_same {next : Option Task}
    (h : Consistent state (o + (holdsGate task).toNat) (w + (holdsWait task).toNat)
      (a + (acquiring task).toNat))
    (hgate : share holdsGate next = (holdsGate task).toNat)
    (hwait : share holdsWait next = (holdsWait task).toNat)
    (hacquiring : share acquiring next = (acquiring task).toNat) :
    Reacts state task o w a (state, 0, next) where
  consistent := by
    rw [hgate, hwait, hacquiring]
    exact h
  final := Final.refl state
  closed _ := by
    refine ⟨rfl, fun t ht hheld => ?_⟩
    change next = some t at ht
    rw [ht, share, Option.any_some, hheld] at hgate
    cases htask : holdsGate task with
    | true => rfl
    | false =>
      rw [htask] at hgate
      cases hgate

theorem reacts_unmoved {next : Task}
    (h : Consistent state (o + (holdsGate task).toNat) (w + (holdsWait task).toNat)
      (a + (acquiring task).toNat))
    (hsame : holdsGate next = holdsGate task ∧ holdsWait next = holdsWait task ∧
      acquiring next = acquiring task) : Reacts state task o w a (state, 0, some next) :=
  reacts_same h (congrArg Bool.toNat hsame.1) (congrArg Bool.toNat hsame.2.1)
    (congrArg Bool.toNat hsame.2.2)

theorem acquiring_notified (phase : Reacquire) :
    acquiringReacquire phase.notified = acquiringReacquire phase := by
  cases phase <;> rfl

theorem acquiring_acquired (phase : Reacquire) (outcome : Except AdmissionError Unit) :
    acquiringReacquire (phase.acquired outcome) = acquiringReacquire phase := by
  cases phase <;> rfl

theorem opening_notified : (reacquireOf phase.notified).any acquiringReacquire =
      (reacquireOf phase).any acquiringReacquire := by
  cases phase with
  | checking => rfl
  | sleeping => rfl
  | reacquiring phase => exact acquiring_notified phase

theorem opening_acquired (outcome : Except AdmissionError Unit) :
    (reacquireOf (phase.acquired outcome)).any acquiringReacquire =
      (reacquireOf phase).any acquiringReacquire := by
  cases phase with
  | checking => rfl
  | sleeping => rfl
  | reacquiring phase => exact acquiring_acquired phase outcome

theorem reacquire_abandon {phase : Reacquire} (hgate : holdsGate task = false)
    (hwait : holdsWait task = false) (hacquiring : acquiring task = acquiringReacquire phase) :
    share holdsGate (phase.abandon task) = (holdsGate task).toNat ∧
      share holdsWait (phase.abandon task) = (holdsWait task).toNat ∧
      share acquiring (phase.abandon task) = (acquiring task).toNat := by
  rw [hgate, hwait]
  cases phase with
  | sleeping => exact ⟨rfl, rfl, congrArg Bool.toNat hacquiring.symm⟩
  | selecting ticket => exact ⟨rfl, rfl, congrArg Bool.toNat hacquiring.symm⟩
  | entering => exact ⟨congrArg Bool.toNat hgate, congrArg Bool.toNat hwait, rfl⟩
  | checking ticket => exact ⟨congrArg Bool.toNat hgate, congrArg Bool.toNat hwait, rfl⟩
  | storing acquired => exact ⟨congrArg Bool.toNat hgate, congrArg Bool.toNat hwait, rfl⟩

theorem opening_abandon {phase : Opening} (hgate : holdsGate task = false)
    (hwait : holdsWait task = false)
    (hacquiring : acquiring task = (reacquireOf phase).any acquiringReacquire) :
    share holdsGate (phase.abandon task) = (holdsGate task).toNat ∧
      share holdsWait (phase.abandon task) = (holdsWait task).toNat ∧
      share acquiring (phase.abandon task) = (acquiring task).toNat := by
  cases phase with
  | checking => exact ⟨rfl, rfl, rfl⟩
  | sleeping =>
    rw [hgate, hwait]
    exact ⟨rfl, rfl, congrArg Bool.toNat hacquiring.symm⟩
  | reacquiring phase => exact reacquire_abandon hgate hwait hacquiring

theorem task_react (task : Task) (event : Event)
    (h : Consistent state (o + (holdsGate task).toNat) (w + (holdsWait task).toNat)
      (a + (acquiring task).toNat)) :
    Reacts state task o w a (task.react state event) := by
  cases event with
  | poll parked => exact task_poll task parked h
  | notified =>
    have hsame : holdsGate task.notified = holdsGate task ∧
        holdsWait task.notified = holdsWait task ∧ acquiring task.notified = acquiring task := by
      cases task with
      | resume phase => exact ⟨rfl, rfl, acquiring_notified phase⟩
      | operation phase => exact ⟨rfl, rfl, opening_notified phase⟩
      | batch waits phase => exact ⟨rfl, rfl, opening_notified phase⟩
      | suspend phase => cases phase <;> exact ⟨rfl, rfl, rfl⟩
      | _ => exact ⟨rfl, rfl, rfl⟩
    exact reacts_unmoved h hsame
  | acquired outcome =>
    have hsame : holdsGate (task.acquired outcome) = holdsGate task ∧
        holdsWait (task.acquired outcome) = holdsWait task ∧
        acquiring (task.acquired outcome) = acquiring task := by
      cases task with
      | resume phase => exact ⟨rfl, rfl, acquiring_acquired phase outcome⟩
      | operation phase => exact ⟨rfl, rfl, opening_acquired phase outcome⟩
      | batch waits phase => exact ⟨rfl, rfl, opening_acquired phase outcome⟩
      | _ => exact ⟨rfl, rfl, rfl⟩
    exact reacts_unmoved h hsame
  | abandon =>
    have hshares : share holdsGate task.abandon = (holdsGate task).toNat ∧
        share holdsWait task.abandon = (holdsWait task).toNat ∧
        share acquiring task.abandon = (acquiring task).toNat := by
      cases task with
      | resume phase => exact reacquire_abandon rfl rfl rfl
      | operation phase => exact opening_abandon rfl rfl rfl
      | batch waits phase => exact opening_abandon rfl rfl rfl
      | suspend phase => cases phase <;> exact ⟨rfl, rfl, rfl⟩
      | _ => exact ⟨rfl, rfl, rfl⟩
    exact reacts_same h hshares.1 hshares.2.1 hshares.2.2

end Events

inductive Holder where
  | caller (guard : GuardId)
  | gate (task : TaskId)

variable (s : State)

def Alive : Holder → Prop
  | .caller guard => guard ∈ s.operations
  | .gate task => ∃ t, s.tasks.lookup task = some t ∧ holdsGate t = true

def liveOperations : ℕ := s.operations.length + s.tasks.countValues holdsGate

def liveWaits : ℕ := s.waits.length + s.tasks.countValues holdsWait

def slotHolders (slot : Slot) : ℕ := if slot.isRunning ∨ slot.isParked then 1 else 0

/-- The permits in the slot, the tickets in the slot and those in a reacquire, together. -/
def holders : ℕ := slotHolders s.shared.slot + s.tasks.countValues holding

def Invariant : Prop :=
  Consistent s.shared (liveOperations s) (liveWaits s) (s.tasks.countValues acquiring)

theorem invariant_initial (permit : Permit) : Invariant (initial permit) where
  active := rfl
  pending := rfl
  running _ _ := rfl
  holds _ := rfl
  acquiring h := by cases h
  gone h := by cases h
  parked h := by cases h

structure Steps (s t : State) : Prop where
  invariant : Invariant t
  final : Final s.shared t.shared
  closed : s.shared.cancelled = true → ∀ holder, Alive t holder → Alive s holder

theorem countValues_setTask (p : Task → Bool) (s : State) (task : TaskId) (next : Option Task) :
    (s.setTask task next).tasks.countValues p =
      (s.tasks.erase task).countValues p + share p next := by
  cases next with
  | none => rfl
  | some t =>
    have hcount := AList.countValues_insert_new p t
      (show (s.tasks.erase task).lookup task = none from AList.lookup_erase task s.tasks)
    have hents : ((s.tasks.erase task).insert task t).countValues p =
        (s.tasks.insert task t).countValues p := by
      apply AList.countValues_congr
      intro k
      rw [AList.lookup_insert_if, AList.lookup_insert_if, AList.lookup_erase_if]
      split_ifs
      · rfl
      · rfl
    rw [State.setTask, ← hents, hcount, share, Option.any_some]
    cases p t <;> rfl

variable {s : State}

theorem invariant_split {task : TaskId} {t : Task} (hl : s.tasks.lookup task = some t) :
    Invariant s ↔ Consistent s.shared
      (s.operations.length + (s.tasks.erase task).countValues holdsGate + (holdsGate t).toNat)
      (s.waits.length + (s.tasks.erase task).countValues holdsWait + (holdsWait t).toNat)
      ((s.tasks.erase task).countValues acquiring + (acquiring t).toNat) := by
  have hpart : ∀ p : Task → Bool,
      s.tasks.countValues p = (s.tasks.erase task).countValues p + (p t).toNat := by
    intro p
    rw [← AList.countValues_erase p hl]
    cases p t <;> rfl
  rw [Invariant, liveOperations, liveWaits, hpart holdsGate, hpart holdsWait, hpart acquiring,
    Nat.add_assoc, Nat.add_assoc]

theorem lookup_setTask_of_ne {task other : TaskId} (hne : other ≠ task) (next : Option Task) :
    (s.setTask task next).tasks.lookup other = s.tasks.lookup other := by
  cases next with
  | none => exact AList.lookup_erase_ne hne
  | some t => exact AList.lookup_insert_ne hne

theorem lookup_setTask (s : State) (task : TaskId) (next : Option Task) :
    (s.setTask task next).tasks.lookup task = next := by
  cases next with
  | none => exact AList.lookup_erase task s.tasks
  | some t => exact AList.lookup_insert s.tasks

theorem operations_setTask (s : State) (task : TaskId) (next : Option Task) :
    (s.setTask task next).operations = s.operations := by
  cases next <;> rfl

theorem shared_setTask (s : State) (task : TaskId) (next : Option Task) :
    (s.setTask task next).shared = s.shared := by
  cases next <;> rfl

theorem waits_setTask (s : State) (task : TaskId) (next : Option Task) :
    (s.setTask task next).waits = s.waits := by
  cases next <;> rfl

theorem length_handOut (s : State) (guards : ℕ) :
    (s.handOut guards).operations.length = s.operations.length + guards := by
  rw [State.handOut, List.length_append, List.length_map, List.length_range, Nat.add_comm]

theorem event_steps (h : Invariant s) (task : TaskId) (event : Event) :
    Steps s (step s (.event task event)) := by
  rw [step]
  cases hl : s.tasks.lookup task with
  | none => exact ⟨h, Final.refl s.shared, fun _ _ halive => halive⟩
  | some t =>
    have hr := task_react t event ((invariant_split hl).mp h)
    rcases hafter : t.react s.shared event with ⟨shared, guards, next⟩
    rw [hafter] at hr
    obtain ⟨hcons, hfinal, hclosed⟩ := hr
    simp only [hafter] at hcons hfinal hclosed ⊢
    refine ⟨?_, ?_, fun hc holder halive => ?_⟩
    · rw [Invariant, liveOperations, liveWaits, countValues_setTask, countValues_setTask,
        countValues_setTask, operations_setTask, waits_setTask, shared_setTask, length_handOut]
      have hsum : s.operations.length + guards +
          ((s.tasks.erase task).countValues holdsGate + share holdsGate next) =
          s.operations.length + (s.tasks.erase task).countValues holdsGate + guards +
            share holdsGate next := by omega
      have hwaits : s.waits.length +
          ((s.tasks.erase task).countValues holdsWait + share holdsWait next) =
          s.waits.length + (s.tasks.erase task).countValues holdsWait +
            share holdsWait next := by omega
      rw [← hsum, ← hwaits] at hcons
      exact hcons
    · rw [shared_setTask]
      exact hfinal
    · obtain ⟨rfl, hgate⟩ := hclosed hc
      cases holder with
      | caller guard =>
        rw [Alive, operations_setTask] at halive
        exact halive
      | gate other =>
        obtain ⟨t', ht', hheld⟩ := halive
        by_cases hother : other = task
        · subst hother
          rw [lookup_setTask] at ht'
          exact ⟨t, hl, hgate t' ht' hheld⟩
        · rw [lookup_setTask_of_ne hother] at ht'
          exact ⟨t', ht', hheld⟩

theorem start_steps (h : Invariant s) (task : TaskId) (call : Call) :
    Steps s (step s (.start task call)) := by
  rw [step]
  cases hl : s.tasks.lookup task with
  | some t => exact ⟨h, Final.refl s.shared, fun _ _ halive => halive⟩
  | none =>
    have hfree : ∀ (p : Task → Bool) (t : Task), (s.tasks.insert task t).countValues p =
        s.tasks.countValues p + if p t then 1 else 0 :=
      fun p t => AList.countValues_insert_new p t hl
    have hkeep : ∀ t : Task, holdsGate t = false → ∀ holder,
        Alive { s with tasks := s.tasks.insert task t } holder → Alive s holder := by
      intro t hgate holder halive
      cases holder with
      | caller guard => exact halive
      | gate other =>
        obtain ⟨t', ht', hheld⟩ := halive
        simp only [AList.lookup_insert_if] at ht'
        by_cases hother : other = task
        · rw [if_pos hother] at ht'
          cases ht'
          rw [hgate] at hheld
          cases hheld
        · rw [if_neg hother] at ht'
          exact ⟨t', ht', hheld⟩
    cases call with
    | suspendForWait =>
      refine ⟨?_, Final.of_slot rfl rfl, fun _ => hkeep _ rfl⟩
      have hwait := Consistent.beginWait h
      rw [liveWaits, Nat.add_assoc] at hwait
      simp only [Invariant, liveOperations, liveWaits, Call.start, hfree]
      exact hwait
    | _ =>
      refine ⟨?_, Final.refl s.shared, fun _ => hkeep _ rfl⟩
      simp only [Invariant, liveOperations, liveWaits, Call.start, hfree]
      exact h

theorem step_steps (h : Invariant s) (op : Op) : Steps s (step s op) := by
  cases op with
  | registerOperation =>
    obtain ⟨hcons, hfinal, hclosed⟩ := register_operation h
    rw [step]
    refine ⟨?_, hfinal, fun hc holder halive => ?_⟩
    · rw [Invariant, liveOperations, length_handOut, Nat.add_right_comm]
      exact hcons
    · simp only [hclosed hc] at halive
      cases holder with
      | caller guard => exact halive
      | gate task => exact halive
  | beginWait =>
    have hwait := Consistent.beginWait h
    rw [liveWaits, Nat.add_right_comm] at hwait
    exact ⟨hwait, Final.of_slot rfl rfl, fun _ holder halive => by cases holder <;> exact halive⟩
  | parkNow parked =>
    obtain ⟨hcons, hfinal⟩ := park_now parked h
    exact ⟨hcons, hfinal, fun _ holder halive => by cases holder <;> exact halive⟩
  | cancel =>
    exact ⟨Consistent.cancel h, Final.cancel s.shared,
      fun _ holder halive => by cases holder <;> exact halive⟩
  | release =>
    exact ⟨Consistent.release h, Final.release s.shared,
      fun _ holder halive => by cases holder <;> exact halive⟩
  | dropOperation guard =>
    rw [step]
    by_cases hmem : guard ∈ s.operations
    · rw [if_pos hmem]
      refine ⟨?_, Final.of_slot rfl rfl, fun _ holder halive => ?_⟩
      · have hlen := List.length_erase_add_one hmem
        have hold : Consistent s.shared ((s.operations.erase guard).length +
            s.tasks.countValues holdsGate + 1) (liveWaits s) (s.tasks.countValues acquiring) := by
          rw [Nat.add_right_comm, hlen]
          exact h
        exact hold.dropOperation
      · cases holder with
        | caller other => exact List.mem_of_mem_erase halive
        | gate task => exact halive
    · rw [if_neg hmem]
      exact ⟨h, Final.refl s.shared, fun _ _ halive => halive⟩
  | dropWait guard =>
    rw [step]
    by_cases hmem : guard ∈ s.waits
    · rw [if_pos hmem]
      refine ⟨?_, Final.of_slot rfl rfl, fun _ holder halive => by cases holder <;> exact halive⟩
      have hlen := List.length_erase_add_one hmem
      have hold : Consistent s.shared (liveOperations s) ((s.waits.erase guard).length +
          s.tasks.countValues holdsWait + 1) (s.tasks.countValues acquiring) := by
        rw [Nat.add_right_comm, hlen]
        exact h
      exact hold.dropWait
    · rw [if_neg hmem]
      exact ⟨h, Final.refl s.shared, fun _ _ halive => halive⟩
  | start task call => exact start_steps h task call
  | event task event => exact event_steps h task event

theorem Steps.trans {t u : State} (h : Steps s t) (k : Steps t u) : Steps s u where
  invariant := k.invariant
  final := h.final.trans k.final
  closed hc holder halive := h.closed hc holder (k.closed (h.final.cancelled hc) holder halive)

theorem runFrom_steps (h : Invariant s) (ops : List Op) : Steps s (runFrom s ops) := by
  induction ops using List.reverseRecOn with
  | nil => exact ⟨h, Final.refl s.shared, fun _ _ halive => halive⟩
  | append_singleton ops op ih =>
    rw [runFrom, List.foldl_append]
    exact ih.trans (step_steps ih.invariant op)

theorem holders_le_one (h : Invariant s) : holders s ≤ 1 := by
  have hle : s.tasks.countValues holding ≤ s.tasks.countValues acquiring :=
    List.countP_mono_left fun _ _ => acquiring_of_holding
  have hone := Consistent.le_one h
  rw [holders, slotHolders]
  by_cases hslot : s.shared.slot.isRunning = true ∨ s.shared.slot.isParked = true
  · have hzero := Consistent.holds h hslot
    rw [if_pos hslot]
    omega
  · rw [if_neg hslot]
    omega

theorem liveOperations_pos {holder : Holder} (h : Alive s holder) : 0 < liveOperations s := by
  rw [liveOperations]
  cases holder with
  | caller guard =>
    have hpos := List.length_pos_of_mem h
    omega
  | gate task =>
    obtain ⟨t, ht, hgate⟩ := h
    have hpos := AList.countValues_pos_of_lookup holdsGate ht hgate
    omega

/-- A live operation has the permit in the slot, unless the run is cancelled, and nothing is parked
under it even then. -/
theorem Invariant.operating (h : Invariant s) {holder : Holder} (halive : Alive s holder) :
    (s.shared.cancelled = false → s.shared.slot.isRunning = true) ∧
      s.shared.slot.isParked = false := by
  have hrunning := fun hc => Consistent.running h hc (liveOperations_pos halive)
  refine ⟨hrunning, Bool.eq_false_of_not_eq_true fun hparked => ?_⟩
  have hrun := hrunning (Consistent.parked h hparked)
  cases hslot : s.shared.slot <;> rw [hslot] at hparked hrun <;> cases hparked
  cases hrun

/-- A child works with its permit, has it once, and gives it up for good. -/
theorem permit_kept (permit : Permit) (ops : List Op) :
    (run permit ops).shared.activeOps = liveOperations (run permit ops) ∧
    (run permit ops).shared.pendingWaits = liveWaits (run permit ops) ∧
    (∀ holder, Alive (run permit ops) holder →
      ((run permit ops).shared.cancelled = false →
        (run permit ops).shared.slot.isRunning = true) ∧
      (run permit ops).shared.slot.isParked = false) ∧
    holders (run permit ops) ≤ 1 ∧
    (∀ rest, (run permit ops).shared.slot = .gone →
      (runFrom (run permit ops) rest).shared.slot = .gone) ∧
    ∀ op rest, op = .cancel ∨ op = .release →
      (runFrom (step (run permit ops) op) rest).shared.cancelled = true ∧
      (∀ holder, Alive (runFrom (step (run permit ops) op) rest) holder →
        Alive (run permit ops) holder) ∧
      ∀ more, (runFrom (step (run permit ops) op) rest).shared.slot.isRunning = false →
        (runFrom (runFrom (step (run permit ops) op) rest) more).shared.slot.isRunning =
          false := by
  have h : Invariant (run permit ops) := (runFrom_steps (invariant_initial permit) ops).invariant
  refine ⟨h.active, h.pending, fun holder halive => h.operating halive, holders_le_one h,
    fun rest hgone => (runFrom_steps h rest).final.gone hgone, fun op rest hop => ?_⟩
  have hstep : Invariant (step (run permit ops) op) := (step_steps h op).invariant
  have hcancelled : (step (run permit ops) op).shared.cancelled = true := by
    rcases hop with rfl | rfl
    · rfl
    · rfl
  have hrest := runFrom_steps hstep rest
  refine ⟨hrest.final.cancelled hcancelled, fun holder halive => ?_, fun more hstopped => ?_⟩
  · have hbefore := hrest.closed hcancelled holder halive
    rcases hop with rfl | rfl <;> cases holder <;> exact hbefore
  · exact (runFrom_steps hrest.invariant more).final.stopped (hrest.final.cancelled hcancelled)
      hstopped

end ExecutionSafety
