import RefactEngine.AdmissionScheduler

/-! # The execution of a run

A run holds its permit in a slot under a lock. Parking turns the permit into a ticket, a reacquire
turns the ticket back, and between them the lock is dropped. What the scheduler answers to `park`
and `acquire` is an input. A call that awaits is a task: its phases are the points at which it holds
no lock, and one event runs it to the next of them.
-/
namespace RunExecution

open AdmissionScheduler (AdmissionError TicketId)

structure Permit where
  id : TicketId
  deriving DecidableEq

structure Ticket where
  id : TicketId
  deriving DecidableEq

variable (permit : Permit)

def Permit.park (parked : Except AdmissionError Unit) :
    Except AdmissionError Ticket :=
  parked.map fun _ => ⟨permit.id⟩

def Ticket.acquire (ticket : Ticket) (granted : Except AdmissionError Unit) :
    Except AdmissionError Permit :=
  granted.map fun _ => ⟨ticket.id⟩

inductive ParkOutcome where
  | parked
  | alreadyParked
  | acquiring
  | draining
  | notHeld

inductive Slot where
  | running (permit : Permit)
  | acquiring
  | parked (ticket : Ticket)
  | gone
  deriving DecidableEq

structure Shared where
  slot : Slot
  activeOps : ℕ
  pendingWaits : ℕ
  cancelled : Bool
  deriving DecidableEq

def Slot.isRunning : Slot → Bool
  | .running _ => true
  | _ => false

def Slot.isParked : Slot → Bool
  | .parked _ => true
  | _ => false

variable (state : Shared)

def Shared.dropOperation : Shared :=
  { state with activeOps := state.activeOps - 1 }

def Shared.dropWait : Shared :=
  { state with pendingWaits := state.pendingWaits - 1 }

def Shared.dropAcquire : Shared :=
  { state with slot := if state.slot = .acquiring then .gone else state.slot }

def new : Shared := ⟨.running permit, 0, 0, false⟩

variable (parked : Except AdmissionError Unit)

def parkInPlace (state : Shared) :
    Shared × Except AdmissionError ParkOutcome :=
  match state.slot with
  | .running permit =>
    match permit.park parked with
    | .ok ticket => ({ state with slot := .parked ticket }, .ok .parked)
    | .error err => ({ state with slot := .gone }, .error err)
  | .parked _ => (state, .ok .alreadyParked)
  | .acquiring => (state, .ok .acquiring)
  | .gone => (state, .ok .notHeld)

def Shared.cancel : Shared :=
  { state with
    cancelled := true
    slot := if state.slot.isParked then .gone else state.slot }

def Shared.release : Shared := { state with cancelled := true, slot := .gone }

def parkNow (state : Shared) :
    Shared × Except AdmissionError ParkOutcome :=
  if state.cancelled ∧ state.slot ≠ .gone then (state, .error .cancelled)
  else if 0 < state.activeOps then (state, .ok .draining)
  else parkInPlace parked state

def Shared.beginWait : Shared :=
  { state with pendingWaits := state.pendingWaits + 1 }

def registerOperation : Shared × Bool :=
  if state.cancelled ∨ 0 < state.pendingWaits then (state, false)
  else if state.slot.isRunning then ({ state with activeOps := state.activeOps + 1 }, true)
  else (state, false)

inductive Next (P R : Type) where
  | at_ (phase : P)
  | done (result : R)

/-- The phases of `reacquire`: at the head of its loop, awaiting a notification, holding the ticket
at the head of the inner loop, in its select, and with the outcome of the acquisition at hand. -/
inductive Reacquire where
  | entering
  | sleeping
  | checking (ticket : Ticket)
  | selecting (ticket : Ticket)
  | storing (acquired : Except AdmissionError Permit)

def Reacquire.poll :
    Reacquire → Shared × Next Reacquire (Except AdmissionError Unit)
  | .entering =>
    if state.cancelled ∧ state.slot ≠ .gone then (state, .done (.error .cancelled))
    else
      match state.slot with
      | .running _ => (state, .done (.ok ()))
      | .gone => (state, .done (.error .gone))
      | .parked ticket => ({ state with slot := .acquiring }, .at_ (.checking ticket))
      | .acquiring => (state, .at_ .sleeping)
  | .sleeping => (state, .at_ .sleeping)
  | .checking ticket =>
    if state.cancelled then (state, .at_ (.storing (.error .cancelled)))
    else (state, .at_ (.selecting ticket))
  | .selecting ticket => (state, .at_ (.selecting ticket))
  | .storing (.ok permit) =>
    if state.cancelled then ({ state with slot := .gone }, .done (.error .cancelled))
    else ({ state with slot := .running permit }, .done (.ok ()))
  | .storing (.error err) => ({ state with slot := .gone }, .done (.error err))

inductive Opening where
  | checking
  | sleeping
  | reacquiring (phase : Reacquire)

def Opening.poll (state : Shared) : Opening → Shared × Next Opening (Except AdmissionError Unit)
  | .checking =>
    if state.cancelled then (state, .done (.error .cancelled))
    else if state.slot = .gone then (state, .done (.error .gone))
    else if state.slot.isRunning ∧ state.pendingWaits = 0 then
      ({ state with activeOps := state.activeOps + 1 }, .done (.ok ()))
    else if state.slot.isParked ∧ state.pendingWaits = 0 then
      (state, .at_ (.reacquiring .entering))
    else (state, .at_ .sleeping)
  | .sleeping => (state, .at_ .sleeping)
  | .reacquiring phase =>
    match phase.poll state with
    | (state, .at_ phase) => (state, .at_ (.reacquiring phase))
    | (state, .done (.ok ())) => (state, .at_ .checking)
    | (state, .done (.error err)) => (state, .done (.error err))

inductive Suspend where
  | checking
  | sleeping

def Suspend.poll (state : Shared) :
    Suspend → Shared × Next Suspend (Except AdmissionError ParkOutcome)
  | .checking =>
    if state.slot = .gone then (state, .done (.ok .notHeld))
    else if state.cancelled then (state, .done (.error .cancelled))
    else if state.slot.isParked then (state, .done (.ok .alreadyParked))
    else if state.slot.isRunning ∧ state.activeOps = 0 then
      let after := parkInPlace parked state
      (after.1, .done after.2)
    else (state, .at_ .sleeping)
  | .sleeping => (state, .at_ .sleeping)

/-- The calls in flight. A batch holds the guard of its own operation as a gate while it registers
the others; the guards a call leaves with are dropped under a lock of their own. -/
inductive Task where
  | resume (phase : Reacquire)
  | operation (phase : Opening)
  | batch (recognizedWaits : List Bool) (phase : Opening)
  | gated (recognizedWaits : List Bool)
  | closing (result : Except AdmissionError Unit)
  | suspend (phase : Suspend)
  | leaving (result : Option (Except AdmissionError ParkOutcome))
  | abandoned

/-- Runs a call to its next phase: the state, the number of guards it hands out, and the call. -/
def Task.poll (parked : Except AdmissionError Unit) (state : Shared) :
    Task → Shared × ℕ × Option Task
  | .resume phase =>
    match phase.poll state with
    | (state, .at_ phase) => (state, 0, some (.resume phase))
    | (state, .done _) => (state, 0, none)
  | .operation phase =>
    match phase.poll state with
    | (state, .at_ phase) => (state, 0, some (.operation phase))
    | (state, .done (.ok ())) => (state, 1, none)
    | (state, .done (.error _)) => (state, 0, none)
  | .batch recognizedWaits phase =>
    match phase.poll state with
    | (state, .at_ phase) => (state, 0, some (.batch recognizedWaits phase))
    | (state, .done (.ok ())) => (state, 0, some (.gated recognizedWaits))
    | (state, .done (.error _)) => (state, 0, none)
  | .gated recognizedWaits =>
    if state.cancelled then (state, 0, some (.closing (.error .cancelled)))
    else
      let guards := recognizedWaits.countP fun isWait => !isWait
      ({ state with activeOps := state.activeOps + guards }, guards, some (.closing (.ok ())))
  | .closing _ => (state.dropOperation, 0, none)
  | .suspend phase =>
    match phase.poll parked state with
    | (state, .at_ phase) => (state, 0, some (.suspend phase))
    | (state, .done result) => (state, 0, some (.leaving (some result)))
  | .leaving _ => (state.dropWait, 0, none)
  | .abandoned => (state.dropAcquire, 0, none)

def Reacquire.notified : Reacquire → Reacquire
  | .sleeping => .entering
  | .selecting ticket => .checking ticket
  | phase => phase

def Opening.notified : Opening → Opening
  | .sleeping => .checking
  | .reacquiring phase => .reacquiring phase.notified
  | phase => phase

def Task.notified : Task → Task
  | .resume phase => .resume phase.notified
  | .operation phase => .operation phase.notified
  | .batch recognizedWaits phase => .batch recognizedWaits phase.notified
  | .suspend .sleeping => .suspend .checking
  | task => task

def Reacquire.acquired (granted : Except AdmissionError Unit) : Reacquire → Reacquire
  | .selecting ticket => .storing (ticket.acquire granted)
  | phase => phase

def Opening.acquired (granted : Except AdmissionError Unit) : Opening → Opening
  | .reacquiring phase => .reacquiring (phase.acquired granted)
  | phase => phase

def Task.acquired (granted : Except AdmissionError Unit) : Task → Task
  | .resume phase => .resume (phase.acquired granted)
  | .operation phase => .operation (phase.acquired granted)
  | .batch recognizedWaits phase => .batch recognizedWaits (phase.acquired granted)
  | task => task

/-- A reacquire dropped at an await point: with its ticket it leaves an armed guard behind. -/
def Reacquire.abandon (task : Task) : Reacquire → Option Task
  | .sleeping => none
  | .selecting _ => some .abandoned
  | _ => some task

def Opening.abandon (task : Task) : Opening → Option Task
  | .sleeping => none
  | .reacquiring phase => phase.abandon task
  | .checking => some task

def Task.abandon (task : Task) : Option Task :=
  match task with
  | .resume phase => phase.abandon task
  | .operation phase => phase.abandon task
  | .batch _ phase => phase.abandon task
  | .suspend .sleeping => some (.leaving none)
  | _ => some task

inductive Event where
  | poll (parked : Except AdmissionError Unit)
  | notified
  | acquired (granted : Except AdmissionError Unit)
  | abandon

def Task.react (task : Task) : Event → Shared × ℕ × Option Task
  | .poll parked => task.poll parked state
  | .notified => (state, 0, some task.notified)
  | .acquired granted => (state, 0, some (task.acquired granted))
  | .abandon => (state, 0, task.abandon)

inductive Call where
  | resume
  | beginOperation
  | beginToolBatch (recognizedWaits : List Bool)
  | suspendForWait

def Call.start : Call → Shared × Task
  | .resume => (state, .resume .entering)
  | .beginOperation => (state, .operation .checking)
  | .beginToolBatch recognizedWaits => (state, .batch recognizedWaits .checking)
  | .suspendForWait => (state.beginWait, .suspend .checking)

abbrev GuardId := ℕ

abbrev TaskId := ℕ

structure State where
  shared : Shared
  operations : List GuardId
  waits : List GuardId
  tasks : AList fun _ : TaskId => Task
  nextGuard : GuardId

inductive Op where
  | registerOperation
  | beginWait
  | parkNow (parked : Except AdmissionError Unit)
  | cancel
  | release
  | dropOperation (guard : GuardId)
  | dropWait (guard : GuardId)
  | start (task : TaskId) (call : Call)
  | event (task : TaskId) (event : Event)

def initial : State := ⟨new permit, [], [], ∅, 0⟩

variable (s : State)

def State.handOut (guards : ℕ) : State :=
  { s with
    operations := (List.range guards).map (s.nextGuard + ·) ++ s.operations
    nextGuard := s.nextGuard + guards }

def State.setTask (task : TaskId) : Option Task → State
  | some t => { s with tasks := s.tasks.insert task t }
  | none => { s with tasks := s.tasks.erase task }

def step : Op → State
  | .registerOperation =>
    let after := registerOperation s.shared
    ({ s with shared := after.1 }).handOut (if after.2 then 1 else 0)
  | .beginWait =>
    { s with
      shared := s.shared.beginWait
      waits := s.nextGuard :: s.waits
      nextGuard := s.nextGuard + 1 }
  | .parkNow parked => { s with shared := (parkNow parked s.shared).1 }
  | .cancel => { s with shared := s.shared.cancel }
  | .release => { s with shared := s.shared.release }
  | .dropOperation guard =>
    if guard ∈ s.operations then
      { s with shared := s.shared.dropOperation, operations := s.operations.erase guard }
    else s
  | .dropWait guard =>
    if guard ∈ s.waits then { s with shared := s.shared.dropWait, waits := s.waits.erase guard }
    else s
  | .start task call =>
    match s.tasks.lookup task with
    | some _ => s
    | none =>
      let started := call.start s.shared
      { s with shared := started.1, tasks := s.tasks.insert task started.2 }
  | .event task event =>
    match s.tasks.lookup task with
    | none => s
    | some t =>
      let after := t.react s.shared event
      (({ s with shared := after.1 }).handOut after.2.1).setTask task after.2.2

def runFrom (ops : List Op) : State := ops.foldl step s

def run (ops : List Op) : State := runFrom (initial permit) ops

end RunExecution
