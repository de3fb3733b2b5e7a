import RefactEngine.FiniteMap
import RefactEngine.SortedSet
import RefactEngine.CoordinationSettings
import Mathlib.Data.List.MinMax
import Mathlib.Algebra.Order.Ring.Nat

/-! # The admission scheduler

The locked `State` of the scheduler and its operations, in the order of the source.
Every indexing, `expect`, `unwrap` and checked subtraction of the source is a `Panic`
here, so that the absence of panics is a theorem and not a convention. One-shot channels
are entries of `channels`. Each operation also returns the turns its pump took: a turn
records the state on which the loop body ran and what it admitted.
-/
namespace AdmissionScheduler

open WorkIdentity CoordinationSettings

abbrev TicketId := ℕ

abbrev ChannelId := ℕ

abbrev Slot := ℕ ×ₗ TicketId

structure AdmissionRequest where
  run : RunKey
  scope : WorkScope
  depth : ℕ
  priority : Option WorkPriority

inductive AdmissionError where
  | disabled
  | duplicate (run : RunKey)
  | queueFull (pending maxPending : ℕ)
  | outstandingFull (outstanding maxOutstanding : ℕ)
  | depthExceeded (depth maxSubchatDepth : ℕ)
  | cancelled
  | gone

inductive TicketState where
  | reserved
  | pending
  | active
  | parked
  | evicted
  deriving DecidableEq

structure Entry where
  run : RunKey
  scope : WorkScope
  depth : ℕ
  seq : ℕ
  readySeq : ℕ
  parkedSeq : ℕ
  state : TicketState
  priority : WorkPriority
  parkCount : ℕ
  evictCount : ℕ
  cancelRequested : Bool
  waiter : Option ChannelId
  deriving DecidableEq

inductive Channel where
  | waiting
  | sent (outcome : Except AdmissionError Unit)
  | closed

structure State where
  settings : Settings
  nextId : ℕ
  nextSeq : ℕ
  entries : AList fun _ : TicketId => Entry
  byRun : AList fun _ : RunKey => TicketId
  queue : SortedSet Slot
  activeTotal : ℕ
  activeByProject : AList fun _ : ProjectKey => ℕ
  activeByRoot : AList fun _ : CheckoutKey => ℕ
  lastRoot : Option CheckoutKey
  roots : List CheckoutKey
  rootCredit : ℕ
  resumeBurst : AList fun _ : CheckoutKey => ℕ
  priorityBurst : ℕ
  channels : AList fun _ : ChannelId => Channel
  nextChannel : ℕ

inductive Panic where
  | emptyRotation
  | missingEntry (id : TicketId)
  | missingLane (root : CheckoutKey)
  | emptyLane
  | underflow
  | outOfFuel
  deriving DecidableEq

def new (settings : Settings) : State where
  settings := settings
  nextId := 1
  nextSeq := 1
  entries := ∅
  byRun := ∅
  queue := .empty
  activeTotal := 0
  activeByProject := ∅
  activeByRoot := ∅
  lastRoot := none
  roots := []
  rootCredit := 0
  resumeBurst := ∅
  priorityBurst := 0
  channels := ∅
  nextChannel := 0

namespace State

variable (s : State)

def counts : ℕ × ℕ × ℕ × ℕ :=
  (s.entries.countValues (·.state = .pending), s.entries.countValues (·.state = .reserved),
    s.entries.countValues (·.state = .parked), s.entries.countValues (·.state = .evicted))

def outstanding : ℕ := s.entries.entries.length

def evict (e : Entry) : Entry :=
  { e with state := .evicted, evictCount := e.evictCount + 1 }

def parkedByAge : List Slot :=
  (s.entries.entries.filterMap fun e =>
    if e.2.state = .parked then some (toLex (e.2.parkedSeq, e.1)) else none).insertionSort
      (· ≤ ·)

def evictParkedOverResidency : State :=
  let parked := s.parkedByAge
  let excess := parked.length - s.settings.maxParkedResidency
  if excess = 0 then s
  else { s with
    entries := ((parked.take excess).map fun slot => (ofLex slot).2).foldl
      (fun entries id => entries.modify id evict) s.entries }

def activeProject (project : ProjectKey) : ℕ :=
  (s.activeByProject.lookup project).getD 0

variable (root : CheckoutKey)

def activeRoot : ℕ := (s.activeByRoot.lookup root).getD 0

def fits (e : Entry) : Bool :=
  if s.activeTotal ≥ s.settings.maxActiveEngine then false
  else if s.activeProject e.scope.project ≥ s.settings.maxActiveProject then false
  else s.activeRoot e.scope.root < s.settings.maxActiveRoot

def charge (scope : WorkScope) : State :=
  { s with
    activeTotal := s.activeTotal + 1
    activeByProject := s.activeByProject.bump scope.project
    activeByRoot := s.activeByRoot.bump scope.root }

def decrement {K : Type} [DecidableEq K] (m : AList fun _ : K => ℕ) (k : K) :
    Except Panic (AList fun _ : K => ℕ) :=
  match m.drop1 k with
  | none => .error .underflow
  | some m' => .ok m'

def discharge (scope : WorkScope) : Except Panic State := do
  let byProject ← decrement s.activeByProject scope.project
  let byRoot ← decrement s.activeByRoot scope.root
  return { s with
    activeTotal := s.activeTotal - 1
    activeByProject := byProject
    activeByRoot := byRoot }

variable (id : TicketId)

def entry : Except Panic Entry :=
  match s.entries.lookup id with
  | none => .error (.missingEntry id)
  | some e => .ok e

abbrev Lanes := Std.TreeMap CheckoutKey (List Slot)

def pushLane (lanes : Lanes) (slot : Slot) : Lanes :=
  match s.entries.lookup (ofLex slot).2 with
  | none => lanes
  | some e =>
    if e.state = .pending ∧ s.fits e then
      lanes.alter e.scope.root fun lane => some (lane.getD [] ++ [slot])
    else lanes

def lanes : Lanes := s.queue.elems.foldl s.pushLane ∅

def rotateLeft (roots : List CheckoutKey) : Except Panic (List CheckoutKey) :=
  match roots with
  | [] => .error .emptyRotation
  | root :: rest => .ok (rest ++ [root])

/-- Looks for the first root with a lane. Every root passed over moves to the tail and
the credit is lost, also when the whole rotation is passed over. -/
def seekRoot (lanes : Lanes) : ℕ → List CheckoutKey → ℕ →
    Except Panic (Option CheckoutKey × List CheckoutKey × ℕ)
  | 0, roots, credit => .ok (none, roots, credit)
  | n + 1, roots, credit =>
    match roots with
    | [] => .error .emptyRotation
    | root :: rest =>
      if lanes.contains root then .ok (some root, root :: rest, credit)
      else seekRoot lanes n (rest ++ [root]) 0

def laneOf (lanes : Lanes) (root : CheckoutKey) : Except Panic (List Slot) :=
  match lanes[root]? with
  | none => .error (.missingLane root)
  | some lane => .ok lane

def minByKey {K : Type} [LinearOrder K] (key : Slot → Except Panic K) (slots : List Slot) :
    Except Panic (Option Slot) := do
  let keyed ← slots.mapM fun slot => do return (slot, ← key slot)
  return (keyed.argmin Prod.snd).map Prod.fst

def unwrap : Option Slot → Except Panic Slot
  | none => .error .emptyLane
  | some slot => .ok slot

def readySeqOf (slot : Slot) : Except Panic ℕ := do
  return (← s.entry (ofLex slot).2).readySeq

def urgencyOf (slot : Slot) : Except Panic (ℕ ×ₗ ℕ) := do
  return toLex ((← s.entry (ofLex slot).2).priority.rank, (ofLex slot).1)

/-- The turn fairness alone would serve: the oldest waiter of the lane, or the one that
became ready first once the burst of resumed tickets is spent. -/
def naturalSlot (lane : List Slot) (fairnessTurn : Bool) :
    Except Panic Slot := do
  if fairnessTurn then unwrap (← minByKey s.readySeqOf lane) else unwrap lane.head?

def preemption (lanes : Lanes) (natural : Slot) (fairnessTurn : Bool) :
    Except Panic (Option Slot) := do
  if fairnessTurn ∨ s.priorityBurst ≥ s.settings.maxPriorityBurst then
    return none
  else
    match ← minByKey s.urgencyOf (lanes.toList.flatMap (·.2)) with
    | none => return none
    | some slot =>
      let candidate ← s.entry (ofLex slot).2
      let owed ← s.entry (ofLex natural).2
      if candidate.priority < owed.priority then return some slot else return none

structure Admission where
  id : TicketId
  root : CheckoutKey
  turnRoot : CheckoutKey
  fairnessTurn : Bool
  preempting : Bool

def spendBurst (resumed : Bool) : State :=
  if resumed then
    { s with resumeBurst := s.resumeBurst.insert root ((s.resumeBurst.lookup root).getD 0 + 1) }
  else { s with resumeBurst := s.resumeBurst.erase root }

/-- The credit of a root that takes a turn: a new quantum, unless it is still spending one. -/
def turnCredit (kept : ℕ) : ℕ :=
  if s.lastRoot ≠ some root ∨ kept = 0 then s.settings.rootQuantum root else kept

/-- A natural turn spends one credit of its root; the last one moves the root to the tail. -/
def spendCredit : Except Panic State := do
  let credit := s.turnCredit root s.rootCredit
  if credit - 1 = 0 then
    return { s with lastRoot := some root, rootCredit := 0, roots := ← rotateLeft s.roots }
  else return { s with lastRoot := some root, rootCredit := credit - 1 }

def conclude (channels : AList fun _ : ChannelId => Channel) (waiter : Option ChannelId)
    (channel : Channel) : AList fun _ : ChannelId => Channel :=
  match waiter with
  | none => channels
  | some ch => channels.insert ch channel

def activate : State :=
  match s.entries.lookup id with
  | none => s
  | some e =>
    { s with
      entries := s.entries.insert id { e with state := .active, waiter := none }
      channels := conclude s.channels e.waiter (.sent (.ok ())) }

def admitSlot (turnRoot : CheckoutKey) (fairnessTurn : Bool) (slot : Slot)
    (preempting : Bool) : Except Panic (State × Admission) := do
  let s := { s with priorityBurst := if preempting then s.priorityBurst + 1 else 0 }
  let e ← s.entry (ofLex slot).2
  let root := e.scope.root
  let s := s.spendBurst root (!fairnessTurn && 0 < e.parkCount)
  let s ← if preempting then pure s else s.spendCredit root
  let s := s.charge e.scope
  let s := { s with queue := s.queue.erase slot }
  return (s.activate (ofLex slot).2,
    ⟨(ofLex slot).2, root, turnRoot, fairnessTurn, preempting⟩)

def fairnessTurnOf : Bool :=
  s.settings.maxResumeBurst ≤ (s.resumeBurst.lookup root).getD 0

def pumpTurn : Except Panic (State × Option Admission) := do
  let lanes := s.lanes
  let (chosen, roots, credit) ← seekRoot lanes s.roots.length s.roots s.rootCredit
  let s := { s with roots := roots, rootCredit := credit }
  match chosen with
  | none => return (s, none)
  | some turnRoot =>
    let fairnessTurn := s.fairnessTurnOf turnRoot
    let natural ← s.naturalSlot (← laneOf lanes turnRoot) fairnessTurn
    let urgent ← s.preemption lanes natural fairnessTurn
    let (s, a) ← s.admitSlot turnRoot fairnessTurn (urgent.getD natural) urgent.isSome
    return (s, some a)

structure Turn where
  before : State
  admitted : Option Admission

def pumpLoop : ℕ → State → Except Panic (State × List Turn)
  | 0, _ => .error .outOfFuel
  | n + 1, s =>
    if s.activeTotal < s.settings.maxActiveEngine then do
      match ← s.pumpTurn with
      | (s', none) => return (s', [⟨s, none⟩])
      | (s', some a) =>
        let (s'', turns) ← pumpLoop n s'
        return (s'', ⟨s, some a⟩ :: turns)
    else return (s, [])

def pump : Except Panic (State × List Turn) :=
  pumpLoop (s.queue.elems.length + 1) s

def hasRoot : Bool :=
  s.entries.entries.any fun e => e.2.scope.root = root

def forgetRoot : State :=
  if s.hasRoot root then s
  else { s with
    resumeBurst := s.resumeBurst.erase root
    roots := s.roots.filter (· ≠ root) }

def remove : Except Panic (State × Option Entry) :=
  match s.entries.lookup id with
  | none => .ok (s, none)
  | some e => do
    let s := { s with
      entries := s.entries.erase id
      byRun := s.byRun.erase e.run
      queue := s.queue.erase (toLex (e.seq, id)) }
    let s ← if e.state = .active then s.discharge e.scope else pure s
    return (s.forgetRoot e.scope.root, some e)

def settle (waiter : Option ChannelId) (channel : Channel) : State :=
  { s with channels := conclude s.channels waiter channel }

def beginWait :
    Except Panic (State × List Turn × Except AdmissionError ChannelId) := do
  let ch := s.nextChannel
  let readySeq := s.nextSeq
  let s := { s with nextSeq := s.nextSeq + 1, nextChannel := ch + 1 }
  match s.entries.lookup id with
  | none => return (s, [], .error .gone)
  | some e =>
    match e.state with
    | .active => return (s.settle (some ch) (.sent (.ok ())), [], .ok ch)
    | .pending => return (s, [], .error .gone)
    | .reserved | .parked | .evicted =>
      let s := { s with
        entries := s.entries.insert id
          { e with state := .pending, readySeq := readySeq, waiter := some ch }
        channels := s.channels.insert ch .waiting
        queue := s.queue.insert (toLex (e.seq, id)) }
      let (s, turns) ← s.pump
      return (s, turns, .ok ch)

def abandon : Except Panic (State × List Turn) := do
  match ← s.remove id with
  | (s, none) => return (s, [])
  | (s, some e) => (s.settle e.waiter .closed).pump

def park :
    Except Panic (State × List Turn × Except AdmissionError Unit) := do
  let parkedSeq := s.nextSeq
  let s := { s with nextSeq := s.nextSeq + 1 }
  match s.entries.lookup id with
  | none => return (s, [], .error .gone)
  | some e =>
    if e.state ≠ .active then return (s, [], .error .gone)
    else if e.cancelRequested then return (s, [], .error .cancelled)
    else
      let s := { s with
        entries := s.entries.insert id
          { e with state := .parked, parkCount := e.parkCount + 1, parkedSeq := parkedSeq } }
      let s ← s.discharge e.scope
      let (s, turns) ← s.evictParkedOverResidency.pump
      return (s, turns, .ok ())

def cancelWaiting : Except Panic (State × List Turn × Bool) := do
  match ← s.remove id with
  | (s, none) => return (s, [], false)
  | (s, some e) =>
    let (s, turns) ← (s.settle e.waiter (.sent (.error .cancelled))).pump
    return (s, turns, true)

def cancel : Except Panic (State × List Turn × Bool) :=
  match s.entries.lookup id with
  | some e =>
    if e.state = .active then
      if e.cancelRequested then .ok (s, [], false)
      else .ok ({ s with entries := s.entries.insert id { e with cancelRequested := true } },
        [], true)
    else s.cancelWaiting id
  | none => s.cancelWaiting id

def cancelRun (run : RunKey) : Except Panic (State × List Turn × Bool) :=
  match s.byRun.lookup run with
  | some id => s.cancel id
  | none => .ok (s, [], false)

def configure (settings : Settings) :
    Except Panic (State × List Turn × Except SettingsError Unit) :=
  match settings.validate with
  | .error err => .ok (s, [], .error err)
  | .ok () => do
    let s := { s with settings := settings }
    let quantum := (s.lastRoot.map s.settings.rootQuantum).getD 0
    let s := { s with rootCredit := min s.rootCredit quantum }
    let (s, turns) ← s.evictParkedOverResidency.pump
    return (s, turns, .ok ())

variable (request : AdmissionRequest)

def newEntry : Entry where
  run := request.run
  scope := request.scope
  depth := request.depth
  seq := s.nextSeq
  readySeq := s.nextSeq
  parkedSeq := 0
  state := .reserved
  priority := request.priority.getD s.settings.defaultPriority
  parkCount := 0
  evictCount := 0
  cancelRequested := false
  waiter := none

def reserved : State :=
  { s with
    nextId := s.nextId + 1
    nextSeq := s.nextSeq + 1
    entries := s.entries.insert s.nextId (s.newEntry request)
    roots := if request.scope.root ∈ s.roots then s.roots
      else s.roots ++ [request.scope.root]
    byRun := s.byRun.insert request.run s.nextId }

def reserve :
    State × Except AdmissionError TicketId :=
  if !s.settings.enabled then (s, .error .disabled)
  else if request.depth > s.settings.maxSubchatDepth then
    (s, .error (.depthExceeded request.depth s.settings.maxSubchatDepth))
  else if (s.byRun.lookup request.run).isSome then (s, .error (.duplicate request.run))
  else if s.outstanding ≥ s.settings.maxOutstanding then
    (s, .error (.outstandingFull s.outstanding s.settings.maxOutstanding))
  else
    let queued := s.counts.1 + s.counts.2.1
    if queued ≥ s.settings.maxPending then
      (s, .error (.queueFull queued s.settings.maxPending))
    else (s.reserved request, .ok s.nextId)

end State

inductive Op where
  | reserve (request : AdmissionRequest)
  | beginWait (id : TicketId)
  | park (id : TicketId)
  | cancel (id : TicketId)
  | cancelRun (run : RunKey)
  | abandon (id : TicketId)
  | configure (settings : Settings)

def perform (s : State) : Op → Except Panic (State × List State.Turn)
  | .reserve request => .ok ((s.reserve request).1, [])
  | .beginWait id => (s.beginWait id).map fun r => (r.1, r.2.1)
  | .park id => (s.park id).map fun r => (r.1, r.2.1)
  | .cancel id => (s.cancel id).map fun r => (r.1, r.2.1)
  | .cancelRun run => (s.cancelRun run).map fun r => (r.1, r.2.1)
  | .abandon id => s.abandon id
  | .configure settings => (s.configure settings).map fun r => (r.1, r.2.1)

def runOps (s : State) : List Op → Except Panic (State × List State.Turn)
  | [] => .ok (s, [])
  | op :: ops => do
    let (s', turns) ← perform s op
    let (s'', more) ← runOps s' ops
    return (s'', turns ++ more)

end AdmissionScheduler
