import RefactEngine.LeaseFencing

/-! # The durable delivery outbox

A delivery is written to the store before it counts as accepted. Each operation of the outbox
reads the row of its message, checks it, and writes a whole row back in a second store call.
Any number of callers run these calls in any order, and a caller may crash between two of them.
-/
namespace DeliveryOutbox

open WorkIdentity CoordinationStore

inductive DeliveryState where
  | pending
  | inFlight
  | delivered
  | consumed
  | failed
  | expired
  | superseded
  | cancelled
  deriving DecidableEq

def DeliveryState.isTerminal : DeliveryState → Bool
  | .pending => false
  | .inFlight => false
  | _ => true

inductive DeliveryStatus where
  | pending
  | delivered
  | consumed
  | expired
  | superseded
  | sealed
  | failed
  | unknown
  deriving DecidableEq

def stateForStatus : DeliveryStatus → Option DeliveryState
  | .pending => some .pending
  | .delivered => some .delivered
  | .consumed => some .consumed
  | .expired => some .expired
  | .superseded => some .superseded
  | .sealed => some .failed
  | .failed => some .failed
  | .unknown => none

structure DeliveryOutboxRecord where
  project : ProjectKey
  messageId : String
  recipient : String
  state : DeliveryState
  attempts : ℤ
  createdAtMs : ℤ
  updatedAtMs : ℤ
  payload : String
  deriving DecidableEq

structure PendingDelivery where
  id : String
  payload : String
  deriving DecidableEq

abbrev OutboxTable := AList fun _ : ProjectKey × String => DeliveryOutboxRecord

variable (table : OutboxTable)

def putOutboxMessage (record : DeliveryOutboxRecord) : OutboxTable :=
  match table.lookup (record.project, record.messageId) with
  | none => table.insert (record.project, record.messageId) record
  | some held =>
    table.insert (record.project, record.messageId)
      { record with createdAtMs := held.createdAtMs }

variable (project : ProjectKey)

def getOutboxMessage (messageId : String) :
    Option DeliveryOutboxRecord :=
  table.lookup (project, messageId)

variable (record : DeliveryOutboxRecord)

def outboxOrder : ℤ ×ₗ String :=
  toLex (record.createdAtMs, record.messageId)

def listOutboxMessagesInStates
    (states : List DeliveryState) (limit : ℕ) : List DeliveryOutboxRecord :=
  let rows := (table.entries.filter fun row => row.1.1 = project ∧ row.2.state ∈ states).map
    Sigma.snd
  (rows.insertionSort fun a b => outboxOrder a ≤ outboxOrder b).take limit

def acceptedRecord (recipient : String) (delivery : PendingDelivery)
    (nowMs : ℤ) : DeliveryOutboxRecord where
  project := project
  messageId := delivery.id
  recipient := recipient
  state := .pending
  attempts := 0
  createdAtMs := nowMs
  updatedAtMs := nowMs
  payload := delivery.payload

/-- A transition does nothing to a row that is settled or that is in the state already. -/
def skipsTransition (state : DeliveryState) : Bool :=
  record.state.isTerminal || record.state = state

def transitioned (state : DeliveryState) (bumpAttempts : Bool)
    (nowMs : ℤ) : DeliveryOutboxRecord :=
  { record with
    state := state
    attempts := if bumpAttempts then saturatingAdd record.attempts 1 else record.attempts
    updatedAtMs := nowMs }

structure OutboxRecovery where
  redeliver : List (String × PendingDelivery)
  needsInspection : List DeliveryOutboxRecord

/-- What a restart has to act on. A payload that does not decode is reported, not dropped. -/
def recover (decode : String → Option PendingDelivery) (table : OutboxTable)
    (project : ProjectKey) (limit : ℕ) : OutboxRecovery :=
  let pending := listOutboxMessagesInStates table project [.pending] limit
  { redeliver := pending.filterMap fun record =>
      (decode record.payload).map fun delivery => (record.recipient, delivery)
    needsInspection := listOutboxMessagesInStates table project [.inFlight] limit ++
      pending.filter fun record => decode record.payload = none }

inductive Phase where
  | idle
  -- `persistAccepted` has seen no row; `dispatch` tells `acceptForDispatch` apart
  | persisting (project : ProjectKey) (recipient : String) (delivery : PendingDelivery)
      (dispatch : Bool)
  -- `acceptForDispatch` is about to mark the message dispatched
  | dispatching (project : ProjectKey) (messageId : String)
  -- a transition has read this row and is about to write it back
  | writing (read : DeliveryOutboxRecord) (state : DeliveryState) (bumpAttempts : Bool)

structure World where
  table : OutboxTable
  phase : ℕ → Phase

def World.initial : World := ⟨∅, fun _ => .idle⟩

def afterPersist (messageId : String) (dispatch : Bool) : Phase :=
  if dispatch then .dispatching project messageId else .idle

inductive Begins : Phase → ProjectKey → String → DeliveryState → Bool → Prop where
  | markDispatched (project : ProjectKey) (messageId : String) :
      Begins .idle project messageId .inFlight true
  | acceptForDispatch (project : ProjectKey) (messageId : String) :
      Begins (.dispatching project messageId) project messageId .inFlight true
  | recordStatus (project : ProjectKey) (messageId : String) (status : DeliveryStatus)
      (state : DeliveryState) : stateForStatus status = some state →
      Begins .idle project messageId state false

inductive Action where
  | persistPut (caller : ℕ)
  | transitionPut (caller : ℕ)
  | other
  deriving DecidableEq

/-- One store call or one crash. A call that fails writes nothing and ends the operation. -/
inductive Step : World → Action → World → Prop where
  | persistSees {w : World} (i : ℕ) (project : ProjectKey) (delivery : PendingDelivery)
      (dispatch : Bool) (held : DeliveryOutboxRecord) : w.phase i = .idle →
      getOutboxMessage w.table project delivery.id = some held →
      Step w .other
        ⟨w.table, Function.update w.phase i (afterPersist project delivery.id dispatch)⟩
  | persistMisses {w : World} (i : ℕ) (project : ProjectKey) (recipient : String)
      (delivery : PendingDelivery) (dispatch : Bool) : w.phase i = .idle →
      getOutboxMessage w.table project delivery.id = none →
      Step w .other
        ⟨w.table, Function.update w.phase i (.persisting project recipient delivery dispatch)⟩
  | persistPut {w : World} (i : ℕ) (project : ProjectKey) (recipient : String)
      (delivery : PendingDelivery) (dispatch : Bool) (nowMs : ℤ) :
      w.phase i = .persisting project recipient delivery dispatch →
      Step w (.persistPut i)
        ⟨putOutboxMessage w.table (acceptedRecord project recipient delivery nowMs),
          Function.update w.phase i (afterPersist project delivery.id dispatch)⟩
  | transitionMisses {w : World} (i : ℕ) (project : ProjectKey) (messageId : String)
      (state : DeliveryState) (bumpAttempts : Bool) :
      Begins (w.phase i) project messageId state bumpAttempts →
      getOutboxMessage w.table project messageId = none →
      Step w .other ⟨w.table, Function.update w.phase i .idle⟩
  | transitionSkips {w : World} (i : ℕ) (project : ProjectKey) (messageId : String)
      (state : DeliveryState) (bumpAttempts : Bool) (held : DeliveryOutboxRecord) :
      Begins (w.phase i) project messageId state bumpAttempts →
      getOutboxMessage w.table project messageId = some held →
      skipsTransition held state = true →
      Step w .other ⟨w.table, Function.update w.phase i .idle⟩
  | transitionReads {w : World} (i : ℕ) (project : ProjectKey) (messageId : String)
      (state : DeliveryState) (bumpAttempts : Bool) (held : DeliveryOutboxRecord) :
      Begins (w.phase i) project messageId state bumpAttempts →
      getOutboxMessage w.table project messageId = some held →
      skipsTransition held state = false →
      Step w .other ⟨w.table, Function.update w.phase i (.writing held state bumpAttempts)⟩
  | transitionPut {w : World} (i : ℕ) (read : DeliveryOutboxRecord) (state : DeliveryState)
      (bumpAttempts : Bool) (nowMs : ℤ) : w.phase i = .writing read state bumpAttempts →
      Step w (.transitionPut i)
        ⟨putOutboxMessage w.table (transitioned read state bumpAttempts nowMs),
          Function.update w.phase i .idle⟩
  | stop {w : World} (i : ℕ) : Step w .other ⟨w.table, Function.update w.phase i .idle⟩
  -- retention by age and the cap on the table both delete settled rows only
  | prune {w : World} (keys : List (ProjectKey × String)) :
      (∀ key ∈ keys, ∀ held, w.table.lookup key = some held → held.state.isTerminal = true) →
      Step w .other ⟨w.table.eraseAll keys, w.phase⟩

end DeliveryOutbox
