import Mathlib.Data.List.Count
import Mathlib.Data.List.Nodup
import Mathlib.Algebra.Order.Ring.Nat
import RefactEngine.TextLines

/-! # Deliveries to a background agent

A record keeps four lists of deliveries, and its runner the ids that it has claimed. Every list of
ids that only grows is cut to the configured retention.
-/
namespace AgentDeliveries

abbrev Text := List Char

inductive BgAgentStatus where
  | queued
  | running
  | waitingForApproval
  | completed
  | failed
  | cancelled
  | interrupted
  | closed
  deriving DecidableEq

def BgAgentStatus.isTerminal : BgAgentStatus → Bool
  | .completed | .failed | .cancelled | .interrupted | .closed => true
  | .queued | .running | .waitingForApproval => false

inductive PushMode where
  | preempt
  | append
  | whenIdle
  deriving DecidableEq

inductive DeliveryOutcome where
  | queued
  | delivered
  | duplicate
  | expired
  | superseded
  | sealed
  deriving DecidableEq

inductive DeliveryStatus where
  | pending
  | delivered
  | consumed
  | expired
  | superseded
  | sealed
  | failed
  | unknown
  deriving DecidableEq

structure DeliveryStatusRecord where
  id : Text
  status : DeliveryStatus
  deriving DecidableEq

/-- A batch of messages; what the registry only stores and measures is one text. -/
structure PendingDelivery where
  id : Text
  content : Text
  push : PushMode
  wake : Bool
  enqueuedAtMs : ℕ
  expiresAtMs : Option ℕ
  supersedeKey : Option Text
  deriving DecidableEq

structure DeliverySettings where
  deliveryDefaultTtlSecs : ℕ
  deliveryMaxPending : ℕ
  deliveryStatusRetention : ℕ
  agentFollowupMaxCount : ℕ
  agentFollowupMaxBytes : ℕ

def u64Max : ℕ := 2 ^ 64 - 1

def minPlausibleDeliveryEnqueueMs : ℕ := 1700000000000

def deadlineMs (baseMs ttlSecs : ℕ) : ℕ :=
  min (baseMs + min (ttlSecs * 1000) u64Max) u64Max

namespace PendingDelivery

variable (delivery : PendingDelivery)

def setTtlSecs (ttlSecs : ℕ) : PendingDelivery :=
  { delivery with expiresAtMs := some (deadlineMs delivery.enqueuedAtMs ttlSecs) }

def ensureTtlSecs (nowMs ttlSecs : ℕ) : PendingDelivery :=
  let stamped :=
    if delivery.enqueuedAtMs = 0 then { delivery with enqueuedAtMs := nowMs } else delivery
  if stamped.expiresAtMs.isNone then stamped.setTtlSecs ttlSecs else stamped

def ensureRestoredTtlSecs (nowMs ttlSecs : ℕ) : PendingDelivery :=
  let restored :=
    if delivery.expiresAtMs.isNone && decide (delivery.enqueuedAtMs < minPlausibleDeliveryEnqueueMs)
    then { delivery with expiresAtMs := some (deadlineMs nowMs ttlSecs) }
    else delivery
  restored.ensureTtlSecs nowMs ttlSecs

def isExpiredAt (nowMs : ℕ) : Bool :=
  delivery.expiresAtMs.any fun deadline => decide (deadline ≤ nowMs)

def supersedes (delivery other : PendingDelivery) : Bool :=
  decide (delivery.id ≠ other.id) && delivery.supersedeKey.isSome &&
    decide (other.supersedeKey = delivery.supersedeKey)

end PendingDelivery

/-- The deliveries of one record. The ids that the retention pushed out, since they were last
enqueued, are not stored: they are kept here to tell them from lost ones. -/
structure DeliveryLists where
  pendingDeliveries : List PendingDelivery
  followups : List PendingDelivery
  deliveryIds : List Text
  droppedDeliveries : List DeliveryStatusRecord
  pushedOut : List Text
  deriving DecidableEq

def DeliveryLists.empty : DeliveryLists := ⟨[], [], [], [], []⟩

def retained {α : Type*} (retention : ℕ) (entries : List α) : List α :=
  entries.drop (entries.length - retention)

def overflow {α : Type*} (retention : ℕ) (entries : List α) : List α :=
  entries.take (entries.length - retention)

namespace DeliveryLists

def withRecord (dropped : List DeliveryStatusRecord) (record : DeliveryStatusRecord) :
    List DeliveryStatusRecord :=
  dropped.filter (fun earlier => earlier.id ≠ record.id) ++ [record]

variable (cfg : DeliverySettings) (lists : DeliveryLists) (id : Text) (status : DeliveryStatus)

def recordDroppedDelivery : DeliveryLists :=
  let dropped := withRecord lists.droppedDeliveries ⟨id, status⟩
  { lists with
    droppedDeliveries := retained cfg.deliveryStatusRetention dropped
    pushedOut := lists.pushedOut ++ (overflow cfg.deliveryStatusRetention dropped).map (·.id) }

def recordDroppedDeliveries (ids : List Text)
    (status : DeliveryStatus) : DeliveryLists :=
  ids.foldl (fun lists id => lists.recordDroppedDelivery cfg id status) lists

variable (followupBytes : PendingDelivery → ℕ)

def followupsOverflow
    (followups : List PendingDelivery) : Bool :=
  decide (cfg.agentFollowupMaxCount < followups.length) ||
    decide (cfg.agentFollowupMaxBytes < (followups.map followupBytes).sum)

/-- The oldest follow-ups go until the others fit: those that go, and those that stay. -/
def splitFollowups (cfg : DeliverySettings) (followupBytes : PendingDelivery → ℕ) :
    List PendingDelivery → List PendingDelivery × List PendingDelivery
  | [] => ([], [])
  | delivery :: rest =>
    if followupsOverflow cfg followupBytes (delivery :: rest) then
      let (dropped, kept) := splitFollowups cfg followupBytes rest
      (delivery :: dropped, kept)
    else ([], delivery :: rest)

def trimFollowups
    (lists : DeliveryLists) : DeliveryLists :=
  let split := splitFollowups cfg followupBytes lists.followups
  recordDroppedDeliveries cfg { lists with followups := split.2 } (split.1.map (·.id)) .failed

/-- An id that is enqueued again counts as never pushed out. -/
def relist : DeliveryLists :=
  { lists with pushedOut := lists.pushedOut.filter fun pushed => pushed ≠ id }

def isKnown : Bool :=
  lists.deliveryIds.contains id || lists.followups.any (·.id = id) ||
    lists.droppedDeliveries.any (·.id = id) || lists.pendingDeliveries.any (·.id = id)

def settleDelivery (nowMs : ℕ) (lists : DeliveryLists)
    (delivery : PendingDelivery) : DeliveryLists :=
  if delivery.isExpiredAt nowMs then lists.recordDroppedDelivery cfg delivery.id .expired
  else if lists.deliveryIds.contains delivery.id ||
      lists.droppedDeliveries.any (·.id = delivery.id) ||
      lists.followups.any (·.id = delivery.id) then lists
  else { lists with followups := lists.followups ++ [delivery] }

def settleTerminal (nowMs : ℕ)
    (lists : DeliveryLists) : DeliveryLists :=
  trimFollowups cfg followupBytes (lists.pendingDeliveries.foldl (settleDelivery cfg nowMs)
    { lists with pendingDeliveries := [] })

def supersededByKey (found : (Text → Option Text) × List Text) (delivery : PendingDelivery) :
    (Text → Option Text) × List Text :=
  match delivery.supersedeKey with
  | none => found
  | some key => (Function.update found.1 key (some delivery.id), found.2 ++ (found.1 key).toList)

def cutDeliveryIds : DeliveryLists :=
  { lists with
    deliveryIds := retained cfg.deliveryStatusRetention lists.deliveryIds
    pushedOut := lists.pushedOut ++ overflow cfg.deliveryStatusRetention lists.deliveryIds }

def cutDroppedDeliveries : DeliveryLists :=
  { lists with
    droppedDeliveries := retained cfg.deliveryStatusRetention lists.droppedDeliveries
    pushedOut := lists.pushedOut ++
      (overflow cfg.deliveryStatusRetention lists.droppedDeliveries).map (·.id) }

def removePending (ids : List Text) : DeliveryLists :=
  { lists with
    pendingDeliveries := lists.pendingDeliveries.filter fun delivery => delivery.id ∉ ids }

def normalizeDeliveryState
    (nowMs : ℕ) (lists : DeliveryLists) : DeliveryLists :=
  let lists := lists.trimFollowups cfg followupBytes
  let pending := lists.pendingDeliveries.map fun delivery =>
    delivery.ensureRestoredTtlSecs nowMs cfg.deliveryDefaultTtlSecs
  let expired := (pending.filter (·.isExpiredAt nowMs)).map (·.id)
  let superseded := (pending.foldl supersededByKey (fun _ => none, [])).2
  let lists := removePending { lists with pendingDeliveries := pending } (expired ++ superseded)
  let lists := lists.recordDroppedDeliveries cfg expired .expired
  let lists := lists.recordDroppedDeliveries cfg superseded .superseded
  let excess := overflow cfg.deliveryMaxPending lists.pendingDeliveries
  let lists :=
    { lists with pendingDeliveries := retained cfg.deliveryMaxPending lists.pendingDeliveries }
  let lists := lists.recordDroppedDeliveries cfg (excess.map (·.id)) .failed
  (lists.cutDeliveryIds cfg).cutDroppedDeliveries cfg

def reopen : DeliveryLists :=
  { lists with
    pendingDeliveries := lists.followups ++ lists.pendingDeliveries
    followups := [] }

def removeUndelivered : DeliveryLists :=
  { lists with
    pendingDeliveries := lists.pendingDeliveries.filter fun delivery => delivery.id ≠ id
    followups := lists.followups.filter fun delivery => delivery.id ≠ id }

def acknowledgeDelivery :
    DeliveryLists :=
  let lists := lists.removeUndelivered id
  cutDeliveryIds cfg { lists with
    deliveryIds :=
      if lists.deliveryIds.contains id then lists.deliveryIds else lists.deliveryIds ++ [id] }

def settleDeliveryId : DeliveryLists :=
  let lists := lists.removeUndelivered id
  recordDroppedDelivery cfg { lists with
    deliveryIds := lists.deliveryIds.filter fun delivered => delivered ≠ id } id status

def consumeDelivery :
    Except String DeliveryLists :=
  if !(lists.pendingDeliveries ++ lists.followups).any (·.id = id) &&
      !lists.deliveryIds.contains id then .error "delivery was not accepted by this agent"
  else .ok (lists.settleDeliveryId cfg id .consumed)

def recordDeliveryStatus : Except String DeliveryLists :=
  match status with
  | .consumed | .expired | .superseded | .sealed | .failed =>
    .ok (lists.settleDeliveryId cfg id status)
  | .pending | .delivered | .unknown => .error "delivery status is not terminal"

def deliveryStatus : DeliveryStatus :=
  if (lists.pendingDeliveries ++ lists.followups).any (·.id = id) then .pending
  else
    match lists.droppedDeliveries.reverse.find? (·.id = id) with
    | some dropped => dropped.status
    | none => if lists.deliveryIds.contains id then .delivered else .unknown

def updatePendingDelivery
    (push : Option PushMode) (cancel : Bool) : Except String DeliveryLists :=
  match lists.pendingDeliveries.find? (·.id = id) with
  | none => .error "pending delivery not found"
  | some delivery =>
    if cancel then
      .ok (recordDroppedDelivery cfg { lists with
        pendingDeliveries := lists.pendingDeliveries.eraseP (·.id = id) } delivery.id .failed)
    else
      match push with
      | none => .ok lists
      | some push =>
        .ok { lists with
          pendingDeliveries := lists.pendingDeliveries.replaceF fun delivery =>
            if delivery.id = id then some { delivery with push := push } else none }

end DeliveryLists

/-- What a runner holds besides the record: the ids it has claimed, and whether its last turn is
over. -/
structure RunnerDeliveryState where
  claimed : List Text
  sealed : Bool
  deriving DecidableEq

def RunnerDeliveryState.empty : RunnerDeliveryState := ⟨[], false⟩

structure Recipient extends DeliveryLists where
  status : BgAgentStatus
  runGeneration : ℕ
  runtime : Option RunnerDeliveryState
  deriving DecidableEq

structure AgentMessageReceipt where
  outcome : DeliveryOutcome
  finishedStatus : Option BgAgentStatus
  droppedFollowups : List Text
  deriving DecidableEq

namespace Recipient

def claimed (r : Recipient) : List Text :=
  r.runtime.elim [] (·.claimed)

def withLists (r : Recipient) (lists : DeliveryLists) : Recipient :=
  { r with toDeliveryLists := lists }

/-- The pending deliveries that a new one replaces, unless they are claimed. -/
def supersededBy (r : Recipient) (delivery : PendingDelivery) : List Text :=
  if delivery.supersedeKey.isSome then
    (r.pendingDeliveries.filter fun pending =>
      delivery.supersedes pending && decide (pending.id ∉ r.claimed)).map (·.id)
  else []

def acceptFollowup (cfg : DeliverySettings) (followupBytes : PendingDelivery → ℕ) (r : Recipient)
    (delivery : PendingDelivery) : Except String (Recipient × AgentMessageReceipt) :=
  if cfg.agentFollowupMaxBytes < followupBytes delivery then
    .error "message exceeds the configured follow-up byte limit"
  else
    let followups := r.followups ++ [delivery]
    let lists := DeliveryLists.trimFollowups cfg followupBytes
      { r.toDeliveryLists with followups := followups }
    .ok (r.withLists lists, ⟨.queued, some r.status,
      (DeliveryLists.splitFollowups cfg followupBytes followups).1.map (·.id)⟩)

def acceptPending (cfg : DeliverySettings) (r : Recipient) (delivery : PendingDelivery) :
    Except String (Recipient × AgentMessageReceipt) :=
  let superseded := r.supersededBy delivery
  let lists := (r.removePending superseded).recordDroppedDeliveries cfg superseded .superseded
  if cfg.deliveryMaxPending ≤ lists.pendingDeliveries.length then
    .error "agent delivery queue is full"
  else
    .ok (r.withLists { lists with pendingDeliveries := lists.pendingDeliveries ++ [delivery] },
      ⟨.queued, none, []⟩)

/-- What `enqueue_delivery` and, with follow-ups allowed, `enqueue_agent_message` do. -/
def enqueueDelivery (cfg : DeliverySettings) (followupBytes : PendingDelivery → ℕ) (r : Recipient)
    (delivery : PendingDelivery) (allowFollowup : Bool) (nowMs : ℕ) :
    Except String (Recipient × AgentMessageReceipt) :=
  let delivery := delivery.ensureTtlSecs nowMs cfg.deliveryDefaultTtlSecs
  let admitting := r.withLists (r.relist delivery.id)
  if r.isKnown delivery.id then .ok (r, ⟨.duplicate, none, []⟩)
  else if r.status.isTerminal && !allowFollowup then .error "agent already finished"
  else if !r.status.isTerminal && r.runtime.isNone then
    .error "agent is not running in this process"
  else if !r.status.isTerminal && r.runtime.any (·.sealed) then
    .error "agent delivery turn already finished"
  else if delivery.isExpiredAt nowMs then
    .ok (admitting.withLists (admitting.recordDroppedDelivery cfg delivery.id .expired),
      ⟨.expired, none, []⟩)
  else if r.status.isTerminal then admitting.acceptFollowup cfg followupBytes delivery
  else admitting.acceptPending cfg delivery

def updatePendingDelivery (cfg : DeliverySettings) (r : Recipient) (id : Text)
    (push : Option PushMode) (cancel : Bool) : Except String Recipient :=
  if id ∈ r.claimed then .error "delivery is already being applied"
  else (r.toDeliveryLists.updatePendingDelivery cfg id push cancel).map r.withLists

def expireDeliveries (cfg : DeliverySettings) (r : Recipient) (nowMs : ℕ) : Recipient :=
  let expired := (r.pendingDeliveries.filter fun pending =>
    decide (pending.id ∉ r.claimed) && pending.isExpiredAt nowMs).map (·.id)
  r.withLists ((r.removePending expired).recordDroppedDeliveries cfg expired .expired)

def claimPendingDeliveries (cfg : DeliverySettings) (r : Recipient) (sealing : Bool)
    (wanted : PendingDelivery → Bool) (nowMs : ℕ) :
    Recipient × Except String (List PendingDelivery) :=
  match r.runtime with
  | none => (r, .error "agent is not running in this process")
  | some state =>
    let current := r.expireDeliveries cfg nowMs
    if current.status.isTerminal then (current, .error "agent already finished")
    else
      let deliveries := current.pendingDeliveries.filter fun delivery =>
        wanted delivery && decide (delivery.id ∉ state.claimed)
      let claimed : RunnerDeliveryState :=
        { claimed := state.claimed ++ deliveries.map (·.id)
          sealed := if sealing then !deliveries.any (·.wake) else state.sealed }
      ({ current with runtime := some claimed }, .ok deliveries)

def drainDeliveries (cfg : DeliverySettings) (r : Recipient) (idle : Bool) (nowMs : ℕ) :
    Recipient × Except String (List PendingDelivery) :=
  r.claimPendingDeliveries cfg false (fun delivery => idle || delivery.push ≠ .whenIdle) nowMs

def finishDeliveryTurn (cfg : DeliverySettings) (r : Recipient) (nowMs : ℕ) :
    Recipient × Except String (List PendingDelivery) :=
  r.claimPendingDeliveries cfg true (fun _ => true) nowMs

def settle (cfg : DeliverySettings) (followupBytes : PendingDelivery → ℕ) (r : Recipient)
    (status : BgAgentStatus) (nowMs : ℕ) : Recipient :=
  if r.status.isTerminal || !status.isTerminal then r
  else { r.withLists (r.settleTerminal cfg followupBytes nowMs) with status := status }

def retireRuntime (r : Recipient) : Recipient :=
  if r.status.isTerminal then { r with runtime := none } else r

def reopen (r : Recipient) : Recipient :=
  if r.status.isTerminal && r.runtime.isNone then
    { r.withLists r.toDeliveryLists.reopen with
      status := .queued
      runGeneration := r.runGeneration + 1
      runtime := some .empty }
  else r

/-- The registry is loaded again: a live record is interrupted, and every record is terminal. -/
def restart (cfg : DeliverySettings) (followupBytes : PendingDelivery → ℕ) (r : Recipient)
    (nowMs : ℕ) : Recipient :=
  let lists := r.normalizeDeliveryState cfg followupBytes nowMs
  { r.withLists (lists.settleTerminal cfg followupBytes nowMs) with
    status := if r.status.isTerminal then r.status else .interrupted
    runtime := none }

end Recipient

inductive Event where
  | enqueue (delivery : PendingDelivery) (allowFollowup : Bool) (nowMs : ℕ)
  | update (id : Text) (push : Option PushMode) (cancel : Bool)
  | drain (idle : Bool) (nowMs : ℕ)
  | finishTurn (nowMs : ℕ)
  | acknowledge (id : Text)
  | consume (id : Text)
  | recordStatus (id : Text) (status : DeliveryStatus)
  | settle (status : BgAgentStatus) (nowMs : ℕ)
  | retire
  | reopen
  | restart (nowMs : ℕ)

/-- The record with what was answered so far: the ids that were queued, the ids that were
acknowledged, what each run was given, and whether its last turn is over. -/
structure History where
  recipient : Recipient
  accepted : List Text
  acknowledged : List Text
  given : List (ℕ × Text)
  turnOver : Bool

def initial : History :=
  ⟨⟨.empty, .queued, 1, some .empty⟩, [], [], [], false⟩

namespace History

def accept (h : History) (id : Text) (recipient : Recipient) (receipt : AgentMessageReceipt) :
    History :=
  { h with
    recipient := recipient
    accepted := if receipt.outcome = .queued then h.accepted ++ [id] else h.accepted }

def give (h : History) (recipient : Recipient) (deliveries : List PendingDelivery) : History :=
  { h with
    recipient := recipient
    given := h.given ++ deliveries.map fun delivery => (h.recipient.runGeneration, delivery.id) }

def withRecipient (h : History) (recipient : Recipient) : History :=
  { h with recipient := recipient }

end History

def step (cfg : DeliverySettings) (followupBytes : PendingDelivery → ℕ) (h : History) :
    Event → History
  | .enqueue delivery allowFollowup nowMs =>
    match h.recipient.enqueueDelivery cfg followupBytes delivery allowFollowup nowMs with
    | .error _ => h
    | .ok (recipient, receipt) => h.accept delivery.id recipient receipt
  | .update id push cancel =>
    match h.recipient.updatePendingDelivery cfg id push cancel with
    | .error _ => h
    | .ok recipient => h.withRecipient recipient
  | .drain idle nowMs =>
    match h.recipient.drainDeliveries cfg idle nowMs with
    | (recipient, .error _) => h.withRecipient recipient
    | (recipient, .ok deliveries) => h.give recipient deliveries
  | .finishTurn nowMs =>
    match h.recipient.finishDeliveryTurn cfg nowMs with
    | (recipient, .error _) => h.withRecipient recipient
    | (recipient, .ok deliveries) =>
      { h.give recipient deliveries with turnOver := h.turnOver || !deliveries.any (·.wake) }
  | .acknowledge id =>
    { h with
      recipient := h.recipient.withLists (h.recipient.acknowledgeDelivery cfg id)
      acknowledged := h.acknowledged ++ [id] }
  | .consume id =>
    match h.recipient.consumeDelivery cfg id with
    | .error _ => h
    | .ok lists => h.withRecipient (h.recipient.withLists lists)
  | .recordStatus id status =>
    match h.recipient.recordDeliveryStatus cfg id status with
    | .error _ => h
    | .ok lists => h.withRecipient (h.recipient.withLists lists)
  | .settle status nowMs =>
    let recipient := h.recipient.settle cfg followupBytes status nowMs
    { h with recipient := recipient, turnOver := h.turnOver && !recipient.status.isTerminal }
  | .retire => h.withRecipient h.recipient.retireRuntime
  | .reopen => h.withRecipient h.recipient.reopen
  | .restart nowMs =>
    { h with recipient := h.recipient.restart cfg followupBytes nowMs, turnOver := false }

def run (cfg : DeliverySettings) (followupBytes : PendingDelivery → ℕ) (h : History)
    (events : List Event) : History :=
  events.foldl (step cfg followupBytes) h

end AgentDeliveries
