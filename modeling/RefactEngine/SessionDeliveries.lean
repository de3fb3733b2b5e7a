import RefactEngine.AgentDeliveries
import RefactEngine.DeliveryOutbox
import Mathlib.Data.Finset.Lattice.Lemmas

/-! # Deliveries to a chat session

A delivery is a batch of messages that is appended to the history of a chat at a boundary: at once
if it interrupts the turn, between tool calls and their results never, or when the turn is over.
Until then it is pending.
-/
namespace SessionDeliveries

open AgentDeliveries (PushMode DeliveryOutcome deadlineMs minPlausibleDeliveryEnqueueMs retained)
open DeliveryOutbox (DeliveryStatus)

inductive ContextMark where
  | plain
  | legacySummary
  -- a report that replaces all before it, and the ids of its payload if it can be parsed
  | report (payload : Option (List String))
  deriving DecidableEq

/-- The ids of tool calls, the kind of an event and the delivery that a message came with. An id
that is assigned when the message is stored is new: here the message has none. -/
structure ChatMessage where
  messageId : String
  role : String
  toolCalls : Option (List String)
  toolCallId : String
  subkind : Option String
  delivery : Option String
  mark : ContextMark
  deriving DecidableEq

def event (subkind : String) : ChatMessage where
  messageId := ""
  role := "event"
  toolCalls := none
  toolCallId := ""
  subkind := some subkind
  delivery := none
  mark := .plain

inductive ControlKind where
  | plan
  | goal
  deriving DecidableEq

def controlKind (message : ChatMessage) : Option ControlKind :=
  match message.role with
  | "plan" => some .plan
  | "goal" => some .goal
  | "event" =>
    match message.subkind with
    | some "plan_delta" => some .plan
    | some "goal_delta" | some "goal_status" | some "goal_verdict" | some "goal_pursuit" =>
      some .goal
    | _ => none
  | _ => none

variable (messages : List ChatMessage)

def lastReport : Option (ℕ × Option (List String)) :=
  (messages.zipIdx.filterMap fun entry =>
    match entry.1.mark with
    | .report payload => some (entry.2, payload)
    | _ => none).getLast?

def validIds (ids : List String) : Bool := decide (ids.filter (· ≠ "")).Nodup

/-- Where the active history starts after its last report, unless it is not valid. -/
def mutableMessageStart : Option ℕ :=
  let report := (lastReport messages).elim (0, some []) fun report => (report.1 + 1, report.2)
  report.2.bind fun payload =>
    let rest := messages.drop report.1
    if rest.any fun message => decide (message.mark = .legacySummary) then none
    else if validIds (payload ++ rest.map ChatMessage.messageId) then some report.1
    else none

def latestAssistantToolCallWindow (toolCallId : Option String) :
    Option (ℕ × List String) :=
  (mutableMessageStart messages).bind fun start =>
    (messages.zipIdx.drop start).reverse.findSome? fun entry =>
      if entry.1.role ≠ "assistant" then none
      else
        match entry.1.toolCalls with
        | none | some [] => none
        | some calls => if toolCallId.all (· ∈ calls) then some (entry.2, calls) else none

def isToolResult (message : ChatMessage) : Bool :=
  (message.role = "tool" || message.role = "diff") && message.toolCallId ≠ ""

/-- Results up to the next message of a speaker, from the messages after an assistant's. -/
def resultIds : List ChatMessage → List String
  | [] => []
  | message :: rest =>
    if isToolResult message then message.toolCallId :: resultIds rest
    else if message.role ∈ ["assistant", "user", "event", "plan", "goal"] then []
    else resultIds rest

variable (assistantIndex : ℕ)

def resultIdsAfterAssistant : List String :=
  resultIds (messages.drop (assistantIndex + 1))

def answeredIds : List ChatMessage → List String
  | [] => []
  | message :: rest =>
    if isToolResult message then message.toolCallId :: answeredIds rest
    else if message.role ∈ ["event", "plan", "goal"] then answeredIds rest
    else []

def answeredToolCallIdsForInterruption :
    List String :=
  answeredIds (messages.drop (assistantIndex + 1))

def allToolCallIdsHaveResultsAfter
    (toolCallIds : List String) : Bool :=
  toolCallIds.all (· ∈ resultIdsAfterAssistant messages assistantIndex)

def hasPendingToolResultWindow : Bool :=
  ((latestAssistantToolCallWindow messages none).map fun window =>
    !allToolCallIdsHaveResultsAfter messages window.1 window.2).getD false

def toolResultWindowClosedForToolCall (toolCallId : String) : Bool :=
  match latestAssistantToolCallWindow messages (some toolCallId) with
  | some window => allToolCallIdsHaveResultsAfter messages window.1 window.2
  | none => !hasPendingToolResultWindow messages

def clearPendingToolCallsForInterruption : List ChatMessage :=
  match latestAssistantToolCallWindow messages none with
  | none => messages
  | some (assistantIndex, _) =>
    let answered := answeredToolCallIdsForInterruption messages assistantIndex
    messages.modify assistantIndex fun message =>
      match message.toolCalls with
      | none => message
      | some calls =>
        let kept := calls.filter (· ∈ answered)
        { message with toolCalls := if kept = [] then none else some kept }

/-- Fields of a parameter change that are strings, or no object at all. -/
abbrev ThreadPatch := Option (List (String × Option String))

structure PendingDelivery where
  afterToolCallId : Option String
  threadPatch : Option ThreadPatch
  id : String
  messages : List ChatMessage
  push : PushMode
  source : String
  wake : Bool
  enqueuedAtMs : ℕ
  expiresAtMs : Option ℕ
  supersedeKey : Option String

namespace PendingDelivery

variable (delivery : PendingDelivery)

def setTtlSecs (ttlSecs : ℕ) : PendingDelivery :=
  { delivery with expiresAtMs := some (deadlineMs delivery.enqueuedAtMs ttlSecs) }

def ensureTtlSecs (nowMs ttlSecs : ℕ) : PendingDelivery :=
  let stamped :=
    if delivery.enqueuedAtMs = 0 then { delivery with enqueuedAtMs := nowMs } else delivery
  if stamped.expiresAtMs.isNone then stamped.setTtlSecs ttlSecs else stamped

def ensureRestoredTtlSecs (nowMs ttlSecs : ℕ) : PendingDelivery :=
  let restored :=
    if delivery.expiresAtMs.isNone && decide (delivery.enqueuedAtMs < minPlausibleDeliveryEnqueueMs)
    then { delivery with expiresAtMs := some (deadlineMs nowMs ttlSecs) }
    else delivery
  restored.ensureTtlSecs nowMs ttlSecs

def isExpiredAt (nowMs : ℕ) : Bool :=
  delivery.expiresAtMs.any fun deadline => decide (deadline ≤ nowMs)

def supersedes (delivery other : PendingDelivery) : Bool :=
  decide (delivery.id ≠ other.id) && delivery.supersedeKey.isSome &&
    decide (other.supersedeKey = delivery.supersedeKey)

def stampMessages : List ChatMessage :=
  delivery.messages.map fun message => { message with delivery := some delivery.id }

def kinds : List ControlKind :=
  delivery.messages.filterMap controlKind

end PendingDelivery

structure DeliveryStatusRecord where
  id : String
  status : DeliveryStatus

inductive SessionState where
  | idle
  | generating
  | executingTools
  | paused
  | waitingIde
  | waitingUserInput
  | completed
  | error
  deriving DecidableEq

/-- `newId` gives an id that is not among those seen, and `modeId` the id of a mode. -/
structure Settings where
  deliveryDefaultTtlSecs : ℕ
  deliveryMaxPending : ℕ
  deliveryStatusRetention : ℕ
  maxQueueSize : ℕ
  newId : List String → String
  modeId : String → String

/-- Of drafts and waits there is only whether there are any. The ids that were ever seen here are
not stored. -/
structure ChatSession where
  closed : Bool
  messages : List ChatMessage
  draft : Bool
  state : SessionState
  turnDepth : ℕ
  compressing : Bool
  plannerPaused : Bool
  plannerPausePendingTools : Bool
  waitDeliveryBoundary : Bool
  interruptibleWaits : ℕ
  waitToolWindowActive : Bool
  commandsQueued : Bool
  mode : String
  model : String
  pendingDeliveries : List PendingDelivery
  runnerPendingDeliveries : List PendingDelivery
  postToolSideEffects : List ChatMessage
  deliveredDeliveryIds : Finset String
  droppedDeliveries : List DeliveryStatusRecord
  seenIds : List String

/-- A delivery that leaves the queue for the history, the session right before, and the session
that the messages are appended to. -/
structure Landing where
  before : ChatSession
  delivery : PendingDelivery
  appendedTo : ChatSession

namespace ChatSession

variable (cfg : Settings)

variable (session : ChatSession) (id : String)

def knowsDeliveryId : Bool :=
  decide (id ∈ session.deliveredDeliveryIds) || session.droppedDeliveries.any (·.id = id) ||
    session.pendingDeliveries.any (·.id = id) || session.runnerPendingDeliveries.any (·.id = id)

def addMessageAtBoundary (message : ChatMessage) : ChatSession :=
  { session with messages := session.messages ++ [message] }

variable (nowMs : ℕ)

/-- An event that must not come between a tool call and its results is delivered instead. -/
def addMessage (session : ChatSession) (message : ChatMessage) : ChatSession :=
  if message.role = "event" && (session.draft || hasPendingToolResultWindow session.messages ||
      session.compressing) then
    let id := cfg.newId session.seenIds
    { session with
      pendingDeliveries := session.pendingDeliveries ++
        [{ afterToolCallId := none, threadPatch := none, id := id, messages := [message],
           push := .append, source := "chat.session", wake := false, enqueuedAtMs := nowMs,
           expiresAtMs := none, supersedeKey := none }]
      seenIds := id :: session.seenIds }
  else session.addMessageAtBoundary message

def turnFinished : Bool :=
  decide (session.turnDepth = 0) &&
    decide (session.state ∈ [.idle, .completed, .error, .waitingUserInput])

def interruptWaitForDelivery : ChatSession :=
  if (session.waitToolWindowActive && session.commandsQueued) ||
      (decide (0 < session.interruptibleWaits) &&
        (session.pendingDeliveries ++ session.runnerPendingDeliveries).any fun delivery =>
          decide (delivery.push ≠ .preempt) && delivery.afterToolCallId.isNone) then
    { session with waitDeliveryBoundary := true }
  else session

def deliveryBoundaryOpen (push : PushMode) : Bool :=
  if session.compressing then false
  else
    match push with
    | .preempt => true
    | .append => !session.draft && !hasPendingToolResultWindow session.messages
    | .whenIdle => !session.draft && !hasPendingToolResultWindow session.messages &&
      (session.turnFinished || session.waitDeliveryBoundary)

def controlsBefore (delivery : PendingDelivery) : Bool :=
  let earlier := (session.pendingDeliveries.takeWhile fun pending =>
    decide (pending.id ≠ delivery.id)).filter fun pending => !delivery.supersedes pending
  !delivery.kinds.isEmpty &&
    (earlier.flatMap PendingDelivery.messages ++ session.postToolSideEffects).any fun message =>
      (controlKind message).any (· ∈ delivery.kinds)

def afterToolCallOpen (delivery : PendingDelivery) : Bool :=
  match delivery.afterToolCallId with
  | none => true
  | some toolCallId =>
    !((toolCallId = "" && decide (session.state ∈ [.generating, .executingTools])) ||
      !session.deliveryBoundaryOpen .append ||
      !toolResultWindowClosedForToolCall session.messages toolCallId)

def deliveryEnvelopeBoundaryOpen (delivery : PendingDelivery) : Bool :=
  if session.plannerPaused || session.plannerPausePendingTools then false
  else if session.controlsBefore delivery then false
  else session.afterToolCallOpen delivery && session.deliveryBoundaryOpen delivery.push

def applySetparamsPatch (patch : ThreadPatch) : ChatSession :=
  let field (key : String) : Option String := (patch.bind (·.lookup key)).join
  { session with
    model := (field "model").getD session.model
    mode := ((field "mode").map cfg.modeId).getD session.mode }

/-- The parameters change first, then the messages come with the stamp of the delivery. -/
def appendDelivery (session : ChatSession) (delivery : PendingDelivery) :
    ChatSession :=
  let patched :=
    match delivery.threadPatch with
    | none => session
    | some patch =>
      let changed := session.applySetparamsPatch cfg patch
      if changed.mode ≠ session.mode then changed.addMessage cfg nowMs (event "mode_switch")
      else changed
  { patched with
    messages := patched.messages ++ delivery.stampMessages
    deliveredDeliveryIds := insert delivery.id patched.deliveredDeliveryIds }

def isActive : Bool :=
  decide (session.state ∈ [.generating, .executingTools])

def preemptForDelivery (session : ChatSession) : ChatSession :=
  if !session.draft && !session.isActive then session
  else
    let cleared := { session with
      draft := false
      messages := clearPendingToolCallsForInterruption session.messages }
    { cleared.addMessage cfg nowMs (event "cancellation_note") with
      state := .idle
      compressing := false }

def interruptedFor (session : ChatSession) (delivery : PendingDelivery) :
    ChatSession :=
  if delivery.push = .preempt then session.preemptForDelivery cfg nowMs else session

def landing (session : ChatSession) (delivery : PendingDelivery) : Landing :=
  ⟨session, delivery, session.interruptedFor cfg nowMs delivery⟩

def landDelivery (session : ChatSession) (delivery : PendingDelivery) : ChatSession :=
  (session.interruptedFor cfg nowMs delivery).appendDelivery cfg nowMs delivery

def recordDroppedDelivery (status : DeliveryStatus) :
    ChatSession :=
  { session with
    droppedDeliveries := retained cfg.deliveryStatusRetention
      (session.droppedDeliveries.filter (fun known => known.id ≠ id) ++ [⟨id, status⟩]) }

def recordDroppedDeliveries (ids : List String) (status : DeliveryStatus) :
    ChatSession :=
  ids.foldl (fun session id => session.recordDroppedDelivery cfg id status) session

def dropPending (dropped : PendingDelivery → Bool)
    (status : DeliveryStatus) : ChatSession :=
  let ids := (session.pendingDeliveries.filter dropped).map PendingDelivery.id
  { session with
    pendingDeliveries := session.pendingDeliveries.filter fun pending => pending.id ∉ ids
    : ChatSession }.recordDroppedDeliveries cfg ids status

def expirePendingDeliveries (session : ChatSession) : ChatSession :=
  session.dropPending cfg (fun pending => pending.isExpiredAt nowMs) .expired

def supersedePending (incoming : PendingDelivery) : ChatSession :=
  session.dropPending cfg incoming.supersedes .superseded

def dropSealedDelivery : ChatSession × DeliveryOutcome :=
  if session.knowsDeliveryId id then (session, .duplicate)
  else
    ({ session with seenIds := id :: session.seenIds : ChatSession }.recordDroppedDelivery cfg id
      .sealed, .sealed)

def deliveryStatus : DeliveryStatus :=
  if id ∈ session.deliveredDeliveryIds then .delivered
  else if session.pendingDeliveries.any (·.id = id) then .pending
  else ((session.droppedDeliveries.reverse.find? (·.id = id)).map (·.status)).getD .unknown

def maxPendingDeliveries : ℕ := min cfg.maxQueueSize cfg.deliveryMaxPending

def patchError (patch : ThreadPatch) : Option String :=
  match patch with
  | none => some "delivery thread_patch must be an object"
  | some fields =>
    if fields.any fun field => !(field.1 = "mode" || field.1 = "model") || field.2.isNone then
      some "delivery thread_patch supports only string mode and model fields"
    else none

/-- Why a delivery is refused. One text stands for whatever makes the active history invalid. -/
def refusal (delivery : PendingDelivery) : Option String :=
  if session.closed then some "chat session is closed"
  else if delivery.messages.isEmpty then some "delivery must contain at least one message"
  else if !delivery.kinds.isEmpty && (mutableMessageStart session.messages).isNone then
    some "active history is not valid"
  else delivery.threadPatch.bind patchError

/-- What becomes of a delivery whose id is new: its landing, if it lands at once. -/
def acceptDelivery (session : ChatSession) (delivery : PendingDelivery) :
    ChatSession × List Landing × Except String DeliveryOutcome :=
  let delivery := delivery.ensureTtlSecs nowMs cfg.deliveryDefaultTtlSecs
  if delivery.isExpiredAt nowMs then
    (session.recordDroppedDelivery cfg delivery.id .expired, [], .ok .expired)
  else
    let pendingCount := (session.pendingDeliveries.filter fun pending =>
      !delivery.supersedes pending).length
    let preemptNow := decide (delivery.push = .preempt) &&
      session.deliveryEnvelopeBoundaryOpen delivery
    if maxPendingDeliveries cfg ≤ pendingCount ∧ preemptNow = false then
      (session, [], .error "chat delivery queue is full")
    else
      let session := session.supersedePending cfg delivery
      if preemptNow then
        (session.landDelivery cfg nowMs delivery, [session.landing cfg nowMs delivery],
          .ok .delivered)
      else if session.deliveryEnvelopeBoundaryOpen delivery &&
          !(session.waitDeliveryBoundary && !session.pendingDeliveries.isEmpty) then
        (session.appendDelivery cfg nowMs delivery, [⟨session, delivery, session⟩],
          .ok .delivered)
      else
        ({ session with
            pendingDeliveries := session.pendingDeliveries ++ [delivery]
            : ChatSession }.interruptWaitForDelivery, [], .ok .queued)

def enqueueDelivery (session : ChatSession) (delivery : PendingDelivery) :
    ChatSession × List Landing × Except String DeliveryOutcome :=
  match session.refusal delivery with
  | some error => (session, [], .error error)
  | none =>
    if session.knowsDeliveryId delivery.id then (session, [], .ok .duplicate)
    else
      { session with seenIds := delivery.id :: session.seenIds : ChatSession }.acceptDelivery cfg
        nowMs delivery

def lastOpenToolCall : String :=
  ((latestAssistantToolCallWindow session.messages none).bind fun window =>
    if allToolCallIdsHaveResultsAfter session.messages window.1 window.2 then none
    else window.2.getLast?).getD ""

def queuePostToolDelivery (session : ChatSession) (delivery : PendingDelivery) :
    ChatSession × List Landing × Except String DeliveryOutcome :=
  session.enqueueDelivery cfg nowMs
    { delivery with afterToolCallId := some session.lastOpenToolCall }

def splitFirst {α : Type*} (p : α → Bool) : List α → Option (List α × α × List α)
  | [] => none
  | x :: xs =>
    if p x then some ([], x, xs)
    else (splitFirst p xs).map fun split => (x :: split.1, split.2)

def weight (delivery : PendingDelivery) : ℕ :=
  if delivery.push = .preempt || delivery.threadPatch.isSome then 3 else 1

def queueWeight : ℕ := (session.pendingDeliveries.map weight).sum

/-- Each round lands the first pending delivery whose boundary is open. -/
def drainLoop (nowMs : ℕ) : ℕ → ChatSession → List Landing → ChatSession × List Landing
  | 0, session, landed => (session, landed)
  | fuel + 1, session, landed =>
    match splitFirst session.deliveryEnvelopeBoundaryOpen session.pendingDeliveries with
    | none => (session, landed)
    | some (earlier, delivery, later) =>
      let session := { session with pendingDeliveries := earlier ++ later }
      if delivery.id ∈ session.deliveredDeliveryIds then drainLoop nowMs fuel session landed
      else
        drainLoop nowMs fuel (session.landDelivery cfg nowMs delivery)
          (landed ++ [session.landing cfg nowMs delivery])

def drainPendingDeliveries (session : ChatSession) : ChatSession × List Landing :=
  if session.pendingDeliveries.isEmpty then (session, [])
  else
    let session := session.expirePendingDeliveries cfg nowMs
    let (session, landed) := session.drainLoop cfg nowMs session.queueWeight []
    if session.runnerPendingDeliveries.isEmpty && !hasPendingToolResultWindow session.messages &&
        decide (session.interruptibleWaits = 0) && !session.commandsQueued then
      ({ session with waitDeliveryBoundary := false }, landed)
    else (session, landed)

/-- A control that later ones of its kind depend on cannot be cancelled. -/
def cancelPending (earlier : List PendingDelivery)
    (delivery : PendingDelivery) (later : List PendingDelivery) :
    ChatSession × Except String Bool :=
  if (later.flatMap PendingDelivery.messages).any fun message =>
      (controlKind message).any (· ∈ delivery.kinds) then
    (session, .error
      "pending plan/goal control has dependent updates; cancel later updates first")
  else
    ({ session with
        pendingDeliveries := earlier ++ later
        : ChatSession }.recordDroppedDelivery cfg delivery.id .failed, .ok false)

def updatePendingDelivery (deliveryId : String) (push : Option PushMode)
    (cancel : Bool) : ChatSession × Except String Bool :=
  match splitFirst (fun pending => decide (pending.id = deliveryId)) session.pendingDeliveries with
  | none =>
    if deliveryId ∈ session.deliveredDeliveryIds then
      (session, .error ("delivery '" ++ deliveryId ++ "' already delivered"))
    else (session, .error ("unknown pending delivery '" ++ deliveryId ++ "'"))
  | some (earlier, delivery, later) =>
    if cancel then session.cancelPending cfg earlier delivery later
    else
      match push with
      | none => (session, .ok (session.deliveryEnvelopeBoundaryOpen delivery))
      | some push =>
        let changed := { delivery with push := push }
        let session := { session with
          pendingDeliveries := earlier ++ changed :: later
          : ChatSession }.interruptWaitForDelivery
        (session, .ok (session.deliveryEnvelopeBoundaryOpen changed))

def firstOfEach : List PendingDelivery → List PendingDelivery
  | [] => []
  | delivery :: rest =>
    delivery :: (firstOfEach rest).filter fun other => other.id ≠ delivery.id

def pendingDeliveriesForSnapshot : List PendingDelivery :=
  firstOfEach (session.pendingDeliveries ++ session.runnerPendingDeliveries)

def droppedDeliveriesForSnapshot : List DeliveryStatusRecord :=
  session.droppedDeliveries

def mergeDroppedDeliveries (records : List DeliveryStatusRecord) :
    ChatSession :=
  records.foldl (fun session record => session.recordDroppedDelivery cfg record.id record.status)
    session

def restoreDelivery (found : ChatSession × List String) (delivery : PendingDelivery) :
    ChatSession × List String :=
  let (session, seen) := found
  if delivery.messages.isEmpty || decide (delivery.id ∈ session.deliveredDeliveryIds) ||
      decide (delivery.id ∈ seen) then (session, seen)
  else
    let seen := delivery.id :: seen
    let restored := delivery.ensureRestoredTtlSecs nowMs cfg.deliveryDefaultTtlSecs
    if restored.isExpiredAt nowMs then
      (session.recordDroppedDelivery cfg restored.id .expired, seen)
    else
      let session := session.supersedePending cfg restored
      ({ session with pendingDeliveries := session.pendingDeliveries ++ [restored] }, seen)

def restorePendingDeliveries (session : ChatSession)
    (deliveries : List PendingDelivery) : ChatSession :=
  let session := { session with
    deliveredDeliveryIds := session.deliveredDeliveryIds ∪
      (session.messages.filterMap ChatMessage.delivery).toFinset }
  let seen := (session.pendingDeliveries ++ session.runnerPendingDeliveries).map PendingDelivery.id
  (deliveries.foldl (restoreDelivery cfg nowMs) (session, seen)).1

end ChatSession

end SessionDeliveries
