import RefactEngine.AgentDeliveries
import RefactEngine.BreadthFirst
import RefactEngine.QuestionRegistry

/-! # The registry of background agents

A record for each agent, and for each live one what its runner shares with the registry. An
operation takes the lock on the records once or more; what it does under one lock is one function
here. In between it waits for the disk, and others may run. Times are in nanoseconds.
-/
namespace AgentRegistry

open AgentDeliveries QuestionRegistry

inductive CapKind where
  | steps
  | goalTurns
  | goalTokens
  | goalMinutes
  | goalCostCents
  | goalNoProgress
  | contextTokens
  | spawns
  deriving DecidableEq

inductive CapScope where
  | child
  | root
  | project
  | engine
  deriving DecidableEq

structure CapStop where
  key : CapKind
  scope : CapScope
  limit : ℕ
  used : ℕ
  resumable : Bool
  runGeneration : ℕ

def CapStop.valid (stop : CapStop) : Bool :=
  decide (0 < stop.limit) && decide (stop.limit ≤ stop.used) &&
    (decide (stop.scope = .child) || decide (stop.key = .spawns))

def CapStop.parentCanRaiseSteps (stop : CapStop) : Bool :=
  stop.valid && stop.resumable && decide (stop.key = .steps) && decide (stop.scope = .child)

/-- `capStopOfJson` parses JSON; `resultPath` is where the payload of an agent's result is. -/
structure RegistrySettings where
  deliveries : DeliverySettings
  agentClosedRetainedMax : ℕ
  followupBytes : PendingDelivery → ℕ
  capStopOfJson : String → Option CapStop
  resultPath : String → String
  rfc3339 : ℤ → String

def capStopPrefix : List Char := ['C', 'A', 'P', '_', 'S', 'T', 'O', 'P', ':']

variable (cfg : RegistrySettings)

def CapStop.fromError (error : String) : Option CapStop :=
  if capStopPrefix.isPrefixOf error.toList then
    (cfg.capStopOfJson (String.ofList (error.toList.drop capStopPrefix.length))).filter
      CapStop.valid
  else none

structure AgentRunOutcome where
  runGeneration : ℕ
  status : BgAgentStatus
  stepCount : ℕ
  resultSummary : Option String
  error : Option String
  finishedAt : Option ℤ
  worktreeId : Option String
  worktreeBranch : Option String
  mergeStatus : Option String
  deriving DecidableEq

structure BackgroundAgent extends DeliveryLists where
  agentId : String
  parentChatId : String
  childChatId : Option String
  status : BgAgentStatus
  runGeneration : ℕ
  pausedBy : Option String
  progress : Option String
  stepCount : ℕ
  lastActivity : Option String
  currentTool : Option String
  resultSummary : Option String
  resultPayloadPath : Option String
  error : Option String
  editedFiles : List String
  diffSummary : Option String
  conflictSummary : Option String
  deliverableStatus : Option String
  handoff : Option String
  completionMessageId : Option String
  completionPushedAt : Option ℤ
  deferredAt : Option ℤ
  closeReason : Option String
  previousRuns : List AgentRunOutcome
  worktreeId : Option String
  worktreeBranch : Option String
  mergeStatus : Option String
  questions : List QuestionContract
  startedAt : Option ℤ
  finishedAt : Option ℤ
  lastUpdateAt : ℤ
  changeSeq : ℕ
  deriving DecidableEq

def statusText : BgAgentStatus → String
  | .queued => "queued"
  | .running => "running"
  | .waitingForApproval => "waiting_for_approval"
  | .completed => "completed"
  | .failed => "failed"
  | .cancelled => "cancelled"
  | .interrupted => "interrupted"
  | .closed => "closed"

namespace BackgroundAgent

variable (record : BackgroundAgent)

def terminal : Bool := record.status.isTerminal

def touch (now : ℤ) : BackgroundAgent :=
  { record with changeSeq := record.changeSeq + 1, lastUpdateAt := now }

def trimPreviousRuns : BackgroundAgent :=
  { record with
    previousRuns := retained (max cfg.agentClosedRetainedMax 1) record.previousRuns }

def recordPreviousRun (updated previous : BackgroundAgent) :
    BackgroundAgent :=
  trimPreviousRuns cfg { updated with
    previousRuns := updated.previousRuns ++ [{
      runGeneration := previous.runGeneration
      status := previous.status
      stepCount := previous.stepCount
      resultSummary := previous.resultSummary
      error := previous.error
      finishedAt := previous.finishedAt
      worktreeId := previous.worktreeId
      worktreeBranch := previous.worktreeBranch
      mergeStatus := previous.mergeStatus }] }

end BackgroundAgent

def nowMs (now : ℤ) : ℕ := (now / 1000000).toNat

/-- The state that the question service has, with the question withdrawn if it is pending. -/
def settleQuestion (now : ℤ) (questions : Entries) (question : QuestionContract) :
    Entries × QuestionContract :=
  if question.kind ≠ .agentParent then (questions, question)
  else
    let current := (questions.lookup question.id).getD question
    if current.state ≠ .pending then (questions, current)
    else
      match withdraw questions current.id current.asker now with
      | (questions, .ok withdrawn) => (questions, withdrawn)
      | (questions, .error _) => (questions, current)

def settleQuestions (now : ℤ) : Entries → List QuestionContract → Entries × List QuestionContract
  | questions, [] => (questions, [])
  | questions, question :: rest =>
    let first := settleQuestion now questions question
    let others := settleQuestions now first.1 rest
    (others.1, first.2 :: others.2)

def adoptQuestion (known : List QuestionContract) (pending : QuestionContract) :
    List QuestionContract :=
  if pending.kind = .agentParent ∧ ¬ known.any (·.id = pending.id) then known ++ [pending]
  else known

def settleTerminalRecord (cfg : RegistrySettings) (questions : Entries) (now : ℤ)
    (record : BackgroundAgent) : Entries × BackgroundAgent :=
  let lists := record.toDeliveryLists.settleTerminal cfg.deliveries cfg.followupBytes (nowMs now)
  let asked := pendingForAsker questions record.agentId now
  let settled := settleQuestions now asked.1 (asked.2.foldl adoptQuestion record.questions)
  (settled.1, { record with toDeliveryLists := lists, questions := settled.2 })

structure AgentRecords where
  byId : AList fun _ : String => BackgroundAgent
  byChild : AList fun _ : String => String
  cancelledSubtrees : AList fun _ : String => ℕ

namespace AgentRecords

def get (records : AgentRecords) (agentId : String) : Option BackgroundAgent :=
  records.byId.lookup agentId

def unbind (byChild : AList fun _ : String => String) :
    Option String → AList fun _ : String => String
  | none => byChild
  | some child => byChild.erase child

def bind (byChild : AList fun _ : String => String) (agentId : String) :
    Option String → AList fun _ : String => String
  | none => byChild
  | some child => byChild.insert child agentId

/-- The index of child chats follows the record that is replaced and the one that replaces it. -/
def insert (records : AgentRecords) (agentId : String) (record : BackgroundAgent) :
    AgentRecords :=
  { records with
    byId := records.byId.insert agentId record
    byChild := bind (unbind records.byChild ((records.get agentId).bind (·.childChatId))) agentId
      record.childChatId }

def modify (records : AgentRecords) (agentId : String) (f : BackgroundAgent → BackgroundAgent) :
    AgentRecords :=
  { records with byId := records.byId.modify agentId f }

def values (records : AgentRecords) : List BackgroundAgent :=
  records.byId.entries.map (·.2)

end AgentRecords

abbrev Handle := ℕ

structure ParentRun where
  agentId : String
  generation : ℕ
  abortFlag : Handle
  deriving DecidableEq

structure AgentRuntime where
  abortFlag : Handle
  pauseRequested : Bool
  deliveryState : RunnerDeliveryState

structure Registry where
  records : AgentRecords
  runtime : AList fun _ : String => AgentRuntime
  questions : Entries
  aborted : List Handle
  nextHandle : Handle

/-- What an operation has done when it gives up the lock: it failed, it had nothing to change, or
it changed a record and the disk write is next. -/
inductive Written where
  | refused (error : String)
  | unchanged (record : BackgroundAgent)
  | written (record : BackgroundAgent)

variable (g : Registry)

def validateParentRun (chatId : String) (parent : Option ParentRun) :
    Except String Unit :=
  match g.records.byChild.lookup chatId, parent with
  | none, none => .ok ()
  | some agentId, some parent =>
    if agentId ≠ parent.agentId then .error "parent agent run identity changed"
    else
      match g.records.get agentId with
      -- not reached: the index names known agents
      | none => .error "parent agent run identity changed"
      | some record =>
        if record.runGeneration ≠ parent.generation ∨
            (record.terminal ∧ record.status ≠ .completed) ∨ parent.abortFlag ∈ g.aborted ∨
            g.records.cancelledSubtrees.lookup agentId = some parent.generation then
          .error "parent agent run changed or was cancelled"
        else .ok ()
  | _, _ => .error "parent agent run identity changed"

def parentRun (chatId : String) : Except String (Option ParentRun) :=
  match g.records.byChild.lookup chatId with
  | none => .ok none
  | some agentId =>
    match g.records.get agentId with
    -- not reached: the index names known agents
    | none => .error "parent agent run unavailable"
    | some record =>
      if record.terminal then .error "parent agent run has stopped"
      else
        match g.runtime.lookup agentId with
        | none => .error "parent agent run unavailable"
        | some runtime =>
          let parent : ParentRun := ⟨agentId, record.runGeneration, runtime.abortFlag⟩
          (validateParentRun g chatId (some parent)).map fun _ => some parent

namespace Registry

def setAbort (handle : Handle) : Registry :=
  { g with aborted := handle :: g.aborted }

variable (agentId : String)

def abortRuntime : Registry :=
  match g.runtime.lookup agentId with
  | none => g
  | some runtime => g.setAbort runtime.abortFlag

def removeRuntime : Registry :=
  { g with runtime := g.runtime.erase agentId }

/-- The runner goes only if it is the one with this flag. -/
def removeOwnRuntime (handle : Handle) : Registry :=
  if (g.runtime.lookup agentId).any fun runtime => runtime.abortFlag = handle then
    g.removeRuntime agentId
  else g

def store (record : BackgroundAgent) : Registry :=
  { g with records := g.records.insert agentId record }

def storeSettled (cfg : RegistrySettings) (g : Registry) (agentId : String)
    (record : BackgroundAgent) (now : ℤ) : Registry × BackgroundAgent :=
  let settled := settleTerminalRecord cfg g.questions now record
  let record := settled.2.touch now
  (({ g with questions := settled.1 }).store agentId record, record)

end Registry

section Updates

variable (cfg : RegistrySettings) (g : Registry) (agentId : String) (now : ℤ)

def updateRecord (update : BackgroundAgent → Except String BackgroundAgent) :
    Registry × Written :=
  match g.records.get agentId with
  | none => (g, .refused "agent not found")
  | some current =>
    match update current with
    | .error error => (g, .refused error)
    | .ok updated => (g.store agentId (updated.touch now), .written (updated.touch now))

def updateRecordIfNotTerminal (update : BackgroundAgent → BackgroundAgent) : Registry × Written :=
  match g.records.get agentId with
  | none => (g, .refused "agent not found")
  | some current =>
    if current.terminal then (g, .unchanged current)
    else
      let updated := (update current).touch now
      (g.store agentId updated, .written updated)

def markRunning (childChatId : String) : Registry × Written :=
  updateRecordIfNotTerminal g agentId now fun record =>
    { record with
      status := .running
      childChatId := some childChatId
      startedAt :=
        if record.status = .queued ∨ record.startedAt = none then some now else record.startedAt
      finishedAt := none
      error := none }

def markWaitingForApproval : Registry × Written :=
  updateRecordIfNotTerminal g agentId now fun record =>
    { record with status := .waitingForApproval }

def updateProgress (progress : String) (stepCount : ℕ) : Registry × Written :=
  updateRecordIfNotTerminal g agentId now fun record =>
    { record with
      progress := some progress
      stepCount := stepCount
      lastActivity := some (cfg.rfc3339 now) }

def updateActivity (progress : Option String) (stepCount : Option ℕ)
    (currentTool : Option (Option String)) : Registry × Written :=
  updateRecordIfNotTerminal g agentId now fun record =>
    { record with
      progress := progress.orElse fun _ => record.progress
      stepCount := stepCount.getD record.stepCount
      currentTool := currentTool.getD record.currentTool
      lastActivity := some (cfg.rfc3339 now) }

def acknowledgeDelivery (id : Text) : Registry × Written :=
  updateRecord g agentId now fun record =>
    .ok { record with
      toDeliveryLists := record.toDeliveryLists.acknowledgeDelivery cfg.deliveries id }

def completionNoted (messageId : String) (record : BackgroundAgent) : BackgroundAgent :=
  { record with
    completionMessageId := some messageId
    completionPushedAt :=
      if messageId ≠ "pending" ∧ messageId ≠ "deferred" then some now else none
    deferredAt := if messageId = "deferred" then some now else none }

/-- A message id is recorded once; `pending` and `deferred` stand for one that is not known yet. -/
def setCompletionMessageIdForRun (runGeneration : Option ℕ) (messageId : String) :
    Registry × Written :=
  match g.records.get agentId with
  | none => (g, .refused "agent not found")
  | some current =>
    if !current.terminal ||
        runGeneration.any (fun generation => generation ≠ current.runGeneration) then
      (g, .unchanged current)
    else if current.completionMessageId.any fun currentId =>
        currentId ≠ "pending" && currentId ≠ "deferred" then (g, .unchanged current)
    else if current.completionMessageId.any fun currentId =>
        currentId = messageId && currentId ≠ "deferred" then (g, .unchanged current)
    else if current.completionMessageId = some "deferred" ∧ messageId = "pending" then
      (g, .unchanged current)
    else
      let updated := (completionNoted now messageId current).touch now
      (g.store agentId updated, .written updated)

structure AgentCompletion where
  resultSummary : String
  editedFiles : List String
  diffSummary : Option String
  conflictSummary : Option String
  childChatId : Option String
  deliverableStatus : Option String
  handoff : Option String
  deriving DecidableEq

def u32Max : ℕ := 2 ^ 32 - 1

/-- What the `mark_` operations share: the payload, if there is one, is saved under the lock. -/
def markTerminal (payload : Except String Unit) (outcome : BackgroundAgent → BackgroundAgent) :
    Registry × Written :=
  match g.records.get agentId with
  | none => (g, .refused "agent not found")
  | some current =>
    if current.terminal then (g, .unchanged current)
    else
      match payload with
      | .error error => (g, .refused error)
      | .ok () =>
        let settled := g.storeSettled cfg agentId (outcome current) now
        (settled.1, .written settled.2)

def completed (completion : AgentCompletion) (record : BackgroundAgent) : BackgroundAgent :=
  { record with
    status := .completed
    resultSummary := some completion.resultSummary
    resultPayloadPath := some (cfg.resultPath agentId)
    editedFiles := completion.editedFiles
    diffSummary := completion.diffSummary
    conflictSummary := completion.conflictSummary
    deliverableStatus := completion.deliverableStatus
    handoff := completion.handoff
    currentTool := none
    childChatId := completion.childChatId.orElse fun _ => record.childChatId
    error := none
    finishedAt := some now }

def cappedStepCount (error : String) (stepCount : ℕ) : ℕ :=
  match CapStop.fromError cfg error with
  | none => stepCount
  | some stop =>
    if stop.key = .steps ∨ stop.key = .goalTurns then max stepCount (min stop.used u32Max)
    else stepCount

def failed (error : String) (record : BackgroundAgent) : BackgroundAgent :=
  { record with
    status := .failed
    stepCount := cappedStepCount cfg error record.stepCount
    error := some error
    currentTool := none
    resultPayloadPath := some (cfg.resultPath agentId)
    finishedAt := some now }

def cancelled (reason : Option String) (record : BackgroundAgent) : BackgroundAgent :=
  { record with
    status := .cancelled
    error := reason
    currentTool := none
    finishedAt := some now }

def interrupted (reason : String) (record : BackgroundAgent) : BackgroundAgent :=
  { record with
    status := .interrupted
    error := some reason
    currentTool := none
    finishedAt := some now }

def closed (reason : Option String) (record : BackgroundAgent) : BackgroundAgent :=
  { record with
    status := .closed
    closeReason := reason
    currentTool := none
    finishedAt := some now }

def markCompleted (completion : AgentCompletion) (payload : Except String Unit) :
    Registry × Written :=
  markTerminal cfg g agentId now payload (completed cfg agentId now completion)

def markFailed (error : String) (payload : Except String Unit) : Registry × Written :=
  markTerminal cfg g agentId now payload (failed cfg agentId now error)

def markCancelled (reason : Option String) (payload : Except String Unit) : Registry × Written :=
  markTerminal cfg g agentId now payload fun record =>
    { cancelled now reason record with resultPayloadPath := some (cfg.resultPath agentId) }

def markInterrupted (reason : String) : Registry × Written :=
  markTerminal cfg g agentId now (.ok ()) (interrupted now reason)

def markClosed (parentChatId : Option String) (expectedRunGeneration : Option ℕ)
    (reason : Option String) : Registry × Written :=
  match (g.records.get agentId).filter fun record =>
      parentChatId.all fun parent => record.parentChatId = parent with
  | none => (g, .refused "agent not found")
  | some current =>
    if expectedRunGeneration.any fun generation => generation ≠ current.runGeneration then
      (g, .refused
        "agent moved to another generation; inspect its current state before closing")
    else if current.status = .closed then (g, .unchanged current)
    else if current.terminal then
      (g, .refused ("agent already finished as " ++ statusText current.status ++
        "; only a live agent can be closed"))
    else
      let settled := g.storeSettled cfg agentId (closed now reason current) now
      (settled.1.abortRuntime agentId, .written settled.2)

/-- The runner of a terminal run goes; one that is asked to pause is told to stop. -/
def retireRuntime (generation : ℕ) : Registry :=
  match g.records.get agentId with
  | none => g
  | some record =>
    if record.runGeneration ≠ generation ∨ ¬ record.terminal then g
    else
      match g.runtime.lookup agentId with
      | none => g
      | some runtime =>
        if runtime.pauseRequested then (g.removeRuntime agentId).setAbort runtime.abortFlag
        else g.removeRuntime agentId

end Updates

structure CreateAgentRequest where
  parentChatId : String
  worktreeId : Option String
  worktreeBranch : Option String

def newRecord (request : CreateAgentRequest) (agentId : String) (now : ℤ) : BackgroundAgent where
  toDeliveryLists := .empty
  agentId := agentId
  parentChatId := request.parentChatId
  childChatId := none
  status := .queued
  runGeneration := 1
  pausedBy := none
  progress := none
  stepCount := 0
  lastActivity := none
  currentTool := none
  resultSummary := none
  resultPayloadPath := none
  error := none
  editedFiles := []
  diffSummary := none
  conflictSummary := none
  deliverableStatus := none
  handoff := none
  completionMessageId := none
  completionPushedAt := none
  deferredAt := none
  closeReason := none
  previousRuns := []
  worktreeId := request.worktreeId
  worktreeBranch := request.worktreeBranch
  mergeStatus := none
  questions := []
  startedAt := none
  finishedAt := none
  lastUpdateAt := now
  changeSeq := 1

section Launching

variable (cfg : RegistrySettings) (g : Registry) (now : ℤ)

def publish (agentId : String) (record : BackgroundAgent) : Registry :=
  { g.store agentId record with
    runtime := g.runtime.insert agentId ⟨g.nextHandle, record.pausedBy.isSome, .empty⟩
    nextHandle := g.nextHandle + 1 }

def createWithId (request : CreateAgentRequest) (agentId : String) (parent : Option ParentRun) :
    Except String (BackgroundAgent × Registry) :=
  let record := newRecord request agentId now
  if (g.records.get agentId).isSome then .error "agent id already exists"
  else
    match validateParentRun g record.parentChatId parent with
    | .error error => .error error
    | .ok () => .ok (record, publish g agentId record)

def launchFailed (error : String) (record : BackgroundAgent) : BackgroundAgent :=
  { record with
    status := .failed
    error := some error
    finishedAt := some now }

/-- A first run whose record could not be saved. -/
def createUnsaved (agentId : String) (handle : Handle) (error : String) : Registry :=
  let g := (g.setAbort handle).removeOwnRuntime agentId handle
  match g.records.get agentId with
  | none => g
  | some record =>
    if record.runGeneration = 1 ∧ ¬ record.terminal then
      let settled := settleTerminalRecord cfg g.questions now (launchFailed now error record)
      { g with
        questions := settled.1
        records := g.records.modify agentId fun _ => settled.2.touch now }
    else g

def reopened (previous : BackgroundAgent) : BackgroundAgent :=
  let updated := BackgroundAgent.recordPreviousRun cfg
    { previous with runGeneration := previous.runGeneration + 1 } previous
  BackgroundAgent.touch { updated with
    toDeliveryLists := updated.toDeliveryLists.reopen
    status := .queued
    closeReason := none
    error := none
    finishedAt := none
    completionMessageId := none
    completionPushedAt := none
    deferredAt := none
    resultSummary := none
    resultPayloadPath := none
    currentTool := none
    mergeStatus := none } now

def recoverable (record : BackgroundAgent) : Bool :=
  decide (record.status = .failed) &&
    (record.error.bind (CapStop.fromError cfg)).any CapStop.parentCanRaiseSteps

def reopenForParentRun (agentId parentChatId : String) (expectedChangeSeq : ℕ)
    (requireCap : Bool) (parent : Option ParentRun) :
    Except String (BackgroundAgent × BackgroundAgent × Registry) :=
  match validateParentRun g parentChatId parent with
  | .error error => .error error
  | .ok () =>
    match g.records.get agentId with
    | none => .error "agent not found"
    | some previous =>
      if previous.parentChatId ≠ parentChatId then .error "agent is not owned by this parent"
      else if previous.changeSeq ≠ expectedChangeSeq then
        .error "agent changed; inspect its current state before resuming"
      else if requireCap ∧ ¬ recoverable cfg previous then
        .error "agent is not stopped by a recoverable cap"
      else if ¬ previous.terminal then .error "agent has not stopped"
      else if (g.runtime.lookup agentId).isSome then
        .error "agent's previous runner is still finishing"
      else
        let updated := reopened cfg now previous
        .ok (previous, updated, publish g agentId updated)

def restored (previous : BackgroundAgent) (changeSeq : ℕ) : BackgroundAgent :=
  BackgroundAgent.touch { previous with changeSeq := changeSeq } now

/-- A later run whose record could not be saved: a newer change of the record stays. -/
def reopenUnsaved (agentId : String) (handle : Handle) (previous updated : BackgroundAgent) :
    Registry :=
  let g := (g.setAbort handle).removeOwnRuntime agentId handle
  if (g.records.get agentId).any fun record => record.changeSeq = updated.changeSeq then
    g.store agentId (restored now previous updated.changeSeq)
  else g

/-- A launch whose record was saved is over, unless it was cancelled meanwhile. -/
def createSaved (handle : Handle) : Except String Unit :=
  if handle ∈ g.aborted then .error "launch cancelled during registry insertion" else .ok ()

def reopenSaved (agentId : String) (handle : Handle) : Except String Unit :=
  if handle ∈ g.aborted ∨ (g.records.get agentId).all (fun record => record.status ≠ .queued) then
    .error "agent changed while reopening"
  else .ok ()

/-- A queued run that was not accepted gives way to the run before it. Whether it did. -/
def rollbackUnacceptedResume (previous queued : BackgroundAgent) (abort : Handle)
    (configAbsent : Bool) : Option (BackgroundAgent × Registry) :=
  if ¬ configAbsent then none
  else if previous.runGeneration + 1 ≠ queued.runGeneration ∨
      previous.agentId ≠ queued.agentId ∨ previous.parentChatId ≠ queued.parentChatId ∨
      ¬ previous.terminal ∨
      (g.records.get queued.agentId).all (fun current =>
        current.runGeneration ≠ queued.runGeneration ∨ current.changeSeq ≠ queued.changeSeq ∨
          current.status ≠ .queued) ∨
      (g.runtime.lookup queued.agentId).all (fun runtime => runtime.abortFlag ≠ abort) ∨
      abort ∈ g.aborted then none
  else
    let record := restored now previous queued.changeSeq
    some (record, ((g.setAbort abort).removeRuntime queued.agentId).store record.agentId record)

end Launching

section Cancelling

variable (cfg : RegistrySettings) (now : ℤ)

def childrenOf (records : AgentRecords) (record : BackgroundAgent) : List BackgroundAgent :=
  match record.childChatId with
  | none => []
  | some chatId =>
    (records.values.filter fun child => child.parentChatId = chatId).insertionSort
      fun a b => a.agentId ≤ b.agentId

def scopedRecord (records : AgentRecords) (parentChatId agentId : String) :
    Except String BackgroundAgent :=
  match (records.get agentId).filter fun record => record.parentChatId = parentChatId with
  | none => .error "agent not found"
  | some record => .ok record

def selectAgents (records : AgentRecords) (root : BackgroundAgent) (subtree : Bool) :
    Option (List BackgroundAgent) :=
  if subtree then
    BreadthFirst.walk BackgroundAgent.agentId (childrenOf records) records.values.length
      [root.agentId] [root]
  else some [root]

def markSubtree (subtree : Bool) (g : Registry) (record : BackgroundAgent) : Registry :=
  if subtree then
    { g with
      records := { g.records with
        cancelledSubtrees :=
          g.records.cancelledSubtrees.insert record.agentId record.runGeneration } }
  else g

def cancelOne (subtree : Bool) (reason : Option String) (g : Registry)
    (record : BackgroundAgent) : Registry × Option BackgroundAgent :=
  let g := markSubtree subtree g record
  if record.terminal then (g, none)
  else
    let settled := (g.abortRuntime record.agentId).storeSettled cfg record.agentId
      (cancelled now reason record) now
    (settled.1, some settled.2)

def cancelAll (subtree : Bool) (reason : Option String) :
    Registry → List BackgroundAgent → Registry × List BackgroundAgent
  | g, [] => (g, [])
  | g, record :: rest =>
    let first := cancelOne cfg now subtree reason g record
    let others := cancelAll subtree reason first.1 rest
    (others.1, first.2.toList ++ others.2)

/-- The agents that were stopped. The walk ends: the last refusal is never given. -/
def cancelSubtree (g : Registry) (parentChatId agentId : String) (subtree : Bool)
    (reason : Option String) : Except String (Registry × List BackgroundAgent) :=
  match scopedRecord g.records parentChatId agentId with
  | .error error => .error error
  | .ok root =>
    match selectAgents g.records root subtree with
    | none => .error "walk did not end"
    | some selected => .ok (cancelAll cfg now subtree reason g selected)

def isCancelledRun (g : Registry) (record : BackgroundAgent) : Bool :=
  (g.records.get record.agentId).any fun current =>
    decide (current.runGeneration = record.runGeneration) && decide (current.status = .cancelled)

def setPayloadPath (g : Registry) (record : BackgroundAgent) : Registry :=
  if isCancelledRun g record then
    { g with
      records := g.records.modify record.agentId fun current =>
        { current with resultPayloadPath := some (cfg.resultPath record.agentId) } }
  else g

/-- The runners of the stopped agents go, unless they run again. -/
def removeCancelled (g : Registry) (stopped : List BackgroundAgent) : Registry :=
  stopped.foldl (fun g record =>
    if isCancelledRun g record then g.removeRuntime record.agentId else g) g

end Cancelling

section Loading

variable (cfg : RegistrySettings) (now : ℤ)

def restartError : String :=
  "Engine restarted before agent finished. Inspect the saved child before explicit recovery; " ++
    "no work was replayed."

def reconcileInterrupted (record : BackgroundAgent) : BackgroundAgent :=
  if record.terminal then record
  else BackgroundAgent.touch { record with
    status := .interrupted
    finishedAt := some now
    error := some restartError } now

def normalizeRecord (record : BackgroundAgent) : BackgroundAgent :=
  let record := { record with
    toDeliveryLists := record.toDeliveryLists.normalizeDeliveryState cfg.deliveries
      cfg.followupBytes (nowMs now) }
  let record := record.trimPreviousRuns cfg
  reconcileInterrupted now
    { record with closeReason := if record.status = .closed then record.closeReason else none }

def settleLoaded (g : Registry) (record : BackgroundAgent) : Registry :=
  let settled := settleTerminalRecord cfg g.questions now record
  { g with
    questions := settled.1
    records := g.records.insert record.agentId settled.2 }

def storedRecords (stored : List BackgroundAgent) : List BackgroundAgent :=
  let byId : AList fun _ : String => BackgroundAgent :=
    stored.foldl (fun records record => records.insert record.agentId record) ∅
  byId.entries.map (·.2)

def load (limits : QuestionLimits) (stored : List BackgroundAgent) : Registry :=
  let records := (storedRecords stored).map (normalizeRecord cfg now)
  let empty : Registry :=
    { records := ⟨∅, ∅, ∅⟩
      runtime := ∅
      questions := (restore limits ∅ now (records.flatMap (·.questions))).1
      aborted := []
      nextHandle := 0 }
  records.foldl (settleLoaded cfg now) empty

end Loading

@[simp] theorem get_insert (records : AgentRecords) (agentId other : String)
    (record : BackgroundAgent) :
    (records.insert agentId record).get other =
      if other = agentId then some record else records.get other :=
  AList.lookup_insert_if records.byId agentId other record

@[simp] theorem get_modify (records : AgentRecords) (agentId other : String)
    (f : BackgroundAgent → BackgroundAgent) :
    (records.modify agentId f).get other =
      if other = agentId then (records.get other).map f else records.get other :=
  AList.lookup_modify records.byId agentId other f

theorem mem_values_iff {records : AgentRecords} {record : BackgroundAgent} :
    record ∈ records.values ↔ ∃ agentId, records.get agentId = some record := by
  rw [AgentRecords.values, List.mem_map]
  constructor
  · rintro ⟨⟨agentId, record⟩, hmem, rfl⟩
    exact ⟨agentId, AList.mem_entries_iff.mp hmem⟩
  · rintro ⟨agentId, hget⟩
    exact ⟨⟨agentId, record⟩, AList.mem_entries_iff.mpr hget, rfl⟩

@[simp] theorem restored_agentId (now : ℤ) (previous : BackgroundAgent) (changeSeq : ℕ) :
    (restored now previous changeSeq).agentId = previous.agentId := rfl

@[simp] theorem restored_changeSeq (now : ℤ) (previous : BackgroundAgent) (changeSeq : ℕ) :
    (restored now previous changeSeq).changeSeq = changeSeq + 1 := rfl

@[simp] theorem touch_changeSeq (record : BackgroundAgent) (now : ℤ) :
    (record.touch now).changeSeq = record.changeSeq + 1 := rfl

end AgentRegistry
