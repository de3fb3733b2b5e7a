import RefactEngine.SubGoals

/-! # The goal ledger

A goal's state is the replay of its ledger. Three kinds of entries account for turns and then read
the budget; the others change what they name. Counters saturate at the ends of their types.
-/
namespace GoalLedger

open SubGoals

inductive GoalStatus where
  | active
  | verifying
  | paused
  | completed
  | stopped
  | budgetExhausted
  | noProgress
  | transferred
  deriving DecidableEq

structure GoalBudget where
  maxTurns : Option ℕ
  maxMinutes : Option ℕ
  maxTokens : Option ℕ
  maxCostCents : Option ℕ
  cooldownMs : ℕ
  noProgressTokenThreshold : ℕ
  noProgressTurns : Option ℕ
  explicit : Bool
  deriving DecidableEq

def GoalBudget.default : GoalBudget := ⟨none, none, none, none, 30000, 50, none, false⟩

structure GoalProgress where
  turnsUsed : ℕ
  tokensUsed : ℕ
  startedAtMs : ℕ
  noProgressTurns : ℕ
  lastNudgeAtMs : ℕ
  costUsedCents : ℕ
  deriving DecidableEq

def GoalProgress.default : GoalProgress := ⟨0, 0, 0, 0, 0, 0⟩

structure GoalAttempt where
  atMs : ℕ
  trigger : Text
  verdict : Text
  gaps : List Text
  verifierReply : Text
  criteriaVerdicts : List CriterionVerdict
  deriving DecidableEq

structure GoalCriterion where
  id : Text
  text : Text
  verifyHint : Option Text
  verifyCommand : Option Text
  deriving DecidableEq

structure GoalEvent where
  atMs : ℕ
  kind : Text
  text : Text
  deriving DecidableEq

inductive GoalWaitSubject where
  | process (processId : Text)
  | child (agentId : Text)
  | event (name : Text)
  | deadline (untilMs : ℕ)
  deriving DecidableEq

structure GoalWait where
  subject : GoalWaitSubject
  sinceMs : ℕ
  deadlineMs : Option ℕ
  deriving DecidableEq

inductive GoalLedgerOp where
  | installed (version : ℕ) (active : Bool) (budget : GoalBudget) (criteria : List GoalCriterion)
  | statusChanged (source target : GoalStatus) (reason : Text)
  | progressRecorded (tokens : ℕ) (madeProgress : Bool) (costCents : ℕ)
  | verifierAttemptRecorded (tokens : ℕ)
  | noProgressNoted
  | nudgeRecorded
  | progressReset (reason : Text)
  | attemptPushed (attempt : GoalAttempt)
  | eventPushed (event : GoalEvent)
  | budgetSet (budget : GoalBudget)
  | criteriaSet (criteria : List GoalCriterion)
  | snoozeSet (untilMs : Option ℕ)
  | waitSet (wait : Option GoalWait)
  | transferredOut (targetChatId : Text)
  | transferredIn (sourceChatId : Text) (progress : GoalProgress)
  | subGoalsDeclared (declaration : SubGoalDeclaration)
  | subGoalDispatched (nodeId : Text) (owner : Option SubGoalOwner)
  | subGoalReported (nodeId : Text) (report : SubGoalReport)
  | subGoalSuperseded (nodeId reason : Text)
  deriving DecidableEq

structure GoalLedgerEntry where
  seq : ℕ
  atMs : ℕ
  op : GoalLedgerOp
  deriving DecidableEq

structure GoalLedgerState where
  version : ℕ
  active : Bool
  status : GoalStatus
  budget : GoalBudget
  progress : GoalProgress
  attempts : List GoalAttempt
  events : List GoalEvent
  criteria : List GoalCriterion
  snoozedUntilMs : Option ℕ
  wait : Option GoalWait
  stopReason : Option Text
  transferredFrom : Option Text
  transferredTo : Option Text
  subGoals : SubGoalGraph
  lastSeq : ℕ
  deriving DecidableEq

def GoalLedgerState.new (version : ℕ) (active : Bool) (budget : GoalBudget)
    (criteria : List GoalCriterion) : GoalLedgerState where
  version
  active
  status := if active then .active else .paused
  budget
  progress := .default
  attempts := []
  events := []
  criteria
  snoozedUntilMs := none
  wait := none
  stopReason := none
  transferredFrom := none
  transferredTo := none
  subGoals := .default
  lastSeq := 0

def u32Max : ℕ := 2 ^ 32 - 1

def u64Max : ℕ := 2 ^ 64 - 1

def add32 (a b : ℕ) : ℕ := min (a + b) u32Max

def add64 (a b : ℕ) : ℕ := min (a + b) u64Max

/-- A limit of zero is no limit. -/
def reached (limit : Option ℕ) (used : ℕ) : Bool :=
  match limit with
  | none => false
  | some limit => decide (0 < limit ∧ limit ≤ used)

def minutesReached (limit : Option ℕ) (startedAtMs nowMs : ℕ) : Bool :=
  match limit with
  | none => false
  | some minutes =>
    decide (0 < minutes ∧ 0 < startedAtMs ∧ min (minutes * 60000) u64Max ≤ nowMs - startedAtMs)

def goalBudgetExhaustionStatus (budget : GoalBudget) (progress : GoalProgress) (nowMs : ℕ) :
    Option GoalStatus :=
  if reached budget.noProgressTurns progress.noProgressTurns then some .noProgress
  else if reached budget.maxTurns progress.turnsUsed then some .budgetExhausted
  else if reached budget.maxTokens progress.tokensUsed then some .budgetExhausted
  else if reached budget.maxCostCents progress.costUsedCents then some .budgetExhausted
  else if minutesReached budget.maxMinutes progress.startedAtMs nowMs then some .budgetExhausted
  else none

variable (state : GoalLedgerState)

/-- A goal whose budget was raised is active again. -/
def transitionAfterAccounting (atMs : ℕ) : GoalLedgerState :=
  match goalBudgetExhaustionStatus state.budget state.progress atMs with
  | some status => { state with status }
  | none =>
    if state.status = .budgetExhausted ∨ state.status = .noProgress then
      { state with status := .active }
    else state

variable (progress : GoalProgress)

def GoalProgress.start (atMs : ℕ) : GoalProgress :=
  if progress.startedAtMs = 0 then { progress with startedAtMs := atMs } else progress

def GoalProgress.turn (tokens : ℕ) : GoalProgress :=
  { progress with
    turnsUsed := add32 progress.turnsUsed 1
    tokensUsed := add64 progress.tokensUsed tokens }

def GoalProgress.record (tokens : ℕ) (madeProgress : Bool)
    (costCents atMs : ℕ) : GoalProgress :=
  let counted := (progress.start atMs).turn tokens
  { counted with
    costUsedCents := add64 counted.costUsedCents costCents
    noProgressTurns := if madeProgress then 0 else add32 counted.noProgressTurns 1 }

def GoalProgress.recordVerifierAttempt (tokens atMs : ℕ) :
    GoalProgress :=
  (progress.start atMs).turn tokens

def GoalProgress.noteNoProgress (atMs : ℕ) : GoalProgress :=
  let started := progress.start atMs
  { started with noProgressTurns := add32 started.noProgressTurns 1 }

def changeStatus (target : GoalStatus) (reason : Text) :
    GoalLedgerState :=
  { state with
    status := target
    stopReason :=
      if target = .stopped then (if reason = [] then none else some reason)
      else if target = .active ∨ target = .verifying then none
      else state.stopReason }

def resetProgress (atMs : ℕ) : GoalLedgerState :=
  let progress := { state.progress with noProgressTurns := 0 }
  { state with
    progress
    snoozedUntilMs := none
    wait := none
    status :=
      if state.status = .budgetExhausted ∨ state.status = .noProgress then
        (goalBudgetExhaustionStatus state.budget progress atMs).getD .active
      else state.status }

def applyOp (op : GoalLedgerOp) (atMs : ℕ) : GoalLedgerState :=
  match op with
  | .installed .. => state
  | .statusChanged _ target reason => changeStatus state target reason
  | .progressRecorded tokens madeProgress costCents =>
    transitionAfterAccounting
      { state with progress := state.progress.record tokens madeProgress costCents atMs } atMs
  | .verifierAttemptRecorded tokens =>
    transitionAfterAccounting
      { state with progress := state.progress.recordVerifierAttempt tokens atMs } atMs
  | .noProgressNoted =>
    transitionAfterAccounting { state with progress := state.progress.noteNoProgress atMs } atMs
  | .nudgeRecorded => { state with progress := { state.progress with lastNudgeAtMs := atMs } }
  | .progressReset _ => resetProgress state atMs
  | .attemptPushed attempt => { state with attempts := state.attempts ++ [attempt] }
  | .eventPushed event => { state with events := state.events ++ [event] }
  | .budgetSet budget => { state with budget }
  | .criteriaSet criteria => { state with criteria }
  | .snoozeSet untilMs => { state with snoozedUntilMs := untilMs }
  | .waitSet wait => { state with wait }
  | .transferredOut target =>
    { state with active := false, status := .transferred, transferredTo := some target }
  | .transferredIn source progress =>
    { state with
      active := true
      status := .active
      progress
      transferredFrom := some source
      transferredTo := none }
  | .subGoalsDeclared declaration =>
    { state with subGoals := applyDeclaration state.subGoals declaration }
  | .subGoalDispatched nodeId owner =>
    { state with subGoals := markDispatched state.subGoals nodeId owner }
  | .subGoalReported nodeId report =>
    { state with subGoals := recordReport state.subGoals nodeId report }
  | .subGoalSuperseded nodeId reason =>
    { state with subGoals := supersede state.subGoals nodeId reason }

def reduceEntry (state : Option GoalLedgerState) (entry : GoalLedgerEntry) :
    Option GoalLedgerState :=
  let next :=
    match entry.op with
    | .installed version active budget criteria =>
      some (GoalLedgerState.new version active budget criteria)
    | op => state.map fun state => applyOp state op entry.atMs
  next.map fun state => { state with lastSeq := entry.seq }

def reduceGoalLedger (entries : List GoalLedgerEntry) : Option GoalLedgerState :=
  entries.foldl reduceEntry none

theorem reduceGoalLedger_concat (entries : List GoalLedgerEntry) (entry : GoalLedgerEntry) :
    reduceGoalLedger (entries ++ [entry]) = reduceEntry (reduceGoalLedger entries) entry := by
  rw [reduceGoalLedger, List.foldl_append]
  rfl

end GoalLedger
