import Mathlib.Data.List.Basic
import Mathlib.Algebra.Order.Ring.Nat

/-! # The cron runner

When a job is due is decided by its last fire, a pending trigger, the retries made, the deferral of
the runner and the grace for missed runs.
-/
namespace CronRunner

abbrev Text := List Char

inductive Trigger where
  | cron (expr : Text) (tz : Option Text)
  | interval (everyMs : ℕ)
  | once (atMs : ℕ)
  | manual
  | webhook (hookId : Text)
  | onProcessExit (matchKind : Text)
  deriving DecidableEq

inductive Action where
  | agentTurn
  | command
  deriving DecidableEq

structure CronRunRecord where
  atMs : ℕ
  status : Text
  error : Option Text
  deriving DecidableEq

structure Job where
  id : Text
  enabled : Bool
  createdAtMs : ℕ
  recurring : Bool
  trigger : Trigger
  action : Action
  lastFiredAtMs : Option ℕ
  fireCount : ℕ
  lastStatus : Option Text
  lastError : Option Text
  recentRuns : List CronRunRecord
  pausedAtMs : Option ℕ
  triggerAtMs : Option ℕ
  retryAttempts : ℕ
  deriving DecidableEq

variable (job : Job)

def Job.isPaused : Bool :=
  !job.enabled || job.pausedAtMs.isSome

def Job.fromMs : ℕ :=
  job.lastFiredAtMs.getD job.createdAtMs

inductive RetryCategory where
  | rateLimit
  | overloaded
  | network
  | timeout
  | serverError
  deriving DecidableEq

structure RetryConfig where
  maxAttempts : ℕ
  backoffMs : List ℕ

structure SchedulerConfig where
  recentRunsCap : ℕ
  missedGraceMinMs : ℕ
  missedGraceMaxMs : ℕ
  retry : RetryConfig

/-- What the scheduler takes from elsewhere: occurrences of an expression and its time zones, the
patterns of transient errors, and the jitter of a job, which is computed in floating point. -/
structure Host (Tz : Type) where
  parseTz : Text → Option Tz
  schedulerTimezone : Tz
  cronNextRunMs : Text → ℕ → Tz → Option ℕ
  classify : Text → Option RetryCategory
  recurringJitterMs : Text → ℕ → ℕ
  oneShotLeadMs : Text → ℕ
  oneShotMinuteMod : ℕ
  localMinute : ℕ → Tz → Option ℕ

variable {Tz : Type}

def cronNextRunMs (host : Host Tz) (job : Job) (expr : Text) (tz : Option Text) (fromMs : ℕ) :
    Option ℕ :=
  if !job.recurring && (job.lastFiredAtMs.isSome || decide (0 < job.fireCount)) then none
  else host.cronNextRunMs expr fromMs ((tz.bind host.parseTz).getD host.schedulerTimezone)

def intervalNextRunMs (fromMs everyMs : ℕ) : Option ℕ :=
  if everyMs = 0 then none
  else if fromMs < job.fromMs + everyMs then some (job.fromMs + everyMs)
  else some (job.fromMs + ((fromMs - job.fromMs) / everyMs + 1) * everyMs)

def onceNextRunMs (atMs : ℕ) : Option ℕ :=
  if job.lastFiredAtMs.isNone && decide (job.fireCount = 0) then some atMs else none

variable (host : Host Tz)

def nextRunMs (job : Job) (fromMs : ℕ) : Option ℕ :=
  match job.trigger with
  | .cron expr tz => cronNextRunMs host job expr tz fromMs
  | .interval everyMs => intervalNextRunMs job fromMs everyMs
  | .once atMs => onceNextRunMs job atMs
  | .manual | .webhook _ | .onProcessExit _ => none

variable (cfg : SchedulerConfig)

def missedRunGraceMs (periodMs : ℕ) : ℕ :=
  max cfg.missedGraceMinMs
    (min (periodMs / 2) (max cfg.missedGraceMaxMs cfg.missedGraceMinMs))

structure RecurringMissedGraceState where
  dueMs : Option ℕ
  nextFutureMs : ℕ
  advanceLastFiredAtMs : Option ℕ
  periodMs : ℕ
  graceMs : ℕ
  shouldFire : Bool
  deriving DecidableEq

/-- The last occurrence that is not in the future, found by walking from one to the next. -/
def cronAnchorMs (host : Host Tz) (job : Job) (nowMs anchorMs nextMs : ℕ) : Option ℕ :=
  if nextMs ≤ nowMs then
    match nextRunMs host job nextMs with
    | none => none
    | some later => if later ≤ nextMs then none else cronAnchorMs host job nowMs nextMs later
  else some anchorMs
termination_by nowMs + 1 - nextMs

def missedFastForwardAnchorMs (job : Job) (dueMs afterDueMs nowMs : ℕ)
    (shouldFire : Bool) : Option ℕ :=
  if nowMs < afterDueMs then some dueMs
  else
    match job.trigger with
    | .interval everyMs =>
      if everyMs = 0 then none
      else if nowMs ≤ job.fromMs then some job.fromMs
      else some (job.fromMs + (nowMs - job.fromMs) / everyMs * everyMs)
    | .cron _ _ => if shouldFire then cronAnchorMs host job nowMs dueMs afterDueMs else some nowMs
    | _ => none

/-- The runs that were missed, by the next run after a time and the anchor of a fast-forward. -/
def missedGraceState (nextRun : ℕ → Option ℕ) (anchor : ℕ → ℕ → ℕ → Bool → Option ℕ) (job : Job)
    (fromMs nowMs : ℕ) : Option RecurringMissedGraceState :=
  if job.recurring then do
    let dueMs ← nextRun fromMs
    let afterDueMs ← nextRun dueMs
    let periodMs := afterDueMs - dueMs
    let graceMs := missedRunGraceMs cfg periodMs
    if nowMs < dueMs then
      return ⟨none, dueMs, none, periodMs, graceMs, false⟩
    let nextFutureMs ← if nowMs < afterDueMs then some afterDueMs else nextRun nowMs
    let shouldFire := decide (nowMs - dueMs ≤ graceMs)
    let advanceMs := (anchor dueMs afterDueMs nowMs shouldFire).getD nowMs
    return ⟨some dueMs, nextFutureMs, some advanceMs, periodMs, graceMs, shouldFire⟩
  else none

def recurringMissedGraceState (job : Job)
    (fromMs nowMs : ℕ) : Option RecurringMissedGraceState :=
  missedGraceState cfg (nextRunMs host job) (missedFastForwardAnchorMs host job) job fromMs nowMs

def jitteredNextRunMsFor (job : Job) (fromMs : ℕ) : Option ℕ := do
  let first ← nextRunMs host job fromMs
  match nextRunMs host job first with
  | none => return first
  | some second => return first + host.recurringJitterMs job.id (second - first)

def oneShotJitteredNextRunMsFor (job : Job) (fromMs : ℕ) : Option ℕ := do
  let first ← nextRunMs host job fromMs
  let minute ← host.localMinute first host.schedulerTimezone
  if minute % host.oneShotMinuteMod ≠ 0 then return first
  return max (first - host.oneShotLeadMs job.id) fromMs

def RecurringMissedGraceState.missed (state : RecurringMissedGraceState) : Bool :=
  state.dueMs.isSome && !state.shouldFire

def scheduledFireAtMs (job : Job) (nowMs : ℕ) : Option ℕ :=
  if job.triggerAtMs.isSome && job.isPaused then job.triggerAtMs
  else
    let recurringState :=
      match job.trigger with
      | .cron _ _ | .interval _ =>
        if job.recurring then recurringMissedGraceState host cfg job job.fromMs nowMs else none
      | _ => none
    match recurringState.filter (·.missed) with
    | some state => some state.nextFutureMs
    | none =>
      let scheduled :=
        match job.trigger with
        | .cron _ _ =>
          if job.recurring then jitteredNextRunMsFor host job job.fromMs
          else oneShotJitteredNextRunMsFor host job job.fromMs
        | .interval _ | .once _ => nextRunMs host job job.fromMs
        | .manual | .webhook _ | .onProcessExit _ => none
      let scheduled :=
        if job.recurring || job.lastFiredAtMs.isNone then scheduled else none
      match scheduled, job.triggerAtMs with
      | some scheduledMs, some triggerAtMs => some (min scheduledMs triggerAtMs)
      | some scheduledMs, none => some scheduledMs
      | none, some triggerAtMs => some triggerAtMs
      | none, none => none

structure Runner where
  job : Job
  deferredUntilMs : Text → Option ℕ

namespace Runner

def taskNeedsMissedFastForward (runner : Runner)
    (nowMs : ℕ) : Bool :=
  if !runner.job.recurring || runner.job.triggerAtMs.isSome || decide (0 < runner.job.retryAttempts)
  then false
  else
    (recurringMissedGraceState host cfg runner.job runner.job.fromMs nowMs).any (·.missed)

def newTrigger (triggerAtMs : ℕ) : Bool :=
  job.recentRuns.getLast?.all fun run => decide (run.atMs < triggerAtMs)

def scheduledFireAtMs (host : Host Tz) (cfg : SchedulerConfig) (runner : Runner) (nowMs : ℕ) :
    Option ℕ :=
  let job := runner.job
  let deferred := runner.deferredUntilMs job.id
  if job.triggerAtMs.isNone && job.isPaused then none
  else
    match job.triggerAtMs.filter fun triggerAtMs =>
        decide (triggerAtMs ≤ nowMs) && (newTrigger job triggerAtMs || deferred.isNone) with
    | some triggerAtMs => some triggerAtMs
    | none =>
      match deferred with
      | some deferredAtMs => some deferredAtMs
      | none =>
        if 0 < job.retryAttempts ∧ job.triggerAtMs.isSome then job.triggerAtMs
        else if taskNeedsMissedFastForward host cfg runner nowMs then some nowMs
        else CronRunner.scheduledFireAtMs host cfg job nowMs

def taskIsDue (runner : Runner) (nowMs : ℕ) : Bool :=
  (scheduledFireAtMs host cfg runner nowMs).any fun fireAtMs => decide (fireAtMs ≤ nowMs)

end Runner

def saturatingSucc (n : ℕ) : ℕ :=
  min (n + 1) (2 ^ 32 - 1)

def jobWasAdvancedBeforeFire (job : Job) (firedAtMs : ℕ) : Bool :=
  job.recurring && decide (job.lastStatus = some "advanced".toList) &&
    job.lastFiredAtMs.any fun lastFiredAtMs => decide (lastFiredAtMs ≤ firedAtMs)

def capRecentRuns (runs : List CronRunRecord) (cap : ℕ) : List CronRunRecord :=
  if cap = 0 then [] else runs.drop (runs.length - cap)

/-- An advanced run of this very time is overwritten, and any other run is appended. -/
def recordedRuns (cfg : SchedulerConfig) (job : Job) (run : CronRunRecord) : List CronRunRecord :=
  if jobWasAdvancedBeforeFire job run.atMs && job.recentRuns.getLast?.any (·.atMs = run.atMs) then
    job.recentRuns.dropLast ++ [run]
  else capRecentRuns (job.recentRuns ++ [run]) cfg.recentRunsCap

def recordRun (cfg : SchedulerConfig) (job : Job) (status : Text) (error : Option Text)
    (nowMs : ℕ) : Job :=
  let alreadyAdvanced := jobWasAdvancedBeforeFire job nowMs
  let recorded :=
    { job with
      recentRuns := recordedRuns cfg job ⟨nowMs, status, error⟩
      lastStatus := some status
      lastError := error }
  let held :=
    if status = "deferred".toList ∧ job.action = .agentTurn then
      { recorded with triggerAtMs := some (recorded.triggerAtMs.getD nowMs) }
    else recorded
  if status = "fired".toList ∨ status = "error".toList then
    { held with
      lastFiredAtMs := if alreadyAdvanced then held.lastFiredAtMs else some nowMs
      fireCount := if alreadyAdvanced then held.fireCount else saturatingSucc held.fireCount
      retryAttempts := if status = "fired".toList then 0 else held.retryAttempts
      triggerAtMs := held.triggerAtMs.filter fun triggerAtMs => decide (nowMs < triggerAtMs) }
  else held

def retryDelayMs (config : RetryConfig) (completedRetryAttempts : ℕ) : Option ℕ :=
  if config.maxAttempts ≤ completedRetryAttempts then none
  else
    ((config.backoffMs[completedRetryAttempts]?).or config.backoffMs.getLast?).filter
      fun delayMs => decide (0 < delayMs)

def scheduleRetry (host : Host Tz) (cfg : SchedulerConfig) (shutdown : Bool) (job : Job)
    (nowMs : ℕ) (error : Text) : Job :=
  if (host.classify error).isNone || shutdown then job
  else
    match retryDelayMs cfg.retry job.retryAttempts with
    | none => job
    | some delayMs =>
      { job with
        retryAttempts := saturatingSucc job.retryAttempts
        triggerAtMs := some (nowMs + delayMs) }

def updateFired (job : Job) (lastFiredAtMs fireCount : ℕ) : Job :=
  { job with lastFiredAtMs := some lastFiredAtMs, fireCount := fireCount }

/-- A missed run is skipped: the last fire moves to the slot that was slept through. -/
def skipMissed (host : Host Tz) (cfg : SchedulerConfig) (job : Job) (nowMs : ℕ) : Job :=
  match (recurringMissedGraceState host cfg job job.fromMs nowMs).filter (·.missed) with
  | none => job
  | some state =>
    match state.advanceLastFiredAtMs with
    | none => job
    | some advanceToMs => updateFired job advanceToMs job.fireCount

def fastForwardRecurringIfMissed (host : Host Tz) (cfg : SchedulerConfig) (job : Job)
    (nowMs : ℕ) : Job :=
  if !job.recurring || job.triggerAtMs.isSome || decide (0 < job.retryAttempts) then job
  else skipMissed host cfg job nowMs

def resumeRecurringTask (host : Host Tz) (cfg : SchedulerConfig) (job : Job) (nowMs : ℕ) : Job :=
  match job.trigger with
  | .cron _ _ | .interval _ =>
    if job.triggerAtMs.any fun triggerAtMs => decide (triggerAtMs ≤ nowMs) then job
    else skipMissed host cfg job nowMs
  | _ => job

def retriggerDeferred (job : Job) (nowMs : ℕ) : Job :=
  if job.lastStatus = some "deferred".toList then { job with triggerAtMs := some nowMs } else job

inductive Event where
  | recordRun (status : Text) (error : Option Text) (nowMs : ℕ)
  | scheduleRetry (shutdown : Bool) (nowMs : ℕ) (error : Text)
  | fastForward (nowMs : ℕ)
  | resume (nowMs : ℕ)
  | retrigger (nowMs : ℕ)
  | deferTask (taskId : Text) (nowMs : ℕ)
  | deferInvalidTargetTask (taskId : Text) (nowMs : ℕ)
  | undefer (taskId : Text)

def idleDeferMs : ℕ := 30000

def invalidTargetDeferMs : ℕ := 60000

def stepJob (host : Host Tz) (cfg : SchedulerConfig) (job : Job) : Event → Job
  | .recordRun status error nowMs => recordRun cfg job status error nowMs
  | .scheduleRetry shutdown nowMs error => scheduleRetry host cfg shutdown job nowMs error
  | .fastForward nowMs => fastForwardRecurringIfMissed host cfg job nowMs
  | .resume nowMs => resumeRecurringTask host cfg job nowMs
  | .retrigger nowMs => retriggerDeferred job nowMs
  | .deferTask _ _ | .deferInvalidTargetTask _ _ | .undefer _ => job

def stepDeferred (deferred : Text → Option ℕ) : Event → Text → Option ℕ
  | .deferTask taskId nowMs => Function.update deferred taskId (some (nowMs + idleDeferMs))
  | .deferInvalidTargetTask taskId nowMs =>
    Function.update deferred taskId (some (nowMs + invalidTargetDeferMs))
  | .undefer taskId => Function.update deferred taskId none
  | _ => deferred

def step (host : Host Tz) (cfg : SchedulerConfig) (runner : Runner) (event : Event) : Runner :=
  ⟨stepJob host cfg runner.job event, stepDeferred runner.deferredUntilMs event⟩

def run (host : Host Tz) (cfg : SchedulerConfig) (runner : Runner) (events : List Event) : Runner :=
  events.foldl (step host cfg) runner

def Trigger.Recurs (host : Host Tz) : Trigger → Prop
  | .cron expr tz => ∀ fromMs, ∃ nextMs,
      host.cronNextRunMs expr fromMs ((tz.bind host.parseTz).getD host.schedulerTimezone) =
        some nextMs ∧ fromMs < nextMs
  | .interval everyMs => 0 < everyMs
  | .once _ | .manual | .webhook _ | .onProcessExit _ => False

structure Live (host : Host Tz) (job : Job) : Prop where
  recurring : job.recurring = true
  unpaused : job.isPaused = false
  recurs : job.trigger.Recurs host

theorem intervalNextRunMs_some (job : Job) (fromMs : ℕ) {everyMs : ℕ} (h : 0 < everyMs) :
    ∃ nextMs, intervalNextRunMs job fromMs everyMs = some nextMs ∧ fromMs < nextMs := by
  unfold intervalNextRunMs
  rw [if_neg (by omega)]
  by_cases hfirst : fromMs < job.fromMs + everyMs
  · exact ⟨_, if_pos hfirst, hfirst⟩
  · refine ⟨_, if_neg hfirst, ?_⟩
    have hlt : fromMs - job.fromMs < everyMs * ((fromMs - job.fromMs) / everyMs + 1) :=
      Nat.lt_mul_div_succ _ h
    rw [Nat.mul_comm] at hlt
    omega

theorem Live.nextRunMs_some {host : Host Tz} {job : Job} (h : Live host job) (fromMs : ℕ) :
    ∃ nextMs, nextRunMs host job fromMs = some nextMs ∧ fromMs < nextMs := by
  have hr : job.trigger.Recurs host := h.recurs
  unfold nextRunMs
  cases ht : job.trigger with
  | cron expr tz =>
    rw [ht] at hr
    simpa [cronNextRunMs, h.recurring] using hr fromMs
  | interval everyMs =>
    rw [ht] at hr
    exact intervalNextRunMs_some job fromMs hr
  | once | manual | webhook | onProcessExit =>
    rw [ht] at hr
    exact hr.elim

def nextSlotMs (host : Host Tz) (job : Job) (fromMs : ℕ) : ℕ :=
  (nextRunMs host job fromMs).getD 0

def slotMs (host : Host Tz) (job : Job) : ℕ :=
  nextSlotMs host job job.fromMs

def afterSlotMs (host : Host Tz) (job : Job) : ℕ :=
  nextSlotMs host job (slotMs host job)

def slotGraceMs (host : Host Tz) (cfg : SchedulerConfig) (job : Job) : ℕ :=
  missedRunGraceMs cfg (afterSlotMs host job - slotMs host job)

def Overslept (host : Host Tz) (cfg : SchedulerConfig) (job : Job) (nowMs : ℕ) : Prop :=
  slotMs host job + slotGraceMs host cfg job < nowMs

instance (host : Host Tz) (cfg : SchedulerConfig) (job : Job) (nowMs : ℕ) :
    Decidable (Overslept host cfg job nowMs) :=
  inferInstanceAs (Decidable (_ < _))

def futureSlotMs (host : Host Tz) (job : Job) (nowMs : ℕ) : ℕ :=
  if nowMs < afterSlotMs host job then afterSlotMs host job else nextSlotMs host job nowMs

def fireSlotMs (host : Host Tz) (job : Job) : ℕ :=
  match job.trigger with
  | .cron _ _ =>
    slotMs host job + host.recurringJitterMs job.id (afterSlotMs host job - slotMs host job)
  | _ => slotMs host job

section Slots

variable {host : Host Tz} {cfg : SchedulerConfig} {job : Job}

theorem Overslept.mono {nowMs laterMs : ℕ} (h : Overslept host cfg job nowMs)
    (hle : nowMs ≤ laterMs) : Overslept host cfg job laterMs :=
  Nat.lt_of_lt_of_le h hle

theorem Live.nextRunMs_eq (h : Live host job) (fromMs : ℕ) :
    nextRunMs host job fromMs = some (nextSlotMs host job fromMs) := by
  obtain ⟨nextMs, hnext, -⟩ := h.nextRunMs_some fromMs
  rw [nextSlotMs, hnext, Option.getD_some]

theorem Live.lt_nextSlotMs (h : Live host job) (fromMs : ℕ) :
    fromMs < nextSlotMs host job fromMs := by
  obtain ⟨nextMs, hnext, hlt⟩ := h.nextRunMs_some fromMs
  rwa [nextSlotMs, hnext, Option.getD_some]

theorem Live.lt_futureSlotMs (h : Live host job) (nowMs : ℕ) :
    nowMs < futureSlotMs host job nowMs := by
  unfold futureSlotMs
  split
  · assumption
  · exact h.lt_nextSlotMs nowMs

theorem Live.missed_iff (h : Live host job) (cfg : SchedulerConfig) (nowMs : ℕ) :
    ∃ state, recurringMissedGraceState host cfg job job.fromMs nowMs = some state ∧
      (state.missed = true ↔ Overslept host cfg job nowMs) ∧
      (Overslept host cfg job nowMs → state.nextFutureMs = futureSlotMs host job nowMs ∧
        state.advanceLastFiredAtMs = some ((missedFastForwardAnchorMs host job (slotMs host job)
          (afterSlotMs host job) nowMs false).getD nowMs)) := by
  have hslot : nextRunMs host job job.fromMs = some (slotMs host job) := h.nextRunMs_eq _
  have hafter : nextRunMs host job (slotMs host job) = some (afterSlotMs host job) :=
    h.nextRunMs_eq _
  by_cases hdue : nowMs < slotMs host job
  · have hawake : ¬ Overslept host cfg job nowMs := by
      unfold Overslept
      omega
    refine ⟨⟨none, slotMs host job, none, afterSlotMs host job - slotMs host job,
      slotGraceMs host cfg job, false⟩, ?_, ?_, fun hover => absurd hover hawake⟩
    · simp [recurringMissedGraceState, missedGraceState, h.recurring, hslot, hafter, hdue,
        slotGraceMs]
    · simp [RecurringMissedGraceState.missed, hawake]
  · refine ⟨⟨some (slotMs host job), futureSlotMs host job nowMs,
      some ((missedFastForwardAnchorMs host job (slotMs host job) (afterSlotMs host job) nowMs
        (decide (nowMs - slotMs host job ≤ slotGraceMs host cfg job))).getD nowMs),
      afterSlotMs host job - slotMs host job, slotGraceMs host cfg job,
      decide (nowMs - slotMs host job ≤ slotGraceMs host cfg job)⟩, ?_, ?_, fun hover => ⟨rfl, ?_⟩⟩
    · by_cases hlater : nowMs < afterSlotMs host job
      · simp [recurringMissedGraceState, missedGraceState, h.recurring, hslot, hafter, hdue, hlater,
          futureSlotMs, slotGraceMs]
      · simp [recurringMissedGraceState, missedGraceState, h.recurring, hslot, hafter, hdue, hlater,
          futureSlotMs, slotGraceMs, h.nextRunMs_eq nowMs]
    · simp only [RecurringMissedGraceState.missed, Option.isSome_some, Bool.true_and,
        Bool.not_eq_true', decide_eq_false_iff_not, Overslept]
      omega
    · have hlate : ¬ nowMs - slotMs host job ≤ slotGraceMs host cfg job := by
        unfold Overslept at hover
        omega
      simp [hlate]

/-- While the slot is not overslept a job fires at it or at its trigger, and after that the schedule
answers with slots of the future only. -/
theorem Live.scheduledFireAtMs_eq (h : Live host job) (nowMs : ℕ) :
    scheduledFireAtMs host cfg job nowMs =
      if Overslept host cfg job nowMs then some (futureSlotMs host job nowMs)
      else some (job.triggerAtMs.elim (fireSlotMs host job) (min (fireSlotMs host job))) := by
  have hr : job.trigger.Recurs host := h.recurs
  have hslot : nextRunMs host job job.fromMs = some (slotMs host job) := h.nextRunMs_eq _
  have hafter : nextRunMs host job (slotMs host job) = some (afterSlotMs host job) :=
    h.nextRunMs_eq _
  obtain ⟨state, hstate, hmissed, hfuture⟩ := h.missed_iff cfg nowMs
  have hunpaused : job.isPaused = false := h.unpaused
  have hrecur : job.recurring = true := h.recurring
  by_cases hover : Overslept host cfg job nowMs
  · have hfilt : (some state).filter (·.missed) = some state := by
      rw [Option.filter_some, if_pos (hmissed.mpr hover)]
    cases ht : job.trigger with
    | cron | interval =>
      simp [scheduledFireAtMs, ht, hunpaused, hrecur, hstate, hfilt, hover, (hfuture hover).1]
    | once | manual | webhook | onProcessExit =>
      rw [ht] at hr
      exact hr.elim
  · have hfilt : (some state).filter (·.missed) = none := by
      rw [Option.filter_some, if_neg (fun hm => hover (hmissed.mp hm))]
    cases ht : job.trigger with
    | cron | interval =>
      cases hat : job.triggerAtMs with
      | none =>
        simp [scheduledFireAtMs, ht, hat, hrecur, hstate, hfilt, hover,
          jitteredNextRunMsFor, hslot, hafter, fireSlotMs]
      | some triggerAtMs =>
        simp [scheduledFireAtMs, ht, hat, hunpaused, hrecur, hstate, hfilt, hover,
          jitteredNextRunMsFor, hslot, hafter, fireSlotMs]
    | once | manual | webhook | onProcessExit =>
      rw [ht] at hr
      exact hr.elim

end Slots

def MakesProgress (host : Host Tz) (cfg : SchedulerConfig) (runner : Runner) (nowMs : ℕ) : Prop :=
  runner.taskIsDue host cfg nowMs = true ∨
    runner.taskNeedsMissedFastForward host cfg nowMs = true ∨
    ∃ wakeMs, runner.scheduledFireAtMs host cfg nowMs = some wakeMs ∧ nowMs < wakeMs ∧
      (runner.taskIsDue host cfg wakeMs = true ∨
        runner.taskNeedsMissedFastForward host cfg wakeMs = true)

/-- The slot is overslept while either retries were made and none is pending, or a trigger that is
no retry is still to come. -/
def SleepsOn (host : Host Tz) (cfg : SchedulerConfig) (job : Job) (nowMs : ℕ) : Option ℕ → Prop
  | none => 0 < job.retryAttempts ∧ Overslept host cfg job (max nowMs (fireSlotMs host job))
  | some triggerAtMs =>
    nowMs < triggerAtMs ∧ job.retryAttempts = 0 ∧
      (Overslept host cfg job nowMs ∧ futureSlotMs host job nowMs < triggerAtMs ∨
        ¬ Overslept host cfg job nowMs ∧ nowMs < fireSlotMs host job ∧
          fireSlotMs host job < triggerAtMs ∧ Overslept host cfg job (fireSlotMs host job))

instance (host : Host Tz) (cfg : SchedulerConfig) (job : Job) (nowMs : ℕ) :
    (trigger : Option ℕ) → Decidable (SleepsOn host cfg job nowMs trigger)
  | none => inferInstanceAs (Decidable (_ ∧ _))
  | some _ => inferInstanceAs (Decidable (_ ∧ _ ∧ (_ ∨ _)))

def Starved (host : Host Tz) (cfg : SchedulerConfig) (runner : Runner) (nowMs : ℕ) : Prop :=
  runner.deferredUntilMs runner.job.id = none ∧
    SleepsOn host cfg runner.job nowMs runner.job.triggerAtMs

instance (host : Host Tz) (cfg : SchedulerConfig) (runner : Runner) (nowMs : ℕ) :
    Decidable (Starved host cfg runner nowMs) :=
  inferInstanceAs (Decidable (_ ∧ _))

section Waking

variable {host : Host Tz} {cfg : SchedulerConfig} {runner : Runner} {nowMs : ℕ}

theorem taskIsDue_iff : runner.taskIsDue host cfg nowMs = true ↔
    ∃ fireAtMs, runner.scheduledFireAtMs host cfg nowMs = some fireAtMs ∧ fireAtMs ≤ nowMs := by
  simp [Runner.taskIsDue, Option.any_eq_true]

theorem taskNeedsMissedFastForward_iff (h : Live host runner.job) :
    runner.taskNeedsMissedFastForward host cfg nowMs = true ↔
      runner.job.triggerAtMs = none ∧ runner.job.retryAttempts = 0 ∧
        Overslept host cfg runner.job nowMs := by
  obtain ⟨state, hstate, hmissed, -⟩ := h.missed_iff cfg nowMs
  unfold Runner.taskNeedsMissedFastForward
  rw [h.recurring, hstate, Option.any_some]
  cases ht : runner.job.triggerAtMs with
  | some triggerAtMs => simp
  | none =>
    by_cases hretry : runner.job.retryAttempts = 0
    · simp [hretry, hmissed]
    · simp [hretry, Nat.pos_of_ne_zero hretry]

variable {triggerAtMs : ℕ}

/-- A trigger whose time has come is the fire time, unless the job was deferred since. -/
theorem scheduledFireAtMs_of_trigger (ht : runner.job.triggerAtMs = some triggerAtMs)
    (hle : triggerAtMs ≤ nowMs)
    (hnew : Runner.newTrigger runner.job triggerAtMs = true ∨
      runner.deferredUntilMs runner.job.id = none) :
    runner.scheduledFireAtMs host cfg nowMs = some triggerAtMs := by
  have hfilt : (some triggerAtMs).filter (fun triggerAtMs => decide (triggerAtMs ≤ nowMs) &&
      (Runner.newTrigger runner.job triggerAtMs ||
        (runner.deferredUntilMs runner.job.id).isNone)) = some triggerAtMs := by
    rw [Option.filter_some, if_pos]
    simpa [hle] using hnew
  simp [Runner.scheduledFireAtMs, ht, hfilt]

variable {deferredAtMs : ℕ}

theorem scheduledFireAtMs_of_deferred (h : Live host runner.job)
    (hd : runner.deferredUntilMs runner.job.id = some deferredAtMs)
    (hold : ∀ triggerAtMs, runner.job.triggerAtMs = some triggerAtMs → triggerAtMs ≤ nowMs →
      Runner.newTrigger runner.job triggerAtMs = false) :
    runner.scheduledFireAtMs host cfg nowMs = some deferredAtMs := by
  have hfilt : runner.job.triggerAtMs.filter (fun triggerAtMs => decide (triggerAtMs ≤ nowMs) &&
      (Runner.newTrigger runner.job triggerAtMs ||
        (runner.deferredUntilMs runner.job.id).isNone)) = none := by
    rw [Option.filter_eq_none_iff]
    intro triggerAtMs ht
    by_cases hle : triggerAtMs ≤ nowMs
    · simp [hold triggerAtMs ht hle, hd]
    · simp [hle]
  simp only [hd, Option.isNone_some, Bool.or_false] at hfilt
  simp [Runner.scheduledFireAtMs, h.unpaused, hfilt, hd]

theorem scheduledFireAtMs_undeferred (h : Live host runner.job)
    (hd : runner.deferredUntilMs runner.job.id = none)
    (hlater : ∀ triggerAtMs, runner.job.triggerAtMs = some triggerAtMs → nowMs < triggerAtMs) :
    runner.scheduledFireAtMs host cfg nowMs =
      if 0 < runner.job.retryAttempts ∧ runner.job.triggerAtMs.isSome then runner.job.triggerAtMs
      else if runner.taskNeedsMissedFastForward host cfg nowMs then some nowMs
      else scheduledFireAtMs host cfg runner.job nowMs := by
  have hfilt : runner.job.triggerAtMs.filter (fun triggerAtMs => decide (triggerAtMs ≤ nowMs) &&
      (Runner.newTrigger runner.job triggerAtMs ||
        (runner.deferredUntilMs runner.job.id).isNone)) = none := by
    rw [Option.filter_eq_none_iff]
    intro triggerAtMs ht
    have hlt : nowMs < triggerAtMs := hlater triggerAtMs ht
    simp [Nat.not_le.mpr hlt]
  simp only [hd, Option.isNone_none, Bool.or_true, Bool.and_true] at hfilt
  simp [Runner.scheduledFireAtMs, h.unpaused, hfilt, hd]

theorem taskIsDue_of_trigger (hd : runner.deferredUntilMs runner.job.id = none)
    (ht : runner.job.triggerAtMs = some triggerAtMs) (hle : triggerAtMs ≤ nowMs) :
    runner.taskIsDue host cfg nowMs = true :=
  taskIsDue_iff.mpr ⟨triggerAtMs, scheduledFireAtMs_of_trigger ht hle (.inr hd), hle⟩

theorem taskIsDue_of_deferred (h : Live host runner.job)
    (hd : runner.deferredUntilMs runner.job.id = some deferredAtMs) (hle : deferredAtMs ≤ nowMs) :
    runner.taskIsDue host cfg nowMs = true := by
  rw [taskIsDue_iff]
  by_cases hnew : ∃ triggerAtMs, runner.job.triggerAtMs = some triggerAtMs ∧
      triggerAtMs ≤ nowMs ∧ Runner.newTrigger runner.job triggerAtMs = true
  · obtain ⟨triggerAtMs, ht, htle, hnew⟩ := hnew
    exact ⟨triggerAtMs, scheduledFireAtMs_of_trigger ht htle (.inl hnew), htle⟩
  · refine ⟨deferredAtMs, scheduledFireAtMs_of_deferred h hd ?_, hle⟩
    intro triggerAtMs ht htle
    rw [← Bool.not_eq_true]
    exact fun hfresh => hnew ⟨triggerAtMs, ht, htle, hfresh⟩

theorem makesProgress_of_deferred (h : Live host runner.job)
    (hd : runner.deferredUntilMs runner.job.id = some deferredAtMs) :
    MakesProgress host cfg runner nowMs := by
  by_cases hdue : runner.taskIsDue host cfg nowMs = true
  · exact .inl hdue
  have hlt : nowMs < deferredAtMs := by
    by_contra hle
    exact hdue (taskIsDue_of_deferred h hd (Nat.not_lt.mp hle))
  refine .inr (.inr ⟨deferredAtMs, scheduledFireAtMs_of_deferred h hd ?_, hlt,
    .inl (taskIsDue_of_deferred h hd le_rfl)⟩)
  intro triggerAtMs ht htle
  rw [← Bool.not_eq_true]
  intro hnew
  exact hdue (taskIsDue_iff.mpr ⟨triggerAtMs,
    scheduledFireAtMs_of_trigger ht htle (.inl hnew), htle⟩)

theorem makesProgress_of_retry (h : Live host runner.job)
    (hd : runner.deferredUntilMs runner.job.id = none)
    (ht : runner.job.triggerAtMs = some triggerAtMs) (hlt : nowMs < triggerAtMs)
    (hretry : 0 < runner.job.retryAttempts) : MakesProgress host cfg runner nowMs := by
  refine .inr (.inr ⟨triggerAtMs, ?_, hlt, .inl (taskIsDue_of_trigger hd ht le_rfl)⟩)
  rw [scheduledFireAtMs_undeferred h hd (fun later hl => by
    rwa [← Option.some.inj (ht.symm.trans hl)])]
  rw [if_pos ⟨hretry, by rw [ht]; rfl⟩, ht]

theorem scheduledFireAtMs_idle (h : Live host runner.job)
    (hd : runner.deferredUntilMs runner.job.id = none)
    (hlater : ∀ triggerAtMs, runner.job.triggerAtMs = some triggerAtMs → nowMs < triggerAtMs)
    (hretry : runner.job.retryAttempts = 0 ∨ runner.job.triggerAtMs = none)
    (hneeds : ¬ runner.taskNeedsMissedFastForward host cfg nowMs = true) :
    runner.scheduledFireAtMs host cfg nowMs =
      if Overslept host cfg runner.job nowMs then some (futureSlotMs host runner.job nowMs)
      else some (runner.job.triggerAtMs.elim (fireSlotMs host runner.job)
        (min (fireSlotMs host runner.job))) := by
  rw [scheduledFireAtMs_undeferred h hd hlater, if_neg, if_neg hneeds, h.scheduledFireAtMs_eq]
  rintro ⟨hpos, hsome⟩
  rcases hretry with hzero | hnone
  · omega
  · rw [hnone] at hsome
    cases hsome

theorem not_due_of_overslept (h : Live host runner.job)
    (hd : runner.deferredUntilMs runner.job.id = none)
    (hlater : ∀ triggerAtMs, runner.job.triggerAtMs = some triggerAtMs → nowMs < triggerAtMs)
    (hretry : runner.job.retryAttempts = 0 ∨ runner.job.triggerAtMs = none)
    (hneeds : ¬ runner.taskNeedsMissedFastForward host cfg nowMs = true)
    (hover : Overslept host cfg runner.job nowMs) :
    runner.scheduledFireAtMs host cfg nowMs = some (futureSlotMs host runner.job nowMs) ∧
      ¬ runner.taskIsDue host cfg nowMs = true := by
  have hscheduled := scheduledFireAtMs_idle h hd hlater hretry hneeds
  rw [if_pos hover] at hscheduled
  refine ⟨hscheduled, fun hdue => ?_⟩
  obtain ⟨fireAtMs, hfire, hle⟩ := taskIsDue_iff.mp hdue
  have hlt : nowMs < futureSlotMs host runner.job nowMs := h.lt_futureSlotMs nowMs
  rw [hscheduled] at hfire
  have heq := Option.some.inj hfire
  omega

theorem makesProgress_untriggered (h : Live host runner.job)
    (hd : runner.deferredUntilMs runner.job.id = none) (ht : runner.job.triggerAtMs = none) :
    MakesProgress host cfg runner nowMs ↔ ¬ (0 < runner.job.retryAttempts ∧
      Overslept host cfg runner.job (max nowMs (fireSlotMs host runner.job))) := by
  have hlater : ∀ {x} triggerAtMs, runner.job.triggerAtMs = some triggerAtMs → x < triggerAtMs := by
    intro x triggerAtMs hsome
    rw [ht] at hsome
    cases hsome
  have hneeds : ∀ {x}, runner.taskNeedsMissedFastForward host cfg x = true ↔
      runner.job.retryAttempts = 0 ∧ Overslept host cfg runner.job x := by
    intro x
    rw [taskNeedsMissedFastForward_iff h, and_iff_right ht]
  have hawake : ∀ {x}, ¬ Overslept host cfg runner.job x →
      runner.scheduledFireAtMs host cfg x = some (fireSlotMs host runner.job) := by
    intro x hx
    rw [scheduledFireAtMs_idle h hd hlater (.inr ht) (fun hn => hx (hneeds.mp hn).2), if_neg hx, ht,
      Option.elim_none]
  have hdue : ∀ {x}, ¬ Overslept host cfg runner.job x → fireSlotMs host runner.job ≤ x →
      runner.taskIsDue host cfg x = true :=
    fun hx hle => taskIsDue_iff.mpr ⟨_, hawake hx, hle⟩
  constructor
  · rintro hprogress ⟨hretry, hover⟩
    have hno : ∀ {x}, ¬ runner.taskNeedsMissedFastForward host cfg x = true :=
      fun hn => absurd (hneeds.mp hn).1 (Nat.ne_of_gt hretry)
    have hstuck : ∀ {x}, Overslept host cfg runner.job x →
        runner.scheduledFireAtMs host cfg x = some (futureSlotMs host runner.job x) ∧
          ¬ runner.taskIsDue host cfg x = true :=
      fun hx => not_due_of_overslept h hd hlater (.inr ht) hno hx
    by_cases hnow : Overslept host cfg runner.job nowMs
    · rcases hprogress with hp | hp | ⟨wakeMs, -, hlt, hp | hp⟩
      · exact (hstuck hnow).2 hp
      · exact hno hp
      · exact (hstuck (hnow.mono hlt.le)).2 hp
      · exact hno hp
    · -- the slot is overslept only once its jitter has passed
      have hlt : nowMs < fireSlotMs host runner.job := by
        by_contra hle
        rw [max_eq_left (Nat.not_lt.mp hle)] at hover
        exact hnow hover
      rw [max_eq_right hlt.le] at hover
      rcases hprogress with hp | hp | ⟨wakeMs, hwake, -, hp | hp⟩
      · obtain ⟨fireAtMs, hfire, hle⟩ := taskIsDue_iff.mp hp
        rw [hawake hnow] at hfire
        obtain rfl := Option.some.inj hfire
        omega
      · exact hno hp
      · rw [hawake hnow] at hwake
        obtain rfl := Option.some.inj hwake
        exact (hstuck hover).2 hp
      · exact hno hp
  · intro hnot
    by_cases hnow : Overslept host cfg runner.job nowMs
    · refine .inr (.inl (hneeds.mpr ⟨?_, hnow⟩))
      by_contra hretry
      exact hnot ⟨Nat.pos_of_ne_zero hretry, hnow.mono (le_max_left _ _)⟩
    · by_cases hle : fireSlotMs host runner.job ≤ nowMs
      · exact .inl (hdue hnow hle)
      · refine .inr (.inr ⟨_, hawake hnow, Nat.not_le.mp hle, ?_⟩)
        by_cases hlate : Overslept host cfg runner.job (fireSlotMs host runner.job)
        · refine .inr (hneeds.mpr ⟨?_, hlate⟩)
          by_contra hretry
          exact hnot ⟨Nat.pos_of_ne_zero hretry, hlate.mono (le_max_right _ _)⟩
        · exact .inl (hdue hlate le_rfl)

theorem makesProgress_triggered (h : Live host runner.job)
    (hd : runner.deferredUntilMs runner.job.id = none)
    (ht : runner.job.triggerAtMs = some triggerAtMs) (hlt : nowMs < triggerAtMs)
    (hretry : runner.job.retryAttempts = 0) : MakesProgress host cfg runner nowMs ↔
      ¬ (Overslept host cfg runner.job nowMs ∧ futureSlotMs host runner.job nowMs < triggerAtMs ∨
        ¬ Overslept host cfg runner.job nowMs ∧ nowMs < fireSlotMs host runner.job ∧
          fireSlotMs host runner.job < triggerAtMs ∧
          Overslept host cfg runner.job (fireSlotMs host runner.job)) := by
  have hno : ∀ {x}, ¬ runner.taskNeedsMissedFastForward host cfg x = true := by
    intro x hn
    have hnone := ((taskNeedsMissedFastForward_iff h).mp hn).1
    rw [ht] at hnone
    cases hnone
  have hlater : ∀ {x}, x < triggerAtMs →
      ∀ later, runner.job.triggerAtMs = some later → x < later := by
    intro x hx later hl
    rwa [← Option.some.inj (ht.symm.trans hl)]
  have hstuck : ∀ {x}, x < triggerAtMs → Overslept host cfg runner.job x →
      runner.scheduledFireAtMs host cfg x = some (futureSlotMs host runner.job x) ∧
        ¬ runner.taskIsDue host cfg x = true :=
    fun hx hover => not_due_of_overslept h hd (hlater hx) (.inl hretry) hno hover
  have hawake : ∀ {x}, x < triggerAtMs → ¬ Overslept host cfg runner.job x →
      runner.scheduledFireAtMs host cfg x =
        some (min (fireSlotMs host runner.job) triggerAtMs) := by
    intro x hx hover
    rw [scheduledFireAtMs_idle h hd (hlater hx) (.inl hretry) hno, if_neg hover, ht,
      Option.elim_some]
  have hcome : ∀ {x}, triggerAtMs ≤ x → runner.taskIsDue host cfg x = true :=
    fun hx => taskIsDue_of_trigger hd ht hx
  constructor
  · rintro hprogress (⟨hover, hfuture⟩ | ⟨hover, hfire, hbef, hlate⟩)
    · rcases hprogress with hp | hp | ⟨wakeMs, hwake, -, hp | hp⟩
      · exact (hstuck hlt hover).2 hp
      · exact hno hp
      · rw [(hstuck hlt hover).1] at hwake
        obtain rfl := Option.some.inj hwake
        exact (hstuck hfuture (hover.mono (h.lt_futureSlotMs nowMs).le)).2 hp
      · exact hno hp
    · rcases hprogress with hp | hp | ⟨wakeMs, hwake, -, hp | hp⟩
      · obtain ⟨fireAtMs, hscheduled, hle⟩ := taskIsDue_iff.mp hp
        rw [hawake hlt hover, min_eq_left hbef.le] at hscheduled
        obtain rfl := Option.some.inj hscheduled
        omega
      · exact hno hp
      · rw [hawake hlt hover, min_eq_left hbef.le] at hwake
        obtain rfl := Option.some.inj hwake
        exact (hstuck hbef hlate).2 hp
      · exact hno hp
  · intro hnot
    by_cases hover : Overslept host cfg runner.job nowMs
    · refine .inr (.inr ⟨_, (hstuck hlt hover).1, h.lt_futureSlotMs nowMs, .inl (hcome ?_)⟩)
      by_contra hbef
      exact hnot (.inl ⟨hover, Nat.not_le.mp hbef⟩)
    · have hscheduled := hawake hlt hover
      by_cases hfire : fireSlotMs host runner.job ≤ nowMs
      · refine .inl (taskIsDue_iff.mpr ⟨_, hscheduled, ?_⟩)
        exact (min_le_left _ _).trans hfire
      · refine .inr (.inr ⟨_, hscheduled, lt_min (Nat.not_le.mp hfire) hlt, .inl ?_⟩)
        rcases Nat.lt_or_ge (fireSlotMs host runner.job) triggerAtMs with hbef | hafter
        · rw [min_eq_left hbef.le]
          refine taskIsDue_iff.mpr ⟨_, hawake hbef ?_, min_le_left _ _⟩
          intro hlate
          exact hnot (.inr ⟨hover, Nat.not_le.mp hfire, hbef, hlate⟩)
        · rw [min_eq_right hafter]
          exact hcome le_rfl

theorem makesProgress_iff (h : Live host runner.job) (nowMs : ℕ) :
    MakesProgress host cfg runner nowMs ↔ ¬ Starved host cfg runner nowMs := by
  unfold Starved
  cases hd : runner.deferredUntilMs runner.job.id with
  | some deferredAtMs => simp [makesProgress_of_deferred h hd]
  | none =>
    rw [eq_self, true_and]
    cases ht : runner.job.triggerAtMs with
    | none => exact makesProgress_untriggered h hd ht
    | some triggerAtMs =>
      by_cases hlt : nowMs < triggerAtMs
      · by_cases hretry : runner.job.retryAttempts = 0
        · simpa [SleepsOn, hlt, hretry] using makesProgress_triggered h hd ht hlt hretry
        · have hpos : 0 < runner.job.retryAttempts := Nat.pos_of_ne_zero hretry
          simp [SleepsOn, hretry, makesProgress_of_retry h hd ht hlt hpos]
      · have hdue : MakesProgress host cfg runner nowMs :=
          .inl (taskIsDue_of_trigger hd ht (Nat.not_lt.mp hlt))
        simp [SleepsOn, hlt, hdue]

/-- Retries were made and none is pending: once the slot is overslept, the job is never due and
never fast-forwarded again. -/
theorem starved_for_ever (h : Live host runner.job)
    (hd : runner.deferredUntilMs runner.job.id = none) (ht : runner.job.triggerAtMs = none)
    (hretry : 0 < runner.job.retryAttempts) (hover : Overslept host cfg runner.job nowMs)
    {laterMs : ℕ} (hle : nowMs ≤ laterMs) : runner.taskIsDue host cfg laterMs = false ∧
      runner.taskNeedsMissedFastForward host cfg laterMs = false := by
  have hno : ¬ runner.taskNeedsMissedFastForward host cfg laterMs = true :=
    fun hn => absurd ((taskNeedsMissedFastForward_iff h).mp hn).2.1 (Nat.ne_of_gt hretry)
  have hlater : ∀ triggerAtMs, runner.job.triggerAtMs = some triggerAtMs →
      laterMs < triggerAtMs := by
    intro triggerAtMs hsome
    rw [ht] at hsome
    cases hsome
  have hdue := (not_due_of_overslept h hd hlater (.inr ht) hno (hover.mono hle)).2
  exact ⟨Bool.eq_false_iff.mpr hdue, Bool.eq_false_iff.mpr hno⟩

end Waking

structure NewlyCreated (job : Job) : Prop where
  enabled : job.enabled = true
  unpaused : job.pausedAtMs = none
  recurring : job.recurring = true
  unfired : job.lastFiredAtMs = none ∧ job.fireCount = 0
  unrecorded : job.lastStatus = none ∧ job.lastError = none ∧ job.recentRuns = []
  untriggered : job.triggerAtMs = none ∧ job.retryAttempts = 0

structure SameDefinition (job job' : Job) : Prop where
  enabled : job'.enabled = job.enabled
  paused : job'.pausedAtMs = job.pausedAtMs
  recurring : job'.recurring = job.recurring
  trigger : job'.trigger = job.trigger

theorem SameDefinition.refl (job : Job) : SameDefinition job job :=
  ⟨rfl, rfl, rfl, rfl⟩

theorem SameDefinition.trans {a b c : Job} (hab : SameDefinition a b) (hbc : SameDefinition b c) :
    SameDefinition a c :=
  ⟨hbc.enabled.trans hab.enabled, hbc.paused.trans hab.paused, hbc.recurring.trans hab.recurring,
    hbc.trigger.trans hab.trigger⟩

section Runs

variable {host : Host Tz} {cfg : SchedulerConfig}

theorem sameDefinition_recordRun (job : Job) (status : Text) (error : Option Text) (nowMs : ℕ) :
    SameDefinition job (recordRun cfg job status error nowMs) := by
  unfold recordRun
  dsimp only
  split <;> split <;> exact ⟨rfl, rfl, rfl, rfl⟩

theorem sameDefinition_scheduleRetry (shutdown : Bool) (job : Job) (nowMs : ℕ) (error : Text) :
    SameDefinition job (scheduleRetry host cfg shutdown job nowMs error) := by
  unfold scheduleRetry
  split
  · exact .refl job
  · split <;> exact ⟨rfl, rfl, rfl, rfl⟩

theorem sameDefinition_skipMissed (job : Job) (nowMs : ℕ) :
    SameDefinition job (skipMissed host cfg job nowMs) := by
  unfold skipMissed
  split
  · exact .refl job
  · split <;> exact ⟨rfl, rfl, rfl, rfl⟩

theorem sameDefinition_stepJob (job : Job) (event : Event) :
    SameDefinition job (stepJob host cfg job event) := by
  cases event with
  | recordRun status error nowMs => exact sameDefinition_recordRun job status error nowMs
  | scheduleRetry shutdown nowMs error => exact sameDefinition_scheduleRetry shutdown job nowMs error
  | fastForward nowMs =>
    simp only [stepJob, fastForwardRecurringIfMissed]
    split
    · exact .refl job
    · exact sameDefinition_skipMissed job nowMs
  | resume nowMs =>
    simp only [stepJob, resumeRecurringTask]
    split
    · split
      · exact .refl job
      · exact sameDefinition_skipMissed job nowMs
    · split
      · exact .refl job
      · exact sameDefinition_skipMissed job nowMs
    · exact .refl job
  | retrigger nowMs =>
    simp only [stepJob, retriggerDeferred]
    split <;> exact ⟨rfl, rfl, rfl, rfl⟩
  | deferTask | deferInvalidTargetTask | undefer => exact .refl job

theorem sameDefinition_run (runner : Runner) (events : List Event) :
    SameDefinition runner.job (run host cfg runner events).job := by
  induction events generalizing runner with
  | nil => exact .refl _
  | cons event events ih =>
    exact (sameDefinition_stepJob runner.job event).trans (ih (step host cfg runner event))

theorem NewlyCreated.live {job job' : Job} (h : NewlyCreated job) (hr : job.trigger.Recurs host)
    (hs : SameDefinition job job') : Live host job' where
  recurring := hs.recurring.trans h.recurring
  unpaused := by simp [Job.isPaused, hs.enabled, hs.paused, h.enabled, h.unpaused]
  recurs := hs.trigger ▸ hr

end Runs

/-- In every run from a new recurring job and at every time, waking at the computed time makes
progress exactly when the job is not starved. -/
theorem wakes_iff (host : Host Tz) (cfg : SchedulerConfig) {job : Job} (hnew : NewlyCreated job)
    (hrecurs : job.trigger.Recurs host) (deferred : Text → Option ℕ) (events : List Event)
    (nowMs : ℕ) :
    MakesProgress host cfg (run host cfg ⟨job, deferred⟩ events) nowMs ↔
      ¬ Starved host cfg (run host cfg ⟨job, deferred⟩ events) nowMs :=
  makesProgress_iff (hnew.live hrecurs (sameDefinition_run ⟨job, deferred⟩ events)) nowMs

def defaultConfig : SchedulerConfig :=
  ⟨20, 120000, 7200000, 3, [60000, 120000, 300000]⟩

/-- An error of a rate limit is transient, and an expression that is none has no occurrences. -/
def plainHost : Host Unit where
  parseTz _ := none
  schedulerTimezone := ()
  cronNextRunMs _ _ _ := none
  classify error := if error = "429".toList then some .rateLimit else none
  recurringJitterMs _ _ := 0
  oneShotLeadMs _ := 0
  oneShotMinuteMod := 30
  localMinute _ _ := none

def hourlyJob : Job where
  id := "j".toList
  enabled := true
  createdAtMs := 0
  recurring := true
  trigger := .interval 3600000
  action := .command
  lastFiredAtMs := none
  fireCount := 0
  lastStatus := none
  lastError := none
  recentRuns := []
  pausedAtMs := none
  triggerAtMs := none
  retryAttempts := 0

theorem hourlyJob_new : NewlyCreated hourlyJob :=
  ⟨rfl, rfl, rfl, ⟨rfl, rfl⟩, ⟨rfl, rfl, rfl⟩, ⟨rfl, rfl⟩⟩

def failureAt (nowMs : ℕ) : List Event :=
  [.recordRun "error".toList (some "429".toList) nowMs, .scheduleRetry false nowMs "429".toList]

def exhaustedRunner : Runner :=
  run plainHost defaultConfig ⟨hourlyJob, fun _ => none⟩
    (failureAt 3600000 ++ failureAt 3660000 ++ failureAt 3780000 ++ failureAt 4080000)

theorem retrying_wakes :
    MakesProgress plainHost defaultConfig
      (run plainHost defaultConfig ⟨hourlyJob, fun _ => none⟩ (failureAt 3600000)) 3600001 :=
  (wakes_iff plainHost defaultConfig hourlyJob_new (by decide : 0 < 3600000) (fun _ => none)
    (failureAt 3600000) 3600001).mpr (by decide)

/-- After its retries failed, a job that sleeps through its grace window is never due again. -/
theorem exhausted_never_wakes :
    NewlyCreated hourlyJob ∧ hourlyJob.trigger.Recurs plainHost ∧
      ¬ MakesProgress plainHost defaultConfig exhaustedRunner 10000000 ∧
      ∀ laterMs, 10000000 ≤ laterMs →
        exhaustedRunner.taskIsDue plainHost defaultConfig laterMs = false ∧
          exhaustedRunner.taskNeedsMissedFastForward plainHost defaultConfig laterMs = false := by
  have hrecurs : hourlyJob.trigger.Recurs plainHost := (by decide : 0 < 3600000)
  have hsame : SameDefinition hourlyJob exhaustedRunner.job :=
    sameDefinition_run ⟨hourlyJob, fun _ => none⟩ _
  have hlive : Live plainHost exhaustedRunner.job := hourlyJob_new.live hrecurs hsame
  refine ⟨hourlyJob_new, hrecurs, ?_, fun laterMs hle => ?_⟩
  · rw [makesProgress_iff hlive, not_not]
    decide
  · exact starved_for_ever hlive rfl (by decide) (by decide) (by decide) hle

end CronRunner
