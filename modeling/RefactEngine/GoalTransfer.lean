import RefactEngine.GoalLedger

/-! # Goals that move to another chat

The ledger of the new chat is seeded from the snapshot of the goal. The snapshot is later rebuilt
from the ledger, and what the seed has no entry for is lost then.
-/
namespace GoalTransfer

open SubGoals GoalLedger

structure GoalSnapshot where
  version : ℕ
  active : Bool
  status : GoalStatus
  budget : GoalBudget
  progress : GoalProgress
  attempts : List GoalAttempt
  events : List GoalEvent
  criteria : List GoalCriterion
  snoozedUntilMs : Option ℕ
  wait : Option GoalWait
  stopReason : Option Text
  transferredFrom : Option Text
  transferredTo : Option Text
  subGoals : SubGoalGraph

def applyToSnapshot (state : GoalLedgerState) (snapshot : GoalSnapshot) : GoalSnapshot :=
  { snapshot with
    active := state.active
    status := state.status
    progress := state.progress
    attempts := state.attempts
    criteria := state.criteria
    snoozedUntilMs := state.snoozedUntilMs
    wait := state.wait
    stopReason := state.stopReason
    transferredFrom := state.transferredFrom.or snapshot.transferredFrom
    transferredTo := state.transferredTo.or snapshot.transferredTo
    subGoals := state.subGoals }

def seedTransferredGoalLedger (targetGoal : GoalSnapshot) (sourceChatId : Text) (atMs : ℕ) :
    List GoalLedgerEntry :=
  [⟨1, atMs, .installed targetGoal.version true targetGoal.budget targetGoal.criteria⟩,
    ⟨2, atMs, .transferredIn sourceChatId targetGoal.progress⟩] ++
  if targetGoal.status ≠ .active then
    [⟨3, atMs, .statusChanged .active targetGoal.status (targetGoal.stopReason.getD [])⟩]
  else []

variable (goal : GoalSnapshot)

def transferred (sourceChatId : Text) (atMs : ℕ) : Option GoalSnapshot :=
  (reduceGoalLedger (seedTransferredGoalLedger goal sourceChatId atMs)).map fun state =>
    applyToSnapshot state goal

structure Preserved (goal after : GoalSnapshot) (sourceChatId : Text) : Prop where
  budget : after.budget = goal.budget
  status : after.status = goal.status
  progress : after.progress = goal.progress
  criteria : after.criteria = goal.criteria
  attempts : after.attempts = goal.attempts
  subGoals : after.subGoals = goal.subGoals
  snoozed : after.snoozedUntilMs = goal.snoozedUntilMs
  wait : after.wait = goal.wait
  stopReason : after.stopReason = goal.stopReason
  source : after.transferredFrom = some sourceChatId
  rollup : ∀ parentId, (aggregateSubGoals after.subGoals parentId).parentMayProceed =
    (aggregateSubGoals goal.subGoals parentId).parentMayProceed

def ReasonFits : Prop :=
  if goal.status = .stopped then goal.stopReason ≠ some [] else goal.stopReason = none

structure Encodable (goal : GoalSnapshot) : Prop where
  attempts : goal.attempts = []
  subGoals : goal.subGoals = .default
  snoozed : goal.snoozedUntilMs = none
  wait : goal.wait = none
  reason : ReasonFits goal

def keptReason : Option Text :=
  if goal.status = .stopped then
    if goal.stopReason.getD [] = [] then none else some (goal.stopReason.getD [])
  else none

def seeded (sourceChatId : Text) : GoalSnapshot :=
  { goal with
    active := true
    attempts := []
    snoozedUntilMs := none
    wait := none
    stopReason := keptReason goal
    transferredFrom := some sourceChatId
    subGoals := .default }

variable (goal : GoalSnapshot) (sourceChatId : Text)

theorem transferred_eq (atMs : ℕ) :
    transferred goal sourceChatId atMs = some (seeded goal sourceChatId) := by
  rw [transferred, seedTransferredGoalLedger, seeded, keptReason]
  cases hstat : goal.status with
  | active => simp [reduceGoalLedger, reduceEntry, applyOp, GoalLedgerState.new, applyToSnapshot]
  | _ => simp [reduceGoalLedger, reduceEntry, applyOp, changeStatus, GoalLedgerState.new,
      applyToSnapshot]

theorem keptReason_eq_iff {goal : GoalSnapshot} :
    keptReason goal = goal.stopReason ↔ ReasonFits goal := by
  rw [keptReason, ReasonFits]
  cases goal.stopReason with
  | none => simp
  | some reason =>
    rw [Option.getD_some]
    by_cases hstopped : goal.status = .stopped
    · by_cases hempty : reason = []
      · simp [hstopped, hempty]
      · simp [hstopped, hempty]
    · simp [hstopped]

/-- A transfer preserves the goal exactly if the seed can encode it. -/
theorem transfer_preserves_iff (goal : GoalSnapshot) (sourceChatId : Text) (atMs : ℕ) :
    (∃ after, transferred goal sourceChatId atMs = some after ∧
      Preserved goal after sourceChatId) ↔ Encodable goal := by
  simp only [transferred_eq, Option.some.injEq, exists_eq_left']
  constructor
  · intro h
    exact ⟨h.attempts.symm, h.subGoals.symm, h.snoozed.symm, h.wait.symm,
      keptReason_eq_iff.mp h.stopReason⟩
  · intro h
    exact
      { budget := rfl
        status := rfl
        progress := rfl
        criteria := rfl
        attempts := h.attempts.symm
        subGoals := h.subGoals.symm
        snoozed := h.snoozed.symm
        wait := h.wait.symm
        stopReason := keptReason_eq_iff.mpr h.reason
        source := rfl
        rollup := fun parentId => by rw [h.subGoals]; rfl }

def waitingGoal : GoalSnapshot where
  version := 1
  active := true
  status := .active
  budget := .default
  progress := .default
  attempts := []
  events := []
  criteria := []
  snoozedUntilMs := none
  wait := none
  stopReason := none
  transferredFrom := none
  transferredTo := none
  subGoals := ⟨[⟨⟨['a'], ['A'], none, []⟩, false, none, none⟩], [⟨rootSubGoalId, ['a'], .required⟩]⟩

/-- The goal waits for its sub-goal before the transfer and for nothing after it. -/
theorem transfer_drops_subGoals :
    (aggregateSubGoals waitingGoal.subGoals rootSubGoalId).parentMayProceed = false ∧
      ∃ after, transferred waitingGoal ['c'] 1 = some after ∧ ¬ Preserved waitingGoal after ['c'] ∧
        (aggregateSubGoals after.subGoals rootSubGoalId).parentMayProceed = true := by
  refine ⟨by decide, _, transferred_eq waitingGoal ['c'] 1, fun h => ?_, rfl⟩
  exact absurd h.subGoals (by decide)

end GoalTransfer
