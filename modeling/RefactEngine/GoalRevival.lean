import RefactEngine.GoalLedger

/-! # When bookkeeping revives a settled goal

Budget and progress are a tally of the ledger that does not depend on the status. A settled status
is lost exactly at an accounting entry whose tally exhausts the budget; what is lost stays lost.
-/
namespace GoalRevival

open GoalLedger List

def Settled (status : GoalStatus) : Prop :=
  status ≠ .active ∧ status ≠ .verifying ∧ status ≠ .budgetExhausted ∧ status ≠ .noProgress

def Bookkeeping : GoalLedgerOp → Prop
  | .installed .. => False
  | .statusChanged .. => False
  | .transferredOut _ => False
  | .transferredIn .. => False
  | _ => True

def Accounting : GoalLedgerOp → Prop
  | .progressRecorded .. => True
  | .verifierAttemptRecorded _ => True
  | .noProgressNoted => True
  | _ => False

variable (entries : List GoalLedgerEntry)

def statusOf : Option GoalStatus :=
  (reduceGoalLedger entries).map GoalLedgerState.status

structure Tally where
  budget : GoalBudget
  progress : GoalProgress

def Tally.apply (tally : Tally) (op : GoalLedgerOp) (atMs : ℕ) : Tally :=
  match op with
  | .progressRecorded tokens madeProgress costCents =>
    { tally with progress := tally.progress.record tokens madeProgress costCents atMs }
  | .verifierAttemptRecorded tokens =>
    { tally with progress := tally.progress.recordVerifierAttempt tokens atMs }
  | .noProgressNoted => { tally with progress := tally.progress.noteNoProgress atMs }
  | .nudgeRecorded => { tally with progress := { tally.progress with lastNudgeAtMs := atMs } }
  | .progressReset _ => { tally with progress := { tally.progress with noProgressTurns := 0 } }
  | .budgetSet budget => { tally with budget }
  | .transferredIn _ progress => { tally with progress }
  | _ => tally

def tallyEntry (tally : Option Tally) (entry : GoalLedgerEntry) : Option Tally :=
  match entry.op with
  | .installed _ _ budget _ => some ⟨budget, .default⟩
  | op => tally.map fun tally => tally.apply op entry.atMs

def tallyOf : Option Tally := entries.foldl tallyEntry none

def Tally.exhausted (tally : Tally) (atMs : ℕ) : Bool :=
  (goalBudgetExhaustionStatus tally.budget tally.progress atMs).isSome

/-- The last entry of a ledger accounts for a turn and finds its budget exhausted. -/
def Exhausts (entry : GoalLedgerEntry) : Prop :=
  Accounting entry.op ∧
    ∃ tally, tallyOf (entries ++ [entry]) = some tally ∧ tally.exhausted entry.atMs = true

def tally (state : GoalLedgerState) : Tally := ⟨state.budget, state.progress⟩

variable (state : GoalLedgerState)

@[simp] theorem transition_tally (atMs : ℕ) :
    tally (transitionAfterAccounting state atMs) = tally state := by
  rw [transitionAfterAccounting]
  cases goalBudgetExhaustionStatus state.budget state.progress atMs with
  | some status => rfl
  | none =>
    by_cases h : state.status = .budgetExhausted ∨ state.status = .noProgress
    · simp only [if_pos h]; rfl
    · simp only [if_neg h]

theorem applyOp_tally (op : GoalLedgerOp) (atMs : ℕ) :
    tally (applyOp state op atMs) = (tally state).apply op atMs := by
  cases op <;> first | rfl | exact transition_tally _ _

theorem reduceEntry_tally (state : Option GoalLedgerState) (entry : GoalLedgerEntry) :
    (reduceEntry state entry).map tally = tallyEntry (state.map tally) entry := by
  obtain ⟨seq, atMs, op⟩ := entry
  cases state with
  | none => cases op <;> rfl
  | some state =>
    cases op
    case installed => rfl
    all_goals exact congrArg some (applyOp_tally state _ atMs)

theorem tallyOf_eq (entries : List GoalLedgerEntry) :
    tallyOf entries = (reduceGoalLedger entries).map tally := by
  have hfold : ∀ (entries : List GoalLedgerEntry) (state : Option GoalLedgerState),
      entries.foldl tallyEntry (state.map tally) = (entries.foldl reduceEntry state).map tally := by
    intro entries
    induction entries with
    | nil => exact fun state => rfl
    | cons entry entries ih =>
      intro state
      rw [foldl_cons, foldl_cons, ← reduceEntry_tally, ih]
  exact hfold entries none

variable {status : GoalStatus}

theorem exhaustionStatus_not_settled {budget : GoalBudget} {progress : GoalProgress} {nowMs : ℕ}
    (h : goalBudgetExhaustionStatus budget progress nowMs = some status) :
    ¬ Settled status := by
  have hor : status = .noProgress ∨ status = .budgetExhausted := by
    rw [goalBudgetExhaustionStatus] at h
    split_ifs at h <;> cases h <;> simp
  rintro ⟨-, -, hbudget, hprogress⟩
  exact hor.elim hprogress hbudget

theorem transition_settled_iff (atMs : ℕ) : Settled (transitionAfterAccounting state atMs).status ↔
      Settled state.status ∧ (tally state).exhausted atMs = false := by
  rw [transitionAfterAccounting, Tally.exhausted, tally]
  cases h : goalBudgetExhaustionStatus state.budget state.progress atMs with
  | some status =>
    simp only [Option.isSome_some, Bool.true_eq_false, and_false, iff_false]
    exact exhaustionStatus_not_settled h
  | none =>
    by_cases hs : state.status = .budgetExhausted ∨ state.status = .noProgress
    · simp only [if_pos hs, Option.isSome_none, and_true]
      refine ⟨fun hset => absurd rfl hset.1, fun hset => ?_⟩
      exact absurd hs (not_or.mpr ⟨hset.2.2.1, hset.2.2.2⟩)
    · simp only [if_neg hs, Option.isSome_none, and_true]

theorem transition_status {state : GoalLedgerState} {atMs : ℕ}
    (h : Settled (transitionAfterAccounting state atMs).status) :
    (transitionAfterAccounting state atMs).status = state.status := by
  obtain ⟨hset, hnot⟩ := (transition_settled_iff state atMs).mp h
  rw [Tally.exhausted, tally] at hnot
  rw [transitionAfterAccounting]
  cases hx : goalBudgetExhaustionStatus state.budget state.progress atMs with
  | some status => rw [hx] at hnot; cases hnot
  | none =>
    rw [if_neg (not_or.mpr ⟨hset.2.2.1, hset.2.2.2⟩)]

/-- An entry of bookkeeping leaves a settled status only if it does not exhaust the budget, and then
the same one. -/
theorem applyOp_settled_iff {op : GoalLedgerOp} (hop : Bookkeeping op) (atMs : ℕ) :
    Settled (applyOp state op atMs).status ↔
      Settled state.status ∧
        ¬ (Accounting op ∧ (tally (applyOp state op atMs)).exhausted atMs = true) := by
  cases op
  case installed | statusChanged | transferredOut | transferredIn => exact absurd hop id
  case progressRecorded | verifierAttemptRecorded | noProgressNoted =>
    simp [applyOp, Accounting, transition_settled_iff, transition_tally]
  case progressReset =>
    simp only [Accounting, false_and, not_false_eq_true, and_true, applyOp, resetProgress]
    by_cases hs : state.status = .budgetExhausted ∨ state.status = .noProgress
    · rw [if_pos hs]
      refine ⟨fun hset => absurd hset ?_,
        fun hset => absurd hs (not_or.mpr ⟨hset.2.2.1, hset.2.2.2⟩)⟩
      cases hx : goalBudgetExhaustionStatus state.budget
          { state.progress with noProgressTurns := 0 } atMs with
      | none => exact fun hset => hset.1 rfl
      | some status => exact exhaustionStatus_not_settled hx
    · rw [if_neg hs]
  all_goals simp [applyOp, Accounting]

theorem applyOp_status {state : GoalLedgerState} {op : GoalLedgerOp} (hop : Bookkeeping op)
    {atMs : ℕ} (h : Settled (applyOp state op atMs).status) :
    (applyOp state op atMs).status = state.status := by
  cases op
  case installed | statusChanged | transferredOut | transferredIn => exact absurd hop id
  case progressRecorded | verifierAttemptRecorded | noProgressNoted => exact transition_status h
  case progressReset =>
    have hset := ((applyOp_settled_iff state hop atMs).mp h).1
    simp only [applyOp, resetProgress]
    rw [if_neg (not_or.mpr ⟨hset.2.2.1, hset.2.2.2⟩)]
  all_goals rfl

variable {entries : List GoalLedgerEntry} {entry : GoalLedgerEntry}

theorem reduce_bookkeeping {state : GoalLedgerState} (h : reduceGoalLedger entries = some state)
    (hop : Bookkeeping entry.op) : reduceGoalLedger (entries ++ [entry]) =
      some { applyOp state entry.op entry.atMs with lastSeq := entry.seq } := by
  rw [reduceGoalLedger_concat, h]
  obtain ⟨seq, atMs, op⟩ := entry
  cases op
  case installed => exact absurd hop id
  all_goals rfl

theorem settled_concat_iff {state : GoalLedgerState} (h : reduceGoalLedger entries = some state)
    (hop : Bookkeeping entry.op) :
    (∃ status, statusOf (entries ++ [entry]) = some status ∧ Settled status) ↔
      Settled state.status ∧ ¬ Exhausts entries entry := by
  have hnext := reduce_bookkeeping h hop
  rw [statusOf, hnext, Exhausts, tallyOf_eq, hnext]
  simp only [Option.map_some, Option.some.injEq, exists_eq_left']
  exact applyOp_settled_iff state hop entry.atMs

/-- A goal that was settled stays installed, and its status is the old one or is not settled. -/
theorem status_append (hstat : statusOf entries = some status)
    (hsettled : Settled status) {later : List GoalLedgerEntry}
    (hlater : ∀ e ∈ later, Bookkeeping e.op) :
    ∃ state, reduceGoalLedger (entries ++ later) = some state ∧
      (Settled state.status → state.status = status) ∧
      (Settled state.status ↔
        ∀ before e after, later = before ++ e :: after → ¬ Exhausts (entries ++ before) e) := by
  induction later using List.reverseRecOn with
  | nil =>
    obtain ⟨state, hstate, rfl⟩ := Option.map_eq_some_iff.mp hstat
    refine ⟨state, by rw [append_nil, hstate], fun _ => rfl, ?_⟩
    simp [hsettled]
  | append_singleton later entry ih =>
    obtain ⟨state, hstate, hsame, hiff⟩ := ih fun e he => hlater e (mem_append_left _ he)
    have hop := hlater entry (mem_append_right _ (mem_singleton_self entry))
    have hnext := reduce_bookkeeping hstate hop
    rw [append_assoc] at hnext
    refine ⟨_, hnext, fun hset => ?_, ?_⟩
    · have hset' := ((applyOp_settled_iff state hop entry.atMs).mp hset).1
      exact (applyOp_status hop hset).trans (hsame hset')
    · have hstep := settled_concat_iff hstate hop
      rw [append_assoc, statusOf, hnext] at hstep
      simp only [Option.map_some, Option.some.injEq, exists_eq_left'] at hstep
      rw [hstep, hiff]
      constructor
      · rintro ⟨hearly, hlast⟩ before e after hsplit
        rcases eq_nil_or_concat after with rfl | ⟨after, x, rfl⟩
        · obtain ⟨rfl, he⟩ := append_inj' hsplit rfl
          obtain rfl := singleton_inj.mp he
          exact hlast
        · rw [concat_eq_append, ← cons_append, ← append_assoc] at hsplit
          exact hearly before e after (append_inj' hsplit rfl).1
      · intro hall
        refine ⟨fun before e after hsplit => ?_, hall later entry [] rfl⟩
        apply hall before e (after ++ [entry])
        rw [hsplit, append_assoc, cons_append]

/-- A settled status survives later bookkeeping exactly if no accounting entry among it finds the
budget then in force exhausted by the progress counted up to it. -/
theorem status_survives_iff {entries later : List GoalLedgerEntry} {status : GoalStatus}
    (hstatus : statusOf entries = some status) (hsettled : Settled status)
    (hlater : ∀ e ∈ later, Bookkeeping e.op) :
    statusOf (entries ++ later) = some status ↔
      ∀ before e after, later = before ++ e :: after → ¬ Exhausts (entries ++ before) e := by
  obtain ⟨state, hstate, hsame, hiff⟩ := status_append hstatus hsettled hlater
  rw [← hiff, statusOf, hstate, Option.map_some, Option.some.injEq]
  exact ⟨fun h => h ▸ hsettled, hsame⟩

theorem stop_survives_counted_turn :
    statusOf ([⟨1, 1000, .installed 1 true .default []⟩,
        ⟨2, 2000, .statusChanged .active .stopped []⟩] ++
      [⟨3, 3000, .progressRecorded 7 false 0⟩]) = some .stopped :=
  (status_survives_iff rfl ⟨by decide, by decide, by decide, by decide⟩ fun e he => by
    rw [mem_singleton.mp he]
    trivial).mpr <| by
    intro before e after hsplit
    cases before with
    | nil =>
      obtain ⟨rfl, -⟩ := List.cons.inj hsplit
      rintro ⟨-, tally, htally, hexhausted⟩
      obtain rfl := Option.some.inj htally
      exact absurd hexhausted (by decide)
    | cons x before => simp at hsplit

/-- A turn that ends after the stop uses up the budget, and the next reset makes the goal active. -/
theorem stopped_goal_revived :
    ∃ installed stopped turn reset : GoalLedgerEntry, Bookkeeping turn.op ∧ Bookkeeping reset.op ∧
      stopped.op = .statusChanged .active .stopped [] ∧
      statusOf [installed, stopped] = some .stopped ∧
      statusOf [installed, stopped, turn] = some .noProgress ∧
      statusOf [installed, stopped, turn, reset] = some .active :=
  ⟨⟨1, 1000, .installed 1 true { GoalBudget.default with noProgressTurns := some 1 } []⟩,
    ⟨2, 2000, .statusChanged .active .stopped []⟩, ⟨3, 3000, .progressRecorded 10 false 0⟩,
    ⟨4, 4000, .progressReset []⟩, trivial, trivial, rfl, rfl, rfl, rfl⟩

end GoalRevival
