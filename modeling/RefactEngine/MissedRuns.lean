import Mathlib.Data.Nat.ModEq
import Mathlib.Tactic.NormNum
import RefactEngine.CoordinationSettings
import RefactEngine.CronRunner

/-! # Missed runs in 64 bits

A missed run is skipped by storing an anchor, from which the next run is the next occurrence that
lies in the future. The sums of the schedule are checked, but for one increment and one conversion.
-/
namespace MissedRuns

open CoordinationSettings
open CronRunner (Trigger Job Host SchedulerConfig RecurringMissedGraceState missedRunGraceMs
  missedGraceState cronAnchorMs updateFired)

abbrev Text := List Char

def checkedAdd (a b : ℕ) : Option ℕ := if a + b < 2 ^ 64 then some (a + b) else none

def checkedMul (a b : ℕ) : Option ℕ := if a * b < 2 ^ 64 then some (a * b) else none

def wrappingSucc (n : ℕ) : ℕ := (n + 1) % 2 ^ 64

def asI64 (n : ℕ) : ℤ := Int.bmod n (2 ^ 64)

structure Calendar (Tz Schedule : Type) where
  fromStr : Text → Option Schedule
  minMs : ℤ
  maxMs : ℤ
  after : Schedule → Tz → ℤ → Option ℤ

variable {Tz Schedule : Type}

def fiveFields (expr : Text) : Option (List Text) :=
  let fields := (expr.splitOnP isWhitespace).filter (· ≠ [])
  if fields.length = 5 then some fields else none

def normalizeFiveFieldCron (expr : Text) : Option Text :=
  (fiveFields expr).map fun fields => "0 ".toList ++ [' '].intercalate fields

def parseCron (cal : Calendar Tz Schedule) (expr : Text) : Option Schedule :=
  (normalizeFiveFieldCron expr).bind cal.fromStr

def cronExprNextRunMs (cal : Calendar Tz Schedule) (expr : Text) (fromMs : ℕ) (tz : Tz) :
    Option ℕ := do
  let schedule ← parseCron cal expr
  if cal.minMs ≤ asI64 fromMs ∧ asI64 fromMs ≤ cal.maxMs then
    let atMs ← cal.after schedule tz (asI64 fromMs)
    if 0 ≤ atMs then some atMs.toNat else none
  else none

def withCalendar (host : Host Tz) (cal : Calendar Tz Schedule) : Host Tz :=
  { host with cronNextRunMs := cronExprNextRunMs cal }

def intervalNextRunMs (job : Job) (fromMs everyMs : ℕ) : Option ℕ :=
  if everyMs = 0 then none
  else do
    let first ← checkedAdd job.fromMs everyMs
    if fromMs < first then some first
    else do
      let span ← checkedMul (wrappingSucc ((fromMs - job.fromMs) / everyMs)) everyMs
      checkedAdd job.fromMs span

def nextRunMs (host : Host Tz) (job : Job) (fromMs : ℕ) : Option ℕ :=
  match job.trigger with
  | .interval everyMs => intervalNextRunMs job fromMs everyMs
  | _ => CronRunner.nextRunMs host job fromMs

def missedFastForwardAnchorMs (host : Host Tz) (job : Job) (dueMs afterDueMs nowMs : ℕ)
    (shouldFire : Bool) : Option ℕ :=
  if nowMs < afterDueMs then some dueMs
  else
    match job.trigger with
    | .interval everyMs =>
      if everyMs = 0 then none
      else if nowMs ≤ job.fromMs then some job.fromMs
      else do
        let span ← checkedMul ((nowMs - job.fromMs) / everyMs) everyMs
        checkedAdd job.fromMs span
    | .cron _ _ => if shouldFire then cronAnchorMs host job nowMs dueMs afterDueMs else some nowMs
    | _ => none

def recurringMissedGraceState (host : Host Tz) (cfg : SchedulerConfig) (job : Job)
    (fromMs nowMs : ℕ) : Option RecurringMissedGraceState :=
  missedGraceState cfg (nextRunMs host job) (missedFastForwardAnchorMs host job) job fromMs nowMs

def fastForwarded (job : Job) (anchorMs : ℕ) : Job := updateFired job anchorMs job.fireCount

/-- The library returns the least matching time after its argument, and only times with a date. -/
structure LeastAfter (cal : Calendar Tz Schedule) : Prop where
  least : ∃ matching : Schedule → Tz → Set ℤ, ∀ schedule tz fromMs atMs,
    cal.after schedule tz fromMs = some atMs ↔
      IsLeast {time ∈ matching schedule tz | fromMs < time} atMs
  dated : ∀ schedule tz fromMs atMs, cal.after schedule tz fromMs = some atMs → atMs ≤ cal.maxMs
  signed : cal.maxMs < 2 ^ 63

def Periodic : Trigger → Prop
  | .cron _ _ | .interval _ => True
  | _ => False

/-- Storing the anchor skips the occurrences that are not in the future and no others. -/
structure SkipsPast (host : Host Tz) (cfg : SchedulerConfig) (job : Job) (nowMs : ℕ)
    (state : RecurringMissedGraceState) (dueMs anchorMs : ℕ) : Prop where
  due_le : dueMs ≤ nowMs
  future : nowMs < state.nextFutureMs
  next : nextRunMs host job nowMs = some state.nextFutureMs
  due_le_anchor : dueMs ≤ anchorMs
  anchor_le : anchorMs ≤ nowMs
  resumes : nextRunMs host (fastForwarded job anchorMs) anchorMs = some state.nextFutureMs
  phase : ∀ everyMs, job.trigger = .interval everyMs →
    anchorMs ≡ job.fromMs [MOD everyMs] ∧ state.nextFutureMs ≡ job.fromMs [MOD everyMs]
  settled : (recurringMissedGraceState host cfg (fastForwarded job anchorMs) anchorMs nowMs).bind
    (·.dueMs) = none
  /-- The unbounded sums give the same. -/
  unbounded : CronRunner.recurringMissedGraceState host cfg job job.fromMs nowMs = some state

def Unwrapped (job : Job) (nowMs : ℕ) : Prop :=
  match job.trigger with
  | .cron _ _ => nowMs < 2 ^ 63
  | .interval everyMs => ¬ (job.fromMs = 0 ∧ everyMs = 1 ∧ nowMs = 2 ^ 64 - 1)
  | _ => True

variable {a b c : ℕ}

theorem checkedAdd_eq_some_iff : checkedAdd a b = some c ↔ a + b = c ∧ c < 2 ^ 64 := by
  rw [checkedAdd]
  split_ifs with hfits
  · rw [Option.some_inj]
    omega
  · refine iff_of_false id ?_
    omega

theorem checkedMul_eq_some_iff : checkedMul a b = some c ↔ a * b = c ∧ c < 2 ^ 64 := by
  rw [checkedMul]
  split_ifs with hfits
  · rw [Option.some_inj]
    exact ⟨fun h => ⟨h, h ▸ hfits⟩, And.left⟩
  · refine iff_of_false id ?_
    rintro ⟨rfl, h⟩
    exact hfits h

theorem asI64_eq {n : ℕ} (h : n < 2 ^ 63) : asI64 n = n := by
  have hmodulus : ((2 ^ 64 : ℕ) : ℤ) = 18446744073709551616 := by norm_num
  apply Int.bmod_eq_of_le <;> rw [hmodulus] <;> omega

variable {host : Host Tz} {cal : Calendar Tz Schedule} {cfg : SchedulerConfig} {job : Job}
  {state : RecurringMissedGraceState} {nowMs dueMs : ℕ} {everyMs fromMs nextMs : ℕ}

theorem intervalNextRunMs_eq_some_iff (hfits : (fromMs - job.fromMs) / everyMs + 1 < 2 ^ 64) :
    intervalNextRunMs job fromMs everyMs = some nextMs ↔
      CronRunner.intervalNextRunMs job fromMs everyMs = some nextMs ∧ nextMs < 2 ^ 64 := by
  rw [intervalNextRunMs, CronRunner.intervalNextRunMs]
  split_ifs with hzero hfirst
  · simp
  · have hnot : ∀ first, checkedAdd job.fromMs everyMs = some first → fromMs < first :=
      fun first h => (checkedAdd_eq_some_iff.mp h).1 ▸ hfirst
    simp only [Option.bind_eq_bind, Option.bind_eq_some_iff, Option.some_inj]
    constructor
    · rintro ⟨first, hadd, hnext⟩
      rw [if_pos (hnot first hadd), Option.some_inj] at hnext
      exact hnext ▸ checkedAdd_eq_some_iff.mp hadd
    · rintro ⟨hnext, hlt⟩
      have hadd : checkedAdd job.fromMs everyMs = some nextMs :=
        checkedAdd_eq_some_iff.mpr ⟨hnext, hlt⟩
      exact ⟨nextMs, hadd, if_pos (hnot nextMs hadd)⟩
  · have hnot : ∀ first, checkedAdd job.fromMs everyMs = some first → ¬ fromMs < first :=
      fun first h => (checkedAdd_eq_some_iff.mp h).1 ▸ hfirst
    rw [wrappingSucc, Nat.mod_eq_of_lt hfits]
    simp only [Option.bind_eq_bind, Option.bind_eq_some_iff, Option.some_inj]
    constructor
    · rintro ⟨first, hadd, hnext⟩
      rw [if_neg (hnot first hadd), Option.bind_eq_some_iff] at hnext
      obtain ⟨span, hmul, hsum⟩ := hnext
      obtain ⟨rfl, -⟩ := checkedMul_eq_some_iff.mp hmul
      exact checkedAdd_eq_some_iff.mp hsum
    · rintro ⟨rfl, hlt⟩
      have hle : everyMs ≤ ((fromMs - job.fromMs) / everyMs + 1) * everyMs :=
        Nat.le_mul_of_pos_left everyMs (Nat.succ_pos _)
      have hadd : checkedAdd job.fromMs everyMs = some (job.fromMs + everyMs) :=
        checkedAdd_eq_some_iff.mpr ⟨rfl, by omega⟩
      refine ⟨_, hadd, ?_⟩
      rw [if_neg (hnot _ hadd), Option.bind_eq_some_iff]
      exact ⟨_, checkedMul_eq_some_iff.mpr ⟨rfl, by omega⟩,
        checkedAdd_eq_some_iff.mpr ⟨rfl, hlt⟩⟩

structure Reported (host : Host Tz) (job : Job) (nowMs : ℕ) (state : RecurringMissedGraceState)
    (dueMs afterDueMs anchorMs : ℕ) : Prop where
  recurring : job.recurring = true
  due : nextRunMs host job job.fromMs = some dueMs
  after_due : nextRunMs host job dueMs = some afterDueMs
  due_le : dueMs ≤ nowMs
  future : (if nowMs < afterDueMs then some afterDueMs else nextRunMs host job nowMs) =
    some state.nextFutureMs
  anchor : anchorMs =
    (missedFastForwardAnchorMs host job dueMs afterDueMs nowMs state.shouldFire).getD nowMs

theorem reported (h : recurringMissedGraceState host cfg job job.fromMs nowMs = some state)
    (hdue : state.dueMs = some dueMs) : ∃ afterDueMs anchorMs,
      state.advanceLastFiredAtMs = some anchorMs ∧
      Reported host job nowMs state dueMs afterDueMs anchorMs := by
  rw [recurringMissedGraceState, missedGraceState] at h
  split_ifs at h with hrecur
  simp only [Option.bind_eq_bind, Option.bind_eq_some_iff] at h
  obtain ⟨due, hfirst, afterDue, hsecond, h⟩ := h
  split_ifs at h with hfuture hlater
  · cases h
    cases hdue
  · cases h
    cases hdue
    exact ⟨afterDue, _, rfl, hrecur, hfirst, hsecond, Nat.le_of_not_lt hfuture,
      if_pos hlater, rfl⟩
  · obtain ⟨next, hnext, h⟩ := Option.bind_eq_some_iff.mp h
    cases h
    cases hdue
    exact ⟨afterDue, _, rfl, hrecur, hfirst, hsecond, Nat.le_of_not_lt hfuture,
      (if_neg hlater).trans hnext, rfl⟩

/-- A job whose next run lies in the future has no due run. -/
theorem no_due (hnext : nextRunMs host job fromMs = some nextMs) (hfuture : nowMs < nextMs) :
    (recurringMissedGraceState host cfg job fromMs nowMs).bind (·.dueMs) = none := by
  rw [recurringMissedGraceState, missedGraceState]
  split_ifs
  · rw [hnext]
    cases hafter : nextRunMs host job nextMs with
    | none => simp [hafter]
    | some afterMs => simp [hafter, hfuture]
  · rfl

variable {expr : Text}

theorem cronExprNextRunMs_eq_some {tz : Tz} (h : cronExprNextRunMs cal expr fromMs tz =
      some nextMs) :
    ∃ schedule, parseCron cal expr = some schedule ∧
      cal.minMs ≤ asI64 fromMs ∧ cal.after schedule tz (asI64 fromMs) = some (nextMs : ℤ) := by
  rw [cronExprNextRunMs] at h
  simp only [Option.bind_eq_bind, Option.bind_eq_some_iff] at h
  obtain ⟨schedule, hschedule, h⟩ := h
  split_ifs at h with hdated
  obtain ⟨atMs, hat, h⟩ := Option.bind_eq_some_iff.mp h
  split_ifs at h with hpositive
  rw [Option.some_inj] at h
  refine ⟨schedule, hschedule, hdated.1, ?_⟩
  rw [hat, ← h, Int.toNat_of_nonneg hpositive]

theorem LeastAfter.next_le (h : LeastAfter cal) {tz : Tz}
    (hnext : cronExprNextRunMs cal expr fromMs tz = some nextMs) : (nextMs : ℤ) ≤ cal.maxMs := by
  obtain ⟨schedule, -, -, hat⟩ := cronExprNextRunMs_eq_some hnext
  exact h.dated schedule tz _ _ hat

theorem LeastAfter.next_lt (h : LeastAfter cal) {tz : Tz}
    (hnext : cronExprNextRunMs cal expr fromMs tz = some nextMs) : nextMs < 2 ^ 63 := by
  have hle := h.next_le hnext
  have hsigned := h.signed
  omega

theorem LeastAfter.lt_next (h : LeastAfter cal) {tz : Tz} (hfrom : fromMs < 2 ^ 63)
    (hnext : cronExprNextRunMs cal expr fromMs tz = some nextMs) : fromMs < nextMs := by
  obtain ⟨schedule, -, -, hat⟩ := cronExprNextRunMs_eq_some hnext
  obtain ⟨matching, hleast⟩ := h.least
  have hlt := ((hleast schedule tz _ _).mp hat).1.2
  rw [asI64_eq hfrom] at hlt
  exact_mod_cast hlt

theorem LeastAfter.next_same (h : LeastAfter cal) {laterMs : ℕ} {tz : Tz}
    (hnext : cronExprNextRunMs cal expr fromMs tz = some nextMs) (hle : fromMs ≤ laterMs)
    (hlt : laterMs < nextMs) : cronExprNextRunMs cal expr laterMs tz = some nextMs := by
  have hbound := h.next_lt hnext
  have hdate := h.next_le hnext
  obtain ⟨schedule, hschedule, hmin, hat⟩ := cronExprNextRunMs_eq_some hnext
  obtain ⟨matching, hleast⟩ := h.least
  rw [asI64_eq (by omega)] at hmin hat
  obtain ⟨⟨hmatch, -⟩, hlower⟩ := (hleast schedule tz _ _).mp hat
  have hlater : cal.after schedule tz (laterMs : ℤ) = some (nextMs : ℤ) := by
    refine (hleast schedule tz _ _).mpr ⟨⟨hmatch, by omega⟩, fun time htime => ?_⟩
    exact hlower ⟨htime.1, lt_of_le_of_lt (by omega) htime.2⟩
  rw [cronExprNextRunMs, hschedule]
  simp only [Option.bind_eq_bind, Option.bind_some, asI64_eq (show laterMs < 2 ^ 63 by omega)]
  rw [if_pos ⟨by omega, by omega⟩, hlater]
  simp

def zoneOf (host : Host Tz) (tz : Option Text) : Tz :=
  (tz.bind host.parseTz).getD host.schedulerTimezone

variable {tz : Option Text}

theorem nextRunMs_cron (htrig : job.trigger = .cron expr tz) (hrecur : job.recurring = true)
    (fromMs : ℕ) : nextRunMs (withCalendar host cal) job fromMs =
      cronExprNextRunMs cal expr fromMs (zoneOf host tz) := by
  simp [nextRunMs, CronRunner.nextRunMs, htrig, CronRunner.cronNextRunMs, hrecur,
    withCalendar, zoneOf]

variable {anchorMs : ℕ}

theorem cronAnchorMs_spec {lastMs : ℕ}
    (h : cronAnchorMs host job nowMs anchorMs nextMs = some lastMs)
    (hnext : CronRunner.nextRunMs host job anchorMs = some nextMs) (hle : anchorMs ≤ nowMs)
    (hlt : anchorMs ≤ nextMs) : (anchorMs ≤ lastMs ∧ lastMs ≤ nowMs) ∧
      ∃ futureMs, CronRunner.nextRunMs host job lastMs = some futureMs ∧ nowMs < futureMs := by
  induction hleft : nowMs + 1 - nextMs using Nat.strong_induction_on
    generalizing anchorMs nextMs with
  | h left ih =>
    rw [cronAnchorMs] at h
    split_ifs at h with hdue
    · cases hlater : CronRunner.nextRunMs host job nextMs with
      | none =>
        rw [hlater] at h
        cases h
      | some laterMs =>
        simp only [hlater] at h
        split_ifs at h with hback
        obtain ⟨⟨hfrom, hto⟩, hfuture⟩ :=
          ih (nowMs + 1 - laterMs) (by omega) h hlater hdue (by omega) rfl
        exact ⟨⟨hlt.trans hfrom, hto⟩, hfuture⟩
    · cases h
      exact ⟨⟨le_refl _, hle⟩, nextMs, hnext, Nat.lt_of_not_le hdue⟩

variable {afterDueMs : ℕ}

theorem Reported.skipsPast (h : Reported host job nowMs state dueMs afterDueMs anchorMs)
    (hfuture : nowMs < state.nextFutureMs)
    (hnext : nextRunMs host job nowMs = some state.nextFutureMs)
    (hanchor : dueMs ≤ anchorMs ∧ anchorMs ≤ nowMs)
    (hresumes : nextRunMs host (fastForwarded job anchorMs) anchorMs = some state.nextFutureMs)
    (hphase : ∀ everyMs, job.trigger = .interval everyMs →
      anchorMs ≡ job.fromMs [MOD everyMs] ∧ state.nextFutureMs ≡ job.fromMs [MOD everyMs])
    (hunbounded : CronRunner.recurringMissedGraceState host cfg job job.fromMs nowMs = some state) :
    SkipsPast host cfg job nowMs state dueMs anchorMs where
  due_le := h.due_le
  future := hfuture
  next := hnext
  due_le_anchor := hanchor.1
  anchor_le := hanchor.2
  resumes := hresumes
  phase := hphase
  settled := no_due hresumes hfuture
  unbounded := hunbounded

theorem cron_anchor (hafter : LeastAfter cal) (htrig : job.trigger = .cron expr tz)
    (h : Reported (withCalendar host cal) job nowMs state dueMs afterDueMs anchorMs)
    (hnow : nowMs < 2 ^ 63) : nowMs < state.nextFutureMs ∧
      nextRunMs (withCalendar host cal) job nowMs = some state.nextFutureMs ∧
      (dueMs ≤ anchorMs ∧ anchorMs ≤ nowMs) ∧
      nextRunMs (withCalendar host cal) job anchorMs = some state.nextFutureMs := by
  obtain ⟨hrecur, hdue, hafterDue, hdue_le, hfuture, hanchor⟩ := h
  have hcron := @nextRunMs_cron _ _ host cal job _ _ htrig hrecur
  rw [hcron] at hafterDue hfuture ⊢
  rw [missedFastForwardAnchorMs, htrig] at hanchor
  simp only at hanchor
  have hlt := hafter.lt_next (by omega) hafterDue
  by_cases hlater : nowMs < afterDueMs
  · rw [if_pos hlater, Option.some_inj] at hfuture
    rw [if_pos hlater, Option.getD_some] at hanchor
    subst hanchor
    rw [← hfuture, hcron]
    exact ⟨hlater, hafter.next_same hafterDue hdue_le hlater, ⟨le_refl _, hdue_le⟩, hafterDue⟩
  · rw [if_neg hlater] at hfuture hanchor
    refine ⟨hafter.lt_next hnow hfuture, hfuture, ?_⟩
    have hnowAnchor : anchorMs = nowMs → (dueMs ≤ anchorMs ∧ anchorMs ≤ nowMs) ∧
        nextRunMs (withCalendar host cal) job anchorMs = some state.nextFutureMs := by
      rintro rfl
      exact ⟨⟨hdue_le, le_refl _⟩, (hcron _).trans hfuture⟩
    split_ifs at hanchor with hfires
    · cases hwalk : cronAnchorMs (withCalendar host cal) job nowMs dueMs afterDueMs with
      | none =>
        rw [hwalk] at hanchor
        exact hnowAnchor hanchor
      | some lastMs =>
        rw [hwalk, Option.getD_some] at hanchor
        subst hanchor
        have hsame : ∀ fromMs, CronRunner.nextRunMs (withCalendar host cal) job fromMs =
            cronExprNextRunMs cal expr fromMs (zoneOf host tz) := by
          intro fromMs
          rw [← hcron, nextRunMs, htrig]
        obtain ⟨hbetw, futureMs, hlast, hlt_future⟩ :=
          cronAnchorMs_spec hwalk ((hsame _).trans hafterDue) hdue_le hlt.le
        rw [hsame] at hlast
        have heq := (hafter.next_same hlast hbetw.2 hlt_future).symm.trans hfuture
        exact ⟨hbetw, (hcron _).trans (hlast.trans heq)⟩
    · exact hnowAnchor hanchor

theorem unbounded_state
    (h : recurringMissedGraceState host cfg job job.fromMs nowMs = some state)
    (hdue : state.dueMs = some dueMs)
    (hnext : ∀ fromMs nextMs, fromMs = job.fromMs ∨ fromMs ≤ nowMs →
      nextRunMs host job fromMs = some nextMs → CronRunner.nextRunMs host job fromMs = some nextMs)
    (hanchor : ∀ due afterDue shouldFire,
      missedFastForwardAnchorMs host job due afterDue nowMs shouldFire =
        CronRunner.missedFastForwardAnchorMs host job due afterDue nowMs shouldFire) :
    CronRunner.recurringMissedGraceState host cfg job job.fromMs nowMs = some state := by
  rw [recurringMissedGraceState, missedGraceState] at h
  split_ifs at h with hrecur
  simp only [Option.bind_eq_bind, Option.bind_eq_some_iff] at h
  obtain ⟨due, hfirst, afterDue, hsecond, h⟩ := h
  rw [CronRunner.recurringMissedGraceState, missedGraceState, if_pos hrecur,
    hnext _ _ (.inl rfl) hfirst]
  simp only [Option.bind_eq_bind, Option.bind_some]
  split_ifs at h with hfuture hlater
  · cases h
    cases hdue
  · rw [hnext _ _ (.inr (Nat.le_of_not_lt hfuture)) hsecond, ← h]
    simp [hfuture, hlater, hanchor]
  · obtain ⟨next, hthird, h⟩ := Option.bind_eq_some_iff.mp h
    rw [hnext _ _ (.inr (Nat.le_of_not_lt hfuture)) hsecond, ← h]
    simp [hfuture, hlater, hanchor, hnext _ _ (.inr (le_refl _)) hthird]

theorem cron_skipsPast (hafter : LeastAfter cal) (htrig : job.trigger = .cron expr tz)
    (hnow : nowMs < 2 ^ 63)
    (hstate : recurringMissedGraceState (withCalendar host cal) cfg job job.fromMs nowMs =
      some state)
    (hdue : state.dueMs = some dueMs)
    (h : Reported (withCalendar host cal) job nowMs state dueMs afterDueMs anchorMs) :
    SkipsPast (withCalendar host cal) cfg job nowMs state dueMs anchorMs := by
  obtain ⟨hfuture, hnext, hbetw, hlast⟩ := cron_anchor hafter htrig h hnow
  refine h.skipsPast hfuture hnext hbetw ?_ (fun everyMs hinterval => ?_) ?_
  · -- the occurrences of an expression do not depend on the last fire
    rw [nextRunMs_cron htrig h.recurring] at hlast
    rwa [@nextRunMs_cron _ _ host cal (fastForwarded job anchorMs) _ _ htrig h.recurring]
  · rw [htrig] at hinterval
    cases hinterval
  · refine unbounded_state hstate hdue (fun fromMs nextMs _ hrun => ?_) fun _ _ _ => ?_
    · rwa [nextRunMs, htrig] at hrun
    · rw [missedFastForwardAnchorMs, CronRunner.missedFastForwardAnchorMs, htrig]

/-- The ticks do not wrap around but at one time of one job. -/
theorem ticks_fit (htrig : job.trigger = .interval everyMs) (hnow : nowMs < 2 ^ 64)
    (hunwrapped : Unwrapped job nowMs) (hle : fromMs ≤ nowMs) :
    (fromMs - job.fromMs) / everyMs + 1 < 2 ^ 64 := by
  rw [Unwrapped, htrig] at hunwrapped
  by_cases hone : everyMs = 1
  · rw [hone, Nat.div_one]
    omega
  · have hhalf : (fromMs - job.fromMs) / everyMs ≤ (fromMs - job.fromMs) / 2 ∨ everyMs = 0 := by
      rcases Nat.eq_zero_or_pos everyMs with hzero | hpos
      · exact .inr hzero
      · exact .inl (Nat.div_le_div_left (by omega) (by omega))
    rcases hhalf with hhalf | rfl
    · omega
    · rw [Nat.div_zero]
      omega

theorem intervalNextRunMs_unbounded (hpos : everyMs ≠ 0) (hle : job.fromMs ≤ fromMs) :
    CronRunner.intervalNextRunMs job fromMs everyMs =
      some (job.fromMs + ((fromMs - job.fromMs) / everyMs + 1) * everyMs) := by
  rw [CronRunner.intervalNextRunMs, if_neg hpos]
  split_ifs with hfirst
  · rw [Nat.div_eq_of_lt (by omega), Nat.zero_add, Nat.one_mul]
  · rfl

theorem nextRunMs_interval (htrig : job.trigger = .interval everyMs) (hpos : everyMs ≠ 0)
    (hfits : (fromMs - job.fromMs) / everyMs + 1 < 2 ^ 64) (hle : job.fromMs ≤ fromMs) :
    nextRunMs host job fromMs = some nextMs ↔
      job.fromMs + ((fromMs - job.fromMs) / everyMs + 1) * everyMs = nextMs ∧
        nextMs < 2 ^ 64 := by
  rw [nextRunMs, htrig]
  simp only
  rw [intervalNextRunMs_eq_some_iff hfits, intervalNextRunMs_unbounded hpos hle, Option.some_inj]

def lastTickMs (job : Job) (everyMs nowMs : ℕ) : ℕ :=
  job.fromMs + (nowMs - job.fromMs) / everyMs * everyMs

theorem lastTickMs_le (hbase : job.fromMs ≤ nowMs) : lastTickMs job everyMs nowMs ≤ nowMs := by
  have hle := Nat.div_mul_le_self (nowMs - job.fromMs) everyMs
  rw [lastTickMs]
  omega

theorem lt_lastTickMs_add (hpos : everyMs ≠ 0) (hbase : job.fromMs ≤ nowMs) :
    nowMs < lastTickMs job everyMs nowMs + everyMs := by
  have hlt := Nat.lt_mul_div_succ (nowMs - job.fromMs) (Nat.pos_of_ne_zero hpos)
  rw [Nat.mul_comm, Nat.add_mul, Nat.one_mul] at hlt
  rw [lastTickMs]
  omega

theorem le_lastTickMs (hpos : everyMs ≠ 0) (hfirst : job.fromMs + everyMs ≤ nowMs) :
    job.fromMs + everyMs ≤ lastTickMs job everyMs nowMs := by
  have hone : 1 ≤ (nowMs - job.fromMs) / everyMs :=
    (Nat.one_le_div_iff (Nat.pos_of_ne_zero hpos)).mpr (by omega)
  have hle := Nat.mul_le_mul_right everyMs hone
  rw [lastTickMs]
  omega

/-- The checks of the anchor never fail. -/
theorem anchor_unbounded (htrig : job.trigger = .interval everyMs) (hnow : nowMs < 2 ^ 64)
    (due afterDue : ℕ) (shouldFire : Bool) :
    missedFastForwardAnchorMs host job due afterDue nowMs shouldFire =
      CronRunner.missedFastForwardAnchorMs host job due afterDue nowMs shouldFire := by
  rw [missedFastForwardAnchorMs, CronRunner.missedFastForwardAnchorMs, htrig]
  simp only
  by_cases hbase : nowMs ≤ job.fromMs
  · rw [if_pos hbase, if_pos hbase]
  · have hle := Nat.div_mul_le_self (nowMs - job.fromMs) everyMs
    have hmul : checkedMul ((nowMs - job.fromMs) / everyMs) everyMs =
        some ((nowMs - job.fromMs) / everyMs * everyMs) :=
      checkedMul_eq_some_iff.mpr ⟨rfl, by omega⟩
    have hadd : checkedAdd job.fromMs ((nowMs - job.fromMs) / everyMs * everyMs) =
        some (job.fromMs + (nowMs - job.fromMs) / everyMs * everyMs) :=
      checkedAdd_eq_some_iff.mpr ⟨rfl, by omega⟩
    rw [if_neg hbase, if_neg hbase, hmul, Option.bind_eq_bind, Option.bind_some, hadd]

theorem interval_skipsPast (htrig : job.trigger = .interval everyMs) (hnow : nowMs < 2 ^ 64)
    (hunwrapped : Unwrapped job nowMs)
    (hstate : recurringMissedGraceState host cfg job job.fromMs nowMs = some state)
    (hdue : state.dueMs =
      some dueMs) (h : Reported host job nowMs state dueMs afterDueMs anchorMs) :
    SkipsPast host cfg job nowMs state dueMs anchorMs := by
  have hpos : everyMs ≠ 0 := by
    rintro rfl
    have hfirst := h.due
    rw [nextRunMs, htrig] at hfirst
    cases hfirst
  have hdue_le := h.due_le
  have hticks : ∀ {fromMs : ℕ}, fromMs ≤ nowMs →
      (fromMs - job.fromMs) / everyMs + 1 < 2 ^ 64 := fun hle =>
    ticks_fit htrig hnow hunwrapped hle
  obtain ⟨hfirst, -⟩ := (nextRunMs_interval htrig hpos
    (by rw [Nat.sub_self, Nat.zero_div]; norm_num) (le_refl _)).mp h.due
  rw [Nat.sub_self, Nat.zero_div, Nat.zero_add, Nat.one_mul] at hfirst
  have hbase : job.fromMs ≤ nowMs := by omega
  obtain ⟨hsecond, hsecond_fits⟩ :=
    (nextRunMs_interval htrig hpos (hticks hdue_le) (by omega)).mp h.after_due
  rw [show dueMs - job.fromMs = everyMs by omega, Nat.div_self (by omega)] at hsecond
  have htick : nowMs < afterDueMs → lastTickMs job everyMs nowMs = dueMs := by
    intro hlater
    rw [lastTickMs, Nat.div_eq_of_lt_le (k := 1) (by omega) (by omega), Nat.one_mul, hfirst]
  -- The anchor and the next run are the ends of the interval that the time lies in.
  have hnext_iff : ∀ nextMs, nextRunMs host job nowMs = some nextMs ↔
      lastTickMs job everyMs nowMs + everyMs = nextMs ∧ nextMs < 2 ^ 64 := by
    intro nextMs
    rw [nextRunMs_interval htrig hpos (hticks (le_refl _)) hbase, Nat.add_mul, Nat.one_mul,
      ← Nat.add_assoc]
    rfl
  have hnext : nextRunMs host job nowMs = some state.nextFutureMs := by
    have hfuture := h.future
    by_cases hlater : nowMs < afterDueMs
    · rw [if_pos hlater, Option.some_inj] at hfuture
      refine (hnext_iff _).mpr ⟨?_, hfuture ▸ hsecond_fits⟩
      rw [htick hlater]
      omega
    · rwa [if_neg hlater] at hfuture
  obtain ⟨hend, hend_fits⟩ := (hnext_iff _).mp hnext
  have hanchor : anchorMs = lastTickMs job everyMs nowMs := by
    have hgiven := h.anchor
    rw [anchor_unbounded htrig hnow, CronRunner.missedFastForwardAnchorMs, htrig] at hgiven
    simp only at hgiven
    by_cases hlater : nowMs < afterDueMs
    · rw [if_pos hlater, Option.getD_some] at hgiven
      rw [hgiven, htick hlater]
    · rw [if_neg hlater, if_neg hpos, if_neg (by omega), Option.getD_some] at hgiven
      exact hgiven
  subst hanchor
  have hlt := lt_lastTickMs_add hpos hbase
  have hle := @lastTickMs_le job nowMs everyMs hbase
  have hge := le_lastTickMs hpos (show job.fromMs + everyMs ≤ nowMs by omega)
  refine h.skipsPast (by omega) hnext ⟨by omega, hle⟩ ?_ (fun other hother => ?_) ?_
  · have hafter_anchor := @nextRunMs_interval _ host
      (fastForwarded job (lastTickMs job everyMs nowMs)) everyMs (lastTickMs job everyMs nowMs)
      state.nextFutureMs htrig hpos
    rw [show (fastForwarded job (lastTickMs job everyMs nowMs)).fromMs =
      lastTickMs job everyMs nowMs from rfl, Nat.sub_self, Nat.zero_div, Nat.zero_add,
      Nat.one_mul] at hafter_anchor
    exact (hafter_anchor (by norm_num) (le_refl _)).mpr ⟨hend, hend_fits⟩
  · rw [htrig] at hother
    cases hother
    have hphase : lastTickMs job everyMs nowMs ≡ job.fromMs [MOD everyMs] := by
      rw [lastTickMs]
      exact Nat.add_mul_mod_self_right ..
    refine ⟨hphase, ?_⟩
    rw [← hend]
    exact (Nat.add_mod_right _ everyMs).trans hphase
  · refine unbounded_state hstate hdue (fun fromMs nextMs hfrom hrun => ?_)
      (anchor_unbounded htrig hnow)
    rw [nextRunMs, htrig] at hrun
    rw [CronRunner.nextRunMs, htrig]
    refine ((intervalNextRunMs_eq_some_iff ?_).mp hrun).1
    exact hticks (hfrom.elim (fun heq => heq ▸ hbase) id)

theorem intervalNextRunMs_wraps (hbase : job.fromMs = 0) :
    intervalNextRunMs job (2 ^ 64 - 1) 1 = some 0 := by
  rw [intervalNextRunMs, hbase]
  decide

/-- A missed run is skipped, together with the past, exactly if nothing wraps around. -/
theorem missed_skips_past_iff (hafter : LeastAfter cal) (hperiodic : Periodic job.trigger)
    (hnow : nowMs < 2 ^ 64)
    (hstate : recurringMissedGraceState (withCalendar host cal) cfg job job.fromMs nowMs =
      some state) (hdue : state.dueMs = some dueMs) :
    (∃ anchorMs, state.advanceLastFiredAtMs = some anchorMs ∧
      SkipsPast (withCalendar host cal) cfg job nowMs state dueMs anchorMs) ↔
        Unwrapped job nowMs := by
  obtain ⟨afterDueMs, anchorMs, hadvance, hreported⟩ := reported hstate hdue
  constructor
  · rintro ⟨anchorMs, -, h⟩
    have hnext := h.next
    have hfuture := h.future
    cases htrigger : job.trigger with
    | cron expr tz =>
      rw [nextRunMs_cron htrigger hreported.recurring] at hnext
      have hlt := hafter.next_lt hnext
      rw [Unwrapped, htrigger]
      exact hfuture.trans hlt
    | interval everyMs =>
      rw [Unwrapped, htrigger]
      rintro ⟨hbase, rfl, rfl⟩
      rw [nextRunMs, htrigger] at hnext
      simp only at hnext
      rw [intervalNextRunMs_wraps hbase, Option.some_inj] at hnext
      omega
    | once | manual | webhook | onProcessExit =>
      rw [htrigger] at hperiodic
      exact hperiodic.elim
  · intro hunwrapped
    refine ⟨anchorMs, hadvance, ?_⟩
    cases htrigger : job.trigger with
    | cron expr tz =>
      have hsigned : nowMs < 2 ^ 63 := by
        rwa [Unwrapped, htrigger] at hunwrapped
      exact cron_skipsPast hafter htrigger hsigned hstate hdue hreported
    | interval everyMs => exact interval_skipsPast htrigger hnow hunwrapped hstate hdue hreported
    | once | manual | webhook | onProcessExit =>
      rw [htrigger] at hperiodic
      exact hperiodic.elim

/-- The schedule of every fifth minute, up to the last year that the library knows. -/
def fiveMinutes : Calendar Unit Unit where
  fromStr text := if text = "0 */5 * * * *".toList then some () else none
  minMs := -8334601228800000
  maxMs := 8210266876799999
  after _ _ fromMs :=
    let atMs := max 0 ((fromMs / 300000 + 1) * 300000)
    if atMs < 4133980800000 then some atMs else none

theorem fiveMinutes_least : LeastAfter fiveMinutes := by
  refine ⟨⟨fun _ _ => {time | 0 ≤ time ∧ time < 4133980800000 ∧ 300000 ∣ time}, ?_⟩, ?_, ?_⟩
  · intro _ _ fromMs atMs
    simp only [fiveMinutes]
    constructor
    · intro hafter
      split_ifs at hafter with hknown
      rw [Option.some_inj] at hafter
      refine ⟨⟨⟨by omega, by omega, by omega⟩, by omega⟩, fun time htime => ?_⟩
      obtain ⟨⟨hpositive, -, hdvd⟩, hlt⟩ := htime
      omega
    · rintro ⟨⟨⟨hpositive, hknown, hdvd⟩, hlt⟩, hlower⟩
      have hle : atMs ≤ max 0 ((fromMs / 300000 + 1) * 300000) := by
        by_contra hgt
        have hin := hlower ⟨⟨le_max_left 0 ((fromMs / 300000 + 1) * 300000), by omega, by omega⟩,
          by omega⟩
        exact hgt hin
      have heq : max 0 ((fromMs / 300000 + 1) * 300000) = atMs := by omega
      rw [heq, if_pos hknown]
  · intro _ _ fromMs atMs hafter
    rw [show fiveMinutes.maxMs = 8210266876799999 from rfl]
    simp only [fiveMinutes] at hafter
    split_ifs at hafter with hknown
    rw [Option.some_inj] at hafter
    omega
  · rw [show fiveMinutes.maxMs = 8210266876799999 from rfl]
    norm_num

def fiveMinuteJob : Job :=
  { CronRunner.hourlyJob with trigger := .cron "*/5 * * * *".toList none }

/-- At 16 minutes the run of minute 5 is missed, and the next run is that of minute 20. -/
theorem five_minutes_skip_past :
    ∃ anchorMs, SkipsPast (withCalendar CronRunner.plainHost fiveMinutes) CronRunner.defaultConfig
      fiveMinuteJob 960000 ⟨some 300000, 1200000, some 960000, 300000, 150000, false⟩ 300000
      anchorMs := by
  have hstate : recurringMissedGraceState (withCalendar CronRunner.plainHost fiveMinutes)
      CronRunner.defaultConfig fiveMinuteJob fiveMinuteJob.fromMs 960000 =
      some ⟨some 300000, 1200000, some 960000, 300000, 150000, false⟩ := by decide +kernel
  obtain ⟨anchorMs, -, h⟩ := (missed_skips_past_iff fiveMinutes_least
    (show Periodic fiveMinuteJob.trigger from trivial) (by norm_num) hstate rfl).mpr
    (show 960000 < 2 ^ 63 by norm_num)
  exact ⟨anchorMs, h⟩

/-- The last time of 64 bits is converted to a time before the epoch, and the run that follows it
there lies in the past and is due again. -/
theorem last_time_runs_in_past :
    recurringMissedGraceState (withCalendar CronRunner.plainHost fiveMinutes)
        CronRunner.defaultConfig fiveMinuteJob fiveMinuteJob.fromMs (2 ^ 64 - 1) =
      some ⟨some 300000, 0, some (2 ^ 64 - 1), 300000, 150000, false⟩ ∧
    recurringMissedGraceState (withCalendar CronRunner.plainHost fiveMinutes)
        CronRunner.defaultConfig (fastForwarded fiveMinuteJob (2 ^ 64 - 1)) (2 ^ 64 - 1)
        (2 ^ 64 - 1) =
      some ⟨some 0, 0, some (2 ^ 64 - 1), 300000, 150000, false⟩ ∧
    ∀ dueMs anchorMs, ¬ SkipsPast (withCalendar CronRunner.plainHost fiveMinutes)
      CronRunner.defaultConfig fiveMinuteJob (2 ^ 64 - 1)
      ⟨some 300000, 0, some (2 ^ 64 - 1), 300000, 150000, false⟩ dueMs anchorMs := by
  refine ⟨by decide +kernel, by decide, fun dueMs anchorMs h => ?_⟩
  exact Nat.not_lt_zero _ h.future

end MissedRuns
