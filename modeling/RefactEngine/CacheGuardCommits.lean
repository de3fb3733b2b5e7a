import RefactEngine.CacheGuard
import Mathlib.Data.List.Pairwise

/-! # Commits of the cache guard

A check looks at the session twice, with a slow estimate in between, and the snapshot of a request
that passed is committed when the provider has answered. Other checks, commits and resets run in
between in any order.
-/
namespace CacheGuard

open List

variable {N : Type}

def u64Max : ℕ := 2 ^ 64 - 1

structure GuardSession (N : Type) where
  snapshot : Option (Value N)
  requestGeneration : ℕ
  snapshotGeneration : ℕ
  resetGeneration : ℕ
  forceNext : Bool

def GuardSession.fresh : GuardSession N := ⟨none, 0, 0, 0, false⟩

structure CacheGuardSnapshot (N : Type) where
  body : Value N
  requestGeneration : ℕ
  resetGeneration : ℕ

inductive CacheGuardOutcome (N : Type) where
  | pass (snapshot : Option (CacheGuardSnapshot N))
  | paused

/-- The request is checked at all. `eligible` is what thread, model and settings say. -/
def guards [DecidableEq N] (eligible : Bool) (requestBody : Value N) : Bool :=
  hasAnthropicExplicitCacheMarkers requestBody && eligible &&
    (requestBody.get "previous_response_id").all fun id => decide (id = .null)

namespace GuardSession

variable (session : GuardSession N)

section Check

variable [DecidableEq N]

/-- The first locked section; the value is the snapshot that the request does not continue. The
counter panics at its end. -/
def beginCheck (requestBody : Value N) :
    Option (GuardSession N × CacheGuardSnapshot N × Option (Value N)) :=
  if session.requestGeneration < u64Max then
    let sanitized := bodyForCacheGuard requestBody
    let generation := session.requestGeneration + 1
    some ({ session with requestGeneration := generation },
      ⟨sanitized, generation, session.resetGeneration⟩,
      if session.forceNext then none
      else session.snapshot.filter fun prev => !cachePrefixCompatible prev sanitized true)
  else none

def outcomeIfSnapshotChanged (current : Option (Value N)) (capturedPrevious : Value N)
    (snapshot : CacheGuardSnapshot N) : Option (CacheGuardOutcome N) :=
  if current = some capturedPrevious then none
  else
    match current with
    | none => some (.pass (some snapshot))
    | some current =>
      if cachePrefixCompatible current snapshot.body true then some (.pass (some snapshot)) else none

def endCheck (previous : Value N) (snapshot : CacheGuardSnapshot N) : CacheGuardOutcome N :=
  if session.forceNext then .pass (some snapshot)
  else (outcomeIfSnapshotChanged session.snapshot previous snapshot).getD .paused

end Check

def accepts (snapshot : CacheGuardSnapshot N) : Bool :=
  decide (session.snapshotGeneration < snapshot.requestGeneration) &&
    decide (snapshot.resetGeneration = session.resetGeneration)

def commitCacheGuardSnapshot (snapshot : CacheGuardSnapshot N) : GuardSession N :=
  if session.accepts snapshot then
    { session with
      snapshot := some snapshot.body
      snapshotGeneration := snapshot.requestGeneration
      forceNext := false }
  else session

def resetCacheGuardSnapshot : GuardSession N :=
  { session with
    resetGeneration := min (session.resetGeneration + 1) u64Max
    forceNext := true }

end GuardSession

structure GuardedRequest (N : Type) where
  snapshot : CacheGuardSnapshot N
  checkedAt : ℕ

/-- A session and its requests: those between their locked sections, those that may still commit,
and, newest first, what has happened so far. -/
structure GuardRun (N : Type) where
  session : GuardSession N
  moment : ℕ
  suspects : List (GuardedRequest N × Value N)
  passed : List (GuardedRequest N)
  issued : List (GuardedRequest N)
  committed : List (GuardedRequest N)
  effective : List (GuardedRequest N)
  lastReset : Option ℕ

inductive GuardEvent (N : Type) where
  | check (eligible : Bool) (requestBody : Value N)
  | conclude (index : ℕ)
  | commit (index : ℕ)
  | reset

namespace GuardRun

def fresh : GuardRun N := ⟨.fresh, 0, [], [], [], [], [], none⟩

variable (s : GuardRun N)

def tick : GuardRun N := { s with moment := s.moment + 1 }

def pass (request : GuardedRequest N) : GuardRun N := { s with passed := request :: s.passed }

def suspect (request : GuardedRequest N) (previous : Value N) : GuardRun N :=
  { s with suspects := (request, previous) :: s.suspects }

variable [DecidableEq N]

def check (requestBody : Value N) : GuardRun N × Option (CacheGuardOutcome N) :=
  match s.session.beginCheck requestBody with
  | none => (s, none)
  | some (session, snapshot, violated) =>
    let request : GuardedRequest N := ⟨snapshot, s.moment⟩
    let s := { s with session := session, issued := request :: s.issued }
    match violated with
    | none => (s.pass request, some (.pass (some snapshot)))
    | some previous => (s.suspect request previous, none)

def conclude (index : ℕ) : GuardRun N × Option (CacheGuardOutcome N) :=
  match s.suspects[index]? with
  | none => (s, none)
  | some (request, previous) =>
    let s := { s with suspects := s.suspects.eraseIdx index }
    let outcome := s.session.endCheck previous request.snapshot
    match outcome with
    | .pass _ => (s.pass request, some outcome)
    | .paused => (s, some outcome)

omit [DecidableEq N] in
def commit (index : ℕ) : GuardRun N :=
  match s.passed[index]? with
  | none => s
  | some request =>
    { s with
      session := s.session.commitCacheGuardSnapshot request.snapshot
      passed := s.passed.eraseIdx index
      committed := request :: s.committed
      effective :=
        if s.session.accepts request.snapshot then request :: s.effective else s.effective }

omit [DecidableEq N] in
def reset : GuardRun N :=
  { s with session := s.session.resetCacheGuardSnapshot, lastReset := some s.moment }

def step : GuardEvent N → GuardRun N × Option (CacheGuardOutcome N)
  | .check eligible requestBody =>
    if guards eligible requestBody then ((s.check requestBody).1.tick, (s.check requestBody).2)
    else (s.tick, some (.pass none))
  | .conclude index => ((s.conclude index).1.tick, (s.conclude index).2)
  | .commit index => ((s.commit index).tick, none)
  | .reset => (s.reset.tick, none)

def run (events : List (GuardEvent N)) : GuardRun N := events.foldl (fun s event => (s.step event).1) s

end GuardRun

namespace GuardRun

def NoResetSince (s : GuardRun N) (request : GuardedRequest N) : Prop :=
  ∀ t, s.lastReset = some t → t < request.checkedAt

def Newer (new old : GuardedRequest N) : Prop :=
  old.snapshot.requestGeneration < new.snapshot.requestGeneration ∧
    old.snapshot.resetGeneration ≤ new.snapshot.resetGeneration

structure Inv [DecidableEq N] (s : GuardRun N) : Prop where
  newest : s.issued.Pairwise Newer
  positive : ∀ r ∈ s.issued, 0 < r.snapshot.requestGeneration
  issued : ∀ r ∈ s.issued, r.snapshot.requestGeneration ≤ s.session.requestGeneration ∧
    r.snapshot.resetGeneration ≤ s.session.resetGeneration ∧ r.checkedAt < s.moment ∧
    (r.snapshot.resetGeneration = s.session.resetGeneration ↔ s.NoResetSince r)
  suspects : ∀ p ∈ s.suspects, p.1 ∈ s.issued ∧
    cachePrefixCompatible p.2 p.1.snapshot.body true = false
  passed : ∀ r ∈ s.passed, r ∈ s.issued
  committed : ∀ r ∈ s.committed, r ∈ s.issued ∧
    (r.snapshot.requestGeneration ≤ s.session.snapshotGeneration ∨
      r.snapshot.resetGeneration < s.session.resetGeneration)
  effective : ∀ r ∈ s.effective, r ∈ s.committed ∧
    r.snapshot.requestGeneration ≤ s.session.snapshotGeneration
  stored : s.session.snapshot = s.effective.head?.map (·.snapshot.body) ∧
    s.session.snapshotGeneration = (s.effective.head?.map (·.snapshot.requestGeneration)).getD 0
  forced : s.session.forceNext = false →
    ∀ t, s.lastReset = some t → ∃ r, s.effective.head? = some r ∧ t < r.checkedAt
  past : ∀ t, s.lastReset = some t → t < s.moment

variable [DecidableEq N]

theorem inv_fresh : Inv (fresh : GuardRun N) := by
  constructor
  · exact List.Pairwise.nil
  · exact fun r h => absurd h not_mem_nil
  · exact fun r h => absurd h not_mem_nil
  · exact fun p h => absurd h not_mem_nil
  · exact fun r h => absurd h not_mem_nil
  · exact fun r h => absurd h not_mem_nil
  · exact fun r h => absurd h not_mem_nil
  · exact ⟨rfl, rfl⟩
  · exact fun _ t h => nomatch h
  · exact fun t h => nomatch h

variable {s : GuardRun N} {request : GuardedRequest N}

namespace Inv

theorem tick (h : Inv s) : Inv s.tick where
  newest := h.newest
  positive := h.positive
  issued r hr := by
    obtain ⟨hgen, hreset, hmoment, hsince⟩ := h.issued r hr
    exact ⟨hgen, hreset, Nat.lt_succ_of_lt hmoment, hsince⟩
  suspects := h.suspects
  passed := h.passed
  committed := h.committed
  effective := h.effective
  stored := h.stored
  forced := h.forced
  past t ht := Nat.lt_succ_of_lt (h.past t ht)

theorem pass (h : Inv s) (hr : request ∈ s.issued) : Inv (s.pass request) where
  newest := h.newest
  positive := h.positive
  issued := h.issued
  suspects := h.suspects
  passed r hmem := by
    rcases mem_cons.mp hmem with rfl | hmem
    · exact hr
    · exact h.passed r hmem
  committed := h.committed
  effective := h.effective
  stored := h.stored
  forced := h.forced
  past := h.past

theorem suspect (h : Inv s) (hr : request ∈ s.issued) {previous : Value N}
    (hviolated : cachePrefixCompatible previous request.snapshot.body true = false) :
    Inv (s.suspect request previous) where
  newest := h.newest
  positive := h.positive
  issued := h.issued
  suspects p hmem := by
    rcases mem_cons.mp hmem with rfl | hmem
    · exact ⟨hr, hviolated⟩
    · exact h.suspects p hmem
  passed := h.passed
  committed := h.committed
  effective := h.effective
  stored := h.stored
  forced := h.forced
  past := h.past

theorem issue (h : Inv s) (body : Value N) :
    let generation := s.session.requestGeneration + 1
    let request : GuardedRequest N := ⟨⟨body, generation, s.session.resetGeneration⟩, s.moment⟩
    Inv (GuardRun.tick { s with
      session := { s.session with requestGeneration := generation }
      issued := request :: s.issued }) := by
  intro generation request
  constructor
  · refine pairwise_cons.mpr ⟨fun old hold => ?_, h.newest⟩
    obtain ⟨hgen, hreset, -, -⟩ := h.issued old hold
    exact ⟨Nat.lt_succ_of_le hgen, hreset⟩
  · intro r hr
    rcases mem_cons.mp hr with rfl | hr
    · exact Nat.succ_pos _
    · exact h.positive r hr
  · intro r hr
    rcases mem_cons.mp hr with rfl | hr
    · exact ⟨le_rfl, le_rfl, Nat.lt_succ_self _, fun _ => h.past, fun _ => rfl⟩
    · obtain ⟨hgen, hreset, hmoment, hsince⟩ := h.issued r hr
      exact ⟨Nat.le_succ_of_le hgen, hreset, Nat.lt_succ_of_lt hmoment, hsince⟩
  · exact fun p hp => ⟨mem_cons_of_mem _ (h.suspects p hp).1, (h.suspects p hp).2⟩
  · exact fun r hr => mem_cons_of_mem _ (h.passed r hr)
  · intro r hr
    exact ⟨mem_cons_of_mem _ (h.committed r hr).1, (h.committed r hr).2⟩
  · exact h.effective
  · exact h.stored
  · exact h.forced
  · exact fun t ht => Nat.lt_succ_of_lt (h.past t ht)

theorem reset (h : Inv s) (hroom : s.session.resetGeneration < u64Max) : Inv s.reset.tick := by
  have hnext : s.reset.tick.session.resetGeneration = s.session.resetGeneration + 1 :=
    min_eq_left hroom
  constructor
  · exact h.newest
  · exact h.positive
  · intro r hr
    obtain ⟨hgen, hreset, hmoment, -⟩ := h.issued r hr
    rw [hnext]
    refine ⟨hgen, Nat.le_succ_of_le hreset, Nat.lt_succ_of_lt hmoment, ?_, ?_⟩
    · intro heq
      omega
    · intro hsince
      exact absurd (hsince s.moment rfl) (Nat.not_lt.mpr hmoment.le)
  · exact h.suspects
  · exact h.passed
  · intro r hr
    rw [hnext]
    exact ⟨(h.committed r hr).1,
      Or.inr (Nat.lt_succ_of_le (h.issued r (h.committed r hr).1).2.1)⟩
  · exact h.effective
  · exact h.stored
  · exact fun hforce => nomatch hforce
  · intro t ht
    cases ht
    exact Nat.lt_succ_self _

end Inv

omit [DecidableEq N] in
theorem accepts_iff (session : GuardSession N) (snapshot : CacheGuardSnapshot N) :
    session.accepts snapshot = true ↔ session.snapshotGeneration < snapshot.requestGeneration ∧
      snapshot.resetGeneration = session.resetGeneration := by
  rw [GuardSession.accepts, Bool.and_eq_true, decide_eq_true_eq, decide_eq_true_eq]

theorem Inv.commit (h : Inv s) (index : ℕ) : Inv (s.commit index) := by
  rw [GuardRun.commit]
  cases hindex : s.passed[index]? with
  | none => exact h
  | some request =>
    have hrequest : request ∈ s.issued := h.passed request (mem_of_getElem? hindex)
    obtain ⟨-, hreset, -, hsince⟩ := h.issued request hrequest
    have hpassed : ∀ r ∈ s.passed.eraseIdx index, r ∈ s.issued := fun r hr =>
      h.passed r (mem_of_mem_eraseIdx hr)
    simp only [GuardSession.commitCacheGuardSnapshot]
    split_ifs with haccepts
    · obtain ⟨hnewer, hsame⟩ := (accepts_iff _ _).mp haccepts
      refine ⟨h.newest, h.positive, h.issued, h.suspects, hpassed, ?_, ?_, ⟨rfl, rfl⟩, ?_, h.past⟩
      · intro r hr
        rcases mem_cons.mp hr with rfl | hr
        · exact ⟨hrequest, Or.inl le_rfl⟩
        · exact ⟨(h.committed r hr).1, (h.committed r hr).2.imp_left hnewer.le.trans'⟩
      · intro r hr
        rcases mem_cons.mp hr with rfl | hr
        · exact ⟨mem_cons_self, le_rfl⟩
        · exact ⟨mem_cons_of_mem _ (h.effective r hr).1, (h.effective r hr).2.trans hnewer.le⟩
      · exact fun _ t ht => ⟨request, rfl, hsince.mp hsame t ht⟩
    · refine ⟨h.newest, h.positive, h.issued, h.suspects, hpassed, ?_, ?_, h.stored, h.forced, h.past⟩
      · intro r hr
        rcases mem_cons.mp hr with rfl | hr
        · refine ⟨hrequest, ?_⟩
          rw [accepts_iff] at haccepts
          simp only
          omega
        · exact h.committed r hr
      · exact fun r hr => ⟨mem_cons_of_mem _ (h.effective r hr).1, (h.effective r hr).2⟩

variable {snapshot : CacheGuardSnapshot N}

theorem beginCheck_eq {session : GuardSession N} {body : Value N}
    {next : GuardSession N} {violated : Option (Value N)}
    (h : session.beginCheck body = some (next, snapshot, violated)) :
    next = { session with requestGeneration := session.requestGeneration + 1 } ∧
      snapshot = ⟨bodyForCacheGuard body, session.requestGeneration + 1,
        session.resetGeneration⟩ ∧
      ∀ previous, violated = some previous →
        cachePrefixCompatible previous (bodyForCacheGuard body) true = false := by
  by_cases hroom : session.requestGeneration < u64Max
  · rw [GuardSession.beginCheck, if_pos hroom] at h
    have heq := Option.some.inj h
    refine ⟨(congrArg Prod.fst heq).symm, (congrArg (fun p => p.2.1) heq).symm, ?_⟩
    intro previous hprevious
    have hviolated := (congrArg (fun p => p.2.2) heq).trans hprevious
    simp only at hviolated
    split_ifs at hviolated
    have hfilt := (Option.filter_eq_some_iff.mp hviolated).2
    rwa [Bool.not_eq_true'] at hfilt
  · rw [GuardSession.beginCheck, if_neg hroom] at h
    cases h

theorem Inv.check (h : Inv s) (body : Value N) : Inv (s.check body).1.tick := by
  rw [GuardRun.check]
  split
  · exact h.tick
  · rename_i session snapshot violated hbegin
    obtain ⟨rfl, rfl, hviolated⟩ := beginCheck_eq hbegin
    have hissue := h.issue (bodyForCacheGuard body)
    cases violated with
    | none => exact hissue.pass mem_cons_self
    | some previous => exact hissue.suspect mem_cons_self (hviolated previous rfl)

theorem Inv.conclude (h : Inv s) (index : ℕ) : Inv (s.conclude index).1 := by
  rw [GuardRun.conclude]
  split
  · exact h
  · rename_i request previous hindex
    have hrequest : request ∈ s.issued :=
      (h.suspects (request, previous) (mem_of_getElem? hindex)).1
    have hrest : Inv { s with suspects := s.suspects.eraseIdx index } :=
      { h with suspects := fun p hp => h.suspects p (mem_of_mem_eraseIdx hp) }
    simp only
    split
    · exact hrest.pass hrequest
    · exact hrest

def HasRoom (s : GuardRun N) (event : GuardEvent N) : Prop :=
  match event with
  | .reset => s.session.resetGeneration < u64Max
  | .check _ _ | .conclude _ | .commit _ => True

theorem Inv.step (h : Inv s) (event : GuardEvent N) (hroom : s.HasRoom event) :
    Inv (s.step event).1 := by
  cases event with
  | check eligible body =>
    rw [GuardRun.step]
    split_ifs
    · exact h.check body
    · exact h.tick
  | conclude index => exact (h.conclude index).tick
  | commit index => exact (h.commit index).tick
  | reset => exact h.reset hroom

theorem stored_check (s : GuardRun N) (body : Value N) :
    (s.check body).1.session.snapshotGeneration = s.session.snapshotGeneration ∧
      (s.check body).1.session.forceNext = s.session.forceNext := by
  rw [GuardRun.check]
  split
  · exact ⟨rfl, rfl⟩
  · rename_i session snapshot violated hbegin
    obtain ⟨rfl, rfl, -⟩ := beginCheck_eq hbegin
    cases violated <;> exact ⟨rfl, rfl⟩

theorem session_conclude (s : GuardRun N) (index : ℕ) :
    (s.conclude index).1.session = s.session := by
  rw [GuardRun.conclude]
  split
  · rfl
  · simp only
    split <;> rfl

omit [DecidableEq N] in
theorem session_commit (index : ℕ) : (s.commit index).session = s.session ∨
    ∃ request, s.passed[index]? = some request ∧
      s.session.accepts request.snapshot = true ∧
      (s.commit index).session = { s.session with
        snapshot := some request.snapshot.body
        snapshotGeneration := request.snapshot.requestGeneration
        forceNext := false } := by
  rw [GuardRun.commit]
  cases hindex : s.passed[index]? with
  | none => exact Or.inl rfl
  | some request =>
    simp only [GuardSession.commitCacheGuardSnapshot]
    split_ifs with haccepts
    · exact Or.inr ⟨request, rfl, haccepts, rfl⟩
    · exact Or.inl rfl

omit [DecidableEq N] in
theorem session_commit_refused {index : ℕ} (hindex : s.passed[index]? = some request)
    (href : s.session.accepts request.snapshot = false) :
    (s.commit index).session = s.session := by
  rw [GuardRun.commit, hindex]
  simp only [GuardSession.commitCacheGuardSnapshot, href, Bool.false_eq_true, if_false]

structure Promised (s : GuardRun N) (event : GuardEvent N) : Prop where
  monotone : s.session.snapshotGeneration ≤ (s.step event).1.session.snapshotGeneration
  /-- A commit takes effect exactly if it is newer than the effective ones and no reset came after
  its check, and then it is newer than all that committed. -/
  commit : ∀ index request, event = .commit index → s.passed[index]? = some request →
    (s.session.accepts request.snapshot = true ↔
      s.NoResetSince request ∧ ∀ old ∈ s.effective, Newer request old) ∧
    (s.session.accepts request.snapshot = true → ∀ old ∈ s.committed, Newer request old) ∧
    (s.session.accepts request.snapshot = false → (s.step event).1.session = s.session)
  cleared : s.session.forceNext = true → (s.step event).1.session.forceNext = false →
    ∃ index request, event = .commit index ∧ s.passed[index]? = some request ∧
      s.NoResetSince request
  paused : (s.step event).2 = some .paused → ∃ index request previous, event = .conclude index ∧
    s.suspects[index]? = some (request, previous) ∧ ∃ latest ∈ s.effective,
      s.session.snapshot = some latest.snapshot.body ∧ s.NoResetSince latest ∧
      cachePrefixCompatible latest.snapshot.body request.snapshot.body true = false

def StoresNewest (s : GuardRun N) : Prop :=
  (s.effective = [] ∧ s.session.snapshot = none) ∨
    ∃ latest ∈ s.effective, s.session.snapshot = some latest.snapshot.body ∧
      s.session.snapshotGeneration = latest.snapshot.requestGeneration ∧
      ∀ r ∈ s.effective, r.snapshot.requestGeneration ≤ latest.snapshot.requestGeneration

theorem Inv.storesNewest (h : Inv s) : s.StoresNewest := by
  obtain ⟨hsnapshot, hgen⟩ := h.stored
  cases heff : s.effective with
  | nil =>
    rw [heff] at hsnapshot
    exact Or.inl ⟨heff, hsnapshot⟩
  | cons latest rest =>
    rw [heff] at hsnapshot hgen
    refine Or.inr ⟨latest, ?_, hsnapshot, hgen, fun r hr => ?_⟩
    · rw [heff]
      exact mem_cons_self
    · have hle := (h.effective r hr).2
      rw [hgen] at hle
      exact hle

theorem Inv.newer_or (h : Inv s) {old : GuardedRequest N} (hr : request ∈ s.issued)
    (hold : old ∈ s.issued) : request = old ∨ Newer request old ∨ Newer old request := by
  have hpairs : s.issued.Pairwise fun a b => Newer a b ∨ Newer b a := h.newest.imp Or.inl
  have hsymm : Std.Symm fun a b : GuardedRequest N => Newer a b ∨ Newer b a := ⟨fun _ _ => Or.symm⟩
  by_cases hsame : request = old
  · exact Or.inl hsame
  · exact Or.inr (hpairs.forall hr hold hsame)

theorem Inv.newer_of_accepts (h : Inv s) (hr : request ∈ s.issued)
    (haccepts : s.session.accepts request.snapshot = true) :
    ∀ old ∈ s.committed, Newer request old := by
  intro old hold
  obtain ⟨hnewer, hsame⟩ := (accepts_iff _ _).mp haccepts
  obtain ⟨hissued, hdone⟩ := h.committed old hold
  rcases h.newer_or hr hissued with rfl | hnew | hback
  · omega
  · exact hnew
  · obtain ⟨hgen, hreset⟩ := hback
    omega

theorem Inv.accepts_iff_newest (h : Inv s) (hr : request ∈ s.issued) :
    s.session.accepts request.snapshot = true ↔
      s.NoResetSince request ∧ ∀ old ∈ s.effective, Newer request old := by
  have hsince := (h.issued request hr).2.2.2
  constructor
  · intro haccepts
    refine ⟨hsince.mp ((accepts_iff _ _).mp haccepts).2, fun old hold => ?_⟩
    exact h.newer_of_accepts hr haccepts old (h.effective old hold).1
  · rintro ⟨hnone, hnewest⟩
    refine (accepts_iff _ _).mpr ⟨?_, hsince.mpr hnone⟩
    rw [h.stored.2]
    cases heff : s.effective with
    | nil => exact h.positive request hr
    | cons latest rest =>
      refine (hnewest latest ?_).1
      rw [heff]
      exact mem_cons_self

theorem endCheck_paused {session : GuardSession N} {previous : Value N}
    (h : session.endCheck previous snapshot = .paused) :
    session.forceNext = false ∧ ∃ current, session.snapshot = some current ∧
      (current = previous ∨ cachePrefixCompatible current snapshot.body true = false) := by
  rw [GuardSession.endCheck] at h
  split_ifs at h with hforce
  rw [Bool.not_eq_true] at hforce
  refine ⟨hforce, ?_⟩
  unfold GuardSession.outcomeIfSnapshotChanged at h
  split_ifs at h with hsame
  · exact ⟨previous, hsame, Or.inl rfl⟩
  · cases hcur : session.snapshot with
    | none =>
      rw [hcur] at h
      cases h
    | some current =>
      rw [hcur] at h
      simp only at h
      split_ifs at h with hcompatible
      · cases h
      · rw [Bool.not_eq_true] at hcompatible
        exact ⟨current, rfl, Or.inr hcompatible⟩

theorem Inv.paused (h : Inv s) {index : ℕ} (hpaused : (s.conclude index).2 = some .paused) :
    ∃ request previous, s.suspects[index]? = some (request, previous) ∧ ∃ latest ∈ s.effective,
      s.session.snapshot = some latest.snapshot.body ∧ s.NoResetSince latest ∧
      cachePrefixCompatible latest.snapshot.body request.snapshot.body true = false := by
  rw [GuardRun.conclude] at hpaused
  cases hindex : s.suspects[index]? with
  | none =>
    rw [hindex] at hpaused
    cases hpaused
  | some suspected =>
    obtain ⟨request, previous⟩ := suspected
    have hout : s.session.endCheck previous request.snapshot = .paused := by
      simp only [hindex] at hpaused
      split at hpaused <;> exact Option.some.inj hpaused
    obtain ⟨hforce, current, hcur, hviolated⟩ := endCheck_paused hout
    have hincompatible : cachePrefixCompatible current request.snapshot.body true = false := by
      rcases hviolated with rfl | hviolated
      · exact (h.suspects (request, current) (mem_of_getElem? hindex)).2
      · exact hviolated
    have hstored := h.stored.1
    rw [hcur] at hstored
    obtain ⟨latest, hlatest, rfl⟩ := Option.map_eq_some_iff.mp hstored.symm
    refine ⟨request, previous, rfl, latest, List.mem_of_mem_head? hlatest, hcur, ?_,
      hincompatible⟩
    intro t ht
    obtain ⟨r, hr, hlt⟩ := h.forced hforce t ht
    cases hlatest.symm.trans hr
    exact hlt

theorem Inv.promised (h : Inv s) (event : GuardEvent N) : Promised s event := by
  cases event with
  | check eligible body =>
    have hstored : (s.step (.check eligible body)).1.session.snapshotGeneration =
        s.session.snapshotGeneration ∧
        (s.step (.check eligible body)).1.session.forceNext = s.session.forceNext ∧
        (s.step (.check eligible body)).2 ≠ some .paused := by
      rw [GuardRun.step]
      split_ifs
      · refine ⟨(stored_check s body).1, (stored_check s body).2, ?_⟩
        rw [GuardRun.check]
        split
        · exact nofun
        · rename_i session snapshot violated hbegin
          cases violated <;> exact nofun
      · exact ⟨rfl, rfl, nofun⟩
    refine ⟨hstored.1.ge, nofun, fun hforce hcleared => ?_, fun hp => absurd hp hstored.2.2⟩
    rw [hstored.2.1, hforce] at hcleared
    cases hcleared
  | conclude index =>
    have hsession : (s.step (.conclude index)).1.session = s.session := session_conclude s index
    refine ⟨?_, nofun, fun hforce hcleared => ?_, fun hpaused => ?_⟩
    · rw [hsession]
    · rw [hsession, hforce] at hcleared
      cases hcleared
    · obtain ⟨request, previous, hindex, hlatest⟩ := h.paused hpaused
      exact ⟨index, request, previous, rfl, hindex, hlatest⟩
  | commit index =>
    refine ⟨?_, ?_, fun hforce hcleared => ?_, nofun⟩
    · rcases session_commit (s := s) index with hsame | ⟨request, -, haccepts, hnext⟩
      · exact hsame.symm ▸ le_rfl
      · change _ ≤ (s.commit index).session.snapshotGeneration
        rw [hnext]
        exact ((accepts_iff _ _).mp haccepts).1.le
    · rintro index request ⟨⟩ hindex
      have hrequest := h.passed request (mem_of_getElem? hindex)
      exact ⟨h.accepts_iff_newest hrequest, h.newer_of_accepts hrequest,
        session_commit_refused hindex⟩
    · change (s.commit index).session.forceNext = false at hcleared
      rcases session_commit (s := s) index with hsame | ⟨request, hindex, haccepts, -⟩
      · rw [hsame, hforce] at hcleared
        cases hcleared
      · have hrequest := h.passed request (mem_of_getElem? hindex)
        exact ⟨index, request, rfl, hindex, ((h.accepts_iff_newest hrequest).mp haccepts).1⟩
  | reset =>
    refine ⟨le_rfl, nofun, fun _ hcleared => ?_, nofun⟩
    cases hcleared

def counts (event : GuardEvent N) : Bool :=
  match event with
  | .check _ _ | .reset => true
  | .conclude _ | .commit _ => false

omit [DecidableEq N] in
theorem resetGeneration_commit (index : ℕ) :
    (s.commit index).session.resetGeneration = s.session.resetGeneration := by
  rcases session_commit (s := s) index with hsame | ⟨request, -, -, hnext⟩
  · rw [hsame]
  · rw [hnext]

theorem resetGeneration_step (s : GuardRun N) (event : GuardEvent N) :
    (s.step event).1.session.resetGeneration ≤
      s.session.resetGeneration + if counts event then 1 else 0 := by
  cases event with
  | check eligible body =>
    refine le_trans (le_of_eq ?_) (Nat.le_add_right _ _)
    rw [GuardRun.step]
    split_ifs
    · simp only [GuardRun.check]
      split
      · rfl
      · rename_i session snapshot violated hbegin
        obtain ⟨rfl, rfl, -⟩ := beginCheck_eq hbegin
        cases violated <;> rfl
    · rfl
  | conclude index => exact (congrArg _ (session_conclude s index)).le
  | commit index => exact (resetGeneration_commit index).le
  | reset => exact min_le_left _ _

theorem inv_run {events : List (GuardEvent N)} (hbound : events.countP counts < 2 ^ 64 - 1)
    (n : ℕ) : Inv (fresh.run (events.take n)) ∧
      (fresh.run (events.take n)).session.resetGeneration ≤ (events.take n).countP counts := by
  induction n with
  | zero => exact ⟨inv_fresh, Nat.zero_le _⟩
  | succ n ih =>
    obtain ⟨hinv, hresets⟩ := ih
    cases hevent : events[n]? with
    | none =>
      rw [take_add_one, hevent, Option.toList_none, append_nil]
      exact ⟨hinv, hresets⟩
    | some event =>
      have htake : events.take (n + 1) = events.take n ++ [event] := by
        rw [take_add_one, hevent, Option.toList_some]
      have hrun : fresh.run (events.take (n + 1)) = ((fresh.run (events.take n)).step event).1 := by
        rw [htake, run, foldl_concat, run]
      have hcount : (events.take (n + 1)).countP counts =
          (events.take n).countP counts + if counts event then 1 else 0 := by
        rw [htake, countP_append, countP_singleton]
      have htotal : (events.take (n + 1)).countP counts ≤ events.countP counts :=
        (take_sublist _ _).countP_le
      rw [hrun, hcount]
      refine ⟨hinv.step event ?_, (resetGeneration_step _ event).trans ?_⟩
      · cases event with
        | reset =>
          rw [hcount] at htotal
          have hone : (if counts (GuardEvent.reset : GuardEvent N) then 1 else 0) = 1 := rfl
          rw [HasRoom, u64Max]
          omega
        | _ => trivial
      · exact Nat.add_le_add_right hresets _

/-- In every run the requests have different generations, the newest effective commit is stored, and
every step keeps its promise. -/
theorem run_promised (events : List (GuardEvent N)) (hbound : events.countP counts < 2 ^ 64 - 1)
    (n : ℕ) :
    let s := fresh.run (events.take n)
    (s.issued.map (·.snapshot.requestGeneration)).Nodup ∧ s.StoresNewest ∧
      ∀ event, events[n]? = some event → Promised s event := by
  intro s
  have hinv : Inv s := (inv_run hbound n).1
  refine ⟨?_, hinv.storesNewest, fun event _ => hinv.promised event⟩
  rw [List.Nodup, pairwise_map]
  exact hinv.newest.imp fun hnewer => (Nat.ne_of_lt hnewer.1).symm

def oneMessage (text : String) : Value ℕ :=
  .ofFields [("messages", .array [.ofFields [("role", .string "user"),
    ("content", .array [.ofFields [("type", .string "text"), ("text", .string text),
      ("cache_control", .null)]])]])]

def lateCommit : List (GuardEvent ℕ) :=
  [.check true (oneMessage "a"), .check true (oneMessage "b"), .commit 0, .commit 0]

theorem lateCommit_ignored :
    (fresh.run lateCommit).committed.map (·.snapshot.requestGeneration) = [1, 2] ∧
      (fresh.run lateCommit).effective.map (·.snapshot.requestGeneration) = [2] ∧
      let s := fresh.run (lateCommit.take 3)
      (s.issued.map (·.snapshot.requestGeneration)).Nodup ∧ s.StoresNewest ∧
        ∀ event, lateCommit[3]? = some event → Promised s event := by
  refine ⟨?_, ?_, run_promised lateCommit (by decide) 3⟩
  · decide
  · decide

end GuardRun

end CacheGuard
