import RefactEngine.LaunchEffects

/-! # At most one start, and boundaries that do not walk back

The generation of an intent starts again at zero when its row is inserted anew. A record that
was read before the last insertion can then match a later row by accident. The results are
about the runs in which nobody acts on a record or a claim from before the last insertion.
-/
namespace LaunchReconciliation

open WorkIdentity CoordinationStore List

variable {setup : ℕ → Reconciler} {w w' : World} {a : Action}

/-- The events since the row was inserted. -/
def sinceInsertion (key : IntentKey) (log : List Event) : List Event :=
  log.takeWhile fun ev => ev ≠ .inserted key

def Timely (w : World) : Action → Prop
  | .advance project record => .returned record ∈ sinceInsertion (project, record.run) w.log
  | .start i key => .claimed i key ∈ sinceInsertion key w.log
  | _ => True

inductive TimelyRun (setup : ℕ → Reconciler) (w : World) : World → Prop where
  | refl : TimelyRun setup w w
  | tail {w₁ w₂ : World} {a : Action} : TimelyRun setup w w₁ → Step setup w₁ a w₂ → Timely w₁ a →
      TimelyRun setup w w₂

variable {key : IntentKey}

variable {log new : List Event}

theorem since_append (h : .inserted key ∉ new) :
    sinceInsertion key (new ++ log) = new ++ sinceInsertion key log := by
  unfold sinceInsertion
  apply takeWhile_append_of_pos
  intro ev hev
  apply decide_eq_true
  rintro rfl
  exact h hev

theorem since_cons {ev : Event} (h : ev ≠ .inserted key) :
    sinceInsertion key (ev :: log) = ev :: sinceInsertion key log := by
  have hnot : Event.inserted key ∉ [ev] := by
    rw [mem_singleton]
    exact fun heq => h heq.symm
  exact since_append hnot

theorem since_inserted (key : IntentKey) (log : List Event) :
    sinceInsertion key (.inserted key :: log) = [] := by
  simp [sinceInsertion]

theorem since_insertion_cases (key k : IntentKey) (record : RunIntentRecord) (log : List Event) :
    (k = key ∧ sinceInsertion k (.returned record :: .inserted key :: log) = [.returned record]) ∨
      (k ≠ key ∧ sinceInsertion k (.returned record :: .inserted key :: log) =
        .returned record :: .inserted key :: sinceInsertion k log) := by
  by_cases hk : k = key
  · subst hk
    left
    rw [since_cons (by simp), since_inserted]
    exact ⟨rfl, rfl⟩
  · right
    rw [since_cons (by simp), since_cons (by simpa using fun h => hk h.symm)]
    exact ⟨hk, rfl⟩

def isLaunch (key : IntentKey) : Event → Bool
  | .claimed _ k => k = key
  | .started _ k => k = key
  | _ => false

/-- The claims and starts of a run since its row was inserted. -/
def launches (key : IntentKey) (log : List Event) : List Event :=
  (sinceInsertion key log).filter (isLaunch key)

theorem launches_append (h : .inserted key ∉ new) :
    launches key (new ++ log) = new.filter (isLaunch key) ++ launches key log := by
  unfold launches
  rw [since_append h, filter_append]

theorem launches_returned (key : IntentKey) (records : List RunIntentRecord) (log : List Event) :
    launches key (records.map .returned ++ log) = launches key log := by
  rw [launches_append (by simp)]
  have hnone : (records.map Event.returned).filter (isLaunch key) = [] := by
    rw [filter_eq_nil_iff]
    intro ev hev
    obtain ⟨record, -, rfl⟩ := mem_map.mp hev
    simp [isLaunch]
  rw [hnone, nil_append]

theorem launches_inserted (key k : IntentKey) (record : RunIntentRecord) (log : List Event) :
    launches k (.returned record :: .inserted key :: log) = [] ∨
      (k ≠ key ∧ launches k (.returned record :: .inserted key :: log) = launches k log) := by
  unfold launches
  rcases since_insertion_cases key k record log with ⟨-, heq⟩ | ⟨hk, heq⟩
  · left
    rw [heq]
    rfl
  · right
    rw [heq]
    exact ⟨hk, rfl⟩

theorem launches_cons {ev : Event} (h : ev ≠ .inserted key) : launches key (ev :: log) =
      if isLaunch key ev then ev :: launches key log else launches key log := by
  unfold launches
  rw [since_cons h, filter_cons]

theorem launches_claimed (key k : IntentKey) (i : ℕ) (record : RunIntentRecord)
    (log : List Event) : launches k (.claimed i key :: .returned record :: log) =
      if k = key then .claimed i k :: launches k log else launches k log := by
  rw [launches_cons (by simp), launches_cons (by simp)]
  by_cases hk : k = key
  · simp [isLaunch, hk]
  · simp [isLaunch, hk, Ne.symm hk]

theorem launches_started (key k : IntentKey) (i : ℕ) (log : List Event) :
    launches k (.started i key :: log) =
      if k = key then .started i k :: launches k log else launches k log := by
  rw [launches_cons (by simp)]
  by_cases hk : k = key
  · simp [isLaunch, hk]
  · simp [isLaunch, hk, Ne.symm hk]

def Grounded (record : RunIntentRecord) : Prop :=
  0 ≤ record.generation ∧ (record.generation = 0 ↔ record.state = .persisted)

structure Records (w : World) : Prop where
  keyed : ∀ key record, w.db.runIntents.lookup key = some record →
    (record.project, record.run) = key
  grounded : ∀ key record, w.db.runIntents.lookup key = some record → Grounded record
  returned : ∀ record, .returned record ∈ w.log → Grounded record
  carried : ∀ i, ∀ record ∈ (w.phase i).records, .returned record ∈ w.log
  behind : ∀ key current record, w.db.runIntents.lookup key = some current →
    .returned record ∈ sinceInsertion key w.log → (record.project, record.run) = key →
    record.generation ≤ current.generation ∧
      (record.generation = current.generation → record.state = current.state)

/-- The claims and starts since the last insertion. A reconciler whose claim is among them and
that has not started yet is the only one that may. -/
structure Launches (setup : ℕ → Reconciler) (w : World) : Prop where
  untouched : ∀ key current, w.db.runIntents.lookup key = some current →
    current.state = .persisted → launches key w.log = []
  shape : ∀ key, launches key w.log = [] ∨ ∃ i, launches key w.log = [.claimed i key] ∨
    launches key w.log = [.started i key, .claimed i key]
  pending : ∀ i record, (w.phase i).claim? = some record →
    .claimed i ((setup i).protocol.access.project, record.run) ∈
      launches ((setup i).protocol.access.project, record.run) w.log →
    launches ((setup i).protocol.access.project, record.run) w.log =
      [.claimed i ((setup i).protocol.access.project, record.run)]

theorem Records.initial : Records World.initial where
  keyed _ _ hrow := by cases hrow
  grounded _ _ hrow := by cases hrow
  returned _ hrec := by cases hrec
  carried _ _ hrec := by cases hrec
  behind _ _ _ hrow := by cases hrow

theorem Launches.initial : Launches setup World.initial where
  untouched _ _ hrow := by cases hrow
  shape _ := .inl rfl
  pending _ _ hclaim := by cases hclaim

variable {records : List RunIntentRecord}

theorem Records.quiet (h : Records w) (hq : Quiet w w' records) : Records w' := by
  constructor
  · intro key record hrow
    exact h.keyed key record (hq.rows key record hrow)
  · intro key record hrow
    exact h.grounded key record (hq.rows key record hrow)
  · intro record hrec
    rw [hq.log, mem_append] at hrec
    rcases hrec with hnew | hold
    · obtain ⟨r, hr, heq⟩ := mem_map.mp hnew
      cases heq
      obtain ⟨key, hkey⟩ := hq.current record hr
      exact h.grounded key record hkey
    · exact h.returned record hold
  · intro i record hrec
    rw [hq.log, mem_append]
    rcases hq.carried i record hrec with hold | hnew
    · exact .inr (h.carried i record hold)
    · exact .inl (mem_map_of_mem hnew)
  · intro key current record hrow hrec hkey
    have hold := hq.rows key current hrow
    rw [hq.log, since_append (by simp), mem_append] at hrec
    rcases hrec with hnew | hbef
    · obtain ⟨r, hr, heq⟩ := mem_map.mp hnew
      cases heq
      obtain ⟨k, hk⟩ := hq.current record hr
      obtain rfl : k = key := (h.keyed k record hk).symm.trans hkey
      obtain rfl : record = current := Option.some.inj (hk.symm.trans hold)
      exact ⟨le_rfl, fun _ => rfl⟩
    · exact h.behind key current record hold hbef hkey

theorem Launches.quiet (h : Launches setup w) (hq : Quiet w w' records) : Launches setup w' := by
  have hsame : ∀ key, launches key w'.log = launches key w.log := by
    intro key
    rw [hq.log]
    exact launches_returned key records w.log
  constructor
  · intro key current hrow hstate
    rw [hsame]
    exact h.untouched key current (hq.rows key current hrow) hstate
  · intro key
    rw [hsame]
    exact h.shape key
  · intro i record hclaim
    rw [hsame]
    exact h.pending i record (hq.claims i record hclaim)

theorem putIntent_lookup (db : Database) (key k : IntentKey) (record : RunIntentRecord) :
    (putIntent db key record).runIntents.lookup k =
      if k = key then some record else db.runIntents.lookup k :=
  AList.lookup_insert_if _ _ _ _

variable {next : RunIntentRecord}

/-- A write that puts a row above everything that was returned of it since its insertion. -/
theorem Records.put {phase : ℕ → Phase} (h : Records w)
    (hkey : (next.project, next.run) = key) (hnext : Grounded next) (hlog : ∀ ev ∈ w.log, ev ∈ log)
    (hphase : ∀ i, ∀ record ∈ (phase i).records, record ∈ (w.phase i).records)
    (hnew : ∀ record, .returned record ∈ log → record = next ∨ .returned record ∈ w.log)
    (hsince : ∀ k record, .returned record ∈ sinceInsertion k log →
      record = next ∨ .returned record ∈ sinceInsertion k w.log)
    (habove : ∀ record, .returned record ∈ sinceInsertion key log →
      (record.project, record.run) = key → record = next ∨ record.generation < next.generation) :
    Records ⟨putIntent w.db key next, phase, log⟩ := by
  constructor
  · intro k record hrow
    simp only [putIntent_lookup] at hrow
    split at hrow
    · rename_i hk
      cases hrow
      exact hkey.trans hk.symm
    · exact h.keyed k record hrow
  · intro k record hrow
    simp only [putIntent_lookup] at hrow
    split at hrow
    · cases hrow
      exact hnext
    · exact h.grounded k record hrow
  · intro record hrec
    rcases hnew record hrec with rfl | hold
    · exact hnext
    · exact h.returned record hold
  · intro i record hrec
    exact hlog _ (h.carried i record (hphase i record hrec))
  · intro k current record hrow hrec hk
    simp only [putIntent_lookup] at hrow
    split at hrow
    · rename_i heq
      subst heq
      cases hrow
      rcases habove record hrec hk with rfl | hlt
      · exact ⟨le_rfl, fun _ => rfl⟩
      · exact ⟨le_of_lt hlt, fun heq => absurd heq (ne_of_lt hlt)⟩
    · rename_i hne
      rcases hsince k record hrec with rfl | hold
      · exact absurd (hk.symm.trans hkey) hne
      · exact h.behind k current record hrow hold hk

variable {atMs : ℤ}

theorem Records.inserted (h : Records w) :
    Records ⟨putIntent w.db key ⟨key.1, key.2, 0, .persisted, atMs⟩, w.phase,
      .returned ⟨key.1, key.2, 0, .persisted, atMs⟩ :: .inserted key :: w.log⟩ := by
  apply h.put
  · rfl
  · exact ⟨le_rfl, iff_of_true rfl rfl⟩
  · intro ev hev
    exact mem_cons_of_mem _ (mem_cons_of_mem _ hev)
  · intro i record hrec
    exact hrec
  · intro record hrec
    simpa using hrec
  · intro k record hrec
    rcases since_insertion_cases key k _ w.log with ⟨-, heq⟩ | ⟨-, heq⟩
    · rw [heq] at hrec
      left
      simpa using hrec
    · rw [heq] at hrec
      simpa using hrec
  · intro record hrec _
    rw [since_cons (by simp), since_inserted] at hrec
    left
    simpa using hrec

variable {current : RunIntentRecord}

theorem Records.advanced {toState : IntentState} {phase : ℕ → Phase} (h : Records w)
    (new : List Event) (hrow : w.db.runIntents.lookup key = some current)
    (hstate : toState ≠ .persisted)
    (hphase : ∀ i, ∀ record ∈ (phase i).records, record ∈ (w.phase i).records)
    (hnew : ∀ ev ∈ new, ∃ i k, ev = .claimed i k) :
    Records ⟨putIntent w.db key (nextRecord key current toState atMs), phase,
      new ++ .returned (nextRecord key current toState atMs) :: w.log⟩ := by
  have hold : ∀ log record, .returned record ∈ new ++ log → .returned record ∈ log := by
    intro log record hrec
    rcases mem_append.mp hrec with hclaim | hlog
    · obtain ⟨i, k, heq⟩ := hnew _ hclaim
      cases heq
    · exact hlog
  have hsince : ∀ k record, .returned record ∈ sinceInsertion k
      (new ++ .returned (nextRecord key current toState atMs) :: w.log) →
      record = nextRecord key current toState atMs ∨
        .returned record ∈ sinceInsertion k w.log := by
    intro k record hrec
    rw [since_append, since_cons (by simp)] at hrec
    · simpa using hold _ record hrec
    · intro hins
      obtain ⟨i, k', heq⟩ := hnew _ hins
      cases heq
  have hpos : 0 < current.generation + 1 := by
    have := (h.grounded key current hrow).1
    omega
  apply h.put
  · rfl
  · exact ⟨le_of_lt hpos, iff_of_false (ne_of_gt hpos) hstate⟩
  · intro ev hev
    exact mem_append_right _ (mem_cons_of_mem _ hev)
  · exact hphase
  · intro record hrec
    simpa using hold _ record hrec
  · exact hsince
  · intro record hrec hkey
    rcases hsince key record hrec with rfl | hbef
    · exact .inl rfl
    · right
      have hle := (h.behind key current record hrow hbef hkey).1
      simp only [nextRecord]
      omega

variable {i : ℕ} {phase : Phase}

theorem Records.started (h : Records w)
    (hphase : ∀ record ∈ phase.records, record ∈ (w.phase i).records) :
    Records ⟨w.db, Function.update w.phase i phase, .started i key :: w.log⟩ := by
  constructor
  · exact h.keyed
  · exact h.grounded
  · intro record hrec
    exact h.returned record (by simpa using hrec)
  · intro j record hrec
    apply mem_cons_of_mem
    exact h.carried j record (records_update hphase j record hrec)
  · intro k current record hrow hrec
    simp only [since_cons (show Event.started i key ≠ .inserted k by simp)] at hrec
    exact h.behind k current record hrow (by simpa using hrec)

variable {record : RunIntentRecord}

theorem Launches.inserted (h : Launches setup w) :
    Launches setup ⟨putIntent w.db key record, w.phase,
      .returned record :: .inserted key :: w.log⟩ := by
  constructor
  · intro k current hrow hstate
    rcases launches_inserted key k record w.log with hnil | ⟨hk, hsame⟩
    · exact hnil
    · simp only [putIntent_lookup, if_neg hk] at hrow
      exact hsame.trans (h.untouched k current hrow hstate)
  · intro k
    rcases launches_inserted key k record w.log with hnil | ⟨-, hsame⟩
    · exact .inl hnil
    · simp only [hsame]
      exact h.shape k
  · intro i carried hclaim hin
    rcases launches_inserted key ((setup i).protocol.access.project, carried.run) record w.log
      with hnil | ⟨-, hsame⟩
    · simp only [hnil] at hin
      cases hin
    · simp only [hsame] at hin ⊢
      exact h.pending i carried hclaim hin

theorem untouched_put (h : Launches setup w) (hstate : next.state ≠ .persisted) (k : IntentKey)
    (current : RunIntentRecord)
    (hrow : (putIntent w.db key next).runIntents.lookup k = some current)
    (hpers : current.state = .persisted) : k ≠ key ∧ launches k w.log = [] := by
  rw [putIntent_lookup] at hrow
  split at hrow
  · cases hrow
    exact absurd hpers hstate
  · rename_i hk
    exact ⟨hk, h.untouched k current hrow hpers⟩

theorem Launches.written (h : Launches setup w) (hstate : next.state ≠ .persisted) :
    Launches setup ⟨putIntent w.db key next, w.phase, .returned next :: w.log⟩ := by
  have hsame : ∀ k, launches k (.returned next :: w.log) = launches k w.log :=
    fun k => launches_returned k [next] w.log
  constructor
  · intro k current hrow hpers
    exact (hsame k).trans (untouched_put h hstate k current hrow hpers).2
  · intro k
    simp only [hsame]
    exact h.shape k
  · intro i record hclaim
    simp only [hsame]
    exact h.pending i record hclaim

/-- The claim lands on a row that nobody has claimed since its insertion. -/
theorem Launches.claimed (h : Launches setup w) (hstate : next.state ≠ .persisted)
    (hkey : key = ((setup i).protocol.access.project, record.run))
    (hphase : phase.claim? = some record) (hnone : launches key w.log = []) :
    Launches setup ⟨putIntent w.db key next, Function.update w.phase i phase,
      .claimed i key :: .returned next :: w.log⟩ := by
  have hown : launches key (.claimed i key :: .returned next :: w.log) = [.claimed i key] := by
    rw [launches_claimed, if_pos rfl, hnone]
  constructor
  · intro k current hrow hpers
    obtain ⟨hk, hnil⟩ := untouched_put h hstate k current hrow hpers
    simp only [launches_claimed, if_neg hk]
    exact hnil
  · intro k
    by_cases hk : k = key
    · subst hk
      exact .inr ⟨i, .inl hown⟩
    · simp only [launches_claimed, if_neg hk]
      exact h.shape k
  · intro j carried hclaim hin
    by_cases hk : ((setup j).protocol.access.project, carried.run) = key
    · simp only [hk, hown, mem_singleton, Event.claimed.injEq] at hin ⊢
      rw [hin.1]
    · simp only [launches_claimed, if_neg hk] at hin ⊢
      rcases claim_update hclaim with ⟨rfl, hsame⟩ | ⟨-, hother⟩
      · cases hphase.symm.trans hsame
        exact absurd hkey.symm hk
      · exact h.pending j carried hother hin

/-- The start uses up the only claim since the insertion. -/
theorem Launches.started (h : Launches setup w)
    (hkey : key = ((setup i).protocol.access.project, record.run))
    (hclaim : (w.phase i).claim? = some record) (hphase : phase.claim? = none)
    (htimely : .claimed i key ∈ sinceInsertion key w.log) :
    Launches setup ⟨w.db, Function.update w.phase i phase, .started i key :: w.log⟩ := by
  have hin : .claimed i key ∈ launches key w.log :=
    mem_filter.mpr ⟨htimely, by simp [isLaunch]⟩
  have honly : launches key w.log = [.claimed i key] := by
    rw [hkey] at hin ⊢
    exact h.pending i record hclaim hin
  have hown : launches key (.started i key :: w.log) = [.started i key, .claimed i key] := by
    rw [launches_started, if_pos rfl, honly]
  constructor
  · intro k current hrow hpers
    have hnil := h.untouched k current hrow hpers
    by_cases hk : k = key
    · rw [hk, honly] at hnil
      cases hnil
    · simp only [launches_started, if_neg hk]
      exact hnil
  · intro k
    by_cases hk : k = key
    · subst hk
      exact .inr ⟨i, .inr hown⟩
    · simp only [launches_started, if_neg hk]
      exact h.shape k
  · intro j carried hcarried hmem
    obtain ⟨hj, hother⟩ := claim_update_none hphase hcarried
    by_cases hk : ((setup j).protocol.access.project, carried.run) = key
    · simp only [hk, hown, mem_cons, Event.claimed.injEq, reduceCtorEq, false_or,
        not_mem_nil, or_false] at hmem
      exact absurd hmem.1 hj
    · simp only [launches_started, if_neg hk] at hmem ⊢
      exact h.pending j carried hother hmem

structure Invariant (setup : ℕ → Reconciler) (w : World) : Prop where
  records : Records w
  launches : Launches setup w

theorem Records.persisted_of_claim {holder : LeaseAuthority}
    {todo : List RunIntentRecord} (h : Records w)
    (hphase : w.phase i = .owned atMs holder record todo) (hstate : record.state = .persisted)
    (hrow : w.db.runIntents.lookup key = some current)
    (hgen : current.generation = record.generation) : current.state = .persisted := by
  have hcarried : .returned record ∈ w.log := by
    apply h.carried i
    simp [hphase, Phase.records]
  have hzero : record.generation = 0 := (h.returned record hcarried).2.mpr hstate
  exact (h.grounded key current hrow).2.mp (hgen.trans hzero)

theorem ne_persisted_of_lt {fromState toState : IntentState}
    (h : boundaryOrdinal fromState < boundaryOrdinal toState) : toState ≠ .persisted := by
  rintro rfl
  exact absurd h (Nat.not_lt_zero _)

theorem Invariant.step (h : Invariant setup w) (htimely : Timely w a) (hstep : Step setup w a w') :
    Invariant setup w' := by
  cases step_effect hstep with
  | quiet records hwrites hq => exact ⟨h.records.quiet hq, h.launches.quiet hq⟩
  | inserted key atMs hnone => exact ⟨h.records.inserted, h.launches.inserted⟩
  | written project record current toState atMs hreturned hproj hrow hgen hord =>
    have hstate := ne_persisted_of_lt hord
    constructor
    · exact h.records.advanced [] hrow hstate (fun _ _ hr => hr) (by simp)
    · exact h.launches.written hstate
  | claimed i key holder record current atMs todo hkey hphase hpers hrow hgen hacc =>
    have hfirst := h.records.persisted_of_claim hphase hpers hrow hgen
    constructor
    · apply h.records.advanced [.claimed i key] hrow (by decide)
      · apply records_update
        rw [hphase]
        exact fun _ hr => hr
      · intro ev hev
        exact ⟨i, key, mem_singleton.mp hev⟩
    · have hnone := h.launches.untouched key current hrow hfirst
      exact h.launches.claimed IntentState.noConfusion hkey rfl hnone
  | started i key record phase hkey hclaim hphase hsub =>
    exact ⟨h.records.started hsub, h.launches.started hkey hclaim hphase htimely⟩

theorem Invariant.run (h : Invariant setup w) (hrun : TimelyRun setup w w') :
    Invariant setup w' := by
  induction hrun with
  | refl => exact h
  | tail _ hstep htimely ih => exact ih.step htimely hstep

def isStart (key : IntentKey) : Event → Bool
  | .started _ k => k = key
  | _ => false

def SameRow (key : IntentKey) (w w' : World) : Prop :=
  w'.log.count (.inserted key) = w.log.count (.inserted key)

def NoStarter (setup : ℕ → Reconciler) (key : IntentKey) (w : World) : Prop :=
  ∀ i record, (w.phase i).claim? = some record →
    ((setup i).protocol.access.project, record.run) ≠ key

structure SafeStep (w : World) (a : Action) (w' : World) : Prop where
  written : ∀ key, a.writes? = some key → ∃ before after,
    w.db.runIntents.lookup key = some before ∧ w'.db.runIntents.lookup key = some after ∧
    after.generation = before.generation + 1 ∧
    boundaryOrdinal before.state < boundaryOrdinal after.state
  kept : ∀ key before after, a.writes? ≠ some key →
    w.db.runIntents.lookup key = some before → w'.db.runIntents.lookup key = some after →
    after = before
  replayed : ∀ key before, a = .persist key → w.db.runIntents.lookup key = some before →
    w'.db = w.db
  claimed : ∀ i key, a = .claim i key → ∃ atMs holder record todo before after,
    w.phase i = .owned atMs holder record todo ∧ Accepted w.db key.1 holder atMs ∧
    w.db.runIntents.lookup key = some before ∧ before.state = .persisted ∧
    w'.db.runIntents.lookup key = some after ∧ after.state = .dispatched
  logged : ∀ i key, .claimed i key ∈ w'.log → .claimed i key ∈ w.log ∨ a = .claim i key

/-- The promises of the launch protocol at one moment, of the next step and of every run from
there. -/
structure LaunchSafe (setup : ℕ → Reconciler) (w : World) : Prop where
  oneStart : ∀ key, (sinceInsertion key w.log).countP (isStart key) ≤ 1
  claimedFirst : ∀ key i newer older,
    sinceInsertion key w.log = newer ++ .started i key :: older → .claimed i key ∈ older
  steps : ∀ a w', Timely w a → Step setup w a w' → SafeStep w a w'
  forward : ∀ key before after w', w.db.runIntents.lookup key = some before →
    TimelyRun setup w w' → SameRow key w w' → w'.db.runIntents.lookup key = some after →
    boundaryOrdinal before.state ≤ boundaryOrdinal after.state ∧
      before.generation ≤ after.generation
  /-- A launch whose claimant is gone is not started, whatever the evidence. -/
  abandoned : ∀ key current w', w.db.runIntents.lookup key = some current →
    current.state ≠ .persisted → NoStarter setup key w → TimelyRun setup w w' →
    SameRow key w w' → w'.log.countP (isStart key) = w.log.countP (isStart key)

theorem countP_launches (key : IntentKey) (log : List Event) :
    (sinceInsertion key log).countP (isStart key) = (launches key log).countP (isStart key) := by
  unfold launches
  rw [countP_filter]
  apply countP_congr
  intro ev _
  cases ev <;> simp [isStart, isLaunch]

theorem Launches.oneStart (h : Launches setup w) (key : IntentKey) :
    (sinceInsertion key w.log).countP (isStart key) ≤ 1 := by
  rw [countP_launches]
  rcases h.shape key with hnil | ⟨i, hclaim | hstart⟩
  · simp [hnil]
  · simp [hclaim, isStart]
  · simp [hstart, isStart]

theorem Launches.claimedFirst (h : Launches setup w) {newer older : List Event}
    (hsplit : sinceInsertion key w.log = newer ++ .started i key :: older) :
    .claimed i key ∈ older := by
  have hfilt : launches key w.log =
      newer.filter (isLaunch key) ++ .started i key :: older.filter (isLaunch key) := by
    unfold launches
    rw [hsplit, filter_append, filter_cons_of_pos (by simp [isLaunch])]
  have hmem : Event.started i key ∈ launches key w.log := by simp [hfilt]
  rcases h.shape key with hnil | ⟨j, hclaim | hstart⟩
  · simp [hnil] at hmem
  · simp [hclaim] at hmem
  · rw [hstart] at hfilt
    -- the start is the latest of the two
    have hnewer : newer.filter (isLaunch key) = [] := by
      rcases hn : newer.filter (isLaunch key) with _ | ⟨ev, _ | ⟨ev', rest⟩⟩
      · rfl
      · simp [hn] at hfilt
      · simp [hn] at hfilt
    rw [hnewer, nil_append, List.cons.injEq, Event.started.injEq] at hfilt
    have hin : Event.claimed j key ∈ older.filter (isLaunch key) := by
      rw [← hfilt.2]
      exact mem_singleton_self _
    rw [← hfilt.1.1]
    exact mem_of_mem_filter hin

theorem step_log (h : Step setup w a w') : ∃ new, w'.log = new ++ w.log := by
  cases step_effect h with
  | quiet records _ hq => exact ⟨_, hq.log⟩
  | inserted key atMs _ => exact ⟨[_, _], rfl⟩
  | written => exact ⟨[_], rfl⟩
  | claimed => exact ⟨[_, _], rfl⟩
  | started => exact ⟨[_], rfl⟩

theorem count_le_of_step (key : IntentKey) (h : Step setup w a w') :
    w.log.count (.inserted key) ≤ w'.log.count (.inserted key) := by
  obtain ⟨new, hnew⟩ := step_log h
  rw [hnew, count_append]
  omega

theorem count_le_of_run (key : IntentKey) (h : TimelyRun setup w w') :
    w.log.count (.inserted key) ≤ w'.log.count (.inserted key) := by
  induction h with
  | refl => exact le_rfl
  | tail _ hstep _ ih => exact le_trans ih (count_le_of_step key hstep)

theorem SameRow.split {w₁ w₂ : World} (h : SameRow key w w₂) (hrun : TimelyRun setup w w₁)
    (hstep : Step setup w₁ a w₂) : SameRow key w w₁ ∧ SameRow key w₁ w₂ := by
  have hle := count_le_of_run key hrun
  have hle' := count_le_of_step key hstep
  unfold SameRow at h ⊢
  constructor <;> omega

theorem not_sameRow_inserted (key : IntentKey) (record : RunIntentRecord) (db : Database)
    (phase : ℕ → Phase) :
    ¬ SameRow key w ⟨db, phase, .returned record :: .inserted key :: w.log⟩ := by
  unfold SameRow
  rw [count_cons_of_ne (by simp), count_cons_self]
  omega

variable {after : RunIntentRecord}

theorem present_before (h : Step setup w a w') (hsame : SameRow key w w')
    (hafter : w'.db.runIntents.lookup key = some after) :
    ∃ before, w.db.runIntents.lookup key = some before := by
  have hput : ∀ k current next, w.db.runIntents.lookup k = some current →
      (putIntent w.db k next).runIntents.lookup key = some after →
      ∃ before, w.db.runIntents.lookup key = some before := by
    intro k current next hrow hput
    rw [putIntent_lookup] at hput
    split at hput
    · rename_i hk
      exact ⟨current, hk ▸ hrow⟩
    · exact ⟨after, hput⟩
  cases step_effect h with
  | quiet records _ hq => exact ⟨after, hq.rows key after hafter⟩
  | inserted k atMs hnone =>
    by_cases hk : key = k
    · subst hk
      exact absurd hsame (not_sameRow_inserted _ _ _ _)
    · simp only [putIntent_lookup, if_neg hk] at hafter
      exact ⟨after, hafter⟩
  | written project record current toState atMs hreturned hproj hrow hgen hord =>
    exact hput _ current _ hrow hafter
  | claimed i k holder record current atMs todo hkey hphase hpers hrow hgen hacc =>
    exact hput _ current _ hrow hafter
  | started => exact ⟨after, hafter⟩

theorem Invariant.written (h : Invariant setup w) (htimely : Timely w a) (hstep : Step setup w a w')
    (hwrites : a.writes? = some key) : ∃ before after,
    w.db.runIntents.lookup key = some before ∧ w'.db.runIntents.lookup key = some after ∧
    after.generation = before.generation + 1 ∧
    boundaryOrdinal before.state < boundaryOrdinal after.state := by
  cases step_effect hstep with
  | quiet records hnone _ =>
    rw [hnone] at hwrites
    cases hwrites
  | inserted => cases hwrites
  | written project record current toState atMs hreturned hproj hrow hgen hord =>
    cases hwrites
    subst hproj
    have hstate := (h.records.behind _ _ _ hrow htimely rfl).2 hgen.symm
    refine ⟨current, _, hrow, AList.lookup_insert _, rfl, ?_⟩
    rw [← hstate]
    exact hord
  | claimed i k holder record current atMs todo hkey hphase hpers hrow hgen hacc =>
    cases hwrites
    have hfirst := h.records.persisted_of_claim hphase hpers hrow hgen
    refine ⟨current, _, hrow, AList.lookup_insert _, rfl, ?_⟩
    rw [hfirst]
    exact Nat.zero_lt_one
  | started => cases hwrites

variable {before : RunIntentRecord}

theorem kept_of_step (hstep : Step setup w a w') (hwrites : a.writes? ≠ some key)
    (hbef : w.db.runIntents.lookup key = some before)
    (hafter : w'.db.runIntents.lookup key = some after) : after = before := by
  cases step_effect hstep with
  | quiet records _ hq => exact Option.some.inj ((hq.rows key after hafter).symm.trans hbef)
  | inserted k atMs hnone =>
    have hk : key ≠ k := by
      rintro rfl
      rw [hnone] at hbef
      cases hbef
    simp only [putIntent_lookup, if_neg hk] at hafter
    exact Option.some.inj (hafter.symm.trans hbef)
  | written project record current toState atMs hreturned hproj hrow hgen hord =>
    have hk : key ≠ (project, record.run) := fun hk => hwrites (congrArg some hk.symm)
    simp only [putIntent_lookup, if_neg hk] at hafter
    exact Option.some.inj (hafter.symm.trans hbef)
  | claimed i k holder record current atMs todo hkey hphase hpers hrow hgen hacc =>
    have hk : key ≠ k := fun hk => hwrites (congrArg some hk.symm)
    simp only [putIntent_lookup, if_neg hk] at hafter
    exact Option.some.inj (hafter.symm.trans hbef)
  | started => exact Option.some.inj (hafter.symm.trans hbef)

theorem replayed_of_step (hstep : Step setup w (.persist key) w')
    (hbef : w.db.runIntents.lookup key = some before) : w'.db = w.db := by
  cases hstep with
  | persist protocol holder run atMs db' record hcall =>
    rcases persistIntent_ok hcall with ⟨-, rfl⟩ | ⟨hnone, -, -⟩
    · rfl
    · rw [hnone] at hbef
      cases hbef

theorem Invariant.claim (h : Invariant setup w) (hstep : Step setup w (.claim i key) w') :
    ∃ atMs holder record todo before after,
    w.phase i = .owned atMs holder record todo ∧ Accepted w.db key.1 holder atMs ∧
    w.db.runIntents.lookup key = some before ∧ before.state = .persisted ∧
    w'.db.runIntents.lookup key = some after ∧ after.state = .dispatched := by
  cases step_effect hstep with
  | quiet records hnone _ => cases hnone
  | claimed _ _ holder record current atMs todo hkey hphase hpers hrow hgen hacc =>
    have hfirst := h.records.persisted_of_claim hphase hpers hrow hgen
    exact ⟨atMs, holder, record, todo, current, _, hphase, hacc, hrow, hfirst,
      AList.lookup_insert _, rfl⟩

theorem logged_of_step (hstep : Step setup w a w') (hlog : .claimed i key ∈ w'.log) :
    .claimed i key ∈ w.log ∨ a = .claim i key := by
  cases step_effect hstep with
  | quiet records _ hq =>
    rw [hq.log] at hlog
    left
    simpa using hlog
  | inserted =>
    left
    simpa using hlog
  | written =>
    left
    simpa using hlog
  | claimed j k =>
    simp only [mem_cons, Event.claimed.injEq, reduceCtorEq, false_or] at hlog
    rcases hlog with ⟨rfl, rfl⟩ | hold
    · exact .inr rfl
    · exact .inl hold
  | started =>
    left
    simpa using hlog

theorem Invariant.safeStep (h : Invariant setup w) (htimely : Timely w a)
    (hstep : Step setup w a w') : SafeStep w a w' := by
  constructor
  · intro key hwrites
    exact h.written htimely hstep hwrites
  · intro key before after hwrites hbef hafter
    exact kept_of_step hstep hwrites hbef hafter
  · rintro key before rfl hbef
    exact replayed_of_step hstep hbef
  · rintro i key rfl
    exact h.claim hstep
  · intro i key hlog
    exact logged_of_step hstep hlog

theorem Invariant.forward_step (h : Invariant setup w) (htimely : Timely w a)
    (hstep : Step setup w a w') (hsame : SameRow key w w')
    (hafter : w'.db.runIntents.lookup key = some after) :
    ∃ before, w.db.runIntents.lookup key = some before ∧
      boundaryOrdinal before.state ≤ boundaryOrdinal after.state ∧
      before.generation ≤ after.generation := by
  by_cases hwrites : a.writes? = some key
  · obtain ⟨before, next, hbef, hnext, hgen, hord⟩ := h.written htimely hstep hwrites
    obtain rfl : next = after := Option.some.inj (hnext.symm.trans hafter)
    exact ⟨before, hbef, le_of_lt hord, by omega⟩
  · obtain ⟨before, hbef⟩ := present_before hstep hsame hafter
    obtain rfl := kept_of_step hstep hwrites hbef hafter
    exact ⟨after, hbef, le_rfl, le_rfl⟩

theorem Invariant.forward (h : Invariant setup w)
    (hbef : w.db.runIntents.lookup key = some before) (hrun : TimelyRun setup w w')
    (hsame : SameRow key w w') (hafter : w'.db.runIntents.lookup key = some after) :
    boundaryOrdinal before.state ≤ boundaryOrdinal after.state ∧
      before.generation ≤ after.generation := by
  induction hrun generalizing after with
  | refl =>
    obtain rfl : before = after := Option.some.inj (hbef.symm.trans hafter)
    exact ⟨le_rfl, le_rfl⟩
  | tail hrun hstep htimely ih =>
    obtain ⟨hold, hnew⟩ := hsame.split hrun hstep
    obtain ⟨middle, hmiddle, hord, hgen⟩ := (h.run hrun).forward_step htimely hstep hnew hafter
    obtain ⟨hord', hgen'⟩ := ih hold hmiddle
    exact ⟨le_trans hord' hord, le_trans hgen' hgen⟩

/-- The run is past its first boundary, or its row is gone, and nobody is about to start it. -/
structure Abandoned (setup : ℕ → Reconciler) (key : IntentKey) (w : World) : Prop where
  past : ∀ current, w.db.runIntents.lookup key = some current → current.state ≠ .persisted
  noStarter : NoStarter setup key w

theorem past_put {k : IntentKey}
    (hpast : ∀ current, w.db.runIntents.lookup key = some current → current.state ≠ .persisted)
    (hnext : next.state ≠ .persisted) (current : RunIntentRecord)
    (hrow : (putIntent w.db k next).runIntents.lookup key = some current) :
    current.state ≠ .persisted := by
  rw [putIntent_lookup] at hrow
  split at hrow
  · cases hrow
    exact hnext
  · exact hpast current hrow

theorem Abandoned.step (h : Abandoned setup key w) (hinv : Invariant setup w)
    (hstep : Step setup w a w') (hsame : SameRow key w w') :
    Abandoned setup key w' ∧ w'.log.countP (isStart key) = w.log.countP (isStart key) := by
  cases step_effect hstep with
  | quiet records _ hq =>
    refine ⟨⟨fun current hrow => h.past current (hq.rows key current hrow),
      fun i record hclaim => h.noStarter i record (hq.claims i record hclaim)⟩, ?_⟩
    rw [hq.log, countP_append, Nat.add_eq_right, countP_eq_zero]
    intro ev hev
    obtain ⟨record, -, rfl⟩ := mem_map.mp hev
    simp [isStart]
  | inserted k atMs hnone =>
    have hk : key ≠ k := by
      rintro rfl
      exact not_sameRow_inserted _ _ _ _ hsame
    refine ⟨⟨fun current hrow => ?_, h.noStarter⟩, by simp [isStart]⟩
    simp only [putIntent_lookup, if_neg hk] at hrow
    exact h.past current hrow
  | written project record current toState atMs hreturned hproj hrow hgen hord =>
    exact ⟨⟨past_put h.past (ne_persisted_of_lt hord), h.noStarter⟩, by simp [isStart]⟩
  | claimed i k holder record current atMs todo hkey hphase hpers hrow hgen hacc =>
    have hk : k ≠ key := by
      rintro rfl
      exact h.past current hrow (hinv.records.persisted_of_claim hphase hpers hrow hgen)
    refine ⟨⟨past_put h.past IntentState.noConfusion, fun j carried hclaim => ?_⟩,
      by simp [isStart]⟩
    rcases claim_update hclaim with ⟨rfl, hown⟩ | ⟨-, hother⟩
    · cases hown
      rw [← hkey]
      exact hk
    · exact h.noStarter j carried hother
  | started i k record phase hkey hclaim hphase hsub =>
    have hk : k ≠ key := by
      rw [hkey]
      exact h.noStarter i record hclaim
    refine ⟨⟨h.past, fun j carried hcarried => ?_⟩, by simp [isStart, hk]⟩
    exact h.noStarter j carried (claim_update_none hphase hcarried).2

theorem Abandoned.run (h : Abandoned setup key w) (hinv : Invariant setup w)
    (hrun : TimelyRun setup w w') (hsame : SameRow key w w') :
    Abandoned setup key w' ∧ w'.log.countP (isStart key) = w.log.countP (isStart key) := by
  induction hrun with
  | refl => exact ⟨h, rfl⟩
  | tail hrun hstep htimely ih =>
    obtain ⟨hold, hnew⟩ := hsame.split hrun hstep
    obtain ⟨habandoned, hcount⟩ := ih hold
    obtain ⟨hnext, hcount'⟩ := habandoned.step (hinv.run hrun) hstep hnew
    exact ⟨hnext, hcount'.trans hcount⟩

/-- Whatever instances crash, restart and race: a run starts once at most, after its claim. -/
theorem launch_safety (w : World) (hrun : TimelyRun setup World.initial w) :
    LaunchSafe setup w := by
  have hinv : Invariant setup w := Invariant.run ⟨.initial, .initial⟩ hrun
  constructor
  · exact hinv.launches.oneStart
  · intro key i newer older hsplit
    exact hinv.launches.claimedFirst hsplit
  · intro a w' htimely hstep
    exact hinv.safeStep htimely hstep
  · intro key before after w' hbefore hlater hsame hafter
    exact hinv.forward hbefore hlater hsame hafter
  · intro key current w' hrow hstate hnone hlater hsame
    have habandoned : Abandoned setup key w := by
      refine ⟨fun held hheld => ?_, hnone⟩
      rw [← Option.some.inj (hrow.symm.trans hheld)]
      exact hstate
    exact (habandoned.run hinv hlater hsame).2

def localProtocol : LaunchProtocol := ⟨0, ⟨0, "project"⟩⟩

def localLeases (engine : String) : LeaseManager := ⟨0, ⟨0, "project"⟩, engine, 5000⟩

def localSetup (i : ℕ) : Reconciler :=
  ⟨localLeases (if i = 0 then "engine-1" else "engine-2"), localProtocol, 100, true, 10⟩

def localRun : RunKey := (WorkKey.trajectory "task").run 1

def localRecord (generation : ℤ) (state : IntentState) (atMs : ℤ) : RunIntentRecord :=
  ⟨"project", localRun, generation, state, atMs⟩

def launcher : LeaseAuthority := ⟨"launch", "caller", 1⟩

def runLease (engine ownerToken : String) (generation atMs : ℤ) : LeaseRecord :=
  ⟨"project", runLeaseKey localRun, engine, ownerToken, generation, atMs, atMs + 5000⟩

def leasedWorld : World :=
  ⟨((localLeases "engine-1").acquire .empty "launch" "caller" 0).1, fun _ => .idle, []⟩

theorem persisted_run_started_once : ∃ w, TimelyRun localSetup World.initial w ∧
    .started 0 ("project", localRun) ∈ w.log ∧ LaunchSafe localSetup w := by
  have hlease : TimelyRun localSetup World.initial leasedWorld :=
    .tail .refl (.lease _ (.acquire (localLeases "engine-1") "launch" "caller" 0)) trivial
  have hpersist := hlease.tail (.persist localProtocol launcher localRun 0 _
    (localRecord 0 .persisted 0) (Prod.ext rfl (by decide))) trivial
  have hlist := hpersist.tail (.list 0 5 _ [localRecord 0 .persisted 0] rfl
    (Prod.ext rfl (by decide))) trivial
  have hown := hlist.tail (.own 0 5 (localRecord 0 .persisted 0) [] "first" _
    (runLease "engine-1" "first" 1 5) rfl (Prod.ext rfl (by decide))) trivial
  have hclaim := hown.tail (.claim 0 5 _ (localRecord 0 .persisted 0) [] ⟨.no, .no⟩ _
    (localRecord 1 .dispatched 5) rfl rfl rfl (Prod.ext rfl (by decide))) trivial
  have hstart := hclaim.tail (.start 0 5 _ (localRecord 0 .persisted 0) [] rfl) (by
    show _ ∈ _
    decide)
  exact ⟨_, hstart, by decide, launch_safety _ hstart⟩

abbrev Run (setup : ℕ → Reconciler) : World → World → Prop :=
  Relation.ReflTransGen fun w w' => ∃ a, Step setup w a w'

/-- Retention deletes the settled row, the run is persisted again and refused, and a record from
before the deletion has the generation of the refused row. -/
theorem settled_row_walks_back : ∃ w w' before after, Run localSetup World.initial w ∧
    (∃ a, Step localSetup w a w') ∧
    w.db.runIntents.lookup ("project", localRun) = some before ∧ before.state = .terminal ∧
    w'.db.runIntents.lookup ("project", localRun) = some after ∧ after.state = .acknowledged := by
  have hlease : Run localSetup World.initial leasedWorld :=
    .single ⟨_, .lease _ (.acquire (localLeases "engine-1") "launch" "caller" 0)⟩
  have hpersist := hlease.tail ⟨_, .persist localProtocol launcher localRun 0 _
    (localRecord 0 .persisted 0) (Prod.ext rfl (by decide))⟩
  have hdispatch := hpersist.tail ⟨_, .advance localProtocol launcher (localRecord 0 .persisted 0)
    .dispatched 1 _ (localRecord 1 .dispatched 1) (by decide) rfl
    (Prod.ext rfl (by decide))⟩
  have hsettle := hdispatch.tail ⟨_, .advance localProtocol launcher (localRecord 1 .dispatched 1)
    .terminal 2 _ (localRecord 2 .terminal 2) (by decide) rfl
    (Prod.ext rfl (by decide))⟩
  have hlist := hsettle.tail ⟨_, .list 0 1000 _ [localRecord 2 .terminal 2] rfl
    (Prod.ext rfl (by decide))⟩
  have hown := hlist.tail ⟨_, .own 0 1000 (localRecord 2 .terminal 2) [] "token" _
    (runLease "engine-1" "token" 1 1000) rfl (Prod.ext rfl (by decide))⟩
  have hsurface := hown.tail ⟨_, .surface 0 1000 _ (localRecord 2 .terminal 2) [] ⟨.no, .no⟩ rfl
    (.inl (by decide))⟩
  have hrelease := hsurface.tail ⟨_, .release 0 1000 _ [] rfl⟩
  have hretain := hrelease.tail ⟨_, .retain 0 1000 rfl⟩
  have hagain := hretain.tail ⟨_, .persist localProtocol launcher localRun 1001 _
    (localRecord 0 .persisted 1001) (Prod.ext rfl (by decide))⟩
  have href := hagain.tail ⟨_, .advance localProtocol launcher
    (localRecord 0 .persisted 1001) .terminal 1002 _ (localRecord 1 .terminal 1002)
    (by decide) rfl (Prod.ext rfl (by decide))⟩
  refine ⟨_, _, localRecord 1 .terminal 1002, localRecord 2 .acknowledged 1003, href,
    ⟨_, .advance localProtocol launcher (localRecord 1 .dispatched 1) .acknowledged 1003 _
      (localRecord 2 .acknowledged 1003) (by decide) rfl
      (Prod.ext rfl (by decide))⟩, by decide, rfl, by decide, rfl⟩

/-- A reconciler stalls between its claim and its start. Meanwhile the row is settled, deleted
and inserted anew, and another reconciler takes the lease over and starts the run. -/
theorem stale_claim_starts_again : ∃ w, Run localSetup World.initial w ∧
    (sinceInsertion ("project", localRun) w.log).countP (isStart ("project", localRun)) = 2 := by
  have hlease : Run localSetup World.initial leasedWorld :=
    .single ⟨_, .lease _ (.acquire (localLeases "engine-1") "launch" "caller" 0)⟩
  have hpersist := hlease.tail ⟨_, .persist localProtocol launcher localRun 0 _
    (localRecord 0 .persisted 0) (Prod.ext rfl (by decide))⟩
  have hlist := hpersist.tail ⟨_, .list 0 5 _ [localRecord 0 .persisted 0] rfl
    (Prod.ext rfl (by decide))⟩
  have hown := hlist.tail ⟨_, .own 0 5 (localRecord 0 .persisted 0) [] "first" _
    (runLease "engine-1" "first" 1 5) rfl (Prod.ext rfl (by decide))⟩
  have hclaim := hown.tail ⟨_, .claim 0 5 _ (localRecord 0 .persisted 0) [] ⟨.no, .no⟩ _
    (localRecord 1 .dispatched 5) rfl rfl rfl (Prod.ext rfl (by decide))⟩
  have hread := hclaim.tail ⟨_, .read 0 ⟨0, "project"⟩ localRun _ (localRecord 1 .dispatched 5)
    (Prod.ext rfl (by decide))⟩
  have hsettle := hread.tail ⟨_, .advance localProtocol launcher (localRecord 1 .dispatched 5)
    .terminal 6 _ (localRecord 2 .terminal 6) (by decide) rfl
    (Prod.ext rfl (by decide))⟩
  have hlist' := hsettle.tail ⟨_, .list 1 1000 _ [localRecord 2 .terminal 6] rfl
    (Prod.ext rfl (by decide))⟩
  have hcontest := hlist'.tail ⟨_, .contest 1 1000 (localRecord 2 .terminal 6) [] "second" _
    (runLease "engine-1" "first" 1 5) rfl (Prod.ext rfl (by decide))⟩
  have hleave := hcontest.tail ⟨_, .leave 1 1000 (localRecord 2 .terminal 6) [] rfl⟩
  have hretain := hleave.tail ⟨_, .retain 1 1000 rfl⟩
  have hagain := hretain.tail ⟨_, .persist localProtocol launcher localRun 1001 _
    (localRecord 0 .persisted 1001) (Prod.ext rfl (by decide))⟩
  have hlist'' := hagain.tail ⟨_, .list 1 80000 _ [localRecord 0 .persisted 1001] rfl
    (Prod.ext rfl (by decide))⟩
  have hcontest' := hlist''.tail ⟨_, .contest 1 80000 (localRecord 0 .persisted 1001) [] "third" _
    (runLease "engine-1" "first" 1 5) rfl (Prod.ext rfl (by decide))⟩
  have hinspect := hcontest'.tail ⟨_, .inspect 1 80000 (localRecord 0 .persisted 1001) [] _
    (runLease "engine-1" "first" 1 5) rfl (Prod.ext rfl (by decide))⟩
  have htake := hinspect.tail ⟨_, .takeOver 1 80000 (localRecord 0 .persisted 1001) 1 [] "third" _
    (runLease "engine-2" "third" 2 80000) rfl (Prod.ext rfl (by decide))⟩
  have hclaim' := htake.tail ⟨_, .claim 1 80000 _ (localRecord 0 .persisted 1001) [] ⟨.no, .no⟩ _
    (localRecord 1 .dispatched 80000) rfl rfl rfl (Prod.ext rfl (by decide))⟩
  have hstart := hclaim'.tail ⟨_, .start 1 80000 _ (localRecord 0 .persisted 1001) [] rfl⟩
  have hstale := hstart.tail ⟨_, .start 0 5 _ (localRecord 0 .persisted 0) [] rfl⟩
  exact ⟨_, hstale, by decide⟩

theorem stale_actions_break_launches :
    (∃ w w' before after, Run localSetup World.initial w ∧ (∃ a, Step localSetup w a w') ∧
      w.db.runIntents.lookup ("project", localRun) = some before ∧ before.state = .terminal ∧
      w'.db.runIntents.lookup ("project", localRun) = some after ∧
      after.state = .acknowledged) ∧
    ∃ w, Run localSetup World.initial w ∧
      (sinceInsertion ("project", localRun) w.log).countP (isStart ("project", localRun)) = 2 :=
  ⟨settled_row_walks_back, stale_claim_starts_again⟩

end LaunchReconciliation
