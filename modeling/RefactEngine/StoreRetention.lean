import RefactEngine.DeliveryOutbox
import RefactEngine.FactLedger

/-! # Retention in the coordination store

One call prunes each table to its limit, and four calls delete what was settled before a cut-off.
Each is a transaction for one project. A call that fails leaves the store as it was.
-/
namespace StoreRetention

open CoordinationStore (IntentState LeaseRecord ProjectAccess RunIntentRecord)
open List
open DeliveryOutbox (OutboxTable DeliveryOutboxRecord)
open FactLedger (ClaimRecord ClaimTable)
open WorkIdentity (ProjectKey RunKey WorkKey)

inductive DisagreementStatus where
  | «open»
  | adjudicated
  | stale
  | withdrawn
  deriving DecidableEq

structure DisagreementRow where
  status : DisagreementStatus
  updatedAtMs : ℤ

/-- A table of which retention reads only the time in its order column. -/
abbrev TimeTable (K : Type) [DecidableEq K] := AList fun _ : ProjectKey × K => ℤ

structure Store where
  engineInstances : TimeTable String
  runIntents : AList fun _ : ProjectKey × RunKey => RunIntentRecord
  queuedWork : TimeTable WorkKey
  leases : AList fun _ : ProjectKey × String => LeaseRecord
  deliveryOutbox : OutboxTable
  activityObservations : TimeTable String
  decompositionOutcomes : TimeTable String
  disagreements : AList fun _ : ProjectKey × String => DisagreementRow
  causalEvents : TimeTable String
  claims : ClaimTable

structure StoreLimits where
  storeMaxEngineInstances : ℕ
  storeMaxRunIntents : ℕ
  storeMaxQueuedWork : ℕ
  storeMaxLeases : ℕ
  storeMaxOutboxMessages : ℕ
  storeMaxActivityObservations : ℕ
  storeMaxDecompositionOutcomes : ℕ
  storeMaxDisagreements : ℕ
  storeMaxCausalEvents : ℕ
  storeMaxClaims : ℕ

structure PruneReport where
  engineInstances : ℕ
  runIntents : ℕ
  queuedWork : ℕ
  leases : ℕ
  deliveryOutbox : ℕ
  activityObservations : ℕ
  decompositionOutcomes : ℕ
  disagreements : ℕ
  causalEvents : ℕ
  claims : ℕ

section Tables

variable {K Row : Type} [DecidableEq K]

/-- The rows of the project that pass the filter go, but for the first `limit` of them with the
largest order column in front. Rows with equal columns may come in any order. -/
def PrunesRows (filter : Row → Bool) (order : Row → ℤ) (project : ProjectKey) (limit : ℕ)
    (table table' : AList fun _ : ProjectKey × K => Row) (removed : ℕ) : Prop :=
  ∃ rows : List (Σ _ : ProjectKey × K, Row),
    rows.Perm (table.entries.filter fun row => decide (row.1.1 = project) && filter row.2) ∧
    rows.Pairwise (fun a b => order b.2 ≤ order a.2) ∧
    table' = table.eraseAll ((rows.drop limit).map Sigma.fst) ∧
    removed = (rows.drop limit).length

end Tables

def sqlOffset (limit : ℕ) : ℕ := (Int.bmod limit (2 ^ 64)).toNat

structure Prunes (limits : StoreLimits) (project : ProjectKey) (store store' : Store)
    (report : PruneReport) : Prop where
  engineInstances : PrunesRows (fun _ => true) id project
    (sqlOffset limits.storeMaxEngineInstances) store.engineInstances store'.engineInstances
    report.engineInstances
  runIntents : PrunesRows (fun _ => true) RunIntentRecord.updatedAtMs project
    (sqlOffset limits.storeMaxRunIntents) store.runIntents store'.runIntents report.runIntents
  queuedWork : PrunesRows (fun _ => true) id project (sqlOffset limits.storeMaxQueuedWork)
    store.queuedWork store'.queuedWork report.queuedWork
  leases : PrunesRows (fun _ => true) LeaseRecord.expiresAtMs project
    (sqlOffset limits.storeMaxLeases) store.leases store'.leases report.leases
  deliveryOutbox : PrunesRows (fun record => record.state.isTerminal)
    DeliveryOutboxRecord.updatedAtMs project (sqlOffset limits.storeMaxOutboxMessages)
    store.deliveryOutbox store'.deliveryOutbox report.deliveryOutbox
  activityObservations : PrunesRows (fun _ => true) id project
    (sqlOffset limits.storeMaxActivityObservations) store.activityObservations
    store'.activityObservations report.activityObservations
  decompositionOutcomes : PrunesRows (fun _ => true) id project
    (sqlOffset limits.storeMaxDecompositionOutcomes) store.decompositionOutcomes
    store'.decompositionOutcomes report.decompositionOutcomes
  disagreements : PrunesRows (fun _ => true) DisagreementRow.updatedAtMs project
    (sqlOffset limits.storeMaxDisagreements) store.disagreements store'.disagreements
    report.disagreements
  causalEvents : PrunesRows (fun _ => true) id project (sqlOffset limits.storeMaxCausalEvents)
    store.causalEvents store'.causalEvents report.causalEvents
  claims : PrunesRows (fun _ => true) ClaimRecord.updatedAtMs project
    (sqlOffset limits.storeMaxClaims) store.claims store'.claims report.claims

def pruneSettledRunIntents (storeId : ℕ) (store : Store) (access : ProjectAccess)
    (settledBeforeMs : ℤ) : Store :=
  { store with
    runIntents := (CoordinationStore.pruneSettledRunIntents storeId
      ⟨store.leases, store.runIntents⟩ access settledBeforeMs).1.runIntents }

def pruneSettledOutboxMessages (store : Store) (project : ProjectKey) (settledBeforeMs : ℤ) :
    Store :=
  { store with
    deliveryOutbox := store.deliveryOutbox.eraseAll ((store.deliveryOutbox.entries.filter fun row =>
      row.1.1 = project ∧ row.2.state.isTerminal ∧ row.2.updatedAtMs < settledBeforeMs).map
        Sigma.fst) }

def expireDisagreements (store : Store) (project : ProjectKey) (cutoffMs : ℤ) : Store :=
  { store with
    disagreements := store.disagreements.eraseAll ((store.disagreements.entries.filter fun row =>
      row.1.1 = project ∧ row.2.status ≠ .open ∧ row.2.updatedAtMs < cutoffMs).map Sigma.fst) }

def expireClaims (store : Store) (project : ProjectKey) (cutoffMs : ℤ) : Store :=
  { store with claims := FactLedger.expireClaims store.claims project cutoffMs }

inductive Op where
  | prune
  | pruneSettledRunIntents (settledBeforeMs : ℤ)
  | pruneSettledOutboxMessages (settledBeforeMs : ℤ)
  | expireDisagreements (cutoffMs : ℤ)
  | expireClaims (cutoffMs : ℤ)
  deriving DecidableEq

inductive Retains (storeId : ℕ) (limits : StoreLimits) (access : ProjectAccess) (store : Store) :
    Op → Store → Prop where
  | failed (op : Op) : Retains storeId limits access store op store
  | prune (store' : Store) (report : PruneReport) : access.storeId = storeId →
      Prunes limits access.project store store' report →
      Retains storeId limits access store .prune store'
  | runIntents (settledBeforeMs : ℤ) : access.storeId = storeId →
      Retains storeId limits access store (.pruneSettledRunIntents settledBeforeMs)
        (pruneSettledRunIntents storeId store access settledBeforeMs)
  | outboxMessages (settledBeforeMs : ℤ) : access.storeId = storeId →
      Retains storeId limits access store (.pruneSettledOutboxMessages settledBeforeMs)
        (pruneSettledOutboxMessages store access.project settledBeforeMs)
  | disagreements (cutoffMs : ℤ) : access.storeId = storeId →
      Retains storeId limits access store (.expireDisagreements cutoffMs)
        (expireDisagreements store access.project cutoffMs)
  | claims (cutoffMs : ℤ) : access.storeId = storeId →
      Retains storeId limits access store (.expireClaims cutoffMs)
        (expireClaims store access.project cutoffMs)

section Deletions

variable {K Row : Type} [DecidableEq K]

/-- No row is new or changed, and those that are gone were of the project and could go. -/
structure Deletes (project : ProjectKey) (may : Row → Prop)
    (table table' : AList fun _ : ProjectKey × K => Row) : Prop where
  kept : ∀ key row, table'.lookup key = some row → table.lookup key = some row
  gone : ∀ key row, table.lookup key = some row → table'.lookup key = none →
    key.1 = project ∧ may row

theorem Deletes.refl (project : ProjectKey) (may : Row → Prop)
    (table : AList fun _ : ProjectKey × K => Row) : Deletes project may table table := by
  refine ⟨fun _ _ h => h, fun key row h hnone => ?_⟩
  rw [h] at hnone
  cases hnone

variable {table table' : AList fun _ : ProjectKey × K => Row} {project : ProjectKey}

theorem Deletes.mono {may may' : Row → Prop} (h : Deletes project may table table')
    (hmay : ∀ row, may row → may' row) : Deletes project may' table table' :=
  ⟨h.kept, fun key row hrow hnone =>
    ⟨(h.gone key row hrow hnone).1, hmay row (h.gone key row hrow hnone).2⟩⟩

theorem deletes_eraseAll {may : Row → Prop} {rows : List (Σ _ : ProjectKey × K, Row)}
    (hrows : ∀ row ∈ rows, row ∈ table.entries ∧ row.1.1 = project ∧ may row.2) :
    Deletes project may table (table.eraseAll (rows.map Sigma.fst)) := by
  constructor
  · intro key row hrow
    rw [AList.lookup_eraseAll] at hrow
    split_ifs at hrow
    exact hrow
  · intro key row hrow hnone
    rw [AList.lookup_eraseAll] at hnone
    split_ifs at hnone with hin
    · obtain ⟨found, hfound, rfl⟩ := mem_map.mp hin
      obtain ⟨hentry, hproj, hmay⟩ := hrows found hfound
      have hlook : table.lookup found.1 = some found.2 := AList.mem_entries_iff.mp hentry
      obtain rfl := Option.some.inj (hlook.symm.trans hrow)
      exact ⟨hproj, hmay⟩
    · rw [hrow] at hnone
      cases hnone

theorem deletes_filter (may : Row → Prop) {p : (Σ _ : ProjectKey × K, Row) → Bool}
    (hp : ∀ row, p row = true → row.1.1 = project ∧ may row.2) :
    Deletes project may table (table.eraseAll ((table.entries.filter p).map Sigma.fst)) :=
  deletes_eraseAll fun row hrow => ⟨(mem_filter.mp hrow).1, hp row (mem_filter.mp hrow).2⟩

def asRecent (order : Row → ℤ) (project : ProjectKey) (table : AList fun _ : ProjectKey × K => Row)
    (key : ProjectKey × K) (row : Row) : List (Σ _ : ProjectKey × K, Row) :=
  table.entries.filter fun other =>
    decide (other.1.1 = project ∧ other.1 ≠ key ∧ order row ≤ order other.2)

variable {filter : Row → Bool} {order : Row → ℤ} {limit removed : ℕ}

theorem PrunesRows.deletes (h : PrunesRows filter order project limit table table' removed) :
    Deletes project (fun row => filter row = true) table table' := by
  obtain ⟨rows, hperm, -, rfl, -⟩ := h
  apply deletes_eraseAll
  intro row hrow
  obtain ⟨hentry, hpass⟩ := mem_filter.mp (hperm.mem_iff.mp (mem_of_mem_drop hrow))
  rw [Bool.and_eq_true, decide_eq_true_eq] at hpass
  exact ⟨hentry, hpass⟩

/-- A row goes only if as many others as the limit are at least as recent. -/
theorem PrunesRows.limit_le (h : PrunesRows filter order project limit table table' removed)
    {key : ProjectKey × K} {row : Row} (hrow : table.lookup key = some row)
    (hnone : table'.lookup key = none) : limit ≤ (asRecent order project table key row).length := by
  obtain ⟨rows, hperm, hsort, rfl, -⟩ := h
  rw [AList.lookup_eraseAll] at hnone
  split_ifs at hnone with hin
  · obtain ⟨found, hfound, rfl⟩ := mem_map.mp hin
    have hents : ∀ other ∈ rows, other ∈ table.entries ∧ other.1.1 = project := by
      intro other hother
      obtain ⟨hentry, hpass⟩ := mem_filter.mp (hperm.mem_iff.mp hother)
      rw [Bool.and_eq_true, decide_eq_true_eq] at hpass
      exact ⟨hentry, hpass.1⟩
    have hlook : table.lookup found.1 = some found.2 :=
      AList.mem_entries_iff.mp (hents found (mem_of_mem_drop hfound)).1
    obtain rfl := Option.some.inj (hlook.symm.trans hrow)
    have hkeys : (rows.map Sigma.fst).Nodup := by
      have hall : (table.entries.map Sigma.fst).Nodup := table.keys_nodup
      exact ((hperm.map Sigma.fst).nodup_iff).mpr (hall.sublist (filter_sublist.map Sigma.fst))
    rw [← take_append_drop limit rows] at hsort hkeys
    rw [map_append] at hkeys
    have hrecent : rows.take limit ⊆ asRecent order project table found.1 found.2 := by
      intro other hother
      obtain ⟨hentry, hproj⟩ := hents other (mem_of_mem_take hother)
      refine mem_filter.mpr ⟨hentry, decide_eq_true ⟨hproj, fun heq => ?_, ?_⟩⟩
      · exact (nodup_append.mp hkeys).2.2 _ (mem_map_of_mem hother) _
          (mem_map_of_mem hfound) heq
      · exact (pairwise_append.mp hsort).2.2 other hother found hfound
    have hnodup : (rows.take limit).Nodup := (nodup_append.mp hkeys).1.of_map
    have hlen := (subperm_of_subset hnodup hrecent).length_le
    have hlong : limit < rows.length := by
      by_contra hshort
      rw [drop_eq_nil_of_le (not_lt.mp hshort)] at hfound
      cases hfound
    rw [length_take] at hlen
    omega
  · rw [hrow] at hnone
    cases hnone

end Deletions

structure Kept (limits : StoreLimits) (project : ProjectKey) (op : Op) (store store' : Store) :
    Prop where
  engineInstances : Deletes project (fun _ => True) store.engineInstances store'.engineInstances
  runIntents : Deletes project (fun record => op ≠ .prune → record.state = .terminal)
    store.runIntents store'.runIntents
  queuedWork : Deletes project (fun _ => True) store.queuedWork store'.queuedWork
  leases : Deletes project (fun _ => True) store.leases store'.leases
  deliveryOutbox : Deletes project (fun record => record.state.isTerminal = true)
    store.deliveryOutbox store'.deliveryOutbox
  activityObservations : Deletes project (fun _ => True) store.activityObservations
    store'.activityObservations
  decompositionOutcomes : Deletes project (fun _ => True) store.decompositionOutcomes
    store'.decompositionOutcomes
  disagreements : Deletes project (fun row => op ≠ .prune → row.status ≠ .open)
    store.disagreements store'.disagreements
  causalEvents : Deletes project (fun _ => True) store.causalEvents store'.causalEvents
  claims : Deletes project (fun claim => op ≠ .prune → claim.status.isSettled = true)
    store.claims store'.claims
  overLimit : ∀ key claim, store.claims.lookup key = some claim →
    store'.claims.lookup key = none → claim.status.isSettled = false →
      sqlOffset limits.storeMaxClaims ≤
        (asRecent ClaimRecord.updatedAtMs project store.claims key claim).length

theorem Kept.refl (limits : StoreLimits) (project : ProjectKey) (op : Op) (store : Store) :
    Kept limits project op store store where
  engineInstances := .refl _ _ _
  runIntents := .refl _ _ _
  queuedWork := .refl _ _ _
  leases := .refl _ _ _
  deliveryOutbox := .refl _ _ _
  activityObservations := .refl _ _ _
  decompositionOutcomes := .refl _ _ _
  disagreements := .refl _ _ _
  causalEvents := .refl _ _ _
  claims := .refl _ _ _
  overLimit key claim h hnone _ := by
    rw [h] at hnone
    cases hnone

theorem Prunes.kept {limits : StoreLimits} {project : ProjectKey} {store store' : Store}
    {report : PruneReport} (h : Prunes limits project store store' report) :
    Kept limits project .prune store store' where
  engineInstances := h.engineInstances.deletes.mono fun _ _ => trivial
  runIntents := h.runIntents.deletes.mono fun _ _ hne => absurd rfl hne
  queuedWork := h.queuedWork.deletes.mono fun _ _ => trivial
  leases := h.leases.deletes.mono fun _ _ => trivial
  deliveryOutbox := h.deliveryOutbox.deletes
  activityObservations := h.activityObservations.deletes.mono fun _ _ => trivial
  decompositionOutcomes := h.decompositionOutcomes.deletes.mono fun _ _ => trivial
  disagreements := h.disagreements.deletes.mono fun _ _ hne => absurd rfl hne
  causalEvents := h.causalEvents.deletes.mono fun _ _ => trivial
  claims := h.claims.deletes.mono fun _ _ hne => absurd rfl hne
  overLimit _ _ hrow hnone _ := h.claims.limit_le hrow hnone

/-- Whatever is called, on any store: rows of other projects stay, unsettled messages stay, and
unsettled claims go only when they are beyond the limit of their table. -/
theorem retention_keeps {storeId : ℕ} {limits : StoreLimits} {access : ProjectAccess}
    {store store' : Store} {op : Op} (h : Retains storeId limits access store op store') :
    Kept limits access.project op store store' := by
  cases h with
  | failed => exact Kept.refl _ _ _ _
  | prune store' report _ hprunes => exact hprunes.kept
  | runIntents settledBeforeMs hstore =>
    have hscope : CoordinationStore.scope storeId access = .ok access.project := by
      rw [CoordinationStore.scope, if_neg (not_not.mpr hstore)]
    unfold pruneSettledRunIntents CoordinationStore.pruneSettledRunIntents
      CoordinationStore.inScope
    rw [hscope]
    refine { Kept.refl limits access.project _ store with runIntents := deletes_filter _ ?_ }
    intro row hrow
    obtain ⟨hproject, hstate, -⟩ := of_decide_eq_true hrow
    exact ⟨hproject, fun _ => hstate⟩
  | outboxMessages settledBeforeMs =>
    refine { Kept.refl limits access.project _ store with deliveryOutbox := deletes_filter _ ?_ }
    intro row hrow
    obtain ⟨hproject, hterminal, -⟩ := of_decide_eq_true hrow
    exact ⟨hproject, hterminal⟩
  | disagreements cutoffMs =>
    refine { Kept.refl limits access.project _ store with disagreements := deletes_filter _ ?_ }
    intro row hrow
    obtain ⟨hproject, hstatus, -⟩ := of_decide_eq_true hrow
    exact ⟨hproject, fun _ => hstatus⟩
  | claims cutoffMs =>
    have hclaims : Deletes access.project (fun claim => claim.status.isSettled = true)
        store.claims (expireClaims store access.project cutoffMs).claims := by
      apply deletes_filter
      intro row hrow
      obtain ⟨hproject, hsettled, -⟩ := of_decide_eq_true hrow
      exact ⟨hproject, hsettled⟩
    -- Only settled claims go, so none of them can be over the limit.
    refine { Kept.refl limits access.project _ store with
      claims := hclaims.mono fun _ hsettled _ => hsettled, overLimit := ?_ }
    intro key claim hclaim hnone hsettled
    rw [(hclaims.gone key claim hclaim hnone).2] at hsettled
    cases hsettled

/-! A ledger of two standing claims and a limit of one. -/

section Eviction

def standingClaim (id : String) (updatedAtMs : ℤ) : ClaimRecord where
  project := "p"
  claimId := id
  subject := ⟨.file, "a.rs"⟩
  subjectRevision := "r1"
  predicate := "owner"
  assertion := id
  status := .active
  confidencePerMille := 900
  provenance := []
  contestedBy := []
  assertedAtMs := 0
  updatedAtMs := updatedAtMs

def storeWith (claims : ClaimTable) : Store :=
  ⟨∅, ∅, ∅, ∅, ∅, ∅, ∅, ∅, ∅, claims⟩

def olderOnly : ClaimTable := AList.singleton ("p", "older") (standingClaim "older" 1)

def bothClaims : ClaimTable := olderOnly.insert ("p", "newer") (standingClaim "newer" 2)

def limitsOfOne : StoreLimits := ⟨1, 1, 1, 1, 1, 1, 1, 1, 1, 1⟩

theorem prunesRows_empty {K Row : Type} [DecidableEq K] (filter : Row → Bool) (order : Row → ℤ)
    (project : ProjectKey) (limit : ℕ) :
    PrunesRows (K := K) filter order project limit ∅ ∅ 0 := by
  refine ⟨[], List.Perm.nil, List.Pairwise.nil, ?_, ?_⟩
  · rw [drop_nil]
    rfl
  · rw [drop_nil]
    rfl

theorem prunes_older : Retains 0 limitsOfOne ⟨0, "p"⟩ (storeWith bothClaims) .prune
    (storeWith (bothClaims.erase ("p", "older"))) := by
  refine .prune _ ⟨0, 0, 0, 0, 0, 0, 0, 0, 0, 1⟩ rfl ?_
  constructor
  case claims =>
    refine ⟨[⟨("p", "newer"), standingClaim "newer" 2⟩, ⟨("p", "older"), standingClaim "older" 1⟩],
      ?_, ?_, rfl, rfl⟩
    · exact List.Perm.of_eq (by decide)
    · decide
  all_goals exact prunesRows_empty _ _ _ _

theorem retention_keeps_when_evicting :
    Kept limitsOfOne "p" .prune (storeWith bothClaims)
      (storeWith (bothClaims.erase ("p", "older"))) :=
  retention_keeps prunes_older

/-- A standing claim is deleted where the ledger holds more claims than it may. -/
theorem standing_claim_evicted :
    ¬ ∀ (storeId : ℕ) (limits : StoreLimits) (access : ProjectAccess) (store store' : Store)
      (op : Op), Retains storeId limits access store op store' →
        ∀ key claim, store.claims.lookup key = some claim → claim.status.isSettled = false →
          store'.claims.lookup key = some claim := by
  intro h
  have hkept := h 0 limitsOfOne ⟨0, "p"⟩ _ _ .prune prunes_older ("p", "older")
    (standingClaim "older" 1) rfl rfl
  have hgone : (storeWith (bothClaims.erase ("p", "older"))).claims.lookup ("p", "older") = none :=
    AList.lookup_erase _ _
  rw [hgone] at hkept
  cases hkept

end Eviction

end StoreRetention
