import RefactEngine.LaunchProtocol

/-! # What one step of the launch protocol can do

Every step inserts one row, writes one row, claims one run, starts one run, or leaves the rows
as they are apart from deletions. The results about runs go through these five effects.
-/
namespace LaunchReconciliation

open WorkIdentity CoordinationStore

variable {setup : ℕ → Reconciler} {w w' : World} {a : Action}

def Phase.records : Phase → List RunIntentRecord
  | .idle => []
  | .pass _ todo => todo
  | .contested _ record todo => record :: todo
  | .takingOver _ record _ todo => record :: todo
  | .owned _ _ record todo => record :: todo
  | .claimed _ _ record todo => record :: todo
  | .releasing _ _ todo => todo

/-- The record whose start is about to be invoked. -/
def Phase.claim? : Phase → Option RunIntentRecord
  | .claimed _ _ record _ => some record
  | _ => none

def nextRecord (key : IntentKey) (current : RunIntentRecord) (toState : IntentState) (atMs : ℤ) :
    RunIntentRecord :=
  ⟨key.1, key.2, current.generation + 1, toState, atMs⟩

def putIntent (db : Database) (key : IntentKey) (record : RunIntentRecord) : Database :=
  { db with runIntents := db.runIntents.insert key record }

/-- Rows are kept or deleted, current rows are returned, and nobody gets a new claim. -/
structure Quiet (w w' : World) (records : List RunIntentRecord) : Prop where
  rows : ∀ key record, w'.db.runIntents.lookup key = some record →
    w.db.runIntents.lookup key = some record
  current : ∀ record ∈ records, ∃ key, w.db.runIntents.lookup key = some record
  log : w'.log = records.map .returned ++ w.log
  carried : ∀ i, ∀ record ∈ (w'.phase i).records, record ∈ (w.phase i).records ∨ record ∈ records
  claims : ∀ i record, (w'.phase i).claim? = some record → (w.phase i).claim? = some record

def Action.writes? : Action → Option IntentKey
  | .advance project record => some (project, record.run)
  | .claim _ key => some key
  | _ => none

inductive Effect (setup : ℕ → Reconciler) (w : World) : Action → World → Prop where
  | quiet {a : Action} {w' : World} (records : List RunIntentRecord) : a.writes? = none →
      Quiet w w' records → Effect setup w a w'
  | inserted (key : IntentKey) (atMs : ℤ) : w.db.runIntents.lookup key = none →
      Effect setup w (.persist key)
        ⟨putIntent w.db key ⟨key.1, key.2, 0, .persisted, atMs⟩, w.phase,
          .returned ⟨key.1, key.2, 0, .persisted, atMs⟩ :: .inserted key :: w.log⟩
  | written (project : ProjectKey) (record current : RunIntentRecord) (toState : IntentState)
      (atMs : ℤ) : .returned record ∈ w.log → record.project = project →
      w.db.runIntents.lookup (project, record.run) = some current →
      current.generation = record.generation →
      boundaryOrdinal record.state < boundaryOrdinal toState →
      Effect setup w (.advance project record)
        ⟨putIntent w.db (project, record.run)
          (nextRecord (project, record.run) current toState atMs), w.phase,
          .returned (nextRecord (project, record.run) current toState atMs) :: w.log⟩
  | claimed (i : ℕ) (key : IntentKey) (holder : LeaseAuthority)
      (record current : RunIntentRecord) (atMs : ℤ) (todo : List RunIntentRecord) :
      key = ((setup i).protocol.access.project, record.run) →
      w.phase i = .owned atMs holder record todo → record.state = .persisted →
      w.db.runIntents.lookup key = some current → current.generation = record.generation →
      Accepted w.db key.1 holder atMs →
      Effect setup w (.claim i key)
        ⟨putIntent w.db key (nextRecord key current .dispatched atMs),
          Function.update w.phase i (.claimed atMs holder record todo),
          .claimed i key :: .returned (nextRecord key current .dispatched atMs) :: w.log⟩
  | started (i : ℕ) (key : IntentKey) (record : RunIntentRecord) (phase : Phase) :
      key = ((setup i).protocol.access.project, record.run) →
      (w.phase i).claim? = some record → phase.claim? = none →
      (∀ r ∈ phase.records, r ∈ (w.phase i).records) →
      Effect setup w (.start i key)
        ⟨w.db, Function.update w.phase i phase, .started i key :: w.log⟩

theorem classify_startFresh {state : IntentState} {evidence : LaunchEvidence}
    (h : classify state evidence = .startFresh) : state = .persisted := by
  cases state with
  | persisted => rfl
  | dispatched =>
    simp only [classify] at h
    split at h
    · cases h
    · split at h <;> cases h
  | acknowledged =>
    simp only [classify] at h
    split at h <;> cases h
  | terminal => cases h

theorem liftLease_ok {α : Type} {r : Except StoreError α} {x : α} (h : liftLease r = .ok x) :
    r = .ok x := by
  cases r with
  | ok y =>
    cases h
    rfl
  | error err => cases h

variable {db : Database} {access : ProjectAccess} {storeId : ℕ}

theorem inScope_ok {α : Type} {call : ProjectKey → Outcome α} {x : α}
    (h : (inScope storeId access db call).2 = .ok x) :
    inScope storeId access db call = call access.project := by
  unfold inScope at h ⊢
  split at h
  · cases h
  · rename_i hscope
    unfold scope at hscope
    split at hscope
    · cases hscope
    · cases hscope
      rfl

variable {db' : Database} {record : RunIntentRecord} {protocol : LaunchProtocol}
  {holder : LeaseAuthority} {atMs : ℤ}

variable {toState : IntentState}

theorem advance_ok {next : RunIntentRecord}
    (h : protocol.advance db holder record toState atMs = (db', .ok next)) :
    boundaryOrdinal record.state < boundaryOrdinal toState ∧
    Accepted db protocol.access.project holder atMs ∧
    ∃ current, db.runIntents.lookup (protocol.access.project, record.run) = some current ∧
      current.generation = record.generation ∧
      next = nextRecord (protocol.access.project, record.run) current toState atMs ∧
      db' = putIntent db (protocol.access.project, record.run) next := by
  unfold LaunchProtocol.advance at h
  split at h
  · cases h
  · rename_i hord
    obtain ⟨hdb, hres⟩ := Prod.mk.inj h
    have hok := liftLease_ok hres
    unfold compareAndSetRunIntentFenced at hdb hok
    have hscope := inScope_ok hok
    rw [hscope] at hdb hok
    refine ⟨not_le.mp hord, ?_⟩
    split at hok
    · cases hok
    · rename_i hacc
      simp only [hacc] at hdb
      refine ⟨hacc, ?_⟩
      unfold casRunIntent at hdb hok
      split at hok
      · cases hok
      · rename_i current hcur
        simp only [hcur] at hdb
        split at hok
        · cases hok
        · rename_i hgen
          rw [if_neg hgen] at hdb
          cases hok
          exact ⟨current, hcur, not_not.mp hgen, rfl, hdb.symm⟩

variable {run : RunKey}

theorem persistIntent_ok (h : protocol.persistIntent db holder run atMs = (db', .ok record)) :
    (db.runIntents.lookup (protocol.access.project, run) = some record ∧ db' = db) ∨
    (db.runIntents.lookup (protocol.access.project, run) = none ∧
      record = ⟨protocol.access.project, run, 0, .persisted, atMs⟩ ∧
      db' = putIntent db (protocol.access.project, run) record) := by
  unfold LaunchProtocol.persistIntent at h
  obtain ⟨hdb, hres⟩ := Prod.mk.inj h
  have hok := liftLease_ok hres
  unfold insertRunIntentFenced at hdb hok
  have hscope := inScope_ok hok
  rw [hscope] at hdb hok
  split at hok
  · cases hok
  · rename_i hacc
    simp only [hacc] at hdb
    split at hok
    · rename_i held hheld
      simp only [hheld] at hdb
      cases hok
      exact .inl ⟨hheld, hdb.symm⟩
    · rename_i hnone
      simp only [hnone] at hdb
      cases hok
      exact .inr ⟨hnone, rfl, hdb.symm⟩

theorem LeaseCall.runIntents (h : LeaseCall db db') : db'.runIntents = db.runIntents := by
  cases h with
  | acquire => exact acquire_runIntents _ _ _ _ _
  | renew => exact writeLeaseRow_runIntents _ _ _ _ _ _ _ _
  | takeOver => exact writeLeaseRow_runIntents _ _ _ _ _ _ _ _
  | release => exact release_runIntents _ _ _

variable {phase : Phase} {phases : ℕ → Phase} {i : ℕ}

theorem records_update (hphase : ∀ record ∈ phase.records, record ∈ (phases i).records) (j : ℕ)
    (record : RunIntentRecord) (h : record ∈ (Function.update phases i phase j).records) :
    record ∈ (phases j).records := by
  rw [Function.update_apply] at h
  split at h
  · rename_i hj
    subst hj
    exact hphase record h
  · exact h

theorem claim_update {j : ℕ} (h : (Function.update phases i phase j).claim? = some record) :
    (j = i ∧ phase.claim? = some record) ∨ (j ≠ i ∧ (phases j).claim? = some record) := by
  rw [Function.update_apply] at h
  split at h
  · rename_i hj
    exact .inl ⟨hj, h⟩
  · rename_i hj
    exact .inr ⟨hj, h⟩

theorem claim_update_none {j : ℕ} (hphase : phase.claim? = none)
    (h : (Function.update phases i phase j).claim? = some record) :
    j ≠ i ∧ (phases j).claim? = some record := by
  rcases claim_update h with ⟨-, hclaim⟩ | hother
  · rw [hphase] at hclaim
    cases hclaim
  · exact hother

theorem quiet_moved
    (hrows : ∀ key record, db'.runIntents.lookup key = some record →
      w.db.runIntents.lookup key = some record)
    (hrecs : ∀ record ∈ phase.records, record ∈ (w.phase i).records)
    (hclaim : phase.claim? = none) : Quiet w (w.moved db' i phase) [] := by
  constructor
  · exact hrows
  · simp
  · rfl
  · intro j record hrec
    exact .inl (records_update hrecs j record hrec)
  · intro j record hrec
    exact (claim_update_none hclaim hrec).2

theorem quiet_lease (hdb : db'.runIntents = w.db.runIntents)
    (hrecs : ∀ record ∈ phase.records, record ∈ (w.phase i).records)
    (hclaim : phase.claim? = none) : Quiet w (w.moved db' i phase) [] :=
  quiet_moved (fun key record hrec => by rwa [hdb] at hrec) hrecs hclaim

theorem quiet_call (records : List RunIntentRecord)
    (hrows : ∀ key record, db'.runIntents.lookup key = some record →
      w.db.runIntents.lookup key = some record)
    (hcur : ∀ record ∈ records, ∃ key, w.db.runIntents.lookup key = some record) :
    Quiet w ⟨db', w.phase, records.map .returned ++ w.log⟩ records :=
  ⟨hrows, hcur, rfl, fun _ _ hrec => .inl hrec, fun _ _ hrec => hrec⟩

theorem listRunIntents_ok {limit : ℕ} {records : List RunIntentRecord}
    (h : listRunIntents storeId db access limit = (db', .ok records)) :
    db' = db ∧ ∀ record ∈ records, ∃ key, db.runIntents.lookup key = some record := by
  unfold listRunIntents at h
  have hscope := inScope_ok (congrArg Prod.snd h)
  rw [hscope] at h
  obtain ⟨hdb, hres⟩ := Prod.mk.inj h
  refine ⟨hdb.symm, fun record hrec => ?_⟩
  rw [← Except.ok.inj hres] at hrec
  have hrow := (List.mem_insertionSort _).mp (List.mem_of_mem_take hrec)
  obtain ⟨row, hmem, rfl⟩ := List.mem_map.mp hrow
  exact ⟨row.1, AList.mem_entries_iff.mp (List.mem_filter.mp hmem).1⟩

theorem getRunIntent_ok (h : getRunIntent storeId db access run = (db', .ok (some record))) :
    db' = db ∧ db.runIntents.lookup (access.project, run) = some record := by
  unfold getRunIntent at h
  have hscope := inScope_ok (congrArg Prod.snd h)
  rw [hscope] at h
  obtain ⟨hdb, hres⟩ := Prod.mk.inj h
  exact ⟨hdb.symm, Except.ok.inj hres⟩

theorem pruneSettled_rows (storeId : ℕ) (db : Database) (access : ProjectAccess)
    (settledBeforeMs : ℤ) (key : IntentKey) (record : RunIntentRecord)
    (h : (pruneSettledRunIntents storeId db access settledBeforeMs).1.runIntents.lookup key =
      some record) : db.runIntents.lookup key = some record := by
  unfold pruneSettledRunIntents at h
  rcases inScope_cases storeId access db _ with heq | heq
  · rwa [heq] at h
  · rw [heq, AList.lookup_eraseAll] at h
    split at h
    · cases h
    · exact h

variable {manager : LeaseManager}

variable {leaseKey ownerToken : String}

theorem acquire_fst {r : Except StoreError LeaseAcquisition}
    (h : manager.acquire db leaseKey ownerToken atMs = (db', r)) :
    db'.runIntents = db.runIntents := by
  rw [← acquire_runIntents manager db leaseKey ownerToken atMs, h]

theorem takeOver_fst {generation : ℤ} {r : Except StoreError LeaseRecord}
    (h : manager.takeOver db leaseKey generation ownerToken atMs = (db', r)) :
    db'.runIntents = db.runIntents := by
  have hrows : (manager.takeOver db leaseKey generation ownerToken atMs).1.runIntents =
      db.runIntents := writeLeaseRow_runIntents _ _ _ _ _ _ _ _
  rwa [h] at hrows

variable {err : ProtocolError}

theorem advance_error
    (h : protocol.advance db holder record toState atMs = (db', .error err)) : db' = db := by
  unfold LaunchProtocol.advance at h
  split at h
  · exact (Prod.mk.inj h).1.symm
  · obtain ⟨rfl, herr⟩ := Prod.mk.inj h
    unfold compareAndSetRunIntentFenced at herr ⊢
    rcases inScope_cases protocol.storeId protocol.access db _ with heq | heq
    · exact heq
    · rw [heq] at herr ⊢
      split at herr
      · rfl
      · unfold casRunIntent at herr ⊢
        split at herr
        · rfl
        · split at herr
          · rename_i hgen
            rw [if_pos hgen]
          · cases herr

theorem persistIntent_error
    (h : protocol.persistIntent db holder run atMs = (db', .error err)) : db' = db := by
  unfold LaunchProtocol.persistIntent at h
  obtain ⟨rfl, herr⟩ := Prod.mk.inj h
  unfold insertRunIntentFenced at herr ⊢
  rcases inScope_cases protocol.storeId protocol.access db _ with heq | heq
  · exact heq
  · rw [heq] at herr ⊢
    split at herr
    · rfl
    · split at herr
      · cases herr
      · cases herr

theorem step_effect (h : Step setup w a w') : Effect setup w a w' := by
  cases h with
  | list i atMs db' records hphase hlist =>
    obtain ⟨rfl, hcur⟩ := listRunIntents_ok hlist
    refine .quiet records rfl ⟨fun _ _ hrec => hrec, hcur, rfl, ?_, ?_⟩
    · intro j record hrec
      simp only [Function.update_apply] at hrec
      split at hrec
      · exact .inr hrec
      · exact .inl hrec
    · intro j record hrec
      exact (claim_update_none rfl hrec).2
  | own i atMs record todo ownerToken db' lease hphase hcall =>
    refine .quiet [] rfl (quiet_lease ?_ (by simp [hphase, Phase.records]) rfl)
    exact acquire_fst hcall
  | contest i atMs record todo ownerToken db' held hphase hcall =>
    refine .quiet [] rfl (quiet_lease ?_ (by simp [hphase, Phase.records]) rfl)
    exact acquire_fst hcall
  | unavailable i atMs record todo ownerToken db' err hphase hcall =>
    refine .quiet [] rfl (quiet_lease ?_ (by simp +contextual [hphase, Phase.records]) rfl)
    exact acquire_fst hcall
  | inspect i atMs record todo db' held hphase hcall =>
    refine .quiet [] rfl (quiet_lease ?_ (by simp [hphase, Phase.records]) rfl)
    rw [getLease, inScope_ok (congrArg Prod.snd hcall)] at hcall
    rw [(Prod.mk.inj hcall).1]
  | leave i atMs record todo hphase =>
    exact .quiet [] rfl (quiet_lease rfl (by simp +contextual [hphase, Phase.records]) rfl)
  | takeOver i atMs record generation todo ownerToken db' lease hphase hcall =>
    refine .quiet [] rfl (quiet_lease ?_ (by simp [hphase, Phase.records]) rfl)
    exact takeOver_fst hcall
  | takeOverLost i atMs record generation todo ownerToken db' err hphase hcall =>
    refine .quiet [] rfl (quiet_lease ?_ (by simp +contextual [hphase, Phase.records]) rfl)
    exact takeOver_fst hcall
  | surface i atMs holder record todo evidence hphase =>
    exact .quiet [] rfl (quiet_lease rfl (by simp +contextual [hphase, Phase.records]) rfl)
  | claim i atMs holder record todo evidence db' next hphase hres hallow hcall =>
    obtain ⟨-, hacc, current, hcur, hgen, rfl, rfl⟩ := advance_ok hcall
    exact .claimed i _ holder record current atMs todo rfl hphase (classify_startFresh hres)
      hcur hgen hacc
  | claimLost i atMs holder record todo evidence db' err hphase hres hallow hcall =>
    refine .quiet [] rfl (quiet_lease ?_ (by simp +contextual [hphase, Phase.records]) rfl)
    rw [advance_error hcall]
  | start i atMs holder record todo hphase =>
    exact .started i _ record _ rfl (by simp [hphase, Phase.claim?]) rfl
      (by simp +contextual [hphase, Phase.records])
  | release i atMs holder todo hphase =>
    refine .quiet [] rfl (quiet_lease ?_ (by simp [hphase, Phase.records]) rfl)
    exact release_runIntents _ _ _
  | retain i atMs hphase =>
    exact .quiet [] rfl (quiet_moved (pruneSettled_rows _ _ _ _) (by simp [Phase.records]) rfl)
  | crash i => exact .quiet [] rfl (quiet_lease rfl (by simp [Phase.records]) rfl)
  | persist protocol holder run atMs db' record hcall =>
    rcases persistIntent_ok hcall with ⟨hheld, rfl⟩ | ⟨hnone, rfl, rfl⟩
    · rw [if_neg (by simp [hheld])]
      exact .quiet [record] rfl (quiet_call [record] (fun _ _ hrec => hrec)
        (by simpa using ⟨_, _, hheld⟩))
    · rw [if_pos hnone]
      exact .inserted _ atMs hnone
  | persistFailed protocol holder run atMs db' err hcall =>
    refine .quiet [] rfl (quiet_call [] (fun key record hrec => ?_) (by simp))
    rwa [persistIntent_error hcall] at hrec
  | advance protocol holder record toState atMs db' next hreturned hproj hcall =>
    obtain ⟨hord, -, current, hcur, hgen, rfl, rfl⟩ := advance_ok hcall
    exact .written _ record current toState atMs hreturned hproj hcur hgen hord
  | advanceFailed protocol holder record toState atMs db' err hcall =>
    refine .quiet [] rfl (quiet_call [] (fun key record hrec => ?_) (by simp))
    rwa [advance_error hcall] at hrec
  | read storeId access run db' record hcall =>
    obtain ⟨rfl, hheld⟩ := getRunIntent_ok hcall
    exact .quiet [record] rfl (quiet_call [record] (fun _ _ hrec => hrec)
      (by simpa using ⟨_, _, hheld⟩))
  | lease db' hcall =>
    exact .quiet [] rfl (quiet_call [] (fun key record hrec => by
      rwa [hcall.runIntents] at hrec) (by simp))
  | prune project maxLeases maxRunIntents db' hprune =>
    refine .quiet [] rfl (quiet_call [] (fun key record hrec => ?_) (by simp))
    obtain ⟨rows, -, -, heq⟩ := hprune.runIntents
    rw [heq, AList.lookup_eraseAll] at hrec
    split at hrec
    · cases hrec
    · exact hrec

end LaunchReconciliation
