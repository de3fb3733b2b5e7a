import RefactEngine.CoordinationStore

/-! # Lease fencing

Any number of engines call the store in any order. The generation of a lease starts again
when its row is deleted, so safety rests on the owner tokens: an acquisition or a takeover
mints a token that nobody has used or presented before.
-/
namespace CoordinationStore

open WorkIdentity

def i64Min : ℤ := -2 ^ 63

def i64Max : ℤ := 2 ^ 63 - 1

def saturatingAdd (a b : ℤ) : ℤ := max i64Min (min i64Max (a + b))

/-- One engine's view of the leases. The time to live is the setting, cast to an `i64`. -/
structure LeaseManager where
  storeId : ℕ
  access : ProjectAccess
  instanceId : String
  ttlMs : ℤ

namespace LeaseManager

variable (manager : LeaseManager)

def termEnds (atMs : ℤ) : ℤ := saturatingAdd atMs manager.ttlMs

variable (db : Database)

def acquire (leaseKey ownerToken : String) (atMs : ℤ) :
    Outcome LeaseAcquisition :=
  tryAcquireLease manager.storeId db manager.access leaseKey manager.instanceId ownerToken atMs
    (manager.termEnds atMs)

def renew (authority : LeaseAuthority) (atMs : ℤ) :
    Outcome LeaseRecord :=
  renewLease manager.storeId db manager.access authority atMs (manager.termEnds atMs)

def release (authority : LeaseAuthority) :
    Outcome Bool :=
  releaseLease manager.storeId db manager.access authority

/-- The second store call of a takeover. The generation is the one that the first call read,
however long ago that was. -/
def takeOver (leaseKey : String)
    (expectedGeneration : ℤ) (ownerToken : String) (atMs : ℤ) : Outcome LeaseRecord :=
  takeOverLease manager.storeId db manager.access leaseKey expectedGeneration manager.instanceId
    ownerToken atMs (manager.termEnds atMs)

end LeaseManager

/-- `seen` holds every owner token that was minted or presented so far, and `clock` the
latest time that a caller has presented. -/
structure World where
  db : Database
  seen : List String
  clock : ℤ

def World.initial : World := ⟨.empty, [], i64Min⟩

inductive Step : World → World → Prop where
  | acquire {w : World} (manager : LeaseManager) (leaseKey ownerToken : String) (atMs : ℤ) :
      ownerToken ∉ w.seen → w.clock ≤ atMs →
      Step w ⟨(manager.acquire w.db leaseKey ownerToken atMs).1, ownerToken :: w.seen, atMs⟩
  | renew {w : World} (manager : LeaseManager) (authority : LeaseAuthority) (atMs : ℤ) :
      w.clock ≤ atMs →
      Step w ⟨(manager.renew w.db authority atMs).1, authority.ownerToken :: w.seen, atMs⟩
  | takeOver {w : World} (manager : LeaseManager) (leaseKey : String) (expectedGeneration : ℤ)
      (ownerToken : String) (atMs : ℤ) : ownerToken ∉ w.seen → w.clock ≤ atMs →
      Step w ⟨(manager.takeOver w.db leaseKey expectedGeneration ownerToken atMs).1,
        ownerToken :: w.seen, atMs⟩
  | release {w : World} (manager : LeaseManager) (authority : LeaseAuthority) :
      Step w ⟨(manager.release w.db authority).1, authority.ownerToken :: w.seen, w.clock⟩
  | prune {w : World} (project : ProjectKey) (maxLeases maxRunIntents : ℕ) (db' : Database) :
      Prunes project maxLeases maxRunIntents w.db db' → Step w { w with db := db' }
  | compareAndSet {w : World} (storeId : ℕ) (access : ProjectAccess) (authority : LeaseAuthority)
      (atMs : ℤ) (run : RunKey) (expectedGeneration : ℤ) (nextState : IntentState)
      (updatedAtMs : ℤ) : w.clock ≤ atMs →
      Step w ⟨(compareAndSetRunIntentFenced storeId w.db access authority atMs run
        expectedGeneration nextState updatedAtMs).1, authority.ownerToken :: w.seen, atMs⟩
  | insert {w : World} (storeId : ℕ) (access : ProjectAccess) (authority : LeaseAuthority)
      (atMs : ℤ) (run : RunKey) (updatedAtMs : ℤ) : w.clock ≤ atMs →
      Step w ⟨(insertRunIntentFenced storeId w.db access authority atMs run updatedAtMs).1,
        authority.ownerToken :: w.seen, atMs⟩

abbrev Run := Relation.ReflTransGen Step

def Accepted (db : Database) (project : ProjectKey) (authority : LeaseAuthority) (nowAtMs : ℤ) :
    Prop :=
  leaseRefusal db project authority nowAtMs = none

instance (db : Database) (project : ProjectKey) (authority : LeaseAuthority) (nowAtMs : ℤ) :
    Decidable (Accepted db project authority nowAtMs) :=
  inferInstanceAs (Decidable (_ = _))

variable {db : Database} {project : ProjectKey} {authority : LeaseAuthority} {now : ℤ}

theorem accepted_iff : Accepted db project authority now ↔
    ∃ held, db.leases.lookup (project, authority.leaseKey) = some held ∧
      held.fencingGeneration = authority.fencingGeneration ∧
      held.ownerToken = authority.ownerToken ∧ now < held.expiresAtMs := by
  unfold Accepted leaseRefusal
  cases db.leases.lookup (project, authority.leaseKey) with
  | none => simp
  | some held =>
    by_cases hgen : held.fencingGeneration = authority.fencingGeneration
    · by_cases htoken : held.ownerToken = authority.ownerToken
      · simp [hgen, htoken]
      · simp [hgen, htoken]
    · simp [hgen]

inductive RowChange (w w' : World) (leaseKey : String) :
    Option LeaseRecord → Option LeaseRecord → Prop where
  | same (row : Option LeaseRecord) : RowChange w w' leaseKey row row
  | deleted (row : Option LeaseRecord) : RowChange w w' leaseKey row none
  | minted (row : Option LeaseRecord) (record : LeaseRecord) : record.ownerToken ∉ w.seen →
      record.ownerToken ∈ w'.seen → record.leaseKey = leaseKey →
      record.expiresAtMs ≤ i64Max → RowChange w w' leaseKey row (some record)
  | renewed (held : LeaseRecord) (expiresAtMs : ℤ) : w'.clock < held.expiresAtMs →
      expiresAtMs ≤ i64Max →
      RowChange w w' leaseKey (some held) (some { held with expiresAtMs := expiresAtMs })

/-- Rows are stored under their own key, with a token that was seen and a 64-bit time. -/
structure WellFormed (w : World) : Prop where
  keyed : ∀ project leaseKey record, w.db.leases.lookup (project, leaseKey) = some record →
    record.leaseKey = leaseKey
  known : ∀ project leaseKey record, w.db.leases.lookup (project, leaseKey) = some record →
    record.ownerToken ∈ w.seen
  bounded : ∀ project leaseKey record, w.db.leases.lookup (project, leaseKey) = some record →
    record.expiresAtMs ≤ i64Max

theorem putLease_lookup (db : Database) (project : ProjectKey) (record : LeaseRecord)
    (key : ProjectKey × String) : (db.putLease project record).leases.lookup key =
      if key = (project, record.leaseKey) then some record else db.leases.lookup key :=
  AList.lookup_insert_if _ _ _ _

variable (storeId : ℕ)

theorem inScope_cases {α : Type} (access : ProjectAccess) (db : Database)
    (call : ProjectKey → Outcome α) : (inScope storeId access db call).1 = db ∨
      inScope storeId access db call = call access.project := by
  unfold inScope scope
  split
  · exact .inl rfl
  · rename_i hscope
    split at hscope
    · cases hscope
    · cases hscope
      exact .inr rfl

variable (manager : LeaseManager)

theorem termEnds_le (atMs : ℤ) : manager.termEnds atMs ≤ i64Max := by
  unfold LeaseManager.termEnds saturatingAdd i64Min i64Max
  omega

variable {atMs : ℤ}

theorem lt_termEnds {manager : LeaseManager} (httl : 0 < manager.ttlMs)
    (hat : atMs < i64Max) : atMs < manager.termEnds atMs := by
  unfold LeaseManager.termEnds saturatingAdd
  have hmin : atMs < min i64Max (atMs + manager.ttlMs) := lt_min hat (by omega)
  exact lt_max_of_lt_right hmin

variable {w : World}

theorem acquire_row (h : WellFormed w) (manager : LeaseManager) (leaseKey ownerToken : String)
    (atMs : ℤ) (hfresh : ownerToken ∉ w.seen) (project : ProjectKey) (key : String) :
    RowChange w ⟨(manager.acquire w.db leaseKey ownerToken atMs).1, ownerToken :: w.seen, atMs⟩
      key (w.db.leases.lookup (project, key))
      ((manager.acquire w.db leaseKey ownerToken atMs).1.leases.lookup (project, key)) := by
  unfold LeaseManager.acquire tryAcquireLease
  rcases inScope_cases manager.storeId manager.access w.db _ with heq | heq
  · rw [heq]
    exact .same _
  · rw [heq]
    cases hheld : w.db.leases.lookup (manager.access.project, leaseKey) with
    | none =>
      simp only [putLease_lookup]
      split
      · rename_i hkey
        cases hkey
        exact .minted _ _ hfresh List.mem_cons_self rfl (termEnds_le manager atMs)
      · exact .same _
    | some held =>
      -- the token of the row was seen, so it is not the fresh one
      have hne : held.ownerToken ≠ ownerToken := by
        rintro rfl
        exact hfresh (h.known _ _ held hheld)
      simp only [ne_eq, hne, not_false_eq_true, if_true]
      exact .same _

theorem writeLeaseRow_cases (db : Database) (access : ProjectAccess) (leaseKey : String)
    (expectedGeneration : ℤ) (expectedOwner : Option String) (unexpiredAtMs : Option ℤ)
    (rewrite : LeaseRecord → LeaseRecord) :
    (writeLeaseRow storeId db access leaseKey expectedGeneration expectedOwner unexpiredAtMs
      rewrite).1 = db ∨
    ∃ held, db.leases.lookup (access.project, leaseKey) = some held ∧
      held.fencingGeneration = expectedGeneration ∧
      (∀ expected, expectedOwner = some expected → held.ownerToken = expected) ∧
      (∀ atMs, unexpiredAtMs = some atMs → atMs < held.expiresAtMs) ∧
      (writeLeaseRow storeId db access leaseKey expectedGeneration expectedOwner unexpiredAtMs
        rewrite).1 = db.putLease access.project (rewrite held) := by
  unfold writeLeaseRow
  rcases inScope_cases storeId access db _ with heq | heq
  · exact .inl heq
  · rw [heq]
    split
    · rename_i written hcheck
      unfold checkLeaseRow at hcheck
      split at hcheck
      · cases hcheck
      · rename_i held hheld
        split at hcheck
        · cases hcheck
        · rename_i hgen
          split at hcheck
          · cases hcheck
          · rename_i howner
            split at hcheck
            · cases hcheck
            · rename_i hlive
              cases hcheck
              refine .inr ⟨held, hheld, not_not.mp hgen, ?_, ?_, rfl⟩
              · rintro expected rfl
                simpa using howner
              · rintro atMs rfl
                simpa [LeaseRecord.isExpired] using hlive
    all_goals exact .inl rfl

theorem renew_lookup (h : WellFormed w) (manager : LeaseManager) (authority : LeaseAuthority)
    (atMs : ℤ) (project : ProjectKey) (key : String) :
    (manager.renew w.db authority atMs).1.leases.lookup (project, key) =
      w.db.leases.lookup (project, key) ∨
    ∃ held, w.db.leases.lookup (project, key) = some held ∧ atMs < held.expiresAtMs ∧
      (manager.renew w.db authority atMs).1.leases.lookup (project, key) =
        some { held with expiresAtMs := manager.termEnds atMs } := by
  rcases writeLeaseRow_cases manager.storeId w.db manager.access authority.leaseKey
    authority.fencingGeneration (some authority.ownerToken) (some atMs)
    (fun held => { held with expiresAtMs := manager.termEnds atMs }) with
    heq | ⟨held, hheld, -, -, hlive, heq⟩
  · left
    rw [LeaseManager.renew, renewLease, heq]
  · rw [LeaseManager.renew, renewLease, heq, putLease_lookup]
    split
    · rename_i hkey
      obtain ⟨rfl, hk⟩ := Prod.mk.inj hkey
      obtain rfl : key = authority.leaseKey := hk.trans (h.keyed _ _ held hheld)
      exact .inr ⟨held, hheld, hlive atMs rfl, rfl⟩
    · exact .inl rfl

variable {w' : World}

theorem renew_row (h : WellFormed w) (manager : LeaseManager) (authority : LeaseAuthority)
    (project : ProjectKey) (key : String) : RowChange w w' key (w.db.leases.lookup (project, key))
      ((manager.renew w.db authority w'.clock).1.leases.lookup (project, key)) := by
  rcases renew_lookup h manager authority w'.clock project key with heq | ⟨held, hheld, hlive, heq⟩
  · rw [heq]
    exact .same _
  · rw [heq, hheld]
    exact .renewed held _ hlive (termEnds_le manager _)

theorem takeOver_row (leaseKey : String) (expectedGeneration : ℤ) (ownerToken : String) (atMs : ℤ)
    (hfresh : ownerToken ∉ w.seen) (project : ProjectKey) (key : String) :
    RowChange w ⟨(manager.takeOver w.db leaseKey expectedGeneration ownerToken atMs).1,
        ownerToken :: w.seen, atMs⟩ key (w.db.leases.lookup (project, key))
      ((manager.takeOver w.db leaseKey expectedGeneration ownerToken atMs).1.leases.lookup
        (project, key)) := by
  rcases writeLeaseRow_cases manager.storeId w.db manager.access leaseKey expectedGeneration
    none none (fun held => { held with
      holderInstance := manager.instanceId
      ownerToken := ownerToken
      fencingGeneration := held.fencingGeneration + 1
      acquiredAtMs := atMs
      expiresAtMs := manager.termEnds atMs }) with heq | ⟨held, hheld, -, -, -, heq⟩
  · rw [LeaseManager.takeOver, takeOverLease, heq]
    exact .same _
  · rw [LeaseManager.takeOver, takeOverLease, heq, putLease_lookup]
    split
    · rename_i hkey
      obtain ⟨rfl, hk⟩ := Prod.mk.inj hkey
      exact .minted _ _ hfresh List.mem_cons_self hk.symm (termEnds_le manager atMs)
    · exact .same _

theorem release_row (authority : LeaseAuthority) (project : ProjectKey) (key : String) :
    RowChange w w' key (w.db.leases.lookup (project, key))
      ((manager.release w.db authority).1.leases.lookup (project, key)) := by
  unfold LeaseManager.release releaseLease
  rcases inScope_cases manager.storeId manager.access w.db _ with heq | heq
  · rw [heq]
    exact .same _
  · rw [heq]
    split
    · exact .same _
    · split
      · rw [AList.lookup_erase_if]
        split
        · exact .deleted _
        · exact .same _
      · exact .same _

theorem prune_row {scope : ProjectKey} {maxLeases maxRunIntents : ℕ}
    (h : Prunes scope maxLeases maxRunIntents w.db w'.db) (project : ProjectKey) (key : String) :
    RowChange w w' key (w.db.leases.lookup (project, key))
      (w'.db.leases.lookup (project, key)) := by
  obtain ⟨rows, -, -, heq⟩ := h.leases
  rw [heq, AList.lookup_eraseAll]
  split
  · exact .deleted _
  · exact .same _

theorem compareAndSet_leases (db : Database) (access : ProjectAccess) (authority : LeaseAuthority)
    (nowAtMs : ℤ) (run : RunKey) (expectedGeneration : ℤ) (nextState : IntentState)
    (updatedAtMs : ℤ) :
    (compareAndSetRunIntentFenced storeId db access authority nowAtMs run expectedGeneration
      nextState updatedAtMs).1.leases = db.leases := by
  unfold compareAndSetRunIntentFenced
  rcases inScope_cases storeId access db _ with heq | heq
  · rw [heq]
  · rw [heq]
    split
    · rfl
    · unfold casRunIntent
      split
      · rfl
      · split <;> rfl

theorem insertRunIntent_leases (db : Database) (access : ProjectAccess) (authority : LeaseAuthority)
    (nowAtMs : ℤ) (run : RunKey) (updatedAtMs : ℤ) :
    (insertRunIntentFenced storeId db access authority nowAtMs run updatedAtMs).1.leases =
      db.leases := by
  unfold insertRunIntentFenced
  rcases inScope_cases storeId access db _ with heq | heq
  · rw [heq]
  · rw [heq]
    split
    · rfl
    · split <;> rfl

theorem acquire_runIntents (db : Database) (leaseKey ownerToken : String) (atMs : ℤ) :
    (manager.acquire db leaseKey ownerToken atMs).1.runIntents = db.runIntents := by
  unfold LeaseManager.acquire tryAcquireLease
  rcases inScope_cases manager.storeId manager.access db _ with heq | heq
  · rw [heq]
  · rw [heq]
    split
    · rfl
    · split <;> rfl

theorem writeLeaseRow_runIntents (db : Database) (access : ProjectAccess) (leaseKey : String)
    (expectedGeneration : ℤ) (expectedOwner : Option String) (unexpiredAtMs : Option ℤ)
    (rewrite : LeaseRecord → LeaseRecord) :
    (writeLeaseRow storeId db access leaseKey expectedGeneration expectedOwner unexpiredAtMs
      rewrite).1.runIntents = db.runIntents := by
  rcases writeLeaseRow_cases storeId db access leaseKey expectedGeneration expectedOwner
    unexpiredAtMs rewrite with heq | ⟨held, -, -, -, -, heq⟩
  · rw [heq]
  · rw [heq]
    rfl

theorem release_runIntents (db : Database) (authority : LeaseAuthority) :
    (manager.release db authority).1.runIntents = db.runIntents := by
  unfold LeaseManager.release releaseLease
  rcases inScope_cases manager.storeId manager.access db _ with heq | heq
  · rw [heq]
  · rw [heq]
    split
    · rfl
    · split <;> rfl

theorem step_row (h : WellFormed w) (hstep : Step w w') (project : ProjectKey) (key : String) :
    RowChange w w' key (w.db.leases.lookup (project, key))
      (w'.db.leases.lookup (project, key)) := by
  cases hstep with
  | acquire manager leaseKey ownerToken atMs hfresh =>
    exact acquire_row h manager leaseKey ownerToken atMs hfresh project key
  | renew manager authority => exact renew_row h manager authority project key
  | takeOver manager leaseKey expectedGeneration ownerToken atMs hfresh =>
    exact takeOver_row manager leaseKey expectedGeneration ownerToken atMs hfresh project key
  | release manager authority => exact release_row manager authority project key
  | prune scope maxLeases maxRunIntents db' hprune => exact prune_row hprune project key
  | compareAndSet =>
    rw [compareAndSet_leases]
    exact .same _
  | insert =>
    rw [insertRunIntent_leases]
    exact .same _

theorem step_seen (hstep : Step w w') : ∀ token ∈ w.seen, token ∈ w'.seen := by
  intro token htoken
  cases hstep with
  | prune => exact htoken
  | _ => exact List.mem_cons_of_mem _ htoken

theorem step_clock (hstep : Step w w') : w.clock ≤ w'.clock := by
  cases hstep with
  | release | prune => exact le_rfl
  | _ => assumption

theorem WellFormed.step (h : WellFormed w) (hstep : Step w w') : WellFormed w' := by
  have hrow : ∀ project key record, w'.db.leases.lookup (project, key) = some record →
      record.leaseKey = key ∧ record.ownerToken ∈ w'.seen ∧ record.expiresAtMs ≤ i64Max := by
    intro project key record hrec
    have hchange := step_row h hstep project key
    rw [hrec] at hchange
    generalize hrow : w.db.leases.lookup (project, key) = row at hchange
    cases hchange with
    | same =>
      exact ⟨h.keyed _ _ _ hrow, step_seen hstep _ (h.known _ _ _ hrow), h.bounded _ _ _ hrow⟩
    | minted _ _ hfresh hseen hkey hbound => exact ⟨hkey, hseen, hbound⟩
    | renewed held expiresAtMs hlive hbound =>
      exact ⟨h.keyed _ _ held hrow, step_seen hstep _ (h.known _ _ held hrow), hbound⟩
  exact ⟨fun p k r hr => (hrow p k r hr).1, fun p k r hr => (hrow p k r hr).2.1,
    fun p k r hr => (hrow p k r hr).2.2⟩

theorem WellFormed.initial : WellFormed World.initial := by
  constructor
  all_goals
    intro project key record hrec
    cases hrec

theorem WellFormed.run (h : WellFormed w) (hrun : Run w w') : WellFormed w' := by
  induction hrun with
  | refl => exact h
  | tail _ hstep ih => exact ih.step hstep

theorem step_refused (h : WellFormed w) (hstep : Step w w') (hseen : authority.ownerToken ∈ w.seen)
    (href : ¬ Accepted w.db project authority w.clock) :
    ¬ Accepted w'.db project authority w'.clock := by
  rw [accepted_iff] at href ⊢
  rintro ⟨record, hrec, hgen, htoken, hlive⟩
  have hclock := step_clock hstep
  have hchange := step_row h hstep project authority.leaseKey
  rw [hrec] at hchange
  generalize hrow : w.db.leases.lookup (project, authority.leaseKey) = row at hchange href
  cases hchange with
  | same => exact href ⟨record, rfl, hgen, htoken, hclock.trans_lt hlive⟩
  | minted _ _ hfresh => exact hfresh (htoken ▸ hseen)
  | renewed held expiresAtMs hheld =>
    exact href ⟨held, rfl, hgen, htoken, hclock.trans_lt hheld⟩

theorem run_refused (h : WellFormed w) (hrun : Run w w') (hseen : authority.ownerToken ∈ w.seen)
    (href : ¬ Accepted w.db project authority w.clock) :
    ¬ Accepted w'.db project authority w'.clock := by
  suffices hboth : authority.ownerToken ∈ w'.seen ∧
      ¬ Accepted w'.db project authority w'.clock from hboth.2
  induction hrun with
  | refl => exact ⟨hseen, href⟩
  | @tail mid last hmid hstep ih =>
    exact ⟨step_seen hstep _ ih.1, step_refused (h.run hmid) hstep ih.1 ih.2⟩

theorem Accepted.mono {now' : ℤ} (h : Accepted db project authority now') (hnow : now ≤ now') :
    Accepted db project authority now := by
  rw [accepted_iff] at h ⊢
  obtain ⟨held, hheld, hgen, htoken, hlive⟩ := h
  exact ⟨held, hheld, hgen, htoken, hnow.trans_lt hlive⟩

theorem Accepted.unique {a b : LeaseAuthority} (ha : Accepted db project a now)
    (hb : Accepted db project b now) (hkey : a.leaseKey = b.leaseKey) : a = b := by
  obtain ⟨held, hheld, hgen, htoken, -⟩ := accepted_iff.mp ha
  obtain ⟨held', hheld', hgen', htoken', -⟩ := accepted_iff.mp hb
  rw [hkey, hheld'] at hheld
  obtain rfl := Option.some.inj hheld
  cases a
  cases b
  simp only at hkey hgen hgen' htoken htoken'
  rw [hkey, ← hgen, ← hgen', ← htoken, ← htoken']

theorem renew_accepted (h : WellFormed w) (manager : LeaseManager) (holder : LeaseAuthority)
    (hnow : atMs ≤ now)
    (hacc : Accepted (manager.renew w.db holder atMs).1 project authority now) :
    Accepted w.db project authority atMs := by
  obtain ⟨record, hrec, hgen, htoken, hlive⟩ := accepted_iff.mp hacc
  rw [accepted_iff]
  rcases renew_lookup h manager holder atMs project authority.leaseKey with
    heq | ⟨held, hheld, hterm, heq⟩
  · exact ⟨record, heq.symm.trans hrec, hgen, htoken, hnow.trans_lt hlive⟩
  · rw [heq] at hrec
    cases hrec
    exact ⟨held, hheld, hgen, htoken, hterm⟩

theorem accepted_renew (h : WellFormed w) (manager : LeaseManager) (holder : LeaseAuthority)
    (httl : 0 < manager.ttlMs) (hacc : Accepted w.db project authority atMs) :
    Accepted (manager.renew w.db holder atMs).1 project authority atMs := by
  obtain ⟨record, hrec, hgen, htoken, hlive⟩ := accepted_iff.mp hacc
  rw [accepted_iff]
  rcases renew_lookup h manager holder atMs project authority.leaseKey with
    heq | ⟨held, hheld, hterm, heq⟩
  · exact ⟨record, heq.trans hrec, hgen, htoken, hlive⟩
  · obtain rfl : held = record := Option.some.inj (hheld.symm.trans hrec)
    have hbound := h.bounded _ _ held hheld
    exact ⟨_, heq, hgen, htoken, lt_termEnds httl (by omega)⟩

variable {access : ProjectAccess}

theorem compareAndSet_refused {storeId : ℕ}
    (h : ¬ Accepted db access.project authority now) (run : RunKey) (expectedGeneration : ℤ)
    (nextState : IntentState) (updatedAtMs : ℤ) :
    (compareAndSetRunIntentFenced storeId db access authority now run expectedGeneration
      nextState updatedAtMs).1 = db := by
  unfold compareAndSetRunIntentFenced
  rcases inScope_cases storeId access db _ with heq | heq
  · exact heq
  · rw [heq]
    split
    · rfl
    · rename_i hacc
      exact absurd hacc h

theorem insertRunIntent_refused {storeId : ℕ}
    (h : ¬ Accepted db access.project authority now) (run : RunKey) (updatedAtMs : ℤ) :
    (insertRunIntentFenced storeId db access authority now run updatedAtMs).1 = db := by
  unfold insertRunIntentFenced
  rcases inScope_cases storeId access db _ with heq | heq
  · exact heq
  · rw [heq]
    split
    · rfl
    · rename_i hacc
      exact absurd hacc h

/-- At most one authority is accepted for a key, and a write without authority changes nothing. -/
structure Fencing (w : World) : Prop where
  unique : ∀ project a b now, a.leaseKey = b.leaseKey → Accepted w.db project a now →
    Accepted w.db project b now → a = b
  /-- A refusal of an authority that was issued or presented is final. -/
  final : ∀ project authority, authority.ownerToken ∈ w.seen →
    ¬ Accepted w.db project authority w.clock →
    ∀ w', Run w w' → ∀ now, w'.clock ≤ now → ¬ Accepted w'.db project authority now
  /-- A renewal gives nobody else authority, and with a positive time to live it takes none. -/
  renewal : ∀ (manager : LeaseManager) holder atMs, w.clock ≤ atMs → ∀ project authority,
    (∀ now, atMs ≤ now → Accepted (manager.renew w.db holder atMs).1 project authority now →
      Accepted w.db project authority atMs) ∧
    (0 < manager.ttlMs → Accepted w.db project authority atMs →
      Accepted (manager.renew w.db holder atMs).1 project authority atMs)
  fenced : ∀ storeId access authority atMs run, ¬ Accepted w.db access.project authority atMs →
    (∀ expectedGeneration nextState updatedAtMs, (compareAndSetRunIntentFenced storeId w.db
      access authority atMs run expectedGeneration nextState updatedAtMs).1 = w.db) ∧
    ∀ updatedAtMs, (insertRunIntentFenced storeId w.db access authority atMs run
      updatedAtMs).1 = w.db

/-- Whoever acquires, renews, takes over or crashes, in whatever order, leases fence. -/
theorem lease_fencing (w : World) (hrun : Run World.initial w) : Fencing w := by
  have hwf : WellFormed w := WellFormed.initial.run hrun
  constructor
  · intro project a b now hkey ha hb
    exact ha.unique hb hkey
  · intro project authority hseen hrefused w' hlater now hnow haccept
    exact run_refused hwf hlater hseen hrefused (haccept.mono hnow)
  · intro manager holder atMs _ project authority
    exact ⟨fun now hnow haccept => renew_accepted hwf manager holder hnow haccept,
      fun httl haccept => accepted_renew hwf manager holder httl haccept⟩
  · intro storeId access authority atMs run hrefused
    exact ⟨compareAndSet_refused hrefused run, insertRunIntent_refused hrefused run⟩

def engineOne : LeaseManager := ⟨0, ⟨0, "project"⟩, "engine-1", 10⟩

def acquiredWorld : World :=
  ⟨(engineOne.acquire .empty "merge" "token-1" 0).1, ["token-1"], 0⟩

def takenOverWorld : World :=
  ⟨(engineOne.takeOver acquiredWorld.db "merge" 1 "token-2" 20).1, ["token-2", "token-1"], 20⟩

theorem replaced_holder_stays_fenced :
    Run World.initial takenOverWorld ∧
    Accepted takenOverWorld.db "project" ⟨"merge", "token-2", 2⟩ 20 ∧
    ∀ w', Run takenOverWorld w' → ∀ now, w'.clock ≤ now →
      ¬ Accepted w'.db "project" ⟨"merge", "token-1", 1⟩ now := by
  have hacquire : Step World.initial acquiredWorld :=
    .acquire engineOne "merge" "token-1" 0 (by decide) (by decide)
  have htake : Step acquiredWorld takenOverWorld :=
    .takeOver engineOne "merge" 1 "token-2" 20 (by decide) (by decide)
  have hrun : Run World.initial takenOverWorld := .tail (.single hacquire) htake
  exact ⟨hrun, by decide,
    (lease_fencing takenOverWorld hrun).final "project" ⟨"merge", "token-1", 1⟩ (by decide)
      (by decide)⟩

end CoordinationStore
