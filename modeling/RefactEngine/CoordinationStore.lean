import RefactEngine.FiniteMap
import RefactEngine.WorkIdentity
import Mathlib.Algebra.Order.Ring.Nat

/-! # The coordination store: leases and run intents

Every call is one transaction on a database that several engines share. A lease row names the
owner token that holds it and a fencing generation. A write that is fenced by a lease checks
the row in its own transaction. Times and generations are signed 64-bit integers in the
database; a counter here does not wrap after `2 ^ 63` steps.
-/
namespace CoordinationStore

open WorkIdentity

structure LeaseRecord where
  project : ProjectKey
  leaseKey : String
  holderInstance : String
  ownerToken : String
  fencingGeneration : ℤ
  acquiredAtMs : ℤ
  expiresAtMs : ℤ
  deriving DecidableEq

def LeaseRecord.isExpired (record : LeaseRecord) (atMs : ℤ) : Bool := record.expiresAtMs ≤ atMs

/-- What a writer presents to prove that it still owns the work it is writing about. -/
structure LeaseAuthority where
  leaseKey : String
  ownerToken : String
  fencingGeneration : ℤ

def LeaseRecord.authority (record : LeaseRecord) : LeaseAuthority :=
  ⟨record.leaseKey, record.ownerToken, record.fencingGeneration⟩

inductive LeaseAcquisition where
  | acquired (record : LeaseRecord)
  | held (record : LeaseRecord)
  deriving DecidableEq

inductive IntentState where
  | persisted
  | dispatched
  | acknowledged
  | terminal
  deriving DecidableEq

structure RunIntentRecord where
  project : ProjectKey
  run : RunKey
  generation : ℤ
  state : IntentState
  updatedAtMs : ℤ
  deriving DecidableEq

inductive StoreError where
  | foreignAccessToken
  | notFound (kind id : String)
  | generationConflict (expected found : ℤ)
  | leaseNotHeld (leaseKey : String)
  | leaseExpired (leaseKey : String) (expiresAtMs nowMs : ℤ)
  | leaseFenced (leaseKey : String) (presented held : ℤ)
  deriving DecidableEq

structure Database where
  leases : AList fun _ : ProjectKey × String => LeaseRecord
  runIntents : AList fun _ : ProjectKey × RunKey => RunIntentRecord

def Database.empty : Database := ⟨∅, ∅⟩

structure ProjectAccess where
  storeId : ℕ
  project : ProjectKey
  deriving DecidableEq

abbrev Outcome (α : Type) := Database × Except StoreError α

variable (storeId : ℕ)

def scope (access : ProjectAccess) : Except StoreError ProjectKey :=
  if access.storeId ≠ storeId then .error .foreignAccessToken else .ok access.project

def inScope {α : Type} (storeId : ℕ) (access : ProjectAccess) (db : Database)
    (call : ProjectKey → Outcome α) : Outcome α :=
  match scope storeId access with
  | .error err => (db, .error err)
  | .ok project => call project

variable (db : Database) (project : ProjectKey)

def Database.putLease (record : LeaseRecord) : Database :=
  { db with leases := db.leases.insert (project, record.leaseKey) record }

def tryAcquireLease (access : ProjectAccess)
    (leaseKey holderInstance ownerToken : String) (nowAtMs expiresAtMs : ℤ) :
    Outcome LeaseAcquisition :=
  inScope storeId access db fun project =>
    let candidate : LeaseRecord :=
      { project := project
        leaseKey := leaseKey
        holderInstance := holderInstance
        ownerToken := ownerToken
        fencingGeneration := 1
        acquiredAtMs := nowAtMs
        expiresAtMs := expiresAtMs }
    match db.leases.lookup (project, leaseKey) with
    | none => (db.putLease project candidate, .ok (.acquired candidate))
    | some held =>
      if held.ownerToken ≠ ownerToken then (db, .ok (.held held))
      else
        -- the same owner starts a new term of authority after expiry
        let acquired := { candidate with
          fencingGeneration := held.fencingGeneration + if held.isExpired nowAtMs then 1 else 0
          acquiredAtMs := if held.isExpired nowAtMs then nowAtMs else held.acquiredAtMs }
        (db.putLease project acquired, .ok (.acquired acquired))

inductive LeaseWrite where
  | wrote (record : LeaseRecord)
  | notHeld
  | expired (expiresAtMs : ℤ)
  | fenced (generation : ℤ)

def checkLeaseRow (held : Option LeaseRecord) (expectedGeneration : ℤ)
    (expectedOwner : Option String) (unexpiredAtMs : Option ℤ)
    (rewrite : LeaseRecord → LeaseRecord) : LeaseWrite :=
  match held with
  | none => .notHeld
  | some held =>
    if held.fencingGeneration ≠ expectedGeneration then .fenced held.fencingGeneration
    else if expectedOwner.any fun expected => held.ownerToken ≠ expected then .notHeld
    else if unexpiredAtMs.any fun atMs => held.isExpired atMs then .expired held.expiresAtMs
    else .wrote (rewrite held)

def writeLeaseRow (access : ProjectAccess) (leaseKey : String)
    (expectedGeneration : ℤ) (expectedOwner : Option String) (unexpiredAtMs : Option ℤ)
    (rewrite : LeaseRecord → LeaseRecord) : Outcome LeaseRecord :=
  inScope storeId access db fun project =>
    match checkLeaseRow (db.leases.lookup (project, leaseKey)) expectedGeneration expectedOwner
      unexpiredAtMs rewrite with
    | .wrote written => (db.putLease project written, .ok written)
    | .notHeld => (db, .error (.leaseNotHeld leaseKey))
    | .expired expiresAtMs =>
      (db, .error (.leaseExpired leaseKey expiresAtMs (unexpiredAtMs.getD 0)))
    | .fenced held => (db, .error (.leaseFenced leaseKey expectedGeneration held))

def renewLease (access : ProjectAccess)
    (authority : LeaseAuthority) (nowAtMs expiresAtMs : ℤ) : Outcome LeaseRecord :=
  writeLeaseRow storeId db access authority.leaseKey authority.fencingGeneration
    (some authority.ownerToken) (some nowAtMs) fun held =>
      { held with expiresAtMs := expiresAtMs }

def takeOverLease (access : ProjectAccess) (leaseKey : String)
    (expectedGeneration : ℤ) (holderInstance ownerToken : String) (nowAtMs expiresAtMs : ℤ) :
    Outcome LeaseRecord :=
  writeLeaseRow storeId db access leaseKey expectedGeneration none none fun held =>
    { held with
      holderInstance := holderInstance
      ownerToken := ownerToken
      fencingGeneration := held.fencingGeneration + 1
      acquiredAtMs := nowAtMs
      expiresAtMs := expiresAtMs }

def releaseLease (access : ProjectAccess)
    (authority : LeaseAuthority) : Outcome Bool :=
  inScope storeId access db fun project =>
    match db.leases.lookup (project, authority.leaseKey) with
    | none => (db, .ok false)
    | some held =>
      if held.ownerToken = authority.ownerToken ∧
          held.fencingGeneration = authority.fencingGeneration then
        ({ db with leases := db.leases.erase (project, authority.leaseKey) }, .ok true)
      else (db, .ok false)

def getLease (access : ProjectAccess) (leaseKey : String) :
    Outcome (Option LeaseRecord) :=
  inScope storeId access db fun project => (db, .ok (db.leases.lookup (project, leaseKey)))

inductive LeaseRefusal where
  | notHeld
  | expired (expiresAtMs : ℤ)
  | fenced (generation : ℤ)

def leaseRefusal (authority : LeaseAuthority)
    (nowAtMs : ℤ) : Option LeaseRefusal :=
  match db.leases.lookup (project, authority.leaseKey) with
  | none => some .notHeld
  | some held =>
    if held.fencingGeneration ≠ authority.fencingGeneration then
      some (.fenced held.fencingGeneration)
    else if held.ownerToken ≠ authority.ownerToken then some .notHeld
    else if held.expiresAtMs ≤ nowAtMs then some (.expired held.expiresAtMs)
    else none

def leaseRefused (refusal : LeaseRefusal) (leaseKey : String) (presented nowMs : ℤ) :
    StoreError :=
  match refusal with
  | .notHeld => .leaseNotHeld leaseKey
  | .expired expiresAtMs => .leaseExpired leaseKey expiresAtMs nowMs
  | .fenced held => .leaseFenced leaseKey presented held

def runtimeName : RuntimeKind → String
  | .trajectory => "trajectory"
  | .backgroundAgent => "background_agent"

def runLabel (run : RunKey) : String :=
  runtimeName run.work.runtime ++ ":" ++ run.work.id ++ "#" ++ toString run.attempt

def getRunIntent (access : ProjectAccess) (run : RunKey) :
    Outcome (Option RunIntentRecord) :=
  inScope storeId access db fun project => (db, .ok (db.runIntents.lookup (project, run)))

def intentOrder (record : RunIntentRecord) : ℤ ×ₗ String ×ₗ ℕ :=
  toLex (-record.updatedAtMs, toLex (record.run.work.id, record.run.attempt))

def listRunIntents (access : ProjectAccess) (limit : ℕ) :
    Outcome (List RunIntentRecord) :=
  inScope storeId access db fun project =>
    let rows := (db.runIntents.entries.filter fun row => row.1.1 = project).map Sigma.snd
    (db, .ok ((rows.insertionSort fun a b => intentOrder a ≤ intentOrder b).take limit))

inductive CasOutcome where
  | updated (record : RunIntentRecord)
  | missing
  | conflict (generation : ℤ)

def casRunIntent (run : RunKey)
    (expectedGeneration : ℤ) (nextState : IntentState) (updatedAtMs : ℤ) :
    Database × CasOutcome :=
  match db.runIntents.lookup (project, run) with
  | none => (db, .missing)
  | some current =>
    if current.generation ≠ expectedGeneration then (db, .conflict current.generation)
    else
      let next : RunIntentRecord :=
        { project := project
          run := run
          generation := current.generation + 1
          state := nextState
          updatedAtMs := updatedAtMs }
      ({ db with runIntents := db.runIntents.insert (project, run) next }, .updated next)

def casResult (outcome : CasOutcome) (label : String) (expectedGeneration : ℤ) :
    Except StoreError RunIntentRecord :=
  match outcome with
  | .updated record => .ok record
  | .missing => .error (.notFound "run intent" label)
  | .conflict found => .error (.generationConflict expectedGeneration found)

def compareAndSetRunIntentFenced (access : ProjectAccess)
    (authority : LeaseAuthority) (nowAtMs : ℤ) (run : RunKey) (expectedGeneration : ℤ)
    (nextState : IntentState) (updatedAtMs : ℤ) : Outcome RunIntentRecord :=
  inScope storeId access db fun project =>
    match leaseRefusal db project authority nowAtMs with
    | some refusal => (db, .error (leaseRefused refusal authority.leaseKey
        authority.fencingGeneration nowAtMs))
    | none =>
      let cas := casRunIntent db project run expectedGeneration nextState updatedAtMs
      (cas.1, casResult cas.2 (runLabel run) expectedGeneration)

def insertRunIntentFenced (access : ProjectAccess)
    (authority : LeaseAuthority) (nowAtMs : ℤ) (run : RunKey) (updatedAtMs : ℤ) :
    Outcome RunIntentRecord :=
  inScope storeId access db fun project =>
    match leaseRefusal db project authority nowAtMs with
    | some refusal => (db, .error (leaseRefused refusal authority.leaseKey
        authority.fencingGeneration nowAtMs))
    | none =>
      match db.runIntents.lookup (project, run) with
      | some held => (db, .ok held)
      | none =>
        let record : RunIntentRecord :=
          { project := project
            run := run
            generation := 0
            state := .persisted
            updatedAtMs := updatedAtMs }
        ({ db with runIntents := db.runIntents.insert (project, run) record }, .ok record)

def pruneSettledRunIntents (access : ProjectAccess)
    (settledBeforeMs : ℤ) : Outcome ℕ :=
  inScope storeId access db fun project =>
    let settled := (db.runIntents.entries.filter fun row => row.1.1 = project ∧
      row.2.state = .terminal ∧ row.2.updatedAtMs < settledBeforeMs).map Sigma.fst
    ({ db with runIntents := db.runIntents.eraseAll settled }, .ok settled.length)

/-- All but the first `limit` rows of the project go, the largest order column first. Rows
with equal columns may come in any order. -/
def PrunesTable {K Row : Type} [DecidableEq K] (order : Row → ℤ) (project : ProjectKey)
    (limit : ℕ) (table table' : AList fun _ : ProjectKey × K => Row) : Prop :=
  ∃ rows : List (Σ _ : ProjectKey × K, Row),
    rows.Perm (table.entries.filter fun row => row.1.1 = project) ∧
    rows.Pairwise (fun a b => order b.2 ≤ order a.2) ∧
    table' = table.eraseAll ((rows.drop limit).map Sigma.fst)

structure Prunes (project : ProjectKey) (maxLeases maxRunIntents : ℕ) (db db' : Database) :
    Prop where
  leases : PrunesTable LeaseRecord.expiresAtMs project maxLeases db.leases db'.leases
  runIntents : PrunesTable RunIntentRecord.updatedAtMs project maxRunIntents db.runIntents
    db'.runIntents

end CoordinationStore
