import RefactEngine.LeaseFencing

/-! # The launch protocol and its reconcilers

A launch crosses four durable boundaries. A reconciler lists the intents of its project, owns
one run at a time by its lease, and starts a run only after its own claim has landed. The
reconcilers, the direct callers of the protocol and the lease traffic of other engines run at
the grain of single store calls, and a reconciler may crash between any two of them.
-/
namespace LaunchReconciliation

open WorkIdentity CoordinationStore

inductive Observation where
  | yes
  | no
  | unknown
  deriving DecidableEq

structure LaunchEvidence where
  runnerLive : Observation
  progressObserved : Observation

inductive InspectionReason where
  | unacknowledgedLaunch
  | noAuthorizedResumePolicy
  | contradictoryRecord
  deriving DecidableEq

inductive Resolution where
  | startFresh
  | leaveRunning
  | recoverInterrupted
  | settle
  | needsInspection (reason : InspectionReason)
  deriving DecidableEq

def classify (state : IntentState) (evidence : LaunchEvidence) : Resolution :=
  match state with
  | .persisted =>
    if evidence.runnerLive = .yes ∨ evidence.progressObserved = .yes then
      .needsInspection .contradictoryRecord
    else .startFresh
  | .dispatched =>
    if evidence.runnerLive = .yes then .leaveRunning
    else if evidence.progressObserved = .yes then .recoverInterrupted
    else .needsInspection .unacknowledgedLaunch
  | .acknowledged => if evidence.runnerLive = .yes then .leaveRunning else .recoverInterrupted
  | .terminal => .settle

def boundaryOrdinal : IntentState → ℕ
  | .persisted => 0
  | .dispatched => 1
  | .acknowledged => 2
  | .terminal => 3

inductive ProtocolError where
  | outOfOrder (fromState toState : IntentState)
  | lease (error : StoreError)
  deriving DecidableEq

structure LaunchProtocol where
  storeId : ℕ
  access : ProjectAccess

def liftLease {α : Type} : Except StoreError α → Except ProtocolError α
  | .ok a => .ok a
  | .error err => .error (.lease err)

def LaunchProtocol.persistIntent (protocol : LaunchProtocol) (db : Database)
    (holder : LeaseAuthority) (run : RunKey) (atMs : ℤ) :
    Database × Except ProtocolError RunIntentRecord :=
  let out := insertRunIntentFenced protocol.storeId db protocol.access holder atMs run atMs
  (out.1, liftLease out.2)

def LaunchProtocol.advance (protocol : LaunchProtocol) (db : Database) (holder : LeaseAuthority)
    (current : RunIntentRecord) (toState : IntentState) (atMs : ℤ) :
    Database × Except ProtocolError RunIntentRecord :=
  if boundaryOrdinal toState ≤ boundaryOrdinal current.state then
    (db, .error (.outOfOrder current.state toState))
  else
    let out := compareAndSetRunIntentFenced protocol.storeId db protocol.access holder atMs
      current.run current.generation toState atMs
    (out.1, liftLease out.2)

def runLeaseKey (run : RunKey) : String := "run:" ++ runLabel run

structure Reconciler where
  leases : LeaseManager
  protocol : LaunchProtocol
  retentionMs : ℤ
  allowStartFresh : Bool
  maxRunIntents : ℕ

inductive Phase where
  | idle
  -- the next record is to be owned, or the pass ends with retention
  | pass (atMs : ℤ) (todo : List RunIntentRecord)
  | contested (atMs : ℤ) (record : RunIntentRecord) (todo : List RunIntentRecord)
  | takingOver (atMs : ℤ) (record : RunIntentRecord) (generation : ℤ)
      (todo : List RunIntentRecord)
  | owned (atMs : ℤ) (holder : LeaseAuthority) (record : RunIntentRecord)
      (todo : List RunIntentRecord)
  -- the claim has landed and the start action is about to be invoked
  | claimed (atMs : ℤ) (holder : LeaseAuthority) (record : RunIntentRecord)
      (todo : List RunIntentRecord)
  | releasing (atMs : ℤ) (holder : LeaseAuthority) (todo : List RunIntentRecord)

abbrev IntentKey := ProjectKey × RunKey

inductive Event where
  | inserted (key : IntentKey)
  | returned (record : RunIntentRecord)
  | claimed (reconciler : ℕ) (key : IntentKey)
  | started (reconciler : ℕ) (key : IntentKey)
  deriving DecidableEq

structure World where
  db : Database
  phase : ℕ → Phase
  log : List Event

def World.initial : World := ⟨.empty, fun _ => .idle, []⟩

def World.moved (w : World) (db : Database) (i : ℕ) (phase : Phase) : World :=
  ⟨db, Function.update w.phase i phase, w.log⟩

inductive LeaseCall (db : Database) : Database → Prop where
  | acquire (manager : LeaseManager) (leaseKey ownerToken : String) (atMs : ℤ) :
      LeaseCall db (manager.acquire db leaseKey ownerToken atMs).1
  | renew (manager : LeaseManager) (authority : LeaseAuthority) (atMs : ℤ) :
      LeaseCall db (manager.renew db authority atMs).1
  | takeOver (manager : LeaseManager) (leaseKey : String) (generation : ℤ) (ownerToken : String)
      (atMs : ℤ) : LeaseCall db (manager.takeOver db leaseKey generation ownerToken atMs).1
  | release (manager : LeaseManager) (authority : LeaseAuthority) :
      LeaseCall db (manager.release db authority).1

inductive Action where
  | advance (project : ProjectKey) (record : RunIntentRecord)
  | persist (key : IntentKey)
  | claim (reconciler : ℕ) (key : IntentKey)
  | start (reconciler : ℕ) (key : IntentKey)
  | other

/-- One store call, one start or one crash. Owner tokens and evidence are arbitrary. -/
inductive Step (setup : ℕ → Reconciler) : World → Action → World → Prop where
  | list {w : World} (i : ℕ) (atMs : ℤ) (db' : Database) (records : List RunIntentRecord) :
      w.phase i = .idle →
      listRunIntents (setup i).protocol.storeId w.db (setup i).protocol.access
        (setup i).maxRunIntents = (db', .ok records) →
      Step setup w .other ⟨db', Function.update w.phase i (.pass atMs records),
        records.map .returned ++ w.log⟩
  | own {w : World} (i : ℕ) (atMs : ℤ) (record : RunIntentRecord) (todo : List RunIntentRecord)
      (ownerToken : String) (db' : Database) (lease : LeaseRecord) :
      w.phase i = .pass atMs (record :: todo) →
      (setup i).leases.acquire w.db (runLeaseKey record.run) ownerToken atMs =
        (db', .ok (.acquired lease)) →
      Step setup w .other (w.moved db' i (.owned atMs lease.authority record todo))
  | contest {w : World} (i : ℕ) (atMs : ℤ) (record : RunIntentRecord)
      (todo : List RunIntentRecord) (ownerToken : String) (db' : Database) (held : LeaseRecord) :
      w.phase i = .pass atMs (record :: todo) →
      (setup i).leases.acquire w.db (runLeaseKey record.run) ownerToken atMs =
        (db', .ok (.held held)) →
      Step setup w .other (w.moved db' i (.contested atMs record todo))
  | unavailable {w : World} (i : ℕ) (atMs : ℤ) (record : RunIntentRecord)
      (todo : List RunIntentRecord) (ownerToken : String) (db' : Database) (err : StoreError) :
      w.phase i = .pass atMs (record :: todo) →
      (setup i).leases.acquire w.db (runLeaseKey record.run) ownerToken atMs =
        (db', .error err) →
      Step setup w .other (w.moved db' i (.pass atMs todo))
  -- presence allows the takeover of the holder that was read
  | inspect {w : World} (i : ℕ) (atMs : ℤ) (record : RunIntentRecord)
      (todo : List RunIntentRecord) (db' : Database) (held : LeaseRecord) :
      w.phase i = .contested atMs record todo →
      getLease (setup i).leases.storeId w.db (setup i).leases.access (runLeaseKey record.run) =
        (db', .ok (some held)) →
      Step setup w .other
        (w.moved db' i (.takingOver atMs record held.fencingGeneration todo))
  -- the holder is gone, alive or unclassifiable
  | leave {w : World} (i : ℕ) (atMs : ℤ) (record : RunIntentRecord)
      (todo : List RunIntentRecord) : w.phase i = .contested atMs record todo →
      Step setup w .other (w.moved w.db i (.pass atMs todo))
  | takeOver {w : World} (i : ℕ) (atMs : ℤ) (record : RunIntentRecord) (generation : ℤ)
      (todo : List RunIntentRecord) (ownerToken : String) (db' : Database) (lease : LeaseRecord) :
      w.phase i = .takingOver atMs record generation todo →
      (setup i).leases.takeOver w.db (runLeaseKey record.run) generation ownerToken atMs =
        (db', .ok lease) →
      Step setup w .other (w.moved db' i (.owned atMs lease.authority record todo))
  | takeOverLost {w : World} (i : ℕ) (atMs : ℤ) (record : RunIntentRecord) (generation : ℤ)
      (todo : List RunIntentRecord) (ownerToken : String) (db' : Database) (err : StoreError) :
      w.phase i = .takingOver atMs record generation todo →
      (setup i).leases.takeOver w.db (runLeaseKey record.run) generation ownerToken atMs =
        (db', .error err) →
      Step setup w .other (w.moved db' i (.pass atMs todo))
  | surface {w : World} (i : ℕ) (atMs : ℤ) (holder : LeaseAuthority) (record : RunIntentRecord)
      (todo : List RunIntentRecord) (evidence : LaunchEvidence) :
      w.phase i = .owned atMs holder record todo →
      (classify record.state evidence ≠ .startFresh ∨ (setup i).allowStartFresh = false) →
      Step setup w .other (w.moved w.db i (.releasing atMs holder todo))
  | claim {w : World} (i : ℕ) (atMs : ℤ) (holder : LeaseAuthority) (record : RunIntentRecord)
      (todo : List RunIntentRecord) (evidence : LaunchEvidence) (db' : Database)
      (next : RunIntentRecord) : w.phase i = .owned atMs holder record todo →
      classify record.state evidence = .startFresh → (setup i).allowStartFresh = true →
      (setup i).protocol.advance w.db holder record .dispatched atMs = (db', .ok next) →
      Step setup w (.claim i ((setup i).protocol.access.project, record.run))
        ⟨db', Function.update w.phase i (.claimed atMs holder record todo),
          .claimed i ((setup i).protocol.access.project, record.run) :: .returned next :: w.log⟩
  | claimLost {w : World} (i : ℕ) (atMs : ℤ) (holder : LeaseAuthority)
      (record : RunIntentRecord) (todo : List RunIntentRecord) (evidence : LaunchEvidence)
      (db' : Database) (err : ProtocolError) : w.phase i = .owned atMs holder record todo →
      classify record.state evidence = .startFresh → (setup i).allowStartFresh = true →
      (setup i).protocol.advance w.db holder record .dispatched atMs = (db', .error err) →
      Step setup w .other (w.moved db' i (.releasing atMs holder todo))
  | start {w : World} (i : ℕ) (atMs : ℤ) (holder : LeaseAuthority) (record : RunIntentRecord)
      (todo : List RunIntentRecord) : w.phase i = .claimed atMs holder record todo →
      Step setup w (.start i ((setup i).protocol.access.project, record.run))
        ⟨w.db, Function.update w.phase i (.releasing atMs holder todo),
          .started i ((setup i).protocol.access.project, record.run) :: w.log⟩
  | release {w : World} (i : ℕ) (atMs : ℤ) (holder : LeaseAuthority)
      (todo : List RunIntentRecord) : w.phase i = .releasing atMs holder todo →
      Step setup w .other
        (w.moved ((setup i).leases.release w.db holder).1 i (.pass atMs todo))
  | retain {w : World} (i : ℕ) (atMs : ℤ) : w.phase i = .pass atMs [] →
      Step setup w .other (w.moved (pruneSettledRunIntents (setup i).protocol.storeId w.db
        (setup i).protocol.access (saturatingAdd atMs (-(setup i).retentionMs))).1 i .idle)
  | crash {w : World} (i : ℕ) : Step setup w .other (w.moved w.db i .idle)
  | persist {w : World} (protocol : LaunchProtocol) (holder : LeaseAuthority) (run : RunKey)
      (atMs : ℤ) (db' : Database) (record : RunIntentRecord) :
      protocol.persistIntent w.db holder run atMs = (db', .ok record) →
      Step setup w (.persist (protocol.access.project, run)) ⟨db', w.phase, .returned record ::
        ((if w.db.runIntents.lookup (protocol.access.project, run) = none then
          [.inserted (protocol.access.project, run)] else []) ++ w.log)⟩
  | persistFailed {w : World} (protocol : LaunchProtocol) (holder : LeaseAuthority) (run : RunKey)
      (atMs : ℤ) (db' : Database) (err : ProtocolError) :
      protocol.persistIntent w.db holder run atMs = (db', .error err) →
      Step setup w .other ⟨db', w.phase, w.log⟩
  -- a caller passes back a record that the store returned to it
  | advance {w : World} (protocol : LaunchProtocol) (holder : LeaseAuthority)
      (record : RunIntentRecord) (toState : IntentState) (atMs : ℤ) (db' : Database)
      (next : RunIntentRecord) : .returned record ∈ w.log →
      record.project = protocol.access.project →
      protocol.advance w.db holder record toState atMs = (db', .ok next) →
      Step setup w (.advance protocol.access.project record)
        ⟨db', w.phase, .returned next :: w.log⟩
  | advanceFailed {w : World} (protocol : LaunchProtocol) (holder : LeaseAuthority)
      (record : RunIntentRecord) (toState : IntentState) (atMs : ℤ) (db' : Database)
      (err : ProtocolError) : protocol.advance w.db holder record toState atMs = (db', .error err) →
      Step setup w .other ⟨db', w.phase, w.log⟩
  | read {w : World} (storeId : ℕ) (access : ProjectAccess) (run : RunKey) (db' : Database)
      (record : RunIntentRecord) : getRunIntent storeId w.db access run = (db', .ok (some record)) →
      Step setup w .other ⟨db', w.phase, .returned record :: w.log⟩
  | lease {w : World} (db' : Database) : LeaseCall w.db db' →
      Step setup w .other ⟨db', w.phase, w.log⟩
  | prune {w : World} (project : ProjectKey) (maxLeases maxRunIntents : ℕ) (db' : Database) :
      Prunes project maxLeases maxRunIntents w.db db' →
      Step setup w .other ⟨db', w.phase, w.log⟩

end LaunchReconciliation
