import RefactEngine.EvidenceKeys
import RefactEngine.FiniteMap
import RefactEngine.Utf8Prefix

/-! # Replaying verification evidence

A bounded store of executed records under their keys. An execution asks it first, and stores what it
ran; other executions come between the two.
-/
namespace EvidenceCache

inductive EvidenceVerdict where
  | notRun
  | passed
  | failed
  | blocked
  | unavailable
  | superseded
  deriving DecidableEq

inductive VerificationOutcome where
  | unknown
  | passed
  | commandFailed
  | rejected
  | policyDenied
  | infrastructureFailed
  | noCommands
  deriving DecidableEq

def verdictIsCacheable (verdict : EvidenceVerdict) : Bool :=
  verdict = .passed || verdict = .failed

structure SpecRejection where
  verdict : EvidenceVerdict
  outcome : VerificationOutcome
  reason : Text
  deriving DecidableEq

structure EvidenceRecord where
  specId : Text
  specRevision : ℕ
  criterionIds : List Text
  required : Bool
  verdict : EvidenceVerdict
  outcome : VerificationOutcome
  command : Text
  argv : List Text
  outputTail : Text
  startedAt : Text
  finishedAt : Text
  acceptedBy : Option Text
  reason : Option Text
  fromCache : Bool
  replayedAt : Option Text
  deriving DecidableEq

namespace EvidenceRecord

def isStorable (record : EvidenceRecord) : Bool := verdictIsCacheable record.verdict

def sizeBytes (record : EvidenceRecord) : ℕ :=
  Utf8Prefix.byteLength record.command + Utf8Prefix.byteLength record.outputTail +
    Utf8Prefix.byteLength record.specId + (record.reason.map Utf8Prefix.byteLength).getD 0

def markReplayed (rfc3339 : ℤ → Text) (nowMs : ℤ) (record : EvidenceRecord) : EvidenceRecord :=
  { record with fromCache := true, replayedAt := some (rfc3339 nowMs) }

end EvidenceRecord

def unexecutedRecord (spec : VerificationSpec) (rejection : SpecRejection) (now : Text) :
    EvidenceRecord where
  specId := spec.specId
  specRevision := spec.revision
  criterionIds := spec.criterionIds
  required := spec.required
  verdict := rejection.verdict
  outcome := rejection.outcome
  command := spec.command
  argv := []
  outputTail := rejection.reason
  startedAt := now
  finishedAt := now
  acceptedBy := spec.accepted.map (·.acceptedBy)
  reason := some rejection.reason
  fromCache := false
  replayedAt := none

structure ParsedVerification where
  cwd : Option Text
  env : List (Text × Text)
  argv : List Text
  deriving DecidableEq

/-- What is left to others: hashing, matching of rules, parsing of commands with the checks of an
agent's proposal, and the text of a time. -/
structure Platform where
  sha256 : List UInt8 → Text
  ruleMatches : Text → Text → Bool
  parseVerificationArgv : Text → Except Text ParsedVerification
  unparseableProposalProseReason : Text → Option Text
  validateProposal : List Text → Except Text Unit
  rfc3339 : ℤ → Text

def evidencePolicyAuthority : Text := lit "chat.evidence.policy"

def SpecAuthority.label : SpecAuthority → Text
  | .cardInstructions => lit "card_instructions"
  | .agentProposal agent => lit "agent_proposal:" ++ agent
  | .operator name => lit "operator:" ++ name

def accept (p : Platform) (policy : VerifyCommandPolicy) (spec : VerificationSpec) (now : Text) :
    Except SpecRejection VerificationSpec := do
  let untrusted := spec.proposedBy.isUntrustedProposal
  let parsed ← (p.parseVerificationArgv spec.command).mapError fun reason =>
    let prose := if untrusted then p.unparseableProposalProseReason spec.command else none
    ⟨.blocked, .rejected, prose.getD (lit "Cannot run as a command: " ++ reason)⟩
  if untrusted then
    (p.validateProposal parsed.argv).mapError fun reason => ⟨.blocked, .rejected, reason⟩
  (policy.check p.ruleMatches spec.command).mapError fun reason =>
    ⟨.blocked, .policyDenied, lit "Denied by shell policy: " ++ reason⟩
  let envAllowlist ←
    if spec.envAllowlist.isEmpty then pure (parsed.env.map (·.1))
    else
      match (parsed.env.map (·.1)).find? fun name => !spec.envAllowlist.contains name with
      | some name => .error ⟨.blocked, .policyDenied, lit "Environment variable '" ++ name ++
          lit "' is outside the spec allowlist"⟩
      | none => pure spec.envAllowlist
  return { spec with
    envAllowlist := envAllowlist
    cwd := parsed.cwd
    env := parsed.env
    argv := parsed.argv
    accepted := some ⟨evidencePolicyAuthority, now, spec.proposedBy⟩ }

structure Execution where
  verdict : EvidenceVerdict
  outcome : VerificationOutcome
  command : Text
  outputTail : Text
  startedAt : Text
  finishedAt : Text
  reason : Option Text
  deriving DecidableEq

def execute (spec : VerificationSpec) (execution : Execution) : EvidenceRecord :=
  if spec.isAccepted then
    { specId := spec.specId
      specRevision := spec.revision
      criterionIds := spec.criterionIds
      required := spec.required
      verdict := execution.verdict
      outcome := execution.outcome
      command := execution.command
      argv := spec.argv
      outputTail := execution.outputTail
      startedAt := execution.startedAt
      finishedAt := execution.finishedAt
      acceptedBy := spec.accepted.map (·.acceptedBy)
      reason := execution.reason
      fromCache := false
      replayedAt := none }
  else
    unexecutedRecord spec ⟨.blocked, .rejected, lit "Spec proposed by " ++ spec.proposedBy.label ++
      lit " has not been accepted under policy"⟩ execution.startedAt

structure EvidenceCacheLimits where
  maxEntries : ℕ
  maxBytes : ℕ
  ttlSecs : ℕ
  deriving DecidableEq

def toI64 (n : ℕ) : ℤ := if n < 2 ^ 63 then n else n - 2 ^ 64

def saturatingSub (a b : ℤ) : ℤ := max (-2 ^ 63) (min (2 ^ 63 - 1) (a - b))

end EvidenceCache

namespace ReuseStores

open EvidenceCache (EvidenceCacheLimits EvidenceRecord toI64 saturatingSub)

abbrev Text := List Char

structure Reusable (α : Type*) where
  isReplay : α → Bool
  markReplayed : ℤ → α → α
  isStorable : α → Bool
  sizeBytes : α → ℕ

structure CacheEntry (α : Type*) where
  value : α
  storedAtMs : ℤ
  usedSeq : ℕ
  bytes : ℕ
  deriving DecidableEq

structure ReuseStore (α : Type*) where
  entries : AList fun _ : Text => CacheEntry α
  limits : EvidenceCacheLimits
  seq : ℕ
  bytes : ℕ

def usizeMax : ℕ := 2 ^ 64 - 1

def saturatingAdd (a b : ℕ) : ℕ := min (a + b) usizeMax

variable {α : Type*}

namespace ReuseStore

def new (limits : EvidenceCacheLimits) : ReuseStore α := ⟨∅, limits, 0, 0⟩

def remove (store : ReuseStore α) (key : Text) : ReuseStore α :=
  match store.entries.lookup key with
  | none => store
  | some entry =>
    { store with entries := store.entries.erase key, bytes := store.bytes - entry.bytes }

def removeAll (store : ReuseStore α) (keys : List Text) : ReuseStore α := keys.foldl remove store

def ttlMs (store : ReuseStore α) : ℤ := toI64 (min (store.limits.ttlSecs * 1000) (2 ^ 64 - 1))

def expire (store : ReuseStore α) (nowMs : ℤ) : ReuseStore α :=
  if store.limits.ttlSecs = 0 then store
  else
    store.removeAll ((store.entries.entries.filter fun entry =>
      decide (store.ttlMs ≤ saturatingSub nowMs entry.2.storedAtMs)).map (·.1))

def oldest : List (Σ _ : Text, CacheEntry α) → Option Text
  | [] => none
  | entry :: rest =>
    some (rest.foldl (fun first other => if other.2.usedSeq < first.2.usedSeq then other else first)
      entry).1

def overLimits (store : ReuseStore α) : Bool :=
  decide (store.limits.maxEntries < store.entries.entries.length) ||
    decide (store.limits.maxBytes < store.bytes)

def evict : ℕ → ReuseStore α → ReuseStore α
  | 0, store => store
  | rounds + 1, store =>
    if store.overLimits then
      match oldest store.entries.entries with
      | none => store
      | some victim => evict rounds (store.remove victim)
    else store

def enforceBounds (store : ReuseStore α) : ReuseStore α :=
  evict store.entries.entries.length store

def setLimits (store : ReuseStore α) (limits : EvidenceCacheLimits) : ReuseStore α :=
  enforceBounds { store with limits := limits }

variable (r : Reusable α)

def lookup (store : ReuseStore α) (key : Text) (nowMs : ℤ) : ReuseStore α × Option α :=
  let store := store.expire nowMs
  let seq := store.seq + 1
  match store.entries.lookup key with
  | none => ({ store with seq := seq }, none)
  | some entry =>
    ({ store with entries := store.entries.insert key { entry with usedSeq := seq }, seq := seq },
      some (r.markReplayed nowMs entry.value))

/-- The value in the place of the one that had its key, before the bounds are enforced. -/
def inserted (store : ReuseStore α) (key : Text) (value : α) (nowMs : ℤ) : ReuseStore α :=
  let store := store.expire nowMs
  let removed := store.remove key
  { removed with
    entries := removed.entries.insert key ⟨value, nowMs, store.seq + 1, r.sizeBytes value⟩
    seq := store.seq + 1
    bytes := saturatingAdd removed.bytes (r.sizeBytes value) }

def store (store : ReuseStore α) (key : Text) (value : α) (nowMs : ℤ) : ReuseStore α × Bool :=
  if r.isReplay value || !r.isStorable value then (store, false)
  else ((store.inserted r key value nowMs).enforceBounds, true)

end ReuseStore

def evidenceRecords (rfc3339 : ℤ → Text) : Reusable EvidenceRecord where
  isReplay := (·.fromCache)
  markReplayed := EvidenceRecord.markReplayed rfc3339
  isStorable := EvidenceRecord.isStorable
  sizeBytes := EvidenceRecord.sizeBytes

end ReuseStores

namespace EvidenceCache

open ReuseStores (ReuseStore evidenceRecords)

inductive CacheMode where
  | replay
  | revalidate
  deriving DecidableEq

structure Request where
  spec : VerificationSpec
  policy : VerifyCommandPolicy
  inputs : List (Text × InputDigest)
  deriving DecidableEq

def Request.key (sha256 : List UInt8 → Text) (request : Request) : Text :=
  (CacheKeyInputs.collect sha256 request.spec request.inputs request.policy.fingerprint).key sha256

/-- An execution whose command runs: the cache did not answer, or was not asked. -/
structure Call where
  request : Request
  mode : CacheMode
  key : Option Text
  nowMs : ℤ
  deriving DecidableEq

structure Answer where
  request : Request
  mode : CacheMode
  record : EvidenceRecord
  deriving DecidableEq

/-- The one cache of the process, the calls under way, and all answers, the latest first. -/
structure History where
  cache : ReuseStore EvidenceRecord
  running : List Call
  answered : List Answer

inductive Event where
  | call (spec : VerificationSpec) (policy : VerifyCommandPolicy) (mode : CacheMode)
      (inputs : List (Text × InputDigest)) (nowMs : ℤ) (now : Text)
  | finish (index : ℕ) (execution : Execution)
  | setLimits (limits : EvidenceCacheLimits)

def acceptedSpec (p : Platform) (policy : VerifyCommandPolicy) (spec : VerificationSpec)
    (now : Text) : Except SpecRejection VerificationSpec :=
  if spec.isAccepted then .ok spec else accept p policy spec now

def cacheKey (p : Platform) (mode : CacheMode) (request : Request) : Option Text :=
  match mode with
  | .revalidate => none
  | .replay =>
    match specIsCacheable request.spec with
    | .ok () => some (request.key p.sha256)
    | .error _ => none

def History.begin (p : Platform) (h : History) (request : Request) (mode : CacheMode)
    (nowMs : ℤ) : History :=
  match cacheKey p mode request with
  | none => { h with running := h.running ++ [⟨request, mode, none, nowMs⟩] }
  | some key =>
    match h.cache.lookup (evidenceRecords p.rfc3339) key nowMs with
    | (cache, some replay) =>
      { h with cache := cache, answered := ⟨request, mode, replay⟩ :: h.answered }
    | (cache, none) =>
      { h with cache := cache, running := h.running ++ [⟨request, mode, some key, nowMs⟩] }

def step (p : Platform) (h : History) : Event → History
  | .call spec policy mode inputs nowMs now =>
    match acceptedSpec p policy spec now with
    | .error rejection =>
      { h with answered :=
          ⟨⟨spec, policy, inputs⟩, mode, unexecutedRecord spec rejection now⟩ :: h.answered }
    | .ok accepted => h.begin p ⟨accepted, policy, inputs⟩ mode nowMs
  | .finish index execution =>
    match h.running[index]? with
    | none => h
    | some call =>
      let record := execute call.request.spec execution
      { cache := call.key.elim h.cache fun key =>
          (h.cache.store (evidenceRecords p.rfc3339) key record call.nowMs).1
        running := h.running.eraseIdx index
        answered := ⟨call.request, call.mode, record⟩ :: h.answered }
  | .setLimits limits => { h with cache := h.cache.setLimits limits }

def run (p : Platform) (h : History) (events : List Event) : History :=
  events.foldl (step p) h

def initial (limits : EvidenceCacheLimits) : History := ⟨.new limits, [], []⟩

end EvidenceCache
