import RefactEngine.CoordinationSettings
import RefactEngine.FiniteMap
import Mathlib.Data.List.DropRight

/-! # The ledger of claims about the codebase

`record` reads every claim on the subject, decides in memory what the incoming claim does to
them, and writes the decision back column by column. Any number of calls interleave between
these store calls.
-/
namespace FactLedger

open WorkIdentity CoordinationSettings

inductive ClaimSubjectKind where
  | file
  | symbol
  | behaviour
  | config
  deriving DecidableEq

structure ClaimSubject where
  kind : ClaimSubjectKind
  reference : String
  deriving DecidableEq

structure EvidenceRef where
  kind : String
  reference : String
  deriving DecidableEq

structure ClaimProvenance where
  author : WorkKey
  runGeneration : ℤ
  evidence : List EvidenceRef
  observedAtMs : ℤ
  deriving DecidableEq

def ClaimProvenance.run (entry : ClaimProvenance) : WorkKey × ℤ :=
  (entry.author, entry.runGeneration)

def ClaimProvenance.sameRun (entry other : ClaimProvenance) : Bool :=
  entry.author = other.author && entry.runGeneration = other.runGeneration

theorem ClaimProvenance.sameRun_iff {entry other : ClaimProvenance} :
    entry.sameRun other = true ↔ entry.run = other.run := by
  simp [sameRun, run]

inductive ClaimStatus where
  | active
  | contested
  | stale
  | retracted
  deriving DecidableEq

def ClaimStatus.isStanding : ClaimStatus → Bool
  | .active => true
  | .contested => true
  | .stale => false
  | .retracted => false

def ClaimStatus.isSettled : ClaimStatus → Bool
  | .active => false
  | .contested => false
  | .stale => true
  | .retracted => true

def confidenceCertainPerMille : ℕ := 1000

def u32Max : ℕ := 2 ^ 32 - 1

inductive ClaimRefusal where
  | emptyId
  | emptySubject
  | emptyRevision
  | emptyPredicate
  | emptyAssertion
  | noProvenance
  | confidenceOutOfRange (value : ℕ)
  deriving DecidableEq

inductive ClaimVerdict where
  | new
  | corroborates (claimId : String)
  | repeats (claimId : String)
  | contradicts (claimId : String)
  | contradictsBelowThreshold (claimId : String) (requiredPerMille : ℕ)
  deriving DecidableEq

structure ClaimAssessment where
  verdict : ClaimVerdict
  staled : List String

structure ClaimPolicy where
  corroborationStepPerMille : ℕ
  contradictionMinConfidencePerMille : ℕ

inductive ClaimCorroboration where
  | raised (before after : ℕ)
  | alreadyRecorded
  deriving DecidableEq

structure ClaimRecord where
  project : ProjectKey
  claimId : String
  subject : ClaimSubject
  subjectRevision : String
  predicate : String
  assertion : String
  status : ClaimStatus
  confidencePerMille : ℕ
  provenance : List ClaimProvenance
  contestedBy : List String
  assertedAtMs : ℤ
  updatedAtMs : ℤ
  deriving DecidableEq

/-- What every call of one ledger shares. `lower` is the case mapping of the host, and the two
limits are the values the queries are given. -/
structure LedgerConfig where
  lower : String → String
  policy : ClaimPolicy
  maxPerSubject : ℤ
  maxClaims : ℤ

def isBlank (text : String) : Bool := text.toList.all isWhitespace

variable (lower : String → String)

def normalizeClaimText (text : String) : String :=
  let words := (text.toList.splitOnP isWhitespace).filter (· ≠ [])
  let joined := " ".intercalate (words.map fun word => lower (String.ofList word))
  String.ofList (joined.toList.rdropWhile fun c => c = '.' || c = '!' || c = ';')

namespace ClaimRecord

variable (claim : ClaimRecord)

def validate : Except ClaimRefusal Unit :=
  if isBlank claim.claimId then .error .emptyId
  else if isBlank claim.subject.reference then .error .emptySubject
  else if isBlank claim.subjectRevision then .error .emptyRevision
  else if isBlank claim.predicate then .error .emptyPredicate
  else if isBlank claim.assertion then .error .emptyAssertion
  else if claim.provenance = [] then .error .noProvenance
  else if claim.confidencePerMille > confidenceCertainPerMille then
    .error (.confidenceOutOfRange claim.confidencePerMille)
  else .ok ()

def sameTopic (claim other : ClaimRecord) : Bool :=
  claim.subject = other.subject &&
    normalizeClaimText lower claim.predicate = normalizeClaimText lower other.predicate

def sameConclusion (claim other : ClaimRecord) : Bool :=
  normalizeClaimText lower claim.assertion = normalizeClaimText lower other.assertion

def contradicts (claim other : ClaimRecord) : Bool :=
  claim.sameTopic lower other && claim.subjectRevision = other.subjectRevision &&
    claim.status.isStanding && other.status.isStanding && !claim.sameConclusion lower other

def isStaleAgainst (currentRevision : String) : Bool :=
  claim.subjectRevision ≠ currentRevision

def novelProvenance (incoming : List ClaimProvenance) :
    List ClaimProvenance :=
  incoming.filter fun candidate => !claim.provenance.any fun recorded =>
    recorded.sameRun candidate

def corroborate (incoming : List ClaimProvenance) (stepPerMille : ℕ)
    (atMs : ℤ) : ClaimRecord × ClaimCorroboration :=
  let novel := claim.novelProvenance incoming
  if novel = [] then (claim, .alreadyRecorded)
  else
    let raise := min (stepPerMille * (novel.length % 2 ^ 32)) u32Max
    let confidence :=
      min (min (claim.confidencePerMille + raise) u32Max) confidenceCertainPerMille
    ({ claim with
        confidencePerMille := confidence
        provenance := claim.provenance ++ novel
        updatedAtMs := atMs },
      .raised claim.confidencePerMille confidence)

def markContested (disagreementId : String) (atMs : ℤ) : ClaimRecord :=
  { claim with
    contestedBy :=
      if disagreementId ∈ claim.contestedBy then claim.contestedBy
      else claim.contestedBy ++ [disagreementId]
    status := .contested
    updatedAtMs := atMs }

def markStale (atMs : ℤ) : ClaimRecord :=
  { claim with status := .stale, updatedAtMs := atMs }

def assess (onTopic : List ClaimRecord)
    (policy : ClaimPolicy) : ClaimAssessment :=
  let considered := onTopic.filter fun existing =>
    existing.claimId ≠ claim.claimId ∧ claim.sameTopic lower existing ∧
      existing.status ≠ .retracted
  let staled := (considered.filter fun existing =>
    existing.isStaleAgainst claim.subjectRevision ∧ existing.status ≠ .stale).map claimId
  let live := considered.filter fun existing =>
    !existing.isStaleAgainst claim.subjectRevision
  match live.find? fun existing => claim.sameConclusion lower existing with
  | some agreeing =>
    if agreeing.novelProvenance claim.provenance = [] then
      ⟨.repeats agreeing.claimId, staled⟩
    else ⟨.corroborates agreeing.claimId, staled⟩
  | none =>
    match live with
    | opposing :: _ =>
      let threshold := policy.contradictionMinConfidencePerMille
      if threshold ≤ claim.confidencePerMille ∧ threshold ≤ opposing.confidencePerMille then
        ⟨.contradicts opposing.claimId, staled⟩
      else ⟨.contradictsBelowThreshold opposing.claimId threshold, staled⟩
    | [] => ⟨.new, staled⟩

end ClaimRecord

abbrev ClaimKey := ProjectKey × String

abbrev ClaimTable := AList fun _ : ClaimKey => ClaimRecord

def ClaimRecord.key (claim : ClaimRecord) : ClaimKey := (claim.project, claim.claimId)

inductive ClaimFiling where
  | recorded (claim : ClaimRecord)
  | existing (claim : ClaimRecord)
  | subjectLimit (max : ℤ)

variable (table : ClaimTable)

def heldOnSubject (project : ProjectKey) (subject : ClaimSubject) :
    List ClaimRecord :=
  (table.entries.filter fun row => row.1.1 = project ∧ row.2.subject = subject).map Sigma.snd

/-- The only store call that writes an assertion. It never replaces a row. -/
def recordClaim (maxPerSubject : ℤ) (table : ClaimTable) (record : ClaimRecord) :
    ClaimTable × ClaimFiling :=
  match table.lookup record.key with
  | some held => (table, .existing held)
  | none =>
    if maxPerSubject ≤ (heldOnSubject table record.project record.subject).length then
      (table, .subjectLimit maxPerSubject)
    else (table.insert record.key record, .recorded record)

def putClaimConfidence (record : ClaimRecord) : ClaimTable :=
  table.modify record.key fun held =>
    { held with
      confidencePerMille := record.confidencePerMille
      provenance := record.provenance
      updatedAtMs := record.updatedAtMs }

def putClaimStanding (record : ClaimRecord) : ClaimTable :=
  table.modify record.key fun held =>
    { held with
      status := record.status
      contestedBy := record.contestedBy
      updatedAtMs := record.updatedAtMs }

def sqlLimit (limit : ℤ) (rows : List ClaimRecord) : List ClaimRecord :=
  if limit < 0 then rows else rows.take limit.toNat

def claimOrder (claim : ClaimRecord) : ℤ ×ₗ String := toLex (claim.assertedAtMs, claim.claimId)

def claimsOnSubject (maxClaims : ℤ) (table : ClaimTable) (project : ProjectKey)
    (subject : ClaimSubject) : List ClaimRecord :=
  sqlLimit maxClaims
    ((heldOnSubject table project subject).insertionSort fun a b => claimOrder a ≤ claimOrder b)

def expireClaims (project : ProjectKey) (cutoffMs : ℤ) : ClaimTable :=
  table.eraseAll ((table.entries.filter fun row =>
    row.1.1 = project ∧ row.2.status.isSettled ∧ row.2.updatedAtMs < cutoffMs).map Sigma.fst)

structure RecordCall where
  project : ProjectKey
  incoming : ClaimRecord
  atMs : ℤ

def expectTopic (onTopic : List ClaimRecord) (claimId : String) : Option ClaimRecord :=
  onTopic.find? fun claim => claim.claimId = claimId

def toStale (onTopic : List ClaimRecord) (staled : List String) : List ClaimRecord :=
  staled.filterMap (expectTopic onTopic)

def contradictionId (one other : String) : String :=
  if one ≤ other then "claim-contradiction:" ++ one ++ ":" ++ other
  else "claim-contradiction:" ++ other ++ ":" ++ one

inductive Phase where
  | idle
  | reading (call : RecordCall)
  | staling (call : RecordCall) (onTopic pending : List ClaimRecord)
  -- the contradicting claim is stored and the disagreement is being filed
  | filing (call : RecordCall) (standing kept : ClaimRecord)
  | markingStanding (call : RecordCall) (standing kept : ClaimRecord)
  | markingIncoming (call : RecordCall) (kept : ClaimRecord)

/-- What has happened to the row of a claim since it was inserted: the claim as it was inserted,
every run that a `Corroborated` landing reported on it, and the entries these landings appended. -/
structure History where
  origin : ClaimRecord
  reported : List ClaimProvenance
  appended : List ClaimProvenance
  deriving DecidableEq

structure World where
  table : ClaimTable
  phase : ℕ → Phase
  -- kept for the statements only: no call reads it
  history : ClaimKey → Option History

def World.initial : World := ⟨∅, fun _ => .idle, fun _ => none⟩

/-- The world after an insertion was tried: the history of a row starts when it is written. -/
def World.insert (cfg : LedgerConfig) (w : World) (record : ClaimRecord) : World × ClaimFiling :=
  match recordClaim cfg.maxPerSubject w.table record with
  | (table, .recorded claim) =>
    ({ w with
        table := table
        history := Function.update w.history record.key (some ⟨record, [], []⟩) },
      .recorded claim)
  | (table, filing) => ({ w with table := table }, filing)

def World.land (w : World) (read claim : ClaimRecord) (incoming : List ClaimProvenance) : World :=
  { w with
    table := putClaimConfidence w.table claim
    history := Function.update w.history claim.key ((w.history claim.key).map fun history =>
      { history with
        reported := history.reported ++ incoming
        appended := history.appended ++ read.novelProvenance incoming }) }

def World.putStanding (w : World) (claim : ClaimRecord) : World :=
  { w with table := putClaimStanding w.table claim }

def World.goTo (w : World) (caller : ℕ) (phase : Phase) : World :=
  { w with phase := Function.update w.phase caller phase }

inductive Action where
  | begin (caller : ℕ) (call : RecordCall)
  | corroborate (caller : ℕ)
  | other

def RecordCall.verdict (cfg : LedgerConfig) (call : RecordCall) (onTopic : List ClaimRecord) :
    ClaimVerdict :=
  (call.incoming.assess cfg.lower onTopic cfg.policy).verdict

/-- One store call, with what the caller decides before the next one. A store refuses a record
of another project, and any failed call ends the operation. -/
inductive Step (cfg : LedgerConfig) : World → Action → World → Prop where
  -- a prune that fails is logged and ignored
  | begins {w : World} (i : ℕ) (call : RecordCall) (cutoffMs : Option ℤ) :
      w.phase i = .idle → call.incoming.validate = .ok () →
      Step cfg w (.begin i call) (World.goTo
        { w with table := cutoffMs.elim w.table (expireClaims w.table call.project) }
        i (.reading call))
  | reads {w : World} (i : ℕ) (call : RecordCall) (onTopic : List ClaimRecord) :
      w.phase i = .reading call →
      onTopic = claimsOnSubject cfg.maxClaims w.table call.project call.incoming.subject →
      Step cfg w .other (w.goTo i (.staling call onTopic
        (toStale onTopic (call.incoming.assess cfg.lower onTopic cfg.policy).staled)))
  | stales {w : World} (i : ℕ) (call : RecordCall) (onTopic pending : List ClaimRecord)
      (claim : ClaimRecord) : w.phase i = .staling call onTopic (claim :: pending) →
      Step cfg w .other
        ((w.putStanding (claim.markStale call.atMs)).goTo i (.staling call onTopic pending))
  | inserts {w : World} (i : ℕ) (call : RecordCall) (onTopic : List ClaimRecord) :
      w.phase i = .staling call onTopic [] → call.incoming.project = call.project →
      (call.verdict cfg onTopic = .new ∨ ∃ claimId required,
        call.verdict cfg onTopic = .contradictsBelowThreshold claimId required) →
      Step cfg w .other ((w.insert cfg call.incoming).1.goTo i .idle)
  | corroborates {w : World} (i : ℕ) (call : RecordCall) (onTopic : List ClaimRecord)
      (claimId : String) (read claim : ClaimRecord) (before after : ℕ) :
      w.phase i = .staling call onTopic [] →
      call.verdict cfg onTopic = .corroborates claimId →
      expectTopic onTopic claimId = some read →
      read.corroborate call.incoming.provenance cfg.policy.corroborationStepPerMille call.atMs =
        (claim, .raised before after) →
      Step cfg w (.corroborate i) ((w.land read claim call.incoming.provenance).goTo i .idle)
  | contradicts {w : World} (i : ℕ) (call : RecordCall) (onTopic : List ClaimRecord)
      (claimId : String) (standing kept : ClaimRecord) : w.phase i = .staling call onTopic [] →
      call.incoming.project = call.project → call.verdict cfg onTopic = .contradicts claimId →
      expectTopic onTopic claimId = some standing →
      ((w.insert cfg call.incoming).2 = .recorded kept ∨
        (w.insert cfg call.incoming).2 = .existing kept) →
      Step cfg w .other ((w.insert cfg call.incoming).1.goTo i (.filing call standing kept))
  | files {w : World} (i : ℕ) (call : RecordCall) (standing kept : ClaimRecord) :
      w.phase i = .filing call standing kept → standing.provenance ≠ [] →
      kept.provenance ≠ [] →
      Step cfg w .other (w.goTo i (.markingStanding call standing kept))
  | marksStanding {w : World} (i : ℕ) (call : RecordCall) (standing kept : ClaimRecord) :
      w.phase i = .markingStanding call standing kept →
      Step cfg w .other ((w.putStanding
          (standing.markContested (contradictionId standing.claimId kept.claimId) call.atMs)).goTo i
        (.markingIncoming call
          (kept.markContested (contradictionId standing.claimId kept.claimId) call.atMs)))
  | marksIncoming {w : World} (i : ℕ) (call : RecordCall) (kept : ClaimRecord) :
      w.phase i = .markingIncoming call kept →
      Step cfg w .other ((w.putStanding kept).goTo i .idle)
  -- a repeat, a limit, a failed call or a crash
  | stops {w : World} (i : ℕ) : Step cfg w .other (w.goTo i .idle)

end FactLedger
