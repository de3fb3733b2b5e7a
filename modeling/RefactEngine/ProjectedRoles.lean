import RefactEngine.JsonValues

/-! # Bounded projection of a plan or a goal

An approved base and its updates are rendered within limits. Updates that do not fit are folded
into a checkpoint, which takes their place in the history.
-/
namespace ProjectedRoles

open JsonValues

structure MultimodalElement where
  mType : String
  mContent : String

structure ContextFile where
  fileName : String
  fileContent : String
  line1 : ℕ
  line2 : ℕ

inductive ChatContent where
  | simpleText (text : String)
  | multimodal (elements : List MultimodalElement)
  | contextFiles (files : List ContextFile)

def ContextFile.text (file : ContextFile) : String :=
  file.fileName ++ ":" ++ file.line1.repr ++ "-" ++ file.line2.repr ++ "\n" ++ file.fileContent

def ChatContent.contentTextOnly : ChatContent → String
  | .simpleText text => text
  | .multimodal elements =>
    "\n\n".intercalate ((elements.filter (·.mType = "text")).map MultimodalElement.mContent)
  | .contextFiles files => "\n\n".intercalate (files.map ContextFile.text)

structure ChatMessage (F : Type) where
  messageId : String
  role : String
  content : ChatContent
  extra : List (String × Json F)

variable {F : Type}

def ChatMessage.event (message : ChatMessage F) : Option (Json F) := message.extra.lookup "event"

def ChatMessage.payload (message : ChatMessage F) (key : String) : Option (Json F) :=
  (message.event.bind (·.get "payload")).bind (·.get key)

structure ProjectionLimits where
  checkpointAfterDeltas : ℕ
  maxChars : ℕ

inductive ProjectedRole where
  | plan
  | goal
  deriving DecidableEq

namespace ProjectedRole

def updatesHeading : ProjectedRole → String
  | plan => "## Plan updates"
  | goal => "## Goal updates"

def noun : ProjectedRole → String
  | plan => "plan"
  | goal => "goal"

def deltaSubkind : ProjectedRole → String
  | plan => "plan_delta"
  | goal => "goal_delta"

end ProjectedRole

structure ApprovedBase where
  messageId : String
  mode : String
  version : ℕ
  createdAtMs : ℕ
  body : String

structure ProjectedDelta where
  seq : ℕ
  note : String

structure CheckpointProvenance where
  revision : ℕ
  foldedDeltas : ℕ
  approvedMessageId : String
  approvedVersion : ℕ
  approvedBy : String
  approvedAtMs : ℕ
  deriving DecidableEq

structure RoleProjection where
  text : String
  deltaCount : ℕ
  checkpoint : Option CheckpointProvenance

def checkpointSource : String := "context_rebuild.checkpoint"

def baseSeparator : String := "\n\n---\n\n"

def noteSeparator : String := "\n\n"

def prefoldCount (prefold : Option CheckpointProvenance) : ℕ :=
  prefold.elim 0 CheckpointProvenance.foldedDeltas

def revisionAt (deltas : List ProjectedDelta) (folded : ℕ) : ℕ :=
  if folded = 0 then 0 else deltas[folded - 1]?.elim 0 ProjectedDelta.seq

def revisionForFold (prefold : Option CheckpointProvenance) (deltas : List ProjectedDelta)
    (foldedNew : ℕ) : ℕ :=
  if foldedNew = 0 then prefold.elim 0 CheckpointProvenance.revision
  else revisionAt deltas foldedNew

def joinNotes (deltas : List ProjectedDelta) : String :=
  noteSeparator.intercalate (deltas.map ProjectedDelta.note)

def checkpointHeader (role : ProjectedRole) (base : ApprovedBase) (revision folded total : ℕ) :
    String :=
  role.updatesHeading ++ " (checkpoint at revision " ++ revision.repr ++ " of " ++ total.repr ++
    ")\n\n[checkpoint: " ++ folded.repr ++ " earlier " ++ role.noun ++
    " updates folded; approved base v" ++ base.version.repr ++ " installed by " ++ base.mode ++
    " at " ++ base.createdAtMs.repr ++
    "; the full delta history stays on disk and is available from get_goal(include_history=true)]"

section Projection

variable (role : ProjectedRole) (base : ApprovedBase) (prefold : Option CheckpointProvenance)
  (deltas : List ProjectedDelta) (limits : ProjectionLimits)

def keepNewest : (steps next kept keptChars : ℕ) → ℕ
  | 0, _, kept, _ => kept
  | steps + 1, next, kept, keptChars =>
    let baseChars := base.body.length + baseSeparator.length
    let noteChars := deltas[deltas.length - next]?.elim 0 fun delta => delta.note.length
    let grown := keptChars + noteChars + if next = 1 then 0 else 2
    let foldedNew := deltas.length - next
    let header := checkpointHeader role base (revisionForFold prefold deltas foldedNew)
      (prefoldCount prefold + foldedNew) (prefoldCount prefold + deltas.length)
    let total := baseChars + header.length + 2 + grown
    if limits.maxChars < total then kept else keepNewest steps (next + 1) next grown

def keptCount : ℕ :=
  keepNewest role base prefold deltas limits
    (min limits.checkpointAfterDeltas deltas.length) 1 0 0

def checkpointedProjection : RoleProjection :=
  let kept := keptCount role base prefold deltas limits
  let deltaCount := prefoldCount prefold + deltas.length
  let foldedNew := deltas.length - kept
  let folded := prefoldCount prefold + foldedNew
  let revision := revisionForFold prefold deltas foldedNew
  let text := base.body ++ baseSeparator ++ checkpointHeader role base revision folded deltaCount
  { text := if 0 < kept then text ++ noteSeparator ++ joinNotes (deltas.drop foldedNew) else text
    deltaCount := deltaCount
    checkpoint := some
      { revision := revision
        foldedDeltas := folded
        approvedMessageId := base.messageId
        approvedVersion := base.version
        approvedBy := base.mode
        approvedAtMs := base.createdAtMs } }

def fullText : String :=
  base.body ++ baseSeparator ++ role.updatesHeading ++ noteSeparator ++ joinNotes deltas

def rendersFull : Bool :=
  prefold.isNone && !deltas.isEmpty &&
    (deltas.length ≤ limits.checkpointAfterDeltas &&
      (fullText role base deltas).length ≤ limits.maxChars)

def projectRoleWithPrefold : RoleProjection :=
  let deltaCount := prefoldCount prefold + deltas.length
  if deltaCount = 0 then
    { text := base.body
      deltaCount := deltaCount
      checkpoint := none }
  else if rendersFull role base prefold deltas limits then
    { text := fullText role base deltas
      deltaCount := deltaCount
      checkpoint := none }
  else checkpointedProjection role base prefold deltas limits

end Projection

variable (message : ChatMessage F)

def deltaRevision (index : ℕ) : ℕ :=
  ((message.payload "seq").bind Json.asU64).getD (index + 1)

def readProvenance : Json F → Option CheckpointProvenance
  | .obj members => do
    let revision ← (members.lookup "revision").bind Json.asU64
    let foldedDeltas ← (members.lookup "folded_deltas").bind Json.asU64
    let approvedMessageId ← (members.lookup "approved_message_id").bind Json.asStr
    let approvedVersion ← (members.lookup "approved_version").bind Json.asU32
    let approvedBy ← (members.lookup "approved_by").bind Json.asStr
    let approvedAtMs ← (members.lookup "approved_at_ms").bind Json.asU64
    return ⟨revision, foldedDeltas, approvedMessageId, approvedVersion, approvedBy, approvedAtMs⟩
  | .arr [revision, foldedDeltas, messageId, version, mode, createdAtMs] => do
    return ⟨← revision.asU64, ← foldedDeltas.asU64, ← messageId.asStr, ← version.asU32,
      ← mode.asStr, ← createdAtMs.asU64⟩
  | _ => none

def writeProvenance (provenance : CheckpointProvenance) : Json F :=
  .obj
    [("revision", .nat provenance.revision), ("folded_deltas", .nat provenance.foldedDeltas),
      ("approved_message_id", .str provenance.approvedMessageId),
      ("approved_version", .nat provenance.approvedVersion),
      ("approved_by", .str provenance.approvedBy),
      ("approved_at_ms", .nat provenance.approvedAtMs)]

def isDeltaSubkind (subkind : Option String) : Bool :=
  subkind = some "plan_delta" || subkind = some "goal_delta"

def checkpointProvenance : Option CheckpointProvenance :=
  if message.role ≠ "event" then none
  else
    let subkind := (message.event.bind (·.get "subkind")).bind Json.asStr
    let source := (message.event.bind (·.get "source")).bind Json.asStr
    if isDeltaSubkind subkind && source = some checkpointSource then
      (message.payload "checkpoint").bind readProvenance
    else none

def isDeltaKind (subkind : String) : Bool :=
  message.role = "event" && (message.event.bind (·.get "subkind")).bind Json.asStr = some subkind

def isRoleCheckpoint (role : ProjectedRole) (message : ChatMessage F) : Bool :=
  isDeltaKind message role.deltaSubkind && (checkpointProvenance message).isSome

def isPlanDelta : Bool :=
  (message.payload "target").bind Json.asStr = some "plan"

def roleBaseVersion (role : ProjectedRole) (message : ChatMessage F) : Option ℕ :=
  if message.role ≠ role.noun then none
  else ((message.extra.lookup role.noun).bind (·.get "version")).bind Json.asU32

def isUpdate (role : ProjectedRole) (message : ChatMessage F) : Bool :=
  isDeltaKind message role.deltaSubkind && (role ≠ .goal || !isPlanDelta message) &&
    (checkpointProvenance message).isNone

abbrev Entry (F : Type) := ChatMessage F × ℕ

def newerBase (role : ProjectedRole) (best : Option (Entry F)) (e : Entry F) : Option (Entry F) :=
  match roleBaseVersion role e.1 with
  | none => best
  | some version =>
    if best.all fun b => (roleBaseVersion role b.1).getD 0 ≤ version then some e else best

def currentBase (role : ProjectedRole) (messages : List (ChatMessage F)) : Option (Entry F) :=
  messages.zipIdx.foldl (newerBase role) none

def approvedBase (role : ProjectedRole) (message : ChatMessage F) : ApprovedBase :=
  let baseMeta := message.extra.lookup role.noun
  { messageId := message.messageId
    mode := ((baseMeta.bind (·.get "mode")).bind Json.asStr).getD ""
    version := (roleBaseVersion role message).getD 1
    createdAtMs := ((baseMeta.bind (·.get "created_at_ms")).bind Json.asU64).getD 0
    body := message.content.contentTextOnly }

def isBaseCheckpoint (role : ProjectedRole) (base : ApprovedBase) (message : ChatMessage F) :
    Bool :=
  isRoleCheckpoint role message &&
    (checkpointProvenance message).any (·.approvedMessageId = base.messageId)

def event (subkind source : String) (payload : Json F) (messageId content : String) :
    ChatMessage F where
  messageId := messageId
  role := "event"
  content := .simpleText content
  extra := [("event", .obj
    [("subkind", .str subkind), ("source", .str source), ("payload", payload)])]

def checkpointText (role : ProjectedRole) (base : ApprovedBase)
    (provenance : CheckpointProvenance) : String :=
  "[checkpoint: " ++ provenance.foldedDeltas.repr ++ " earlier " ++ role.noun ++
    " updates folded at revision " ++ provenance.revision.repr ++ "; approved base v" ++
    base.version.repr ++ " installed by " ++ base.mode ++ " at " ++ base.createdAtMs.repr ++
    "; full history: get_goal(include_history=true)]"

def makeCheckpointMessage (role : ProjectedRole) (base : ApprovedBase)
    (provenance : CheckpointProvenance) (firstFoldedMessageId lastFoldedMessageId : String) :
    ChatMessage F :=
  event role.deltaSubkind checkpointSource
    (.obj
      [("seq", .nat provenance.revision), ("checkpoint", writeProvenance provenance),
        ("first_folded_message_id", .str firstFoldedMessageId),
        ("last_folded_message_id", .str lastFoldedMessageId)])
    (role.noun ++ "-checkpoint-" ++ base.messageId ++ "-" ++ provenance.revision.repr)
    (checkpointText role base provenance)

def projectedDeltas (folded : ℕ) (updates : List (ChatMessage F)) : List ProjectedDelta :=
  (updates.zipIdx folded).map fun e => ⟨deltaRevision e.1 e.2, e.1.content.contentTextOnly⟩

section Fold

variable (role : ProjectedRole) (messages : List (ChatMessage F))

def checkpointEntries (base : ApprovedBase) (baseIndex : ℕ) : List (Entry F) :=
  messages.zipIdx.filter fun e => baseIndex < e.2 && isBaseCheckpoint role base e.1

def deltaEntries (baseIndex : ℕ) (checkpoint : Option (Entry F)) : List (Entry F) :=
  messages.zipIdx.filter fun e =>
    baseIndex < e.2 && checkpoint.all (fun c => c.2 < e.2) && isUpdate role e.1

/-- The folded updates and the old checkpoints are left out; the new checkpoint stands where the
last folded update stood. -/
def replaceEntry (folded checkpoints : List ℕ) (last : ℕ) (checkpoint : ChatMessage F)
    (e : Entry F) : List (ChatMessage F) :=
  (if e.2 = last then [checkpoint] else []) ++
    if folded.contains e.2 || checkpoints.contains e.2 then [] else [e.1]

def foldRoleMessages (limits : ProjectionLimits) : List (ChatMessage F) :=
  match currentBase role messages with
  | none => messages
  | some (baseMessage, baseIndex) =>
    let base := approvedBase role baseMessage
    let checkpoints := checkpointEntries role messages base baseIndex
    let previous := checkpoints.getLast?
    let prefold := previous.bind fun e => checkpointProvenance e.1
    let updates := deltaEntries role messages baseIndex previous
    let deltas := projectedDeltas (prefoldCount prefold) (updates.map Prod.fst)
    match (projectRoleWithPrefold role base prefold deltas limits).checkpoint with
    | none => messages
    | some provenance =>
      let folded := updates.take (provenance.foldedDeltas - prefoldCount prefold)
      match folded.head?, folded.getLast? with
      | some first, some last =>
        let firstFoldedMessageId :=
          ((previous.bind fun e => e.1.payload "first_folded_message_id").bind Json.asStr).getD
            first.1.messageId
        let checkpointMessage :=
          makeCheckpointMessage role base provenance firstFoldedMessageId last.1.messageId
        messages.zipIdx.flatMap (replaceEntry (folded.map Prod.snd) (checkpoints.map Prod.snd)
          last.2 checkpointMessage)
      | _, _ => messages

end Fold

end ProjectedRoles
