import RefactEngine.ApplyPatch

/-! # Planning and executing a patch

Planning runs the operations of a patch over an overlay of the files; executing it rebuilds the
first contents, the guards and the write modes from the list of planned results. The file system is
a map from canonical paths to contents.
-/
namespace PatchPlan

open TextLines ApplyPatch

inductive PathUnit where
  | char (c : Char)
  | invalid (bytes : List UInt8)
  deriving DecidableEq

abbrev Path := List PathUnit

instance lawfulBEq_path : LawfulBEq Path := inferInstance

def PathUnit.lossy : PathUnit → Char
  | .char c => c
  | .invalid _ => '\uFFFD'

def toStringLossy (path : Path) : Text := path.map PathUnit.lossy

def ofString (text : Text) : Path := text.map .char

abbrev Disk := Path → Option Text

def replaceCrlf : Text → Text
  | '\r' :: '\n' :: rest => '\n' :: replaceCrlf rest
  | c :: rest => c :: replaceCrlf rest
  | [] => []

def normalizeLineEndings (content : Text) : Text :=
  (replaceCrlf content).map fun c => if c = '\r' then '\n' else c

def restoreLineEndings (content : Text) (originalHadCrlf : Bool) : Text :=
  if originalHadCrlf then
    (normalizeLineEndings content).flatMap fun c => if c = '\n' then ['\r', '\n'] else [c]
  else content

def containsCrlf (content : Text) : Bool := decide (['\r', '\n'] <:+: content)

structure ResolvedToolPath where
  path : Path
  warnings : List Text

structure DiffChunk where
  fileName : Text
  fileAction : String
  line1 : ℕ
  line2 : ℕ
  linesRemove : Text
  linesAdd : Text
  fileNameRename : Option Text
  isFile : Bool
  deriving DecidableEq

/-- The workspace around the files: how a name in the patch becomes a canonical path, who may touch
it, what an open buffer shows, and what the registry of file activity knows of the acting chat. -/
structure Host where
  resolvePatchPath : Text → Except Text ResolvedToolPath
  scopeGuard : Option (Path → Except Text Unit)
  getFileText : Path → Except Text Text
  convertEditToDiffchunks : Path → Text → Text → List DiffChunk
  canonicalCandidate : Path → Except Text Path
  key : Path → Text
  digest : Text → Text
  observed : Text → Option Text
  enabled : Bool
  maxWriteRecords : ℕ
  pathLe : Path → Path → Bool

inductive Action where
  | add
  | delete
  | update
  | rename
  deriving DecidableEq

structure SingleFileResult where
  path : Path
  action : Action
  before : Text
  after : Text
  chunks : List DiffChunk

structure ApplyPatchResult where
  fileResults : List SingleFileResult
  allChunks : List DiffChunk
  warnings : List Text

inductive OverlayState where
  | present (content : Text)
  | deleted
  deriving DecidableEq

abbrev Overlay := Path → Option OverlayState

/-- The overlay and the results so far; the overlay is dropped at the end of planning. -/
structure Planned where
  overlay : Overlay
  plan : ApplyPatchResult

inductive PlanError where
  | parse (error : ParseError)
  | refused (message : Text)
  | fileAlreadyExists (path : Path)
  | fileWasAlreadyDeleted (path : Path)
  | fileWasDeleted (path : Path)
  | fileNotFound (path : Path)
  | moveDestinationExists (path : Path)
  | update (failure : UpdateFailure)
  deriving DecidableEq

variable (host : Host)

def resolveGuarded (path : Text) : Except PlanError ResolvedToolPath :=
  match host.resolvePatchPath path with
  | .error message => .error (.refused message)
  | .ok resolved =>
    match host.scopeGuard with
    | none => .ok resolved
    | some checkScopeGuard =>
      match checkScopeGuard resolved.path with
      | .error message => .error (.refused message)
      | .ok () => .ok resolved

variable (disk : Disk)

def existsNow (overlay : Overlay) (path : Path) : Bool :=
  match overlay path with
  | some (.present _) => true
  | some .deleted => false
  | none => (disk path).isSome

def contentNow (overlay : Overlay) (path : Path)
    (whenDeleted : PlanError) : Except PlanError Text :=
  match overlay path with
  | some (.present content) => .ok content
  | some .deleted => .error whenDeleted
  | none =>
    if (disk path).isNone then .error (.fileNotFound path)
    else match host.getFileText path with
      | .error message => .error (.refused message)
      | .ok content => .ok content

variable (planned : Planned)

/-- Adds the result of one operation, the warnings of its paths and the overlay after it. -/
def Planned.extend (overlay : Overlay) (warnings : List Text)
    (result : SingleFileResult) : Planned :=
  ⟨overlay, ⟨planned.plan.fileResults ++ [result], planned.plan.allChunks ++ result.chunks,
    planned.plan.warnings ++ warnings⟩⟩

def planAdd (path contents : Text) :
    Except PlanError Planned :=
  match resolveGuarded host path with
  | .error error => .error error
  | .ok resolved =>
    if existsNow disk planned.overlay resolved.path then
      .error (.fileAlreadyExists resolved.path)
    else .ok (planned.extend
      (Function.update planned.overlay resolved.path (some (.present contents))) resolved.warnings
      ⟨resolved.path, .add, [], contents, host.convertEditToDiffchunks resolved.path [] contents⟩)

def wholeFileChunk (path : Path) (action : String) (before after : Text)
    (rename : Option Text) : DiffChunk :=
  ⟨toStringLossy path, action, 1, (lines before).length, before, after, rename, true⟩

def planDelete (path : Text) :
    Except PlanError Planned :=
  match resolveGuarded host path with
  | .error error => .error error
  | .ok resolved =>
    match contentNow host disk planned.overlay resolved.path
        (.fileWasAlreadyDeleted resolved.path) with
    | .error error => .error error
    | .ok before => .ok (planned.extend
        (Function.update planned.overlay resolved.path (some .deleted)) resolved.warnings
        ⟨resolved.path, .delete, before, [],
          [wholeFileChunk resolved.path "remove" before [] none]⟩)

/-- The contents after the chunks of an update, with the line endings of the file. -/
def updatedContent (before : Text) (chunks : List UpdateChunk) : Except PlanError Text :=
  match applyUpdateChunks (normalizeLineEndings before) chunks with
  | .error failure => .error (.update failure)
  | .ok content => .ok (restoreLineEndings content (containsCrlf before))

def planMove (source : ResolvedToolPath)
    (moveTo : Text) (before after : Text) : Except PlanError Planned :=
  match resolveGuarded host moveTo with
  | .error error => .error error
  | .ok dest =>
    if existsNow disk planned.overlay dest.path then .error (.moveDestinationExists dest.path)
    else .ok (planned.extend
      (Function.update (Function.update planned.overlay source.path (some .deleted)) dest.path
        (some (.present after)))
      (source.warnings ++ dest.warnings)
      ⟨dest.path, .rename, before, after,
        [wholeFileChunk source.path "rename" before after (some (toStringLossy dest.path))]⟩)

def planUpdate (path : Text)
    (moveTo : Option Text) (chunks : List UpdateChunk) : Except PlanError Planned :=
  match resolveGuarded host path with
  | .error error => .error error
  | .ok resolved =>
    match contentNow host disk planned.overlay resolved.path (.fileWasDeleted resolved.path) with
    | .error error => .error error
    | .ok before =>
      match updatedContent before chunks with
      | .error error => .error error
      | .ok after =>
        match moveTo with
        | some moveTo => planMove host disk planned resolved moveTo before after
        | none => .ok (planned.extend
            (Function.update planned.overlay resolved.path (some (.present after)))
            resolved.warnings
            ⟨resolved.path, .update, before, after,
              host.convertEditToDiffchunks resolved.path before after⟩)

def planOperation :
    FileOperation → Except PlanError Planned
  | .add path contents => planAdd host disk planned path contents
  | .delete path => planDelete host disk planned path
  | .update path moveTo chunks => planUpdate host disk planned path moveTo chunks

def planOperations (host : Host) (disk : Disk) :
    Planned → List FileOperation → Except PlanError Planned
  | planned, [] => .ok planned
  | planned, operation :: rest =>
    match planOperation host disk planned operation with
    | .error error => .error error
    | .ok planned => planOperations host disk planned rest

def operationPaths : FileOperation → List Text
  | .add path _ | .delete path => [path]
  | .update path moveTo _ => path :: moveTo.toList

/-- Before anything is planned, every path of the patch is put to the scope guard. -/
def checkScope (host : Host) : List Text → Except PlanError Unit
  | [] => .ok ()
  | path :: rest =>
    match resolveGuarded host path with
    | .error error => .error error
    | .ok _ => checkScope host rest

def nothingPlanned : Planned := ⟨fun _ => none, ⟨[], [], []⟩⟩

def planPatch (patch : Text) : Except PlanError Planned :=
  match parsePatch patch with
  | .error error => .error (.parse error)
  | .ok operations =>
    match (if host.scopeGuard.isSome then checkScope host (operations.flatMap operationPaths)
      else .ok ()) with
    | .error error => .error error
    | .ok () => planOperations host disk nothingPlanned operations

inductive WriteIntent where
  | create
  | contextual

structure WriteGuard where
  key : Text
  path : Path
  digestBefore : Option Text

inductive Refusal where
  | pathCount
  | notCanonical (message : Text)
  | alreadyExists (path : Path)
  | stale (path : Path) (seen : Text)

/-- A path that is to be created must be free; another must be as the acting chat last saw it. -/
def validateWrite (path : Path) (intent : WriteIntent) :
    Except Refusal WriteGuard :=
  let current := (disk path).map host.digest
  let guard : WriteGuard := ⟨host.key path, path, current⟩
  if !host.enabled then .ok guard
  else match intent with
    | .create => if current.isSome then .error (.alreadyExists path) else .ok guard
    | .contextual =>
      match current, host.observed (host.key path) with
      | some digest, some seen => if seen ≠ digest then .error (.stale path seen) else .ok guard
      | _, _ => .ok guard

def validateWrites (host : Host) (disk : Disk) :
    List (Path × WriteIntent) → Except Refusal (List WriteGuard)
  | [] => .ok []
  | (path, intent) :: rest =>
    match validateWrite host disk path intent with
    | .error refusal => .error refusal
    | .ok guard =>
      match validateWrites host disk rest with
      | .error refusal => .error refusal
      | .ok guards => .ok (guard :: guards)

def checkCanonical (host : Host) : List (Path × WriteIntent) → Except Refusal Unit
  | [] => .ok ()
  | (path, _) :: rest =>
    match host.canonicalCandidate path with
    | .error message => .error (.notCanonical message)
    | .ok _ => checkCanonical host rest

def beginWrites (paths : List (Path × WriteIntent)) :
    Except Refusal (List WriteGuard) :=
  if paths = [] ∨ host.maxWriteRecords < paths.length then .error .pathCount
  else match checkCanonical host paths with
    | .error refusal => .error refusal
    | .ok () => validateWrites host disk paths

inductive ReplaceMode where
  | createNew
  | replace
  deriving DecidableEq

inductive WriteKind where
  | created
  | modified
  | deleted

structure FileState where
  disk : Disk
  recorded : List (Path × WriteKind × Option Text)

inductive StepError where
  | moveHasNoSource
  | fileExists (path : Path)
  | fileMissing (path : Path)
  | missingGuard
  | missingSourceGuard
  deriving DecidableEq

inductive ApplyError where
  | moveHasNoSource
  | refused (refusal : Refusal)
  | pathsAlias
  | preimageChanged (path : Path)
  | bufferDiffers (path : Path)
  | unreadable (message : Text)
  | stopped (path : Path) (applied total : ℕ) (changed unchanged : List Path) (error : StepError)

abbrev StepM := Except (FileState × StepError)

def writeFileDurably (s : FileState) (path : Path) (contents : Text) (mode : ReplaceMode) :
    StepM FileState :=
  if mode = .createNew ∧ (s.disk path).isSome then .error (s, .fileExists path)
  else .ok { s with disk := Function.update s.disk path (some contents) }

def removeFile (s : FileState) (path : Path) : StepM FileState :=
  if (s.disk path).isSome then .ok { s with disk := Function.update s.disk path none }
  else .error (s, .fileMissing path)

def recordBytes (guards : List (Path × WriteGuard)) (s : FileState) (path : Path)
    (kind : WriteKind) (bytes : Option Text) (missing : StepError) : StepM FileState :=
  if path ∈ guards.map Prod.fst then .ok { s with recorded := s.recorded ++ [(path, kind, bytes)] }
  else .error (s, missing)

def moveSource (result : SingleFileResult) : Option Path :=
  result.chunks.head?.map fun chunk => ofString chunk.fileName

def applyResult (guards : List (Path × WriteGuard)) (s : FileState) (result : SingleFileResult) :
    StepM FileState :=
  match result.action with
  | .delete => do
    let s ← removeFile s result.path
    recordBytes guards s result.path .deleted none .missingGuard
  | .add => do
    let s ← writeFileDurably s result.path result.after .createNew
    recordBytes guards s result.path .created (some result.after) .missingGuard
  | .update => do
    let s ← writeFileDurably s result.path result.after .replace
    recordBytes guards s result.path .modified (some result.after) .missingGuard
  | .rename =>
    match moveSource result with
    | none => .error (s, .moveHasNoSource)
    | some source => do
      let s ← writeFileDurably s result.path result.after .createNew
      let s ← recordBytes guards s result.path .created (some result.after) .missingGuard
      let s ← removeFile s source
      recordBytes guards s source .deleted none .missingSourceGuard

def applyResults (guards : List (Path × WriteGuard)) :
    FileState → List Path → List SingleFileResult → Except (FileState × ApplyError) FileState
  | s, _, [] => .ok s
  | s, changed, result :: rest =>
    match applyResult guards s result with
    | .ok s => applyResults guards s (changed ++ [result.path]) rest
    | .error (s, error) => .error (s, .stopped result.path changed.length
        (changed.length + (rest.length + 1)) changed (result.path :: rest.map (·.path)) error)

abbrev Preimages := List (Path × Option Text)

variable (initial : Preimages)

def orInsert (path : Path) (before : Option Text) : Preimages :=
  if path ∈ initial.map Prod.fst then initial else initial ++ [(path, before)]

def addPreimages (result : SingleFileResult) : Option Preimages :=
  match result.action with
  | .add => some (orInsert initial result.path none)
  | .rename => (moveSource result).map fun source =>
      orInsert (orInsert initial source (some result.before)) result.path none
  | .update | .delete => some (orInsert initial result.path (some result.before))

def initialPreimages : Preimages → List SingleFileResult → Option Preimages
  | initial, [] => some initial
  | initial, result :: rest =>
    (addPreimages initial result).bind fun initial => initialPreimages initial rest

def writeIntent (before : Option Text) : WriteIntent :=
  if before.isSome then .contextual else .create

def checkPreimages (host : Host) (disk : Disk) : Preimages → Except ApplyError Unit
  | [] => .ok ()
  | (path, expected) :: rest =>
    if disk path ≠ expected then .error (.preimageChanged path)
    else match expected with
      | none => checkPreimages host disk rest
      | some current =>
        match host.getFileText path with
        | .error message => .error (.unreadable message)
        | .ok text =>
          if text ≠ current then .error (.bufferDiffers path) else checkPreimages host disk rest

def sortedPreimages : Preimages :=
  initial.insertionSort fun a b => host.pathLe a.1 b.1 = true

def apply (plan : ApplyPatchResult) :
    Except (FileState × ApplyError) FileState :=
  match initialPreimages [] plan.fileResults with
  | none => .error (⟨disk, []⟩, .moveHasNoSource)
  | some initial =>
    if initial = [] then .ok ⟨disk, []⟩
    else
      let entries := sortedPreimages host initial
      match beginWrites host disk (entries.map fun entry => (entry.1, writeIntent entry.2)) with
      | .error refusal => .error (⟨disk, []⟩, .refused refusal)
      | .ok guards =>
        if ¬ (guards.map WriteGuard.key).Nodup then .error (⟨disk, []⟩, .pathsAlias)
        else match checkPreimages host disk entries with
          | .error error => .error (⟨disk, []⟩, error)
          | .ok () =>
            applyResults ((entries.map Prod.fst).zip guards) ⟨disk, []⟩ [] plan.fileResults

end PatchPlan
