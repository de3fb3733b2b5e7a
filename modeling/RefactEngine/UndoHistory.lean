import RefactEngine.FiniteMap
import RefactEngine.PatchPlan

/-! # The undo history of the file tools

A successful edit of a tool records what the file held before it, within three limits; an undo
request consumes the newest entries of one file. The lock of a file is held from the checks of an
undo to its end, so no tool edits that file in between, but the history itself is shared: an edit of
another file may prune it. `changes` is a history variable: the changes of a file, in order, that no
undo has taken back.
-/
namespace UndoHistory

open ApplyPatch PatchPlan Function

variable {Path Actor Digest : Type} [LinearOrder Path] [DecidableEq Actor] [DecidableEq Digest]

structure UndoEntry (Actor Digest : Type) where
  content : Text
  timestamp : ℕ
  existed : Bool
  afterDigest : Option Digest
  actor : Option Actor

structure UndoLimits where
  maxUndoBytes : ℕ
  maxWriteRecords : ℕ
  maxUndoEntriesPerFile : ℕ

abbrev UndoMap (Path Actor Digest : Type) := AList fun _ : Path => List (UndoEntry Actor Digest)

def byteLength (text : Text) : ℕ := (text.map Char.utf8Size).sum

/-- The place of an entry in the order of pruning: its time, its file, its index in the file. -/
abbrev EntryKey (Path : Type) := ℕ ×ₗ Path ×ₗ ℕ

def entryKeys (path : Path) (entries : List (UndoEntry Actor Digest)) : List (EntryKey Path) :=
  entries.zipIdx.map fun e => toLex (e.1.timestamp, toLex (path, e.2))

variable (h : UndoMap Path Actor Digest)

def allEntries : List (EntryKey Path) :=
  h.entries.flatMap fun e => entryKeys e.1 e.2

def pruneOldest : Option ℕ × UndoMap Path Actor Digest :=
  match ((allEntries h).insertionSort (· ≤ ·)).head? with
  | none => (none, h)
  | some key =>
    let path := (ofLex (ofLex key).2).1
    let idx := (ofLex (ofLex key).2).2
    match h.lookup path with
    | none => (none, h)
    | some entries =>
      match entries[idx]? with
      | some entry =>
        let rest := entries.eraseIdx idx
        (some (byteLength entry.content),
          if rest.isEmpty then h.erase path else h.insert path rest)
      | none => (none, if entries.isEmpty then h.erase path else h)

def totalBytes : ℕ :=
  (h.entries.flatMap fun e => e.2.map fun entry => byteLength entry.content).sum

/-- `while total_bytes > max`; every round but the last removes an entry, which bounds the rounds.
-/
def pruneWhile (max : ℕ) : ℕ → ℕ → UndoMap Path Actor Digest → UndoMap Path Actor Digest
  | 0, _, h => h
  | fuel + 1, total, h =>
    if total > max then
      match pruneOldest h with
      | (none, h) => h
      | (some removed, h) => pruneWhile max fuel (total - removed) h
    else h

def trimOldest {α : Type} (max : ℕ) : List α → List α
  | [] => []
  | e :: es => if (e :: es).length > max then trimOldest max es else e :: es

/-- Whether `record_edit` keeps an entry for a file, from the size of its preimage and the number of
files that have a history. -/
def recorded (limits : UndoLimits) (h : UndoMap Path Actor Digest) (path : Path)
    (before : Option Text) : Bool :=
  !(decide (byteLength (before.getD []) > limits.maxUndoBytes) ||
    (h.lookup path).isNone && decide (h.entries.length ≥ limits.maxWriteRecords))

variable (digest : Text → Digest)

def recordEdit (limits : UndoLimits) (now : ℕ) (actor : Option Actor)
    (h : UndoMap Path Actor Digest) (path : Path) (before after : Option Text) :
    UndoMap Path Actor Digest :=
  let content := before.getD []
  if recorded limits h path before then
    let entries := (h.lookup path).getD []
    if after.isNone && decide (entries.getLast?.map UndoEntry.content = some content) then
      h.insert path entries
    else
      let pushed := entries ++ [
        { content, timestamp := now, existed := before.isSome, afterDigest := after.map digest,
          actor }]
      let h := h.insert path (trimOldest limits.maxUndoEntriesPerFile pushed)
      pruneWhile limits.maxUndoBytes ((allEntries h).length + 1) (totalBytes h) h
  else h

structure Change where
  before : Option Text
  after : Option Text
  deriving DecidableEq

/-- An undo that passed its checks: the entries it copied and the content it compared. -/
structure PendingUndo (Actor Digest : Type) where
  entries : List (UndoEntry Actor Digest)
  steps : ℕ
  current : Text

def PendingUndo.targetIdx (u : PendingUndo Actor Digest) : ℕ := u.entries.length - u.steps

structure State (Path Actor Digest : Type) where
  limits : UndoLimits
  clock : ℕ
  disk : Path → Option Text
  buffers : Path → Option Text
  history : UndoMap Path Actor Digest
  pending : Path → Option (PendingUndo Actor Digest)
  changes : Path → List Change

variable (s : State Path Actor Digest)

def State.entriesOf (path : Path) : List (UndoEntry Actor Digest) :=
  (s.history.lookup path).getD []

inductive UndoError where
  | stepsMustBePositive
  | noUndoHistory
  | onlySteps (available requested : ℕ)
  | differentWriter
  | failedToRead
  | changedSinceRecordedEdit
  | bufferDiffersFromDisk
  deriving DecidableEq

def checkUndo (s : State Path Actor Digest) (actor : Option Actor)
    (path : Path) (steps : ℕ) : Except UndoError (PendingUndo Actor Digest) :=
  let entries := s.entriesOf path
  if steps = 0 then .error .stepsMustBePositive
  else if entries.isEmpty then .error .noUndoHistory
  else if steps > entries.length then .error (.onlySteps entries.length steps)
  else if (entries.drop (entries.length - steps)).any fun e => decide (e.actor ≠ actor) then
    .error .differentWriter
  else
    match s.disk path with
    | none => .error .failedToRead
    | some current =>
      if entries.getLast?.bind UndoEntry.afterDigest ≠ some (digest current) then
        .error .changedSinceRecordedEdit
      else if (s.buffers path).getD current ≠ current then .error .bufferDiffersFromDisk
      else .ok { entries, steps, current }

inductive Event (Path Actor : Type) where
  | tick (elapsed : ℕ)
  | configure (limits : UndoLimits)
  | editBuffer (path : Path) (text : Option Text)
  /-- A write or a removal that the history is not told of: by another program, or by a tool that
  deletes or moves the file away. -/
  | write (path : Path) (after : Option Text)
  /-- A check and the write it allows are one event: the file is locked across both. -/
  | edit (actor : Option Actor) (path : Path) (text : Text) (expected : Option Text)
  | startUndo (actor : Option Actor) (path : Path) (steps : ℕ)
  | finishUndo (path : Path)
  | failUndo (path : Path)

/-- `write_file_with_intent` compares the buffer and the expected preimage with the disk. -/
def editAllowed (path : Path) (expected : Option Text) : Bool :=
  let diskText := (s.disk path).getD []
  let beforeText := if (s.disk path).isSome then (s.buffers path).getD diskText else []
  (s.pending path).isNone && decide (beforeText = diskText) &&
    expected.all fun text => decide (normalizeLineEndings diskText = normalizeLineEndings text)

def logWrite (changes : List Change) (before after : Option Text) : List Change :=
  if before = after then changes else changes ++ [⟨before, after⟩]

def write (path : Path) (after : Option Text) :
    State Path Actor Digest :=
  { s with
    disk := update s.disk path after
    changes := update s.changes path
      (logWrite (s.changes path) (s.disk path) after) }

def edit (s : State Path Actor Digest) (actor : Option Actor)
    (path : Path) (text : Text) : State Path Actor Digest :=
  let before := s.disk path
  { s with
    disk := update s.disk path (some text)
    buffers := update s.buffers path none
    history := recordEdit digest s.limits s.clock actor s.history path before (some text)
    changes := update s.changes path <|
      if recorded s.limits s.history path before then s.changes path ++ [⟨before, some text⟩]
      else logWrite (s.changes path) before (some text) }

def UndoEntry.before (e : UndoEntry Actor Digest) : Option Text :=
  if e.existed then some e.content else none

/-- The write of the undo and the truncation of the list, which may have changed meanwhile. -/
def finishUndo (path : Path) (u : PendingUndo Actor Digest)
    (target : UndoEntry Actor Digest) : State Path Actor Digest :=
  { s with
    disk := update s.disk path target.before
    buffers := update s.buffers path none
    history := s.history.modify path fun list => list.take u.targetIdx
    pending := update s.pending path none
    changes := update s.changes path
      ((s.changes path).take ((s.changes path).length - u.steps)) }

def release (path : Path) : State Path Actor Digest :=
  { s with pending := update s.pending path none }

/-- `none` where the event cannot happen: the lock of the file is held, or a check refuses. -/
def step (s : State Path Actor Digest) :
    Event Path Actor → Option (State Path Actor Digest)
  | .tick elapsed => some { s with clock := s.clock + elapsed }
  | .configure limits => some { s with limits }
  | .editBuffer path text => some { s with buffers := update s.buffers path text }
  | .write path after => some (write s path after)
  | .edit actor path text expected =>
    if editAllowed s path expected then some (edit digest s actor path text) else none
  | .startUndo actor path steps =>
    match s.pending path, checkUndo digest s actor path steps with
    | none, .ok u => some { s with pending := update s.pending path (some u) }
    | _, _ => none
  | .finishUndo path =>
    match s.pending path with
    | none => none
    | some u =>
      match u.entries[u.targetIdx]? with
      | none => none
      | some target =>
        -- A file that is already gone cannot be removed, and the request fails.
        if !target.existed && (s.disk path).isNone then none
        else some (finishUndo s path u target)
  | .failUndo path => (s.pending path).map fun _ => release s path

def initial (limits : UndoLimits) (clock : ℕ) (disk buffers : Path → Option Text) :
    State Path Actor Digest :=
  { limits, clock, disk, buffers, history := ∅, pending := fun _ => none, changes := fun _ => [] }

end UndoHistory
