import RefactEngine.TextLines
import RefactEngine.Utf8Prefix

/-! # Transcripts of processes

Every chunk of output is stored under the next number, cut to the size of the transcript, and the
oldest chunks make room for it. A reader pages through the chunks by number. Once the output exceeds
a threshold, all of it goes to a file, up to a cap.
-/
namespace ExecTranscript

open TextLines Utf8Prefix

abbrev Text := List Char

inductive ExecOutputStream where
  | stdout
  | stderr
  | combined
  deriving DecidableEq

structure ExecOutputChunk where
  processId : Text
  seq : ℕ
  stream : ExecOutputStream
  text : Text
  timestampMs : ℕ
  deriving DecidableEq

structure SpillTarget where
  root : Text
  chatComponent : Text
  processComponent : Text
  deriving DecidableEq

structure SpillAppend where
  target : SpillTarget
  text : Text
  deriving DecidableEq

structure Transcript where
  processId : Text
  chunks : List ExecOutputChunk
  nextSeq : ℕ
  totalBytesAppended : ℕ
  totalLinesAppended : ℕ
  droppedChunks : ℕ
  droppedBytes : ℕ
  truncatedChunks : ℕ
  currentBytes : ℕ
  maxBytes : ℕ
  spillThresholdBytes : ℕ
  spill : Option SpillTarget
  diskLogPath : Option Text
  lastSpillError : Option Text
  preSpillBuffer : Text
  spillStarted : Bool
  spillBytes : ℕ
  spillMaxBytes : ℕ
  spillTruncated : Bool
  deriving DecidableEq

structure Config where
  processId : Text
  maxBytes : ℕ
  spill : Option SpillTarget
  spillThresholdBytes : ℕ
  spillMaxBytes : ℕ
  deriving DecidableEq

def normalizeMaxBytes (maxBytes : ℕ) : ℕ := max maxBytes 1

variable (config : Config)

def Transcript.new : Transcript where
  processId := config.processId
  chunks := []
  nextSeq := 0
  totalBytesAppended := 0
  totalLinesAppended := 0
  droppedChunks := 0
  droppedBytes := 0
  truncatedChunks := 0
  currentBytes := 0
  maxBytes := normalizeMaxBytes config.maxBytes
  spillThresholdBytes := config.spillThresholdBytes
  spill := config.spill
  diskLogPath := none
  lastSpillError := none
  preSpillBuffer := []
  spillStarted := false
  spillBytes := 0
  spillMaxBytes := config.spillMaxBytes
  spillTruncated := false

def truncateToCharBoundary (s : Text) (maxBytes : ℕ) : Text :=
  if byteLength s ≤ maxBytes then s else takeBytes s (floorBoundary s maxBytes)

/-- Drops chunks from the front until the new one fits; `chunks` are those still there. -/
def evict (chunkBytes : ℕ) : List ExecOutputChunk → Transcript → Transcript
  | [], t => { t with chunks := [] }
  | evicted :: rest, t =>
    if t.maxBytes < t.currentBytes + chunkBytes then
      evict chunkBytes rest
        { t with
          currentBytes := t.currentBytes - byteLength evicted.text
          droppedChunks := t.droppedChunks + 1
          droppedBytes := t.droppedBytes + byteLength evicted.text }
    else { t with chunks := evicted :: rest }

variable (t : Transcript)

def appendChunkToRing (stream : ExecOutputStream) (text : Text) (nowMs : ℕ) :
    Transcript × ExecOutputChunk :=
  if text = [] then (t, ⟨t.processId, t.nextSeq, stream, text, nowMs⟩)
  else
    let finalText :=
      if t.maxBytes < byteLength text then truncateToCharBoundary text t.maxBytes else text
    let chunk : ExecOutputChunk := ⟨t.processId, t.nextSeq, stream, finalText, nowMs⟩
    let roomy := evict (byteLength finalText) t.chunks
      { t with
        nextSeq := t.nextSeq + 1
        totalBytesAppended := t.totalBytesAppended + byteLength text
        totalLinesAppended := t.totalLinesAppended + max (lines text).length 1
        truncatedChunks := t.truncatedChunks + if t.maxBytes < byteLength text then 1 else 0 }
    ({ roomy with
        currentBytes := roomy.currentBytes + byteLength finalText
        chunks := roomy.chunks ++ [chunk] }, chunk)

variable (target : SpillTarget) (text : Text)

def continueSpill :
    Transcript × Option SpillAppend :=
  let remaining := t.spillMaxBytes - t.spillBytes
  if remaining = 0 then ({ t with spillTruncated := true }, none)
  else
    let kept := truncateToCharBoundary text remaining
    ({ t with
        spillBytes := t.spillBytes + byteLength kept
        spillTruncated := t.spillTruncated || decide (byteLength kept < byteLength text) },
      some ⟨target, kept⟩)

def startSpill :
    Transcript × Option SpillAppend :=
  let fullText := t.preSpillBuffer ++ text
  let kept := truncateToCharBoundary fullText t.spillMaxBytes
  ({ t with
      spillStarted := true
      preSpillBuffer := []
      spillBytes := byteLength kept
      spillTruncated := decide (byteLength kept < byteLength fullText) },
    some ⟨target, kept⟩)

def spillText :
    Transcript × Option SpillAppend :=
  if t.spillStarted then continueSpill t target text
  else if t.totalBytesAppended + byteLength text ≤ t.spillThresholdBytes then
    ({ t with preSpillBuffer := t.preSpillBuffer ++ text }, none)
  else startSpill t target text

def prepareSpillAppend : Transcript × Option SpillAppend :=
  if text = [] ∨ t.spillTruncated = true then (t, none)
  else
    match t.spill with
    | none => (t, none)
    | some target => spillText t target text

def appendChunk (stream : ExecOutputStream) (text : Text) (nowMs : ℕ) :
    Transcript × ExecOutputChunk × Option SpillAppend :=
  let prepared := prepareSpillAppend t text
  let appended := appendChunkToRing prepared.1 stream text nowMs
  (appended.1, appended.2, prepared.2)

def recordSpillResult (result : Except Text Text) : Transcript :=
  match result with
  | .ok path => { t with diskLogPath := some path, lastSpillError := none }
  | .error error => { t with lastSpillError := some error }

def isTruncated : Bool := decide (0 < t.droppedChunks ∨ 0 < t.truncatedChunks)

structure ExecReadResult where
  processId : Text
  found : Bool
  sinceSeq : ℕ
  nextSeq : ℕ
  latestSeq : ℕ
  chunks : List ExecOutputChunk
  totalBytesAppended : ℕ
  totalLinesAppended : ℕ
  droppedChunks : ℕ
  droppedBytes : ℕ
  truncatedChunks : ℕ
  currentBytes : ℕ
  maxBytes : ℕ
  chunkCount : ℕ
  isTruncated : Bool
  diskLogPath : Option Text
  deriving DecidableEq

def readSince (sinceSeq : ℕ) : List ExecOutputChunk :=
  t.chunks.filter fun chunk => decide (sinceSeq ≤ chunk.seq)

def limited (limit : Option ℕ) (chunks : List ExecOutputChunk) : List ExecOutputChunk :=
  match limit with
  | none => chunks
  | some limit => chunks.take limit

def read (sinceSeq : ℕ) (limit : Option ℕ) : ExecReadResult :=
  let chunks := limited limit (readSince t sinceSeq)
  { processId := t.processId
    found := true
    sinceSeq
    nextSeq := (chunks.getLast?.map fun chunk => chunk.seq + 1).getD sinceSeq
    latestSeq := t.nextSeq
    chunks
    totalBytesAppended := t.totalBytesAppended
    totalLinesAppended := t.totalLinesAppended
    droppedChunks := t.droppedChunks
    droppedBytes := t.droppedBytes
    truncatedChunks := t.truncatedChunks
    currentBytes := t.currentBytes
    maxBytes := t.maxBytes
    chunkCount := t.chunks.length
    isTruncated := isTruncated t
    diskLogPath := t.diskLogPath }

inductive Op where
  | append (stream : ExecOutputStream) (text : Text) (nowMs : ℕ)
  | spilled (result : Except Text Text)
  | read (limit : Option ℕ)

/-- The transcript with the place of one reader; the rest is history: the texts that were appended,
the chunks they became, what the reader received and the texts that were spilled. -/
structure State where
  transcript : Transcript
  since : ℕ
  appended : List Text
  emitted : List ExecOutputChunk
  received : List ExecOutputChunk
  spilledTexts : List Text
  deriving DecidableEq

def start (since : ℕ) : State := ⟨.new config, since, [], [], [], []⟩

def step (s : State) : Op → State
  | .append stream text nowMs =>
    let result := appendChunk s.transcript stream text nowMs
    { s with
      transcript := result.1
      appended := s.appended ++ [text]
      emitted := s.emitted ++ if text = [] then [] else [result.2.1]
      spilledTexts := s.spilledTexts ++ (result.2.2.map SpillAppend.text).toList }
  | .spilled result => { s with transcript := recordSpillResult s.transcript result }
  | .read limit =>
    let result := ExecTranscript.read s.transcript s.since limit
    { s with since := result.nextSeq, received := s.received ++ result.chunks }

def run (since : ℕ) (ops : List Op) : State := ops.foldl step (start config since)

end ExecTranscript
