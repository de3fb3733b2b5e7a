import Mathlib.Data.List.Sort
import RefactEngine.CoordinationSettings
import RefactEngine.TextLines
import Mathlib.Algebra.Order.Ring.Nat
import Mathlib.Data.List.Infix

/-! # Patches of several files

The text of a patch, its operations, and the update of a file's lines by the chunks of one
operation. Texts are lists of characters.
-/
namespace ApplyPatch

open CoordinationSettings TextLines

abbrev Text := List Char

structure UpdateChunk where
  changeContext : List Text
  oldLines : List Text
  newLines : List Text
  isEndOfFile : Bool
  deriving DecidableEq

inductive FileOperation where
  | add (path contents : Text)
  | delete (path : Text)
  | update (path : Text) (moveTo : Option Text) (chunks : List UpdateChunk)
  deriving DecidableEq

def trimEnd (text : Text) : Text := text.rdropWhile isWhitespace

def normalizeChar (c : Char) : Char :=
  if c = '\u2013' || c = '\u2014' || c = '\u2212' || c = '\u2011' then '-'
  else if c = '\u2018' || c = '\u2019' then '\u0027'
  else if c = '\u201C' || c = '\u201D' then '\u0022'
  else c

def normalizeLine (line : Text) : Text := (trimEnd line).map normalizeChar

def matchesBy (same : Text → Text → Bool) (haystack needle : List Text) : Bool :=
  decide (needle.length ≤ haystack.length) &&
    (haystack.zip needle).all fun pair => same pair.1 pair.2

def matchesSequence (haystack needle : List Text) : Bool :=
  matchesBy (fun h n => h = n || trimEnd h = trimEnd n) haystack needle

def matchesSequenceNormalized (haystack needle : List Text) : Bool :=
  matchesBy (fun h n => normalizeLine h = normalizeLine n) haystack needle

/-- The places in the file whose slices are compared with the pattern, in order. -/
def seekIndices (haystack needle : List Text) (startFrom : ℕ) (isEndOfFile : Bool) : List ℕ :=
  let maxIdx := haystack.length - needle.length
  let forward := List.range' startFrom (maxIdx + 1 - startFrom)
  if isEndOfFile then forward.reverse else forward

def seekSequence (haystack needle : List Text) (startFrom : ℕ) (isEndOfFile : Bool) : Option ℕ :=
  if needle = [] then none
  else
    let indices := seekIndices haystack needle startFrom isEndOfFile
    (indices.find? fun i => matchesSequence (haystack.drop i) needle).or
      (indices.find? fun i => matchesSequenceNormalized (haystack.drop i) needle)

structure Replacement where
  start : ℕ
  oldLen : ℕ
  newLines : List Text
  seq : ℕ

def Replacement.stop (r : Replacement) : ℕ := r.start + r.oldLen

def seekContext (lines : List Text) : ℕ → List Text → Except Text ℕ
  | lineIndex, [] => .ok lineIndex
  | lineIndex, ctx :: rest =>
    match seekSequence lines [ctx] lineIndex false with
    | some idx => seekContext lines (idx + 1) rest
    | none => .error ("Failed to find context '".toList ++ ctx ++ "' in file".toList)

def endOfFileIndex (lines : List Text) : ℕ :=
  if lines.getLast? = some [] then lines.length - 1 else lines.length

def dropLastEmpty (lines : List Text) : List Text :=
  if lines.getLast? = some [] then lines.dropLast else lines

/-- A window for the old lines of a chunk; an empty last line of the pattern may be missing from
the file. -/
def findWindow (lines : List Text) (lineIndex : ℕ) (seq : ℕ) (chunk : UpdateChunk) :
    Option Replacement :=
  match seekSequence lines chunk.oldLines lineIndex chunk.isEndOfFile with
  | some idx => some ⟨idx, chunk.oldLines.length, chunk.newLines, seq⟩
  | none =>
    if chunk.oldLines.getLast? = some [] then
      (seekSequence lines chunk.oldLines.dropLast lineIndex chunk.isEndOfFile).map fun idx =>
        ⟨idx, chunk.oldLines.dropLast.length, dropLastEmpty chunk.newLines, seq⟩
    else none

/-- One pass of the loop: the chunk's replacement, if it has content, and the next line index. -/
def placeChunk (lines : List Text) (lineIndex seq : ℕ) (chunk : UpdateChunk) :
    Except Text (Option Replacement × ℕ) :=
  match seekContext lines lineIndex chunk.changeContext with
  | .error message => .error message
  | .ok lineIndex =>
    if chunk.oldLines = [] then
      let insertionIdx := if chunk.isEndOfFile then endOfFileIndex lines else lineIndex
      if chunk.newLines = [] then .ok (none, lineIndex)
      else .ok (some ⟨insertionIdx, 0, chunk.newLines, seq⟩, insertionIdx + chunk.newLines.length)
    else match findWindow lines lineIndex seq chunk with
      | some r => .ok (some r, r.stop)
      | none => .error ("Failed to find expected lines in file:\n".toList ++
          ['\n'].intercalate (chunk.oldLines.take 5))

def placeChunks (lines : List Text) : ℕ → ℕ → List UpdateChunk → Except Text (List Replacement)
  | _, _, [] => .ok []
  | lineIndex, seq, chunk :: rest =>
    match placeChunk lines lineIndex seq chunk with
    | .error message => .error message
    | .ok (placed, lineIndex) =>
      match placeChunks lines lineIndex (seq + 1) rest with
      | .error message => .error message
      | .ok others => .ok (placed.toList ++ others)

def Replacement.le (a b : Replacement) : Prop :=
  a.start < b.start ∨ (a.start = b.start ∧ a.seq ≤ b.seq)

instance : DecidableRel Replacement.le :=
  fun a b => inferInstanceAs (Decidable (a.start < b.start ∨ (a.start = b.start ∧ a.seq ≤ b.seq)))

def computeReplacements (lines : List Text) (chunks : List UpdateChunk) :
    Except Text (List Replacement) :=
  match placeChunks lines 0 0 chunks with
  | .error message => .error message
  | .ok replacements => .ok (replacements.insertionSort Replacement.le)

/-- Replaces one window; a window that starts behind the last line makes the splice panic. -/
def splice (r : Replacement) (lines : List Text) : Option (List Text) :=
  let endIdx := min r.stop lines.length
  if r.start ≤ endIdx then some (lines.take r.start ++ r.newLines ++ lines.drop endIdx) else none

def spliceAll (lines : List Text) : List Replacement → Option (List Text)
  | [] => some lines
  | r :: rest => (spliceAll lines rest).bind (splice r)

def joinLines (lines : List Text) (hadTrailingNewline : Bool) : Text :=
  let result := ['\n'].intercalate lines
  if result ≠ [] || hadTrailingNewline then result ++ ['\n'] else result

inductive UpdateFailure where
  | failed (message : Text)
  | panicked
  deriving DecidableEq

def hadTrailingNewline (original : Text) : Bool := original.getLast? = some '\n'

def applyUpdateChunks (original : Text) (chunks : List UpdateChunk) :
    Except UpdateFailure Text :=
  match computeReplacements (lines original) chunks with
  | .error message => .error (.failed message)
  | .ok replacements =>
    match spliceAll (lines original) replacements with
    | none => .error .panicked
    | some lines => .ok (joinLines lines (hadTrailingNewline original))

inductive ParseError where
  | invalidPatch (message : Text)
  | invalidHunk (message : Text) (lineNumber : ℕ)
  deriving DecidableEq

def trim (text : Text) : Text := trimBy isWhitespace text

/-- Whether a line reads as the given marker once the white space around it is gone. -/
def isMarked (marker : String) (line : Text) : Bool := marker.toList.isPrefixOf (trim line)

structure Cursor where
  index : ℕ
  rest : List Text

def parsePath (label : String) (i : ℕ) (line : Text) : Except ParseError Text :=
  if isMarked ("*** " ++ label ++ ":") line then
    let path := trim ((trim line).drop ("*** " ++ label ++ ":").length)
    if path = [] then .error (.invalidHunk (label ++ " path cannot be empty").toList (i + 1))
    else .ok path
  else .error (.invalidPatch ("Invalid " ++ label ++ " header").toList)

def parseAddLines : ℕ → List Text → Except ParseError (List Text × Cursor)
  | i, [] => .ok ([], ⟨i, []⟩)
  | i, line :: rest =>
    if isMarked "*** " line then .ok ([], ⟨i, line :: rest⟩)
    else match line with
      | '+' :: content =>
        match parseAddLines (i + 1) rest with
        | .error error => .error error
        | .ok (contents, next) => .ok (content :: contents, next)
      | _ => .error (.invalidHunk
          ("Add File lines must start with '+', found: '".toList ++ line ++ "'".toList) (i + 1))

def addedContents (contentLines : List Text) : Text :=
  if contentLines = [] then [] else ['\n'].intercalate contentLines ++ ['\n']

def parseAddFile (i : ℕ) (line : Text) (rest : List Text) :
    Except ParseError (FileOperation × Cursor) :=
  match parsePath "Add File" i line with
  | .error error => .error error
  | .ok path =>
    match parseAddLines (i + 1) rest with
    | .error error => .error error
    | .ok (contentLines, next) => .ok (.add path (addedContents contentLines), next)

def parseDeleteFile (i : ℕ) (line : Text) (rest : List Text) :
    Except ParseError (FileOperation × Cursor) :=
  match parsePath "Delete File" i line with
  | .error error => .error error
  | .ok path => .ok (.delete path, ⟨i + 1, rest⟩)

/-- The context lines at the head of a hunk; an empty one only separates. -/
def parseContexts : ℕ → List Text → List Text × Cursor
  | i, [] => ([], ⟨i, []⟩)
  | i, line :: rest =>
    if isMarked "@@" line then
      let ctx := trim ((trim line).drop 2)
      let (contexts, next) := parseContexts (i + 1) rest
      (if ctx = [] then contexts else ctx :: contexts, next)
    else ([], ⟨i, line :: rest⟩)

structure HunkBody where
  oldLines : List Text
  newLines : List Text
  isEndOfFile : Bool

inductive HunkLine where
  | removed (content : Text)
  | added (content : Text)
  | context (content : Text)
  deriving DecidableEq

def readHunkLine : Text → Option HunkLine
  | '+' :: content => some (.added content)
  | '-' :: content => some (.removed content)
  | ' ' :: content => some (.context content)
  | [] => some (.context [])
  | _ => none

def HunkLine.push : HunkLine → HunkBody → HunkBody
  | .removed content, body => { body with oldLines := content :: body.oldLines }
  | .added content, body => { body with newLines := content :: body.newLines }
  | .context content, body =>
    { body with oldLines := content :: body.oldLines, newLines := content :: body.newLines }

def parseHunkLines : ℕ → List Text → Except ParseError (HunkBody × Cursor)
  | i, [] => .ok (⟨[], [], false⟩, ⟨i, []⟩)
  | i, line :: rest =>
    if isMarked "*** End of File" line then .ok (⟨[], [], true⟩, ⟨i + 1, rest⟩)
    else if isMarked "*** " line || isMarked "@@" line then
      .ok (⟨[], [], false⟩, ⟨i, line :: rest⟩)
    else match readHunkLine line with
      | none => .error (.invalidHunk
          ("Invalid diff line (must start with +, -, or space): '".toList ++ line ++ "'".toList)
          (i + 1))
      | some read =>
        match parseHunkLines (i + 1) rest with
        | .error error => .error error
        | .ok (body, next) => .ok (read.push body, next)

def parseHunk (start : Cursor) : Except ParseError (UpdateChunk × Cursor) :=
  let (contexts, next) := parseContexts start.index start.rest
  match parseHunkLines next.index next.rest with
  | .error error => .error error
  | .ok (body, next) => .ok (⟨contexts, body.oldLines, body.newLines, body.isEndOfFile⟩, next)

/-- The hunks of an update up to the next operation. Every pass reads at least one line, so there
are at most as many passes as lines. -/
def parseHunks : ℕ → Cursor → Except ParseError (List UpdateChunk × Cursor)
  | 0, start => .ok ([], start)
  | _ + 1, ⟨i, []⟩ => .ok ([], ⟨i, []⟩)
  | passes + 1, ⟨i, line :: rest⟩ =>
    if isMarked "*** Add File:" line || isMarked "*** Delete File:" line ||
        isMarked "*** Update File:" line || isMarked "*** End Patch" line then
      .ok ([], ⟨i, line :: rest⟩)
    else if isMarked "@@" line || isMarked "+" line || isMarked "-" line || isMarked " " line then
      match parseHunk ⟨i, line :: rest⟩ with
      | .error error => .error error
      | .ok (chunk, next) =>
        match parseHunks passes next with
        | .error error => .error error
        | .ok (chunks, next) => .ok (chunk :: chunks, next)
    else if trim line = [] then parseHunks passes ⟨i + 1, rest⟩
    else .error (.invalidHunk
      ("Unexpected line in Update File: '".toList ++ trim line ++ "'".toList) (i + 1))

def parseMove : Cursor → Except ParseError (Option Text × Cursor)
  | ⟨i, []⟩ => .ok (none, ⟨i, []⟩)
  | ⟨i, line :: rest⟩ =>
    if isMarked "*** Move to:" line then
      match parsePath "Move to" i line with
      | .error error => .error error
      | .ok path => .ok (some path, ⟨i + 1, rest⟩)
    else .ok (none, ⟨i, line :: rest⟩)

def parseUpdateFile (i : ℕ) (line : Text) (rest : List Text) :
    Except ParseError (FileOperation × Cursor) :=
  match parsePath "Update File" i line with
  | .error error => .error error
  | .ok path =>
    match parseMove ⟨i + 1, rest⟩ with
    | .error error => .error error
    | .ok (moveTo, next) =>
      match parseHunks next.rest.length next with
      | .error error => .error error
      | .ok (chunks, next) =>
        if chunks = [] then
          .error (.invalidHunk "Update File requires at least one hunk".toList (i + 1))
        else .ok (.update path moveTo chunks, next)

def parseOperation (i : ℕ) (line : Text) (rest : List Text) :
    Except ParseError (FileOperation × Cursor) :=
  if isMarked "*** Add File:" line then parseAddFile i line rest
  else if isMarked "*** Delete File:" line then parseDeleteFile i line rest
  else if isMarked "*** Update File:" line then parseUpdateFile i line rest
  else .error (.invalidHunk ("Unexpected line: '".toList ++ trim line ++ "'".toList) (i + 1))

def parseOperations : ℕ → Cursor → Except ParseError (List FileOperation × Bool)
  | 0, _ => .ok ([], false)
  | _ + 1, ⟨_, []⟩ => .ok ([], false)
  | passes + 1, ⟨i, line :: rest⟩ =>
    if isMarked "*** End Patch" line then .ok ([], true)
    else if trim line = [] then parseOperations passes ⟨i + 1, rest⟩
    else match parseOperation i line rest with
      | .error error => .error error
      | .ok (operation, next) =>
        match parseOperations passes next with
        | .error error => .error error
        | .ok (operations, found) => .ok (operation :: operations, found)

def skipBlank : ℕ → List Text → Cursor
  | i, [] => ⟨i, []⟩
  | i, line :: rest => if trim line = [] then skipBlank (i + 1) rest else ⟨i, line :: rest⟩

def parsePatch (patch : Text) : Except ParseError (List FileOperation) :=
  match skipBlank 0 (lines patch) with
  | ⟨_, []⟩ => .error (.invalidPatch "Patch must start with '*** Begin Patch'".toList)
  | ⟨i, line :: rest⟩ =>
    if isMarked "*** Begin Patch" line then
      match parseOperations rest.length ⟨i + 1, rest⟩ with
      | .error error => .error error
      | .ok (operations, found) =>
        if !found then .error (.invalidPatch "Patch must end with '*** End Patch'".toList)
        else if operations = [] then .error (.invalidPatch "No file operations found".toList)
        else .ok operations
    else .error (.invalidPatch "Patch must start with '*** Begin Patch'".toList)

end ApplyPatch
