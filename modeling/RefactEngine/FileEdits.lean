import RefactEngine.ReadEvidence
import RefactEngine.Splices

/-! # Edits of one file

Text is replaced where it occurs, between or at anchors, or by line numbers. Every edit normalises
the line endings of the file, edits the normalised text, and restores one kind of line ending.
Positions are counted in characters.
-/
namespace FileEdits

open TextLines ApplyPatch PatchPlan ReadEvidence Splices

/-- What an edit asks of the file: the text it reads, how the path is shown in messages, and the
answer of `write_file` to a new content. -/
structure FileHost where
  getFileText : Except Text Text
  shownPath : Text
  writeFile : Text → Except Text Unit
  dry : Bool

structure Outcome where
  result : Except Text (Text × Text)
  written : Option Text
  deriving DecidableEq

variable (host : FileHost)

def FileHost.edit (compute : Text → Except Text Text) : Outcome :=
  match host.getFileText with
  | .error message => ⟨.error message, none⟩
  | .ok fileContent =>
    match compute fileContent with
    | .error message => ⟨.error message, none⟩
    | .ok newFileContent =>
      match host.writeFile newFileContent with
      | .error message => ⟨.error message, none⟩
      | .ok () =>
        ⟨.ok (fileContent, newFileContent), if host.dry then none else some newFileContent⟩

/-- The starts of the leftmost occurrences that do not overlap, in a text whose first character has
the number `index`; the next `skip` characters belong to the last occurrence. -/
def matchIndicesFrom (pattern : Text) : ℕ → ℕ → Text → List ℕ
  | _, _, [] => []
  | skip + 1, index, _ :: rest => matchIndicesFrom pattern skip (index + 1) rest
  | 0, index, c :: rest =>
    if pattern.isPrefixOf (c :: rest) then
      index :: matchIndicesFrom pattern (pattern.length - 1) (index + 1) rest
    else matchIndicesFrom pattern 0 (index + 1) rest

def matchIndices (pattern content : Text) : List ℕ := matchIndicesFrom pattern 0 0 content

def find (pattern content : Text) : Option ℕ := (matchIndices pattern content).head?

def occurrence (pattern new : Text) (index : ℕ) : Region Char :=
  ⟨index, index + pattern.length, new⟩

def replace (content pattern new : Text) : Text :=
  splice List.singleton content 0 ((matchIndices pattern content).map (occurrence pattern new))

def replacen (content pattern new : Text) (count : ℕ) : Text :=
  splice List.singleton content 0
    (((matchIndices pattern content).take count).map (occurrence pattern new))

/-- The parts of a text between the occurrences of a separator that is not empty; `piece` is what
was read of the present one. -/
def splitFrom (separator : Text) : ℕ → Text → Text → List Text
  | _, piece, [] => [piece]
  | skip + 1, piece, _ :: rest => splitFrom separator skip piece rest
  | 0, piece, c :: rest =>
    if separator.isPrefixOf (c :: rest) then
      piece :: splitFrom separator (separator.length - 1) [] rest
    else splitFrom separator 0 (piece ++ [c]) rest

def split (separator content : Text) : List Text := splitFrom separator 0 [] content

def decimal (n : ℕ) : Text := Nat.toDigits 10 n

def debugNumbers (numbers : List ℕ) : Text :=
  '[' :: ", ".toList.intercalate (numbers.map decimal) ++ [']']

def lineNumber (content : Text) (index : ℕ) : ℕ := (lines (content.take index)).length + 1

def findMatchLines (content pattern : Text) : List ℕ :=
  if pattern = [] then [] else (matchIndices pattern content).map (lineNumber content)

/-- The regular expression of a line number in front of a line: whether it matches in a line, and
the text without its matches. -/
structure NumberPrefix where
  isMatch : Text → Bool
  removeAll : Text → Text

variable (re : NumberPrefix)

def stripLineNumberPrefixes (s : Text) : Text :=
  let nonEmptyLines := (lines s).filter fun line => decide (trim line ≠ [])
  if nonEmptyLines.isEmpty || !nonEmptyLines.all re.isMatch then s else re.removeAll s

def emptyOldStr : Text :=
  "⚠️ old_str cannot be empty. 💡 Provide the exact text to replace".toList

def onlyLineNumbers : Text :=
  ("⚠️ old_str is empty after stripping line-number prefixes. " ++
    "💡 Provide actual source content, not just line numbers").toList

def oldStrNotFound (shownPath content old : Text) : Text :=
  let trimmedOld := trim old
  let hint := if decide (trimmedOld <:+: content) && decide (trimmedOld ≠ []) then
      "Whitespace mismatch detected. 💡 Check leading/trailing spaces, or use update_textdoc_anchored()"
    else
      "💡 Use cat() to verify content, or try update_textdoc_anchored() with shorter anchors"
  "⚠️ old_str not found in ".toList ++ shownPath ++ ". ".toList ++ hint.toList

def severalOccurrences (content old : Text) : Text :=
  "⚠️ ".toList ++ decimal (matchIndices old content).length ++ " occurrences at lines ".toList ++
    debugNumbers (findMatchLines content old) ++
    ". 💡 Add surrounding context to make unique, or set multiple:true".toList

def replaceContent (shownPath oldStr newStr : Text) (replaceMultiple : Bool)
    (fileContent : Text) : Except Text Text :=
  let content := normalizeLineEndings fileContent
  let old := stripLineNumberPrefixes re (normalizeLineEndings oldStr)
  if old = [] then .error onlyLineNumbers
  else
    let occurrences := (matchIndices old content).length
    if occurrences = 0 then .error (oldStrNotFound shownPath content old)
    else if !replaceMultiple && decide (1 < occurrences) then .error (severalOccurrences content old)
    else
      let new := normalizeLineEndings newStr
      let newContent := if replaceMultiple then replace content old new
        else replacen content old new 1
      .ok (restoreLineEndings newContent (containsCrlf fileContent))

def strReplace (host : FileHost) (oldStr newStr : Text) (replaceMultiple : Bool) :
    Outcome :=
  if oldStr = [] then ⟨.error emptyOldStr, none⟩
  else host.edit (replaceContent re host.shownPath oldStr newStr replaceMultiple)

inductive AnchorMode where
  | replaceBetween
  | insertAfter
  | insertBefore
  deriving DecidableEq

/-- Where an occurrence of the first anchor and the next one of the second anchor begin. -/
def anchorPairs (content before after : Text) : List (ℕ × ℕ) :=
  (matchIndices before content).filterMap fun start =>
    let stop := start + before.length
    (find after (content.drop stop)).map fun index => (start, stop + index)

def overlapping (width : ℕ) : List (ℕ × ℕ) → Option ((ℕ × ℕ) × (ℕ × ℕ))
  | p :: q :: rest =>
    if q.1 < p.2 + width then some (p, q) else overlapping width (q :: rest)
  | _ => none

def replaceBetweenAnchors (content before after replacement : Text) (multiple : Bool) :
    Except Text Text :=
  if before = [] then
    .error "⚠️ anchor_before cannot be empty. 💡 Provide unique text before the replacement".toList
  else if after = [] then
    .error "⚠️ anchor_after cannot be empty. 💡 Provide unique text after the replacement".toList
  else if (matchIndices before content).isEmpty then
    .error "⚠️ anchor_before not found. 💡 Use cat() to verify text exists".toList
  else
    let pairs := anchorPairs content before after
    if pairs.isEmpty then
      .error "⚠️ anchor_after not found after anchor_before. 💡 Check anchor order".toList
    else if !multiple && decide (1 < pairs.length) then
      .error ("⚠️ ".toList ++ decimal pairs.length ++ " anchor pairs at lines ".toList ++
        debugNumbers (pairs.map fun p => lineNumber content p.1) ++
        ". 💡 Use more specific anchors, or set multiple:true".toList)
    else
      let sorted := pairs.insertionSort fun p q => p.1 ≤ q.1
      match overlapping after.length sorted with
      | some (p, q) =>
        .error ("⚠️ Overlapping anchor regions at lines ".toList ++
          decimal (lineNumber content p.1) ++ " and ".toList ++
          decimal (lineNumber content q.1) ++ ". 💡 Use more specific anchors".toList)
      | none =>
        .ok (replaceAll content (sorted.map fun p =>
          ⟨p.1 + before.length, p.2 + after.length, replacement ++ after⟩))

def insertAtAnchor (content anchor insert : Text) (multiple after : Bool) : Except Text Text :=
  if anchor = [] then
    .error "⚠️ Anchor cannot be empty. 💡 Provide unique text to locate edit position".toList
  else
    let positions := matchIndices anchor content
    if positions.isEmpty then
      .error "⚠️ Anchor not found. 💡 Use cat() to verify text exists".toList
    else if !multiple && decide (1 < positions.length) then
      .error ("⚠️ ".toList ++ decimal positions.length ++ " anchor occurrences at lines ".toList ++
        debugNumbers (positions.map (lineNumber content)) ++
        ". 💡 Use more specific anchor, or set multiple:true".toList)
    else
      .ok (replaceAll content (positions.map fun pos =>
        let insertPos := if after then pos + anchor.length else pos
        ⟨insertPos, insertPos, insert⟩))

def anchoredContent (mode : AnchorMode) (anchor1 : Text) (anchor2 : Option Text) (content : Text)
    (multiple : Bool) (fileContent : Text) : Except Text Text :=
  let normalized := normalizeLineEndings fileContent
  let anchor1 := normalizeLineEndings anchor1
  let content := normalizeLineEndings content
  let result : Except Text Text := match mode with
    | .replaceBetween =>
      match anchor2 with
      | none => .error "⚠️ anchor_after required for replace_between mode".toList
      | some anchor2 =>
        if anchor2 = [] then .error "⚠️ anchor_after cannot be empty".toList
        else
          replaceBetweenAnchors normalized anchor1 (normalizeLineEndings anchor2) content multiple
    | .insertAfter => insertAtAnchor normalized anchor1 content multiple true
    | .insertBefore => insertAtAnchor normalized anchor1 content multiple false
  result.map fun text => restoreLineEndings text (containsCrlf fileContent)

def strReplaceAnchored (mode : AnchorMode) (anchor1 : Text) (anchor2 : Option Text)
    (content : Text) (multiple : Bool) : Outcome :=
  if anchor1 = [] then
    ⟨.error "⚠️ Anchor cannot be empty. 💡 Provide unique text to locate edit position".toList, none⟩
  else host.edit (anchoredContent mode anchor1 anchor2 content multiple)

structure LineRange where
  start : ℕ
  stop : ℕ
  deriving DecidableEq

def parseBound (start : Bool) (part text : Text) (default : ℕ) : Except Text ℕ :=
  if text = [] then .ok default
  else match parseUsize text with
    | some n => .ok n
    | none => .error ("⚠️ Invalid ".toList ++ (if start then "start" else "end").toList ++
        " '".toList ++ text ++ "' in '".toList ++ part ++ "'. 💡 Use numbers like '10:20'".toList)

def parseBounds (totalLines : ℕ) (part : Text) : Except Text LineRange :=
  match splitOnce [':'] part with
  | some (startStr, endStr) =>
    match parseBound true part (trim startStr) 1 with
    | .error message => .error message
    | .ok start =>
      match parseBound false part (trim endStr) totalLines with
      | .error message => .error message
      | .ok stop => .ok ⟨start, stop⟩
  | none =>
    match parseUsize part with
    | some line => .ok ⟨line, line⟩
    | none => .error ("⚠️ Invalid line '".toList ++ part ++
        "'. 💡 Use number like '10' or range '10:20'".toList)

/-- The sole range that may start behind the last line is one from line 1 of an empty file. -/
def checkRange (totalLines : ℕ) (part : Text) (range : LineRange) : Except Text Unit :=
  if range.start = 0 then
    .error "⚠️ Line numbers are 1-based, got 0. 💡 Use 1 for first line".toList
  else if range.stop < range.start then
    .error ("⚠️ Invalid range '".toList ++ part ++ "': end (".toList ++ decimal range.stop ++
      ") < start (".toList ++ decimal range.start ++ "). 💡 Use start:end format".toList)
  else if totalLines < range.start ∧ ¬ (totalLines = 0 ∧ range.start = 1) then
    .error ("⚠️ Line ".toList ++ decimal range.start ++ " beyond EOF (".toList ++
      decimal totalLines ++ " lines). 💡 Use cat() to check file length".toList)
  else .ok ()

def parseRanges (totalLines : ℕ) : List Text → Except Text (List LineRange)
  | [] => .ok []
  | part :: parts =>
    let part := trim part
    if part = [] then parseRanges totalLines parts
    else match parseBounds totalLines part with
      | .error message => .error message
      | .ok range =>
        match checkRange totalLines part range with
        | .error message => .error message
        | .ok () =>
          match parseRanges totalLines parts with
          | .error message => .error message
          | .ok ranges => .ok (range :: ranges)

def sharedLine : List LineRange → Option (LineRange × LineRange)
  | prev :: curr :: rest =>
    if curr.start ≤ prev.stop then some (prev, curr) else sharedLine (curr :: rest)
  | _ => none

def showRange (range : LineRange) : Text := decimal range.start ++ ':' :: decimal range.stop

def parseLineRanges (rangesStr : Text) (totalLines : ℕ) : Except Text (List LineRange) :=
  match parseRanges totalLines (rangesStr.splitOn ',') with
  | .error message => .error message
  | .ok ranges =>
    if ranges = [] then
      .error "⚠️ No ranges provided. 💡 Use format '10:20' or '5' or ':10,20:'".toList
    else match sharedLine (ranges.insertionSort fun a b => a.start ≤ b.start) with
      | some (prev, curr) =>
        .error ("⚠️ Overlapping ranges ".toList ++ showRange prev ++ " and ".toList ++
          showRange curr ++ ". 💡 Ranges must not overlap".toList)
      | none => .ok ranges

def rangeSeparator : Text := "---RANGE_SEPARATOR---".toList

variable (fileLines : List Text)

def spliceLines (startIdx endIdx : ℕ) (block : Text) : List Text :=
  replaceAt fileLines ⟨startIdx, endIdx, lines block⟩

def editRange (range : LineRange) (newContent : Text) :
    Except Text (List Text) :=
  let totalLines := fileLines.length
  if totalLines < range.stop ∧ ¬ (totalLines = 0 ∧ range.start = 1) then
    .error ("⚠️ Range end ".toList ++ decimal range.stop ++ " exceeds file length (".toList ++
      decimal totalLines ++ " lines). 💡 Use cat() to check file, or ':' for end".toList)
  else .ok (spliceLines fileLines (range.start - 1) (min range.stop totalLines) newContent)

def editSorted (fileLines : List Text) : List (LineRange × Text) → Except Text (List Text)
  | [] => .ok fileLines
  | (range, block) :: rest =>
    if fileLines.length < range.stop then
      .error ("⚠️ Range ".toList ++ showRange range ++ " exceeds current length (".toList ++
        decimal fileLines.length ++ " lines). 💡 Check ranges".toList)
    else editSorted (spliceLines fileLines (range.start - 1) range.stop block) rest

def editRanges (ranges : List LineRange) (newContent : Text) :
    Except Text (List Text) :=
  let contentParts := split rangeSeparator newContent
  if contentParts.length ≠ ranges.length then
    .error ("⚠️ ".toList ++ decimal contentParts.length ++ " content parts but ".toList ++
      decimal ranges.length ++
      " ranges. 💡 Separate content with '---RANGE_SEPARATOR---'".toList)
  else
    editSorted fileLines
      ((ranges.zip contentParts).insertionSort fun a b => b.1.start ≤ a.1.start)

def editLines (ranges : List LineRange) (newContent : Text) :
    Except Text (List Text) :=
  match ranges with
  | [range] => editRange fileLines range newContent
  | _ => editRanges fileLines ranges newContent

def linesContent (newContent rangesStr fileContent : Text) : Except Text Text :=
  let normalizedContent := normalizeLineEndings fileContent
  let fileLines := lines normalizedContent
  match parseLineRanges rangesStr fileLines.length with
  | .error message => .error message
  | .ok ranges =>
    let normalizedNewContent := normalizeLineEndings newContent
    (editLines fileLines ranges normalizedNewContent).map fun fileLines =>
      let joined := ['\n'].intercalate fileLines
      restoreLineEndings
        (if normalizedContent.getLast? = some '\n' then joined ++ ['\n'] else joined)
        (containsCrlf fileContent)

def strReplaceLines (newContent rangesStr : Text) : Outcome :=
  host.edit (linesContent newContent rangesStr)

end FileEdits
