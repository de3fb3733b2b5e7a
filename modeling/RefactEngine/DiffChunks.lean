import RefactEngine.Alignments
import RefactEngine.PatchPlan

/-! # Diff chunks of an edit

An edit is shown as the chunks between the lines that both versions of a file have in common. Three
counters run over an alignment of the versions, and each chunk looks up the lines around it.
-/
namespace DiffChunks

open Alignments TextLines ApplyPatch PatchPlan List

structure DiffChunk where
  fileName : Text
  fileAction : String
  line1 : ℕ
  line2 : ℕ
  linesRemove : Text
  linesAdd : Text
  linesBefore : Option Text
  linesAfter : Option Text
  fileNameRename : Option Text
  isFile : Bool
  applicationDetails : Text

/-- What the loop has gathered since the last common line. -/
structure CurrentChunk where
  linesRemove : List Text
  linesAdd : List Text
  lineNums : List ℕ
  oldLineNums : List ℕ
  newLineNums : List ℕ
  isPlus : List Bool

def CurrentChunk.empty : CurrentChunk := ⟨[], [], [], [], [], []⟩

def terminated (line : Text) : Text := line ++ ['\n']

def contextLine (lines : List Text) (index : ℕ) : Option Text := lines[index]?.map terminated

def checkedPred : ℕ → Option ℕ
  | 0 => none
  | n + 1 => some n

def flushChanges (path : Path) (beforeLines afterLines : List Text) (current : CurrentChunk) :
    Option DiffChunk :=
  if current.linesRemove.isEmpty && current.linesAdd.isEmpty then none
  else
    let minLineIndex := current.lineNums.min?.getD 0
    let maxOldLineIndex := current.oldLineNums.max?
    let maxNewLineIndex := current.newLineNums.max?
    let ends := (current.lineNums.zip current.isPlus).map fun (num, isPlus) =>
      if isPlus then num + 1 else num + 2
    let afterContextIndex := (maxNewLineIndex.map (· + 1)).or maxOldLineIndex
    some
      { fileName := toStringLossy path
        fileAction := "edit"
        line1 := minLineIndex + 1
        line2 := ends.max?.getD 1
        linesRemove := current.linesRemove.flatten
        linesAdd := current.linesAdd.flatten
        linesBefore :=
          ((current.oldLineNums.min?.or current.newLineNums.min?).bind checkedPred).bind
            (contextLine beforeLines)
        linesAfter := afterContextIndex.bind (contextLine afterLines)
        fileNameRename := none
        isFile := false
        applicationDetails := [] }

structure Scan where
  lineNum : ℕ
  oldLineNum : ℕ
  newLineNum : ℕ
  current : CurrentChunk
  diffChunks : List DiffChunk

def Scan.read (flush : CurrentChunk → Option DiffChunk) (s : Scan) : Edit Text → Scan
  | .left l =>
    { s with
      current :=
        { s.current with
          linesRemove := s.current.linesRemove ++ [terminated l]
          lineNums := s.current.lineNums ++ [s.lineNum]
          oldLineNums := s.current.oldLineNums ++ [s.oldLineNum]
          isPlus := s.current.isPlus ++ [false] }
      oldLineNum := s.oldLineNum + 1
      lineNum := s.lineNum + 1 }
  | .right r =>
    { s with
      current :=
        { s.current with
          linesAdd := s.current.linesAdd ++ [terminated r]
          lineNums := s.current.lineNums ++ [s.lineNum]
          newLineNums := s.current.newLineNums ++ [s.newLineNum]
          isPlus := s.current.isPlus ++ [true] }
      newLineNum := s.newLineNum + 1 }
  | .both _ _ =>
    { current := .empty
      diffChunks := s.diffChunks ++ (flush s.current).toList
      oldLineNum := s.oldLineNum + 1
      newLineNum := s.newLineNum + 1
      lineNum := s.lineNum + 1 }

def convertEditToDiffchunks (diffLines : Text → Text → List (Edit Text)) (path : Path)
    (before after : Text) : List DiffChunk :=
  let flush := flushChanges path (lines before) (lines after)
  let s := (diffLines before after).foldl (Scan.read flush) ⟨0, 0, 0, .empty, []⟩
  s.diffChunks ++ (flush s.current).toList

def text (lines : List Text) : Text := lines.flatMap terminated

/-- What the chunk of a change shows. Without a removed line the line before is looked up with the
number of the new version, without an added line the line after with that of the old one. -/
def chunkOf (path : Path) (beforeLines afterLines : List Text) (c : Change Text) : DiffChunk :=
  { fileName := toStringLossy path
    fileAction := "edit"
    line1 := c.old + 1
    line2 := c.oldEnd + 1
    linesRemove := text c.removed
    linesAdd := text c.added
    linesBefore := (checkedPred (if c.removed = [] then c.new else c.old)).bind
      (contextLine beforeLines)
    linesAfter := contextLine afterLines (if c.added = [] then c.oldEnd - 1 else c.newEnd)
    fileNameRename := none
    isFile := false
    applicationDetails := [] }

theorem min?_concat (nums : List ℕ) (n : ℕ) :
    (nums ++ [n]).min? = some (nums.min?.elim n (min · n)) := by
  cases nums with
  | nil => rfl
  | cons num nums =>
    rw [cons_append, List.min?_cons', List.min?_cons', foldl_append]
    rfl

theorem max?_concat (nums : List ℕ) (n : ℕ) :
    (nums ++ [n]).max? = some (nums.max?.elim n (max · n)) := by
  cases nums with
  | nil => rfl
  | cons num nums =>
    rw [cons_append, List.max?_cons', List.max?_cons', foldl_append]
    rfl

/-- The counters and the gathered numbers, in terms of the run of changes just read. -/
structure Tracks (s : Scan) (c : Change Text) : Prop where
  lineNum : s.lineNum = c.oldEnd
  oldLineNum : s.oldLineNum = c.oldEnd
  newLineNum : s.newLineNum = c.newEnd
  linesRemove : s.current.linesRemove = c.removed.map terminated
  linesAdd : s.current.linesAdd = c.added.map terminated
  marks : s.current.lineNums.length = s.current.isPlus.length
  start : s.current.lineNums.min? =
    if c.removed = [] ∧ c.added = [] then none else some c.old
  ends : ((s.current.lineNums.zip s.current.isPlus).map fun (num, isPlus) =>
    if isPlus then num + 1 else num + 2).max? =
      if c.removed = [] ∧ c.added = [] then none else some (c.oldEnd + 1)
  oldMin : s.current.oldLineNums.min? = if c.removed = [] then none else some c.old
  oldMax : s.current.oldLineNums.max? = if c.removed = [] then none else some (c.oldEnd - 1)
  newMin : s.current.newLineNums.min? = if c.added = [] then none else some c.new
  newMax : s.current.newLineNums.max? = if c.added = [] then none else some (c.newEnd - 1)

theorem tracks_empty {s : Scan} {old new : ℕ} (hnum : s.lineNum = old) (hold : s.oldLineNum = old)
    (hnew : s.newLineNum = new) (hempty : s.current = .empty) : Tracks s ⟨old, new, [], []⟩ := by
  constructor <;> simp [hnum, hold, hnew, hempty, CurrentChunk.empty, Change.oldEnd, Change.newEnd]

namespace Tracks

variable {s : Scan} {c : Change Text} {path : Path} {beforeLines afterLines : List Text}
  {flush : CurrentChunk → Option DiffChunk}

theorem left (h : Tracks s c) (l : Text) :
    Tracks (s.read flush (.left l)) { c with removed := c.removed ++ [l] } := by
  have hend : ({ c with removed := c.removed ++ [l] } : Change Text).oldEnd = c.oldEnd + 1 := by
    simp [Change.oldEnd, Nat.add_assoc]
  have hle : c.old ≤ c.oldEnd := Nat.le_add_right _ _
  constructor
  case lineNum => exact (congrArg (· + 1) h.lineNum).trans hend.symm
  case oldLineNum => exact (congrArg (· + 1) h.oldLineNum).trans hend.symm
  case newLineNum => exact h.newLineNum
  case linesRemove => simp [Scan.read, h.linesRemove]
  case linesAdd => exact h.linesAdd
  case marks => simp [Scan.read, h.marks]
  case start =>
    rw [if_neg (by simp)]
    simp only [Scan.read, min?_concat, h.start, h.lineNum]
    split_ifs with hnone
    · simp [Change.oldEnd, hnone.1]
    · simp [hle]
  case ends =>
    rw [if_neg (by simp), hend]
    simp only [Scan.read, zip_append h.marks, map_append, zip_cons_cons,
      zip_nil_right, map_cons, map_nil, max?_concat, h.ends, h.lineNum]
    by_cases hnone : c.removed = [] ∧ c.added = []
    · rw [if_pos hnone]
      simp
    · rw [if_neg hnone]
      simp
  case oldMin =>
    rw [if_neg (by simp)]
    simp only [Scan.read, min?_concat, h.oldMin, h.oldLineNum]
    split_ifs with hnone
    · simp [Change.oldEnd, hnone]
    · simp [hle]
  case oldMax =>
    rw [if_neg (by simp), hend]
    simp only [Scan.read, max?_concat, h.oldMax, h.oldLineNum]
    split_ifs with hnone
    · simp
    · simp
  case newMin => exact h.newMin
  case newMax => exact h.newMax

theorem right (h : Tracks s c) (r : Text) :
    Tracks (s.read flush (.right r)) { c with added := c.added ++ [r] } := by
  have hend : ({ c with added := c.added ++ [r] } : Change Text).newEnd = c.newEnd + 1 := by
    simp [Change.newEnd, Nat.add_assoc]
  have hsame : ({ c with added := c.added ++ [r] } : Change Text).oldEnd = c.oldEnd := rfl
  have hle : c.new ≤ c.newEnd := Nat.le_add_right _ _
  have hold : c.old ≤ c.oldEnd := Nat.le_add_right _ _
  constructor
  case lineNum => exact h.lineNum
  case oldLineNum => exact h.oldLineNum
  case newLineNum => exact (congrArg (· + 1) h.newLineNum).trans hend.symm
  case linesRemove => exact h.linesRemove
  case linesAdd => simp [Scan.read, h.linesAdd]
  case marks => simp [Scan.read, h.marks]
  case start =>
    rw [if_neg (by simp)]
    simp only [Scan.read, min?_concat, h.start, h.lineNum]
    split_ifs with hnone
    · simp [Change.oldEnd, hnone.1]
    · simp [hold]
  case ends =>
    rw [if_neg (by simp), hsame]
    simp only [Scan.read, zip_append h.marks, map_append, zip_cons_cons,
      zip_nil_right, map_cons, map_nil, max?_concat, h.ends, h.lineNum]
    by_cases hnone : c.removed = [] ∧ c.added = []
    · rw [if_pos hnone]
      simp
    · rw [if_neg hnone]
      simp
  case oldMin => exact h.oldMin
  case oldMax => exact h.oldMax
  case newMin =>
    rw [if_neg (by simp)]
    simp only [Scan.read, min?_concat, h.newMin, h.newLineNum]
    split_ifs with hnone
    · simp [Change.newEnd, hnone]
    · simp [hle]
  case newMax =>
    rw [if_neg (by simp), hend]
    simp only [Scan.read, max?_concat, h.newMax, h.newLineNum]
    split_ifs with hnone
    · simp
    · simp

theorem flush_eq (h : Tracks s c) :
    (flushChanges path beforeLines afterLines s.current).toList =
      c.close.map (chunkOf path beforeLines afterLines) := by
  have hnone : (s.current.linesRemove.isEmpty && s.current.linesAdd.isEmpty) =
      (c.removed.isEmpty && c.added.isEmpty) := by
    rw [h.linesRemove, h.linesAdd, isEmpty_map, isEmpty_map]
  rw [flushChanges, Change.close, hnone]
  split_ifs with hempty
  · rfl
  · have hchanged : ¬ (c.removed = [] ∧ c.added = []) := by simpa using hempty
    have hbef : (s.current.oldLineNums.min?.or s.current.newLineNums.min?) =
        some (if c.removed = [] then c.new else c.old) := by
      rw [h.oldMin, h.newMin]
      split_ifs <;> simp_all
    have hafter : ((s.current.newLineNums.max?.map (· + 1)).or s.current.oldLineNums.max?) =
        some (if c.added = [] then c.oldEnd - 1 else c.newEnd) := by
      have hpos : c.added ≠ [] → 0 < c.newEnd := fun hne =>
        Nat.add_pos_right _ (length_pos_of_ne_nil hne)
      rw [h.oldMax, h.newMax]
      split_ifs with hadded hrem
      · exact absurd ⟨hrem, hadded⟩ hchanged
      · rfl
      · simp [Nat.sub_add_cancel (hpos hadded)]
      · simp [Nat.sub_add_cancel (hpos hadded)]
    simp only [h.start, h.ends, if_neg hchanged, hbef, hafter, h.linesRemove, h.linesAdd]
    rfl

theorem run (h : Tracks s c) (edits : List (Edit Text)) :
    let flush := flushChanges path beforeLines afterLines
    (edits.foldl (Scan.read flush) s).diffChunks ++
        (flush (edits.foldl (Scan.read flush) s).current).toList =
      s.diffChunks ++ (changesFrom c edits).map (chunkOf path beforeLines afterLines) := by
  induction edits generalizing s c with
  | nil =>
    rw [changesFrom, ← h.flush_eq]
    rfl
  | cons edit edits ih =>
    cases edit with
    | left l => exact ih (h.left l)
    | right r => exact ih (h.right r)
    | both l r =>
      have hnext : Tracks (s.read (flushChanges path beforeLines afterLines) (.both l r))
          ⟨c.oldEnd + 1, c.newEnd + 1, [], []⟩ :=
        tracks_empty (congrArg (· + 1) h.lineNum) (congrArg (· + 1) h.oldLineNum)
          (congrArg (· + 1) h.newLineNum) rfl
      refine (ih hnext).trans ?_
      rw [changesFrom, map_append, ← h.flush_eq, ← append_assoc]
      rfl

end Tracks

theorem convertEditToDiffchunks_eq (diffLines : Text → Text → List (Edit Text)) (path : Path)
    (before after : Text) :
    convertEditToDiffchunks diffLines path before after =
      (changes (diffLines before after)).map (chunkOf path (lines before) (lines after)) :=
  (tracks_empty rfl rfl rfl rfl).run (diffLines before after)

def lineCount (text : Text) : ℕ := text.count '\n'

def window (lines : List Text) (line1 line2 : ℕ) : List Text :=
  (lines.drop (line1 - 1)).take (line2 - line1)

/-- The text after the windows of the chunks were replaced, from the line `cursor` on. -/
def patchText (beforeLines : List Text) : ℕ → List DiffChunk → Text
  | cursor, [] => text (beforeLines.drop cursor)
  | cursor, c :: cs =>
    text ((beforeLines.drop cursor).take (c.line1 - 1 - cursor)) ++ c.linesAdd ++
      patchText beforeLines (c.line2 - 1) cs

/-- The chunks, each with the place of the new version behind it: `old` and `new` lines of the
versions were passed so far. -/
def followed : ℕ → ℕ → List DiffChunk → List (DiffChunk × ℕ)
  | _, _, [] => []
  | old, new, c :: cs =>
    let behind := new + (c.line1 - 1 - old) + lineCount c.linesAdd
    (c, behind) :: followed (c.line2 - 1) behind cs

structure FaithfulPatch (beforeLines afterLines : List Text) (chunks : List DiffChunk) : Prop where
  ascending : chunks.Pairwise fun c d => c.line2 < d.line1
  counted : ∀ c ∈ chunks, 1 ≤ c.line1 ∧ c.line1 ≤ c.line2 ∧
    lineCount c.linesRemove = c.line2 - c.line1
  removed : ∀ c ∈ chunks, c.linesRemove = text (window beforeLines c.line1 c.line2)
  patched : patchText beforeLines 0 chunks = text afterLines
  precededBy : ∀ c ∈ chunks,
    c.linesBefore = (checkedPred (c.line1 - 1)).bind (contextLine beforeLines)
  followedBy : ∀ p ∈ followed 0 0 chunks, p.1.linesAfter = contextLine afterLines p.2

def ContextsAgree (beforeLines afterLines : List Text) (c : Change Text) : Prop :=
  (c.removed = [] →
    (checkedPred c.new).bind (fun i => beforeLines[i]?) =
      (checkedPred c.old).bind fun i => beforeLines[i]?) ∧
  (c.added = [] → afterLines[c.oldEnd - 1]? = afterLines[c.newEnd]?)

theorem lineCount_text {lines : List Text} (hclear : ∀ line ∈ lines, '\n' ∉ line) :
    lineCount (text lines) = lines.length := by
  induction lines with
  | nil => rfl
  | cons line lines ih =>
    have hline : lineCount (terminated line) = 1 := by
      rw [lineCount, terminated, count_append,
        count_eq_zero_of_not_mem (hclear line mem_cons_self)]
      rfl
    rw [text, flatMap_cons, lineCount, count_append]
    rw [lineCount] at hline ih
    rw [hline, ← text, ih fun l hl => hclear l (mem_cons_of_mem _ hl), length_cons,
      Nat.add_comm]

theorem terminated_injective : Function.Injective terminated := fun _ _ h =>
  (append_left_inj _).mp h

theorem bind_contextLine (lines : List Text) (i : Option ℕ) :
    i.bind (contextLine lines) = (i.bind fun j => lines[j]?).map terminated := by
  cases i <;> rfl

section Chunks

variable {path : Path} {beforeLines afterLines : List Text} {c : Change Text}

theorem text_append (as bs : List Text) : text (as ++ bs) = text as ++ text bs :=
  flatMap_append

theorem patchText_chunkOf (cursor : ℕ) (cs : List (Change Text)) :
    patchText beforeLines cursor (cs.map (chunkOf path beforeLines afterLines)) =
      text (patchFrom beforeLines cursor cs) := by
  induction cs generalizing cursor with
  | nil => rfl
  | cons c cs ih =>
    rw [map_cons, patchText, patchFrom, text_append, text_append, ← ih c.oldEnd]
    rfl

theorem followed_chunkOf {cs : List (Change Text)} {old new : ℕ} (hsteady : Steady old new cs)
    (hcount : ∀ c ∈ cs, lineCount (text c.added) = c.added.length) :
    followed old new (cs.map (chunkOf path beforeLines afterLines)) =
      cs.map fun c => (chunkOf path beforeLines afterLines c, c.newEnd) := by
  induction cs generalizing old new with
  | nil => rfl
  | cons c cs ih =>
    obtain ⟨-, hnew, hrest⟩ := hsteady
    have hbehind : new + (c.old - old) + lineCount (text c.added) = c.newEnd := by
      rw [hcount c mem_cons_self, ← hnew, Change.newEnd]
    have hline1 : (chunkOf path beforeLines afterLines c).line1 - 1 = c.old := rfl
    have hline2 : (chunkOf path beforeLines afterLines c).line2 - 1 = c.oldEnd := rfl
    have hlines : (chunkOf path beforeLines afterLines c).linesAdd = text c.added := rfl
    rw [map_cons, followed, map_cons, hline1, hline2, hlines, hbehind,
      ih hrest fun d hd => hcount d (mem_cons_of_mem _ hd)]

theorem linesBefore_iff :
    (chunkOf path beforeLines afterLines c).linesBefore =
        (checkedPred c.old).bind (contextLine beforeLines) ↔
      (c.removed = [] → (checkedPred c.new).bind (fun i => beforeLines[i]?) =
        (checkedPred c.old).bind fun i => beforeLines[i]?) := by
  have hline : (chunkOf path beforeLines afterLines c).linesBefore =
    (checkedPred (if c.removed = [] then c.new else c.old)).bind (contextLine beforeLines) := rfl
  rw [hline]
  by_cases hrem : c.removed = []
  · rw [if_pos hrem, imp_iff_right hrem, bind_contextLine, bind_contextLine]
    exact (Option.map_injective terminated_injective).eq_iff
  · rw [if_neg hrem]
    exact iff_of_true rfl fun h => absurd h hrem

theorem linesAfter_iff :
    (chunkOf path beforeLines afterLines c).linesAfter = contextLine afterLines c.newEnd ↔
      (c.added = [] → afterLines[c.oldEnd - 1]? = afterLines[c.newEnd]?) := by
  have hline : (chunkOf path beforeLines afterLines c).linesAfter =
    contextLine afterLines (if c.added = [] then c.oldEnd - 1 else c.newEnd) := rfl
  rw [hline]
  by_cases hadded : c.added = []
  · rw [if_pos hadded, imp_iff_right hadded]
    exact (Option.map_injective terminated_injective).eq_iff
  · rw [if_neg hadded]
    exact iff_of_true rfl fun h => absurd h hadded

end Chunks

/-- Windows, removed and added lines are always right; the context is exactly where the lookups with
a number of the other version agree. -/
theorem diffChunks_faithful_iff (diffLines : Text → Text → List (Edit Text)) (path : Path)
    (before after : Text)
    (halign : Aligns (diffLines before after) (lines before) (lines after)) :
    FaithfulPatch (lines before) (lines after)
        (convertEditToDiffchunks diffLines path before after) ↔
      ∀ c ∈ changes (diffLines before after), ContextsAgree (lines before) (lines after) c := by
  have hlocated := halign.located
  have hclear : ∀ (text : Text) (n k : ℕ), ∀ line ∈ ((lines text).drop n).take k, '\n' ∉ line :=
    fun text n k line hline =>
      newline_not_mem_of_mem_lines (mem_of_mem_drop (mem_of_mem_take hline))
  have hadded : ∀ c ∈ changes (diffLines before after),
      lineCount (text c.added) = c.added.length := fun c hc =>
    lineCount_text ((hlocated c hc).added ▸ hclear after _ _)
  have hremoved : ∀ c ∈ changes (diffLines before after),
      lineCount (text c.removed) = c.removed.length := fun c hc =>
    lineCount_text ((hlocated c hc).removed ▸ hclear before _ _)
  rw [convertEditToDiffchunks_eq]
  constructor
  · intro h c hc
    have hafter := h.followedBy
    rw [followed_chunkOf steady_changes hadded] at hafter
    exact ⟨linesBefore_iff.mp (h.precededBy _ (mem_map_of_mem hc)),
      linesAfter_iff.mp (hafter _ (mem_map_of_mem hc))⟩
  · intro h
    constructor
    case ascending =>
      refine pairwise_map.mpr (ascending_changes.imp fun hlt => ?_)
      simpa [chunkOf] using hlt
    case counted =>
      refine forall_mem_map.mpr fun c hc => ⟨Nat.succ_pos _, ?_, ?_⟩
      · exact Nat.succ_le_succ (Nat.le_add_right _ _)
      · simp [chunkOf, hremoved c hc, Change.oldEnd]
    case removed =>
      refine forall_mem_map.mpr fun c hc => ?_
      have hwindow : window (lines before) (c.old + 1) (c.oldEnd + 1) = c.removed := by
        rw [window, Nat.add_sub_cancel, Nat.add_sub_add_right, Change.oldEnd,
          Nat.add_sub_cancel_left, (hlocated c hc).removed]
      exact congrArg text hwindow.symm
    case patched => rw [patchText_chunkOf, ← patch, halign.patch_eq]
    case precededBy =>
      exact forall_mem_map.mpr fun c hc => linesBefore_iff.mpr (h c hc).1
    case followedBy =>
      rw [followed_chunkOf steady_changes hadded]
      exact forall_mem_map.mpr fun c hc => linesAfter_iff.mpr (h c hc).2

def tailDiff (before after : Text) : List (Edit Text) := pairTails (lines before) (lines after)

theorem removed_line_faithful :
    FaithfulPatch (lines "a\nb".toList) (lines "b".toList)
      (convertEditToDiffchunks tailDiff (ofString "f".toList) "a\nb".toList "b".toList) :=
  (diffChunks_faithful_iff tailDiff _ _ _ (pairTails_aligns _ _)).mpr (by
    have hchanges : changes (tailDiff "a\nb".toList "b".toList) = [⟨0, 0, ["a".toList], []⟩] := by
      decide
    rw [hchanges]
    exact forall_mem_singleton.mpr
      ⟨fun h => absurd h (by decide), fun _ => by decide⟩)

/-- Two lines are removed in front of two others: the chunk says that the second of these follows
the change. -/
theorem removed_lines_skip_context :
    ¬ ∀ (diffLines : Text → Text → List (Edit Text)) (path : Path) (before after : Text),
      (∀ before after, Aligns (diffLines before after) (lines before) (lines after)) →
      FaithfulPatch (lines before) (lines after)
        (convertEditToDiffchunks diffLines path before after) := by
  intro h
  have hfaithful := h tailDiff (ofString "f".toList) "a\nb\nc\nd".toList "c\nd".toList
    fun _ _ => pairTails_aligns _ _
  have hafter := hfaithful.followedBy
  revert hafter
  decide

end DiffChunks
