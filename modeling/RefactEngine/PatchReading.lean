import RefactEngine.PatchFormat

/-! # What a parse can have read

A parse that succeeds takes every name from one line and every old line from a line of its own, so
it cannot return a patch whose text divides differently.
-/
namespace PatchReading

open CoordinationSettings TextLines ApplyPatch PatchFormat List

def isOld : HunkLine → Bool
  | .removed _ | .context _ => true
  | .added _ => false

def isOldLine (line : Text) : Bool := !isControlLine line && (readHunkLine line).any isOld

/-- The reading went from `before` to `next`, and took these names and this many old lines. -/
structure Consumes (before next : List Text) (names : List Text) (old : ℕ) : Prop where
  suffix : next <:+ before
  names : ∀ name ∈ names, ∃ line ∈ before, name ⊆ line
  old : old + next.countP isOldLine ≤ before.countP isOldLine

namespace Consumes

theorem refl (lines : List Text) : Consumes lines lines [] 0 :=
  ⟨suffix_rfl, by simp, by omega⟩

theorem trans {before middle next names others : List Text} {old more : ℕ}
    (h : Consumes before middle names old) (h' : Consumes middle next others more) :
    Consumes before next (names ++ others) (old + more) := by
  refine ⟨h'.suffix.trans h.suffix, ?_, ?_⟩
  · intro name hname
    rcases mem_append.mp hname with hname | hname
    · exact h.names name hname
    · obtain ⟨line, hline, hsub⟩ := h'.names name hname
      exact ⟨line, h.suffix.subset hline, hsub⟩
  · have hold := h.old
    have hmore := h'.old
    omega

theorem name {line name : Text} {rest : List Text} (h : name ⊆ line) :
    Consumes (line :: rest) rest [name] 0 := by
  refine ⟨suffix_cons line rest, ?_, ?_⟩
  · intro other hother
    rw [mem_singleton.mp hother]
    exact ⟨line, mem_cons_self, h⟩
  · rw [countP_cons]
    omega

theorem skip (line : Text) {rest next names : List Text} {old : ℕ}
    (h : Consumes rest next names old) : Consumes (line :: rest) next names old := by
  refine ⟨h.suffix.trans (suffix_cons line rest), ?_, ?_⟩
  · intro name hname
    obtain ⟨source, hsource, hsub⟩ := h.names name hname
    exact ⟨source, mem_cons_of_mem _ hsource, hsub⟩
  · have hold := h.old
    rw [countP_cons]
    omega

theorem oldLine {line : Text} (rest : List Text) (h : isOldLine line = true) :
    Consumes (line :: rest) rest [] 1 := by
  refine ⟨suffix_cons line rest, by simp, ?_⟩
  rw [countP_cons, if_pos h]
  omega

end Consumes

theorem trim_subset (text : Text) : trim text ⊆ text := by
  have hsub : trim text ⊆ text.dropWhile isWhitespace := ( rdropWhile_prefix _ _).subset
  exact fun c hc => (dropWhile_sublist _).subset (hsub hc)

theorem trim_drop_subset (n : ℕ) (line : Text) : trim ((trim line).drop n) ⊆ line := by
  intro c hc
  exact trim_subset line (drop_subset n _ (trim_subset _ hc))

variable {line : Text} {i : ℕ}

variable {label : String} {path : Text}

theorem subset_of_parsePath (h : parsePath label i line = .ok path) : path ⊆ line := by
  simp only [parsePath] at h
  split at h
  · split at h
    · cases h
    · cases h
      exact trim_drop_subset _ line
  · cases h

variable {next : Cursor}

theorem consumes_parseAddLines {before contents : List Text}
    (h : parseAddLines i before = .ok (contents, next)) : Consumes before next.rest [] 0 := by
  induction before generalizing i contents next with
  | nil =>
    cases h
    exact Consumes.refl []
  | cons line rest ih =>
    rw [parseAddLines.eq_def] at h
    dsimp only at h
    split at h
    · cases h
      exact Consumes.refl _
    · split at h
      · split at h
        · cases h
        next hrest =>
          cases h
          exact (ih hrest).skip _
      · cases h

theorem consumes_parseContexts {i : ℕ} {before contexts : List Text} {next : Cursor}
    (h : parseContexts i before = (contexts, next)) : Consumes before next.rest contexts 0 := by
  induction before generalizing i contexts next with
  | nil =>
    cases h
    exact Consumes.refl []
  | cons line rest ih =>
    rw [parseContexts] at h
    split at h
    · have hrest := @ih (i + 1) _ _ rfl
      dsimp only at h
      cases h
      split
      · exact hrest.skip line
      · exact (Consumes.name (trim_drop_subset 2 line)).trans hrest
    · cases h
      exact Consumes.refl _

theorem consumes_parseHunkLines {before : List Text} {body : HunkBody}
    (h : parseHunkLines i before = .ok (body, next)) :
    Consumes before next.rest [] body.oldLines.length := by
  induction before generalizing i body next with
  | nil =>
    cases h
    exact Consumes.refl []
  | cons line rest ih =>
    rw [parseHunkLines] at h
    split at h
    · cases h
      exact (Consumes.refl rest).skip line
    · split at h
      · cases h
        exact Consumes.refl _
      next hcontrol =>
        split at h
        · cases h
        next part hpart =>
          split at h
          · cases h
          next hrest =>
            cases h
            have hold : isOld part = true → isOldLine line = true := by
              intro hpart'
              rw [isOldLine, hpart, isControlLine, Bool.not_eq_true _ |>.mp hcontrol]
              exact hpart'
            have htail := ih hrest
            cases part with
            | added content => exact htail.skip line
            | removed content =>
              rw [HunkLine.push, length_cons, Nat.add_comm]
              exact (Consumes.oldLine rest (hold rfl)).trans htail
            | context content =>
              rw [HunkLine.push, length_cons, Nat.add_comm]
              exact (Consumes.oldLine rest (hold rfl)).trans htail

variable {start : Cursor}

variable {chunk : UpdateChunk}

theorem consumes_parseHunk (h : parseHunk start = .ok (chunk, next)) :
    Consumes start.rest next.rest chunk.changeContext chunk.oldLines.length := by
  simp only [parseHunk] at h
  split at h
  · cases h
  next body stop hlines =>
    cases h
    have hcontexts := @consumes_parseContexts start.index start.rest _ _ rfl
    simpa using hcontexts.trans (consumes_parseHunkLines hlines)

def chunkContexts (chunks : List UpdateChunk) : List Text :=
  chunks.flatMap UpdateChunk.changeContext

def chunkOld (chunks : List UpdateChunk) : ℕ := (chunks.map fun chunk => chunk.oldLines.length).sum

variable {passes : ℕ}

theorem consumes_parseHunks {chunks : List UpdateChunk}
    (h : parseHunks passes start = .ok (chunks, next)) :
    Consumes start.rest next.rest (chunkContexts chunks) (chunkOld chunks) := by
  induction passes generalizing start chunks next with
  | zero =>
    cases h
    exact Consumes.refl _
  | succ passes ih =>
    obtain ⟨i, before⟩ := start
    cases before with
    | nil =>
      cases h
      exact Consumes.refl _
    | cons line rest =>
      rw [parseHunks] at h
      split at h
      · cases h
        exact Consumes.refl _
      · split at h
        · split at h
          · cases h
          next chunk middle hchunk =>
            split at h
            · cases h
            next chunks' next' hrest =>
              cases h
              exact (consumes_parseHunk hchunk).trans (ih hrest)
        · split at h
          · exact (ih h).skip line
          · cases h

def fileNames : FileOperation → List Text
  | .add path _ | .delete path => [path]
  | .update path moveTo chunks => path :: (moveTo.toList ++ chunkContexts chunks)

def fileOld : FileOperation → ℕ
  | .add .. | .delete _ => 0
  | .update _ _ chunks => chunkOld chunks

structure ReadFrom (line : Text) (rest next : List Text) (operation : FileOperation) : Prop where
  path : ∃ path others, fileNames operation = path :: others ∧ path ⊆ line ∧
    Consumes rest next others (fileOld operation)
  chunks : ∀ path moveTo, operation ≠ .update path moveTo []

theorem consumes_parseMove {moveTo : Option Text} (h : parseMove start = .ok (moveTo, next)) :
    Consumes start.rest next.rest moveTo.toList 0 := by
  obtain ⟨i, before⟩ := start
  cases before with
  | nil =>
    cases h
    exact Consumes.refl _
  | cons line rest =>
    rw [parseMove] at h
    split at h
    · split at h
      · cases h
      next path hpath =>
        cases h
        exact Consumes.name (subset_of_parsePath hpath)
    · cases h
      exact Consumes.refl _

variable {operation : FileOperation} {rest : List Text}

theorem readFrom_parseUpdateFile (h : parseUpdateFile i line rest = .ok (operation, next)) :
    ReadFrom line rest next.rest operation := by
  simp only [parseUpdateFile] at h
  split at h
  · cases h
  next path hpath =>
    split at h
    · cases h
    next moveTo middle hmove =>
      split at h
      · cases h
      next chunks stop hchunks =>
        split at h
        · cases h
        next hne =>
          cases h
          have hread := (consumes_parseMove hmove).trans (consumes_parseHunks hchunks)
          rw [Nat.zero_add] at hread
          refine ⟨⟨path, _, rfl, subset_of_parsePath hpath, hread⟩, ?_⟩
          intro other target heq
          cases heq
          exact hne rfl

theorem readFrom_parseOperation (h : parseOperation i line rest = .ok (operation, next)) :
    ReadFrom line rest next.rest operation := by
  simp only [parseOperation] at h
  split at h
  · simp only [parseAddFile] at h
    split at h
    · cases h
    next path hpath =>
      split at h
      · cases h
      next hlines =>
        cases h
        refine ⟨⟨path, [], rfl, subset_of_parsePath hpath, consumes_parseAddLines hlines⟩, ?_⟩
        intro _ _ h
        cases h
  · split at h
    · simp only [parseDeleteFile] at h
      split at h
      · cases h
      next path hpath =>
        cases h
        refine ⟨⟨path, [], rfl, subset_of_parsePath hpath, Consumes.refl rest⟩, ?_⟩
        intro _ _ h
        cases h
    · split at h
      · exact readFrom_parseUpdateFile h
      · cases h

theorem ReadFrom.consumes {next : List Text} (h : ReadFrom line rest next operation) :
    Consumes (line :: rest) next (fileNames operation) (fileOld operation) := by
  obtain ⟨path, others, hnames, hpath, hrest⟩ := h.path
  have hread := (Consumes.name hpath).trans hrest
  rw [Nat.zero_add] at hread
  rwa [hnames]

structure PatchRead (before : List Text) (operations : List FileOperation) : Prop where
  consumes : ∃ next, Consumes before next (operations.flatMap fileNames)
    (operations.map fileOld).sum
  chunks : ∀ operation ∈ operations, ∀ path moveTo, operation ≠ .update path moveTo []

variable {operations : List FileOperation}

theorem patchRead_parseOperations {found : Bool}
    (h : parseOperations passes start = .ok (operations, found)) :
    PatchRead start.rest operations := by
  induction passes generalizing start operations found with
  | zero =>
    cases h
    exact ⟨⟨start.rest, Consumes.refl _⟩, by simp⟩
  | succ passes ih =>
    obtain ⟨i, before⟩ := start
    cases before with
    | nil =>
      cases h
      exact ⟨⟨[], Consumes.refl _⟩, by simp⟩
    | cons line rest =>
      rw [parseOperations] at h
      split at h
      · cases h
        exact ⟨⟨_, Consumes.refl _⟩, by simp⟩
      · split at h
        · obtain ⟨⟨next, hread⟩, hchunks⟩ := ih h
          exact ⟨⟨next, hread.skip line⟩, hchunks⟩
        · split at h
          · cases h
          next operation middle hop =>
            split at h
            · cases h
            next others found' hothers =>
              cases h
              have hfirst := readFrom_parseOperation hop
              obtain ⟨⟨next, hread⟩, hchunks⟩ := ih hothers
              refine ⟨⟨next, hfirst.consumes.trans hread⟩, ?_⟩
              intro other hother
              rcases mem_cons.mp hother with rfl | hother
              · exact hfirst.chunks
              · exact hchunks other hother

theorem consumes_skipBlank (i : ℕ) (before : List Text) :
    Consumes before (skipBlank i before).rest [] 0 := by
  induction before generalizing i with
  | nil => exact Consumes.refl []
  | cons line rest ih =>
    rw [skipBlank]
    split
    · exact (ih (i + 1)).skip line
    · exact Consumes.refl _

theorem patchRead_parsePatch {patch : Text} (h : parsePatch patch = .ok operations) :
    PatchRead (lines patch) operations := by
  have hskip := consumes_skipBlank 0 (lines patch)
  simp only [parsePatch] at h
  split at h
  · cases h
  next i line rest hstart =>
    rw [hstart] at hskip
    split at h
    · split at h
      · cases h
      next read found hread =>
        obtain ⟨⟨next, hconsumes⟩, hchunks⟩ := patchRead_parseOperations hread
        have hall := hskip.trans (hconsumes.skip line)
        rw [nil_append, Nat.zero_add] at hall
        split at h
        · cases h
        · split at h
          · cases h
          · cases h
            exact ⟨⟨next, hall⟩, hchunks⟩
    · cases h

def bodyLines (operation : Operation) : List HunkLine := operation.hunks.flatMap Hunk.body

theorem fileNames_file (operation : Operation) : fileNames operation.file = operation.names := by
  cases operation with
  | add path contentLines => rfl
  | delete path => rfl
  | update path moveTo hunks =>
    simp only [Operation.file, fileNames, Operation.names, chunkContexts, flatMap_map]
    rfl

theorem oldLines_foldr (body : List HunkLine) (last : HunkBody) :
    (body.foldr HunkLine.push last).oldLines.length =
      body.countP isOld + last.oldLines.length := by
  induction body with
  | nil => simp
  | cons line rest ih =>
    rw [foldr_cons, countP_cons]
    cases line <;> simp only [HunkLine.push, isOld, length_cons, ih] <;> simp <;> omega

theorem fileOld_file (operation : Operation) :
    fileOld operation.file = (bodyLines operation).countP isOld := by
  cases operation with
  | add path contentLines => rfl
  | delete path => rfl
  | update path moveTo hunks =>
    rw [bodyLines, Operation.hunks, countP_flatMap, Operation.file, fileOld, chunkOld,
      map_map]
    congr 1
    apply map_congr_left
    intro hunk _
    exact oldLines_foldr hunk.body _

theorem countP_control {lines : List Text} (h : ∀ line ∈ lines, isControlLine line = true) :
    lines.countP isOldLine = 0 := by
  rw [countP_eq_zero]
  intro line hline
  rw [isOldLine, h line hline]
  exact Bool.false_ne_true

theorem countP_hunk {hunk : Hunk} (hnames : ∀ ctx ∈ hunk.contexts, Name ctx) :
    hunk.lines.countP isOldLine = hunk.body.countP (isOldLine ∘ writeHunkLine) := by
  have hcontexts : (contextLines hunk.contexts).countP isOldLine = 0 := by
    apply countP_control
    intro line hline
    rw [contextLines] at hline
    split at hline
    · rw [mem_singleton.mp hline]
      decide
    · obtain ⟨ctx, hctx, rfl⟩ := mem_map.mp hline
      rw [isControlLine, isMarked_contextLine (hnames ctx hctx), Bool.or_true]
  have hend : (endOfFileLines hunk.isEndOfFile).countP isOldLine = 0 := by
    cases hunk.isEndOfFile <;> decide
  rw [Hunk.lines, countP_append, countP_append, hcontexts, hend, countP_map,
    Nat.zero_add, Nat.add_zero]

theorem isControlLine_header (h : Name path) : isControlLine (header label path) = true := by
  have hmarked := @isMarked_header _ path label h rfl
  rw [isControlLine, @isMarked_of_shorter _ "*** " _ ?_ hmarked, Bool.true_or]
  simp [String.toList_append]

theorem countP_operation {operation : Operation} (hwf : operation.WellFormed) :
    operation.lines.countP isOldLine =
      (bodyLines operation).countP (isOldLine ∘ writeHunkLine) := by
  cases operation with
  | add path contentLines =>
    have hheader := @isControlLine_header "Add File" path (hwf.names path mem_cons_self)
    rw [Operation.lines, countP_cons, isOldLine, hheader]
    have hadded : (contentLines.map ('+' :: ·)).countP isOldLine = 0 := by
      rw [countP_eq_zero]
      intro line hline
      obtain ⟨content, -, rfl⟩ := mem_map.mp hline
      simp [isOldLine, readHunkLine, isOld]
    rw [hadded]
    rfl
  | delete path =>
    have hheader := @isControlLine_header "Delete File" path (hwf.names path mem_cons_self)
    rw [Operation.lines, countP_cons, isOldLine, hheader]
    rfl
  | update path moveTo hunks =>
    have hheader := @isControlLine_header "Update File" path (hwf.names path mem_cons_self)
    have hmove : ((moveTo.map (header "Move to")).toList).countP isOldLine = 0 := by
      apply countP_control
      intro line hline
      rw [Option.mem_toList, Option.map_eq_some_iff] at hline
      obtain ⟨target, htgt, rfl⟩ := hline
      exact isControlLine_header (hwf.names target (by simp [Operation.names, htgt]))
    have hhunks : (hunks.flatMap Hunk.lines).countP isOldLine =
        (hunks.flatMap Hunk.body).countP (isOldLine ∘ writeHunkLine) := by
      rw [countP_flatMap, countP_flatMap]
      congr 1
      apply map_congr_left
      intro hunk hhunk
      apply countP_hunk
      intro ctx hctx
      exact hwf.names ctx (mem_cons_of_mem _
        (mem_append_right _ (mem_flatMap.mpr ⟨hunk, hhunk, hctx⟩)))
    rw [Operation.lines, countP_cons, countP_append, hmove, hhunks, isOldLine, hheader]
    simp [bodyLines, Operation.hunks]

theorem countP_patchLines {operations : List Operation}
    (hwf : ∀ operation ∈ operations, operation.WellFormed) :
    (patchLines operations ++ [endPatch]).countP isOldLine =
      (operations.flatMap bodyLines).countP (isOldLine ∘ writeHunkLine) := by
  have hbegin : isOldLine "*** Begin Patch".toList = false := by decide
  have hend : [endPatch].countP isOldLine = 0 := by decide
  rw [countP_append, hend, patchLines, countP_cons, hbegin, countP_flatMap,
    countP_flatMap, if_neg Bool.false_ne_true, Nat.add_zero]
  congr 1
  apply map_congr_left
  intro operation hop
  exact countP_operation (hwf operation hop)

theorem sum_fileOld (operations : List Operation) :
    ((operations.map Operation.file).map fileOld).sum =
      (operations.flatMap bodyLines).countP isOld := by
  rw [countP_flatMap, map_map]
  congr 1
  apply map_congr_left
  intro operation _
  exact fileOld_file operation

theorem of_countP_le {α : Type*} {p q : α → Bool} {items : List α}
    (hpq : ∀ item ∈ items, p item → q item) (hle : items.countP q ≤ items.countP p) :
    ∀ item ∈ items, q item → p item := by
  induction items with
  | nil => simp
  | cons first rest ih =>
    have hrest : ∀ item ∈ rest, p item → q item := fun item hitem =>
      hpq item (mem_cons_of_mem _ hitem)
    have hmono := countP_mono_left hrest
    have hfirst := hpq first mem_cons_self
    rw [countP_cons, countP_cons] at hle
    intro item hitem hq
    rcases mem_cons.mp hitem with rfl | hitem
    · by_contra hp
      rw [if_pos hq, if_neg hp] at hle
      omega
    · refine ih hrest ?_ item hitem hq
      by_cases hp : p first = true
      · rw [if_pos hp, if_pos (hfirst hp)] at hle
        omega
      · rw [if_neg hp] at hle
        omega

theorem isOld_of_isOldLine {line : HunkLine} (h : isOldLine (writeHunkLine line) = true) :
    isOld line = true := by
  rw [isOldLine, readHunkLine_writeHunkLine, Bool.and_eq_true] at h
  exact h.2

theorem kept_of_read {operations : List Operation}
    (hwf : ∀ operation ∈ operations, operation.WellFormed)
    (hclear : ∀ operation ∈ operations, ∀ name ∈ operation.names, '\n' ∉ name)
    (hread : PatchRead (lines (render operations)) (operations.map Operation.file)) :
    ∀ operation ∈ operations, ∀ hunk ∈ operation.hunks, ∀ content, .context content ∈ hunk.body →
      isControlLine content = false := by
  intro operation hop hunk hhunk content hcont
  obtain ⟨next, hconsumes⟩ := hread.consumes
  have hold := hconsumes.old
  rw [lines_render hwf hclear, countP_patchLines hwf, sum_fileOld] at hold
  have hmem : HunkLine.context content ∈ operations.flatMap bodyLines :=
    mem_flatMap.mpr ⟨operation, hop, mem_flatMap.mpr ⟨hunk, hhunk, hcont⟩⟩
  have hline := of_countP_le (p := isOldLine ∘ writeHunkLine) (q := isOld)
    (fun line _ => isOld_of_isOldLine) (by omega) _ hmem rfl
  rw [Function.comp_apply, isOldLine, Bool.and_eq_true, Bool.not_eq_true'] at hline
  exact hline.1

/-- A written patch is read back exactly when every name stays on its line, every update has a hunk
and no kept line looks like a control line. -/
theorem read_back_iff_readable (operations : List Operation) (hne : operations ≠ [])
    (hwf : ∀ operation ∈ operations, operation.WellFormed) :
    parsePatch (render operations) = .ok (operations.map Operation.file) ↔
      ∀ operation ∈ operations, operation.Readable := by
  constructor
  · intro h operation hoperation
    have hread := patchRead_parsePatch h
    have hclear : ∀ operation ∈ operations, ∀ name ∈ operation.names, '\n' ∉ name := by
      intro operation hoperation name hname hnewline
      obtain ⟨next, hconsumes⟩ := hread.consumes
      rw [← fileNames_file] at hname
      obtain ⟨line, hline, hsub⟩ := hconsumes.names name
        (mem_flatMap.mpr ⟨_, mem_map_of_mem hoperation, hname⟩)
      exact newline_not_mem_of_mem_lines hline (hsub hnewline)
    refine ⟨hclear operation hoperation, ?_, kept_of_read hwf hclear hread operation hoperation⟩
    rintro path moveTo rfl
    exact hread.chunks _ (mem_map_of_mem hoperation) path moveTo rfl
  · exact parsePatch_render hne hwf

def moveAndAdd : List Operation :=
  [.add "a.txt".toList ["*** End Patch".toList, []],
    .update "b.txt".toList (some "c.txt".toList)
      [⟨["fn main".toList], [.context [], .removed "@@ x".toList, .added "*** y".toList], true⟩]]

theorem moveAndAdd_read_back :
    moveAndAdd ≠ [] ∧ (∀ operation ∈ moveAndAdd, operation.WellFormed) ∧
      parsePatch (render moveAndAdd) = .ok (moveAndAdd.map Operation.file) := by
  have hwf : ∀ operation ∈ moveAndAdd, operation.WellFormed := by decide
  refine ⟨by decide, hwf, (read_back_iff_readable moveAndAdd (by decide) hwf).mpr ?_⟩
  intro operation hoperation
  simp only [moveAndAdd, mem_cons, not_mem_nil, or_false] at hoperation
  rcases hoperation with rfl | rfl
  · exact ⟨by decide, nofun, by simp [Operation.hunks]⟩
  · refine ⟨by decide, nofun, ?_⟩
    intro hunk hhunk content hcontent
    rw [mem_singleton.mp hhunk] at hcontent
    simp at hcontent
    rw [hcontent]
    decide

def classVariable : List Operation :=
  [.update "a.rb".toList none
    [⟨[], [.context "def count".toList, .context "  @@count".toList, .added "end".toList], false⟩]]

theorem kept_line_splits_hunk :
    classVariable ≠ [] ∧ (∀ operation ∈ classVariable, operation.WellFormed) ∧
      parsePatch (render classVariable) = .ok [.update "a.rb".toList none
        [⟨[], ["def count".toList], ["def count".toList], false⟩,
          ⟨["count".toList], [], ["end".toList], false⟩]] ∧
      parsePatch (render classVariable) ≠ .ok (classVariable.map Operation.file) := by
  decide

end PatchReading
