import RefactEngine.ApplyPatch

/-! # The format of a patch

How a patch is written, and that the parser reads back what was written: exactly when no kept line
of a hunk looks like a control line.
-/
namespace PatchFormat

open CoordinationSettings TextLines ApplyPatch List

/-- A hunk as it is written: its contexts, its lines in their order, and the end-of-file flag. -/
structure Hunk where
  contexts : List Text
  body : List HunkLine
  isEndOfFile : Bool

inductive Operation where
  | add (path : Text) (contentLines : List Text)
  | delete (path : Text)
  | update (path : Text) (moveTo : Option Text) (hunks : List Hunk)

def writeHunkLine : HunkLine → Text
  | .removed content => '-' :: content
  | .added content => '+' :: content
  | .context content => ' ' :: content

def header (label : String) (path : Text) : Text := ("*** " ++ label ++ ": ").toList ++ path

def contextLine (ctx : Text) : Text := "@@ ".toList ++ ctx

def contextLines (contexts : List Text) : List Text :=
  if contexts = [] then ["@@".toList] else contexts.map contextLine

def endOfFileLines (isEndOfFile : Bool) : List Text :=
  if isEndOfFile then ["*** End of File".toList] else []

def Hunk.lines (hunk : Hunk) : List Text :=
  contextLines hunk.contexts ++ (hunk.body.map writeHunkLine ++ endOfFileLines hunk.isEndOfFile)

def Operation.lines : Operation → List Text
  | .add path contentLines => header "Add File" path :: contentLines.map ('+' :: ·)
  | .delete path => [header "Delete File" path]
  | .update path moveTo hunks =>
    header "Update File" path ::
      ((moveTo.map (header "Move to")).toList ++ hunks.flatMap Hunk.lines)

def patchLines (operations : List Operation) : List Text :=
  "*** Begin Patch".toList :: operations.flatMap Operation.lines

def endPatch : Text := "*** End Patch".toList

def render (operations : List Operation) : Text :=
  ['\n'].intercalate (patchLines operations ++ [endPatch])

def Hunk.read (hunk : Hunk) : HunkBody :=
  hunk.body.foldr HunkLine.push ⟨[], [], hunk.isEndOfFile⟩

def Hunk.chunk (hunk : Hunk) : UpdateChunk :=
  ⟨hunk.contexts, hunk.read.oldLines, hunk.read.newLines, hunk.read.isEndOfFile⟩

def Operation.file : Operation → FileOperation
  | .add path contentLines => .add path (addedContents contentLines)
  | .delete path => .delete path
  | .update path moveTo hunks => .update path moveTo (hunks.map Hunk.chunk)

structure Name (text : Text) : Prop where
  trimmed : trim text = text
  ne_nil : text ≠ []

structure Content (text : Text) : Prop where
  newline : '\n' ∉ text
  carriageReturn : text.getLast? ≠ some '\r'

instance (text : Text) : Decidable (Name text) :=
  decidable_of_iff (trim text = text ∧ text ≠ [])
    ⟨fun h => ⟨h.1, h.2⟩, fun h => ⟨h.trimmed, h.ne_nil⟩⟩

instance (text : Text) : Decidable (Content text) :=
  decidable_of_iff ('\n' ∉ text ∧ text.getLast? ≠ some '\r')
    ⟨fun h => ⟨h.1, h.2⟩, fun h => ⟨h.newline, h.carriageReturn⟩⟩

def lineContent : HunkLine → Text
  | .removed content | .added content | .context content => content

def Operation.hunks : Operation → List Hunk
  | .add .. | .delete _ => []
  | .update _ _ hunks => hunks

def Operation.names : Operation → List Text
  | .add path _ | .delete path => [path]
  | .update path moveTo hunks => path :: (moveTo.toList ++ hunks.flatMap Hunk.contexts)

def Operation.contents : Operation → List Text
  | .add _ contentLines => contentLines
  | .delete _ => []
  | .update _ _ hunks => hunks.flatMap fun hunk => hunk.body.map lineContent

structure Operation.WellFormed (operation : Operation) : Prop where
  names : ∀ name ∈ operation.names, Name name
  contents : ∀ content ∈ operation.contents, Content content
  bodies : ∀ hunk ∈ operation.hunks, hunk.body ≠ []

instance (operation : Operation) : Decidable operation.WellFormed :=
  decidable_of_iff ((∀ name ∈ operation.names, Name name) ∧
      (∀ content ∈ operation.contents, Content content) ∧
      ∀ hunk ∈ operation.hunks, hunk.body ≠ [])
    ⟨fun h => ⟨h.1, h.2.1, h.2.2⟩, fun h => ⟨h.names, h.contents, h.bodies⟩⟩

/-- A line that begins another part of the patch once the white space around it is gone. -/
def isControlLine (line : Text) : Bool := isMarked "*** " line || isMarked "@@" line

/-- Nothing that the operation writes can be taken for something else: its names stay on their
lines, an update has a hunk, and no kept line looks like a control line. -/
structure Operation.Readable (operation : Operation) : Prop where
  names : ∀ name ∈ operation.names, '\n' ∉ name
  hunks : ∀ path moveTo, operation ≠ .update path moveTo []
  kept : ∀ hunk ∈ operation.hunks, ∀ content, .context content ∈ hunk.body →
    isControlLine content = false

theorem trim_blank (text : Text) : trim (' ' :: text) = trim text := rfl

theorem trim_cons {c : Char} (hc : isWhitespace c = false) (text : Text) :
    trim (c :: text) = c :: trimEnd text := by
  rw [trim, trimBy, dropWhile_cons_of_neg (by simp [hc]), trimEnd, List.rdropWhile,
    List.rdropWhile, reverse_cons, dropWhile_append]
  split
  next hblank =>
    rw [List.isEmpty_iff.mp hblank, dropWhile_cons_of_neg (by simp [hc])]
    rfl
  next => rw [reverse_append, reverse_singleton, singleton_append]

variable {text : Text}

theorem Name.getLast (h : Name text) : isWhitespace (text.getLast h.ne_nil) = false := by
  have hlast : ∀ hne : trim text ≠ [], ¬ isWhitespace ((trim text).getLast hne) :=
    fun hne => rdropWhile_last_not _ _ hne
  simp only [h.trimmed] at hlast
  simpa using hlast h.ne_nil

theorem trim_append {c : Char} {start : Text} (hc : isWhitespace c = false) (h : Name text) :
    trim (c :: (start ++ text)) = c :: (start ++ text) := by
  rw [trim_cons hc, trimEnd, rdropWhile_eq_self_iff.mpr]
  intro hne
  rw [getLast_append_of_ne_nil _ h.ne_nil, h.getLast]
  exact Bool.false_ne_true

variable {line : Text} {marker : String}

theorem isMarked_of_shorter {longer : String} (hmarker : marker.toList <+: longer.toList)
    (h : isMarked longer line = true) : isMarked marker line = true := by
  rw [isMarked, isPrefixOf_iff_prefix] at h ⊢
  exact hmarker.trans h

theorem isMarked_eq_false {other : String} (h : isMarked marker line = true)
    (hapart : ¬ marker.toList <+: other.toList ∧ ¬ other.toList <+: marker.toList) :
    isMarked other line = false := by
  by_contra hother
  have hother := Bool.of_not_eq_false hother
  rw [isMarked, isPrefixOf_iff_prefix] at h hother
  rcases prefix_or_prefix_of_prefix h hother with hlead | hlead
  · exact hapart.1 hlead
  · exact hapart.2 hlead

/-- A line whose first character is neither white space nor that of a marker. -/
theorem isControlLine_of_sign {sign : Char} (hsign : sign = '+' ∨ sign = '-') (text : Text) :
    isControlLine (sign :: text) = false := by
  rcases hsign with rfl | rfl <;>
  · rw [isControlLine, isMarked, isMarked, trim_cons rfl]
    rfl

theorem isControlLine_writeHunkLine {line : HunkLine}
    (h : ∀ content, line = .context content → isControlLine content = false) :
    isControlLine (writeHunkLine line) = false := by
  cases line with
  | removed content => exact isControlLine_of_sign (.inr rfl) content
  | added content => exact isControlLine_of_sign (.inl rfl) content
  | context content =>
    rw [← h content rfl]
    rfl

theorem readHunkLine_writeHunkLine (line : HunkLine) :
    readHunkLine (writeHunkLine line) = some line := by
  cases line <;> rfl

theorem not_endOfFile (h : isControlLine line = false) :
    isMarked "*** End of File" line = false := by
  rw [isControlLine, Bool.or_eq_false_iff] at h
  by_contra hmarked
  have hcontrol := @isMarked_of_shorter line "*** " _ (by decide) (Bool.of_not_eq_false hmarked)
  rw [h.1] at hcontrol
  cases hcontrol

theorem header_eq (label : String) (path : Text) :
    header label path = ("*** " ++ label ++ ":").toList ++ (' ' :: path) := by
  simp [header]

variable {path : Text} {label : String}

theorem trim_header (h : Name path) : trim (header label path) = header label path := by
  have hsplit : header label path =
      '*' :: ("** ".toList ++ label.toList ++ ": ".toList ++ path) := by
    simp [header]
  rw [hsplit, trim_append rfl h]

theorem isMarked_header (h : Name path) (hmarker : marker = "*** " ++ label ++ ":") :
    isMarked marker (header label path) = true := by
  rw [isMarked, hmarker, trim_header h, header_eq, isPrefixOf_iff_prefix]
  exact prefix_append _ _

theorem parsePath_header (i : ℕ) (h : Name path) :
    parsePath label i (header label path) = .ok path := by
  have hpath : trim ((trim (header label path)).drop ("*** " ++ label ++ ":").length) = path := by
    rw [trim_header h, header_eq, ← String.length_toList, drop_left, trim_blank, h.trimmed]
  rw [parsePath, if_pos (isMarked_header h rfl)]
  dsimp only
  rw [hpath, if_neg h.ne_nil]

variable {tail : List Text} {i : ℕ} {contentLines : List Text}

theorem parseAddLines_append (htail : ∀ line ∈ tail.head?, isMarked "*** " line = true) :
    parseAddLines i (contentLines.map ('+' :: ·) ++ tail) =
      .ok (contentLines, ⟨i + contentLines.length, tail⟩) := by
  induction contentLines generalizing i with
  | nil =>
    cases tail with
    | nil => rfl
    | cons line rest =>
      rw [map_nil, nil_append, parseAddLines.eq_def]
      dsimp only
      rw [if_pos (htail line rfl)]
      rfl
  | cons content rest ih =>
    have hplain := isControlLine_of_sign (.inl rfl) content
    rw [isControlLine, Bool.or_eq_false_iff] at hplain
    rw [map_cons, cons_append, parseAddLines, if_neg (by rw [hplain.1]; decide), ih]
    simp [Nat.add_comm, Nat.add_left_comm]

theorem trim_contextLine {ctx : Text} (h : Name ctx) : trim (contextLine ctx) = contextLine ctx :=
  trim_append rfl h

theorem isMarked_contextLine {ctx : Text} (h : Name ctx) :
    isMarked "@@" (contextLine ctx) = true := by
  rw [isMarked, trim_contextLine h]
  rfl

variable {contexts : List Text}

theorem parseContexts_append (hnames : ∀ ctx ∈ contexts, Name ctx)
    (htail : ∀ line ∈ tail.head?, isMarked "@@" line = false) :
    parseContexts i (contexts.map contextLine ++ tail) =
      (contexts, ⟨i + contexts.length, tail⟩) := by
  induction contexts generalizing i with
  | nil =>
    cases tail with
    | nil => rfl
    | cons line rest =>
      rw [map_nil, nil_append, parseContexts, if_neg (by rw [htail line rfl]; decide)]
      rfl
  | cons ctx rest ih =>
    have hctx := hnames ctx mem_cons_self
    have hread : trim ((trim (contextLine ctx)).drop 2) = ctx := by
      rw [trim_contextLine hctx]
      exact hctx.trimmed
    rw [map_cons, cons_append, parseContexts, if_pos (isMarked_contextLine hctx),
      ih fun c hc => hnames c (mem_cons_of_mem _ hc)]
    dsimp only
    rw [hread, if_neg hctx.ne_nil]
    simp [Nat.add_comm, Nat.add_left_comm]

theorem parseContexts_contextLines (hnames : ∀ ctx ∈ contexts, Name ctx)
    (htail : ∀ line ∈ tail.head?, isMarked "@@" line = false) :
    parseContexts i (contextLines contexts ++ tail) =
      (contexts, ⟨i + (contextLines contexts).length, tail⟩) := by
  rw [contextLines]
  split
  next hnil =>
    subst hnil
    have hrest := @parseContexts_append tail (i + 1) [] (by simp) htail
    rw [map_nil, nil_append] at hrest
    rw [singleton_append, parseContexts, if_pos (by decide), hrest]
    rfl
  next => rw [parseContexts_append hnames htail, length_map]

theorem parseHunkLines_append {body : List HunkLine} {last : HunkBody} {next : Cursor}
    (hbody : ∀ line ∈ body, isControlLine (writeHunkLine line) = false)
    (htail : parseHunkLines (i + body.length) tail = .ok (last, next)) :
    parseHunkLines i (body.map writeHunkLine ++ tail) =
      .ok (body.foldr HunkLine.push last, next) := by
  induction body generalizing i with
  | nil => exact htail
  | cons line rest ih =>
    have hline := hbody line mem_cons_self
    rw [length_cons, Nat.add_comm rest.length, ← Nat.add_assoc] at htail
    have hrest := ih (fun l hl => hbody l (mem_cons_of_mem _ hl)) htail
    rw [map_cons, cons_append, parseHunkLines,
      if_neg (by rw [not_endOfFile hline]; decide), if_neg (by
        rw [isControlLine] at hline
        rw [hline]
        decide), readHunkLine_writeHunkLine, hrest]
    rfl

/-- The lines that follow a hunk: they begin with a control line that does not belong to it. -/
structure Follows (tail : List Text) : Prop where
  control : ∃ line rest, tail = line :: rest ∧ isControlLine line = true
  notEndOfFile : ∀ line ∈ tail.head?, isMarked "*** End of File" line = false

theorem parseHunkLines_of_follows (h : Follows tail) :
    parseHunkLines i tail = .ok (⟨[], [], false⟩, ⟨i, tail⟩) := by
  obtain ⟨line, rest, rfl, hcontrol⟩ := h.control
  rw [isControlLine] at hcontrol
  rw [parseHunkLines, if_neg (by rw [h.notEndOfFile line rfl]; decide), if_pos hcontrol]

theorem parseHunkLines_endOfFileLines (isEndOfFile : Bool) (h : Follows tail) :
    parseHunkLines i (endOfFileLines isEndOfFile ++ tail) =
      .ok (⟨[], [], isEndOfFile⟩, ⟨i + (endOfFileLines isEndOfFile).length, tail⟩) := by
  cases isEndOfFile with
  | false => exact parseHunkLines_of_follows h
  | true =>
    have hmarked : isMarked "*** End of File" "*** End of File".toList = true := by decide
    rw [endOfFileLines, if_pos rfl, singleton_append, parseHunkLines, if_pos hmarked]
    rfl

variable {hunk : Hunk}

/-- A hunk whose lines are not taken for control lines is read back. -/
theorem parseHunk_lines (hnames : ∀ ctx ∈ hunk.contexts, Name ctx) (hne : hunk.body ≠ [])
    (hkept : ∀ content, .context content ∈ hunk.body → isControlLine content = false)
    (htail : Follows tail) :
    parseHunk ⟨i, hunk.lines ++ tail⟩ = .ok (hunk.chunk, ⟨i + hunk.lines.length, tail⟩) := by
  have hplain : ∀ line ∈ hunk.body, isControlLine (writeHunkLine line) = false :=
    fun line hline => isControlLine_writeHunkLine fun content hcont =>
      hkept content (hcont ▸ hline)
  obtain ⟨line, rest, hbody⟩ := exists_cons_of_ne_nil hne
  have hhead : ∀ first ∈ (hunk.body.map writeHunkLine ++
      (endOfFileLines hunk.isEndOfFile ++ tail)).head?, isMarked "@@" first = false := by
    intro first hfirst
    rw [hbody] at hfirst
    cases hfirst
    have hline := hplain line (hbody ▸ mem_cons_self)
    rw [isControlLine, Bool.or_eq_false_iff] at hline
    exact hline.2
  have hlines : hunk.lines ++ tail = contextLines hunk.contexts ++
      (hunk.body.map writeHunkLine ++ (endOfFileLines hunk.isEndOfFile ++ tail)) := by
    simp only [Hunk.lines, append_assoc]
  have hlen : i + hunk.lines.length = i + (contextLines hunk.contexts).length +
      hunk.body.length + (endOfFileLines hunk.isEndOfFile).length := by
    simp only [Hunk.lines, length_append, length_map]
    omega
  rw [parseHunk, hlines, parseContexts_contextLines hnames hhead]
  dsimp only
  rw [parseHunkLines_append hplain (parseHunkLines_endOfFileLines _ htail), hlen]
  rfl

def operationMarkers : List String :=
  ["*** Add File:", "*** Delete File:", "*** Update File:", "*** End Patch"]

def startsOperation (line : Text) : Bool :=
  isMarked "*** Add File:" line || isMarked "*** Delete File:" line ||
    isMarked "*** Update File:" line || isMarked "*** End Patch" line

theorem startsOperation_cases (h : startsOperation line = true) :
    ∃ marker ∈ operationMarkers, isMarked marker line = true := by
  simp only [startsOperation, Bool.or_eq_true] at h
  rcases h with ((h | h) | h) | h
  · exact ⟨_, by decide, h⟩
  · exact ⟨_, by decide, h⟩
  · exact ⟨_, by decide, h⟩
  · exact ⟨_, by decide, h⟩

def NextOperation (tail : List Text) : Prop :=
  ∃ line rest, tail = line :: rest ∧ startsOperation line = true

theorem NextOperation.marked {rest : List Text} (h : NextOperation (line :: rest)) :
    isMarked "*** " line = true := by
  obtain ⟨_, _, heq, hstarts⟩ := h
  cases heq
  obtain ⟨marker, hmarker, hmarked⟩ := startsOperation_cases hstarts
  have hlead : ∀ marker ∈ operationMarkers, "*** ".toList <+: marker.toList := by decide
  exact isMarked_of_shorter (hlead marker hmarker) hmarked

theorem NextOperation.follows (h : NextOperation tail) : Follows tail := by
  obtain ⟨line, rest, rfl, hstarts⟩ := h
  refine ⟨⟨line, rest, rfl, ?_⟩, ?_⟩
  · rw [isControlLine, NextOperation.marked ⟨line, rest, rfl, hstarts⟩, Bool.true_or]
  · intro first hfirst
    cases hfirst
    obtain ⟨marker, hmarker, hmarked⟩ := startsOperation_cases hstarts
    have hapart : ∀ marker ∈ operationMarkers, ¬ marker.toList <+: "*** End of File".toList ∧
        ¬ "*** End of File".toList <+: marker.toList := by decide
    exact isMarked_eq_false hmarked (hapart marker hmarker)

theorem Hunk.head_lines (hnames : ∀ ctx ∈ hunk.contexts, Name ctx) :
    ∃ line rest, hunk.lines = line :: rest ∧ isMarked "@@" line = true := by
  rw [Hunk.lines, contextLines]
  split
  next => exact ⟨_, _, rfl, by decide⟩
  next hne =>
    obtain ⟨ctx, others, hcontexts⟩ := exists_cons_of_ne_nil hne
    rw [hcontexts] at hnames ⊢
    exact ⟨_, _, rfl, isMarked_contextLine (hnames ctx mem_cons_self)⟩

theorem startsOperation_of_context (h : isMarked "@@" line = true) :
    startsOperation line = false := by
  by_contra hstarts
  obtain ⟨marker, hmarker, hmarked⟩ := startsOperation_cases (Bool.of_not_eq_false hstarts)
  have hapart : ∀ marker ∈ operationMarkers, ¬ marker.toList <+: "@@".toList ∧
      ¬ "@@".toList <+: marker.toList := by decide
  rw [isMarked_eq_false hmarked (hapart marker hmarker)] at h
  cases h

theorem parseHunks_of_nextOperation (passes : ℕ) (h : NextOperation tail) :
    parseHunks passes ⟨i, tail⟩ = .ok ([], ⟨i, tail⟩) := by
  cases passes with
  | zero => rfl
  | succ passes =>
    obtain ⟨line, rest, rfl, hstarts⟩ := h
    rw [startsOperation] at hstarts
    rw [parseHunks, if_pos hstarts]

variable {passes : ℕ}

theorem parseHunks_lines {chunk : UpdateChunk} {next last : Cursor} {chunks : List UpdateChunk}
    (hnames : ∀ ctx ∈ hunk.contexts, Name ctx)
    (hread : parseHunk ⟨i, hunk.lines ++ tail⟩ = .ok (chunk, next))
    (hrest : parseHunks passes next = .ok (chunks, last)) :
    parseHunks (passes + 1) ⟨i, hunk.lines ++ tail⟩ = .ok (chunk :: chunks, last) := by
  obtain ⟨line, rest, hlines, hmarked⟩ := Hunk.head_lines hnames
  have hstarts := startsOperation_of_context hmarked
  rw [hlines, cons_append] at hread ⊢
  rw [startsOperation] at hstarts
  rw [parseHunks, if_neg (by rw [hstarts]; decide), if_pos (by rw [hmarked]; rfl)]
  simp only [hread, hrest]

variable {hunks : List Hunk}

theorem follows_of_hunks (htail : NextOperation tail)
    (hnames : ∀ ctx ∈ hunks.flatMap Hunk.contexts, Name ctx) :
    Follows (hunks.flatMap Hunk.lines ++ tail) := by
  cases hunks with
  | nil => exact htail.follows
  | cons hunk rest =>
    obtain ⟨line, others, hlines, hmarked⟩ := @Hunk.head_lines hunk fun ctx hctx =>
      hnames ctx (mem_flatMap.mpr ⟨hunk, mem_cons_self, hctx⟩)
    rw [flatMap_cons, hlines]
    refine ⟨⟨_, _, rfl, ?_⟩, ?_⟩
    · rw [isControlLine, hmarked, Bool.or_true]
    · intro first hfirst
      cases hfirst
      exact isMarked_eq_false hmarked (by decide)

theorem parseHunks_flatMap (hpasses : hunks.length ≤ passes)
    (hnames : ∀ ctx ∈ hunks.flatMap Hunk.contexts, Name ctx)
    (hbodies : ∀ hunk ∈ hunks, hunk.body ≠ [])
    (hkept : ∀ hunk ∈ hunks, ∀ content, .context content ∈ hunk.body →
      isControlLine content = false)
    (htail : NextOperation tail) : parseHunks passes ⟨i, hunks.flatMap Hunk.lines ++ tail⟩ =
      .ok (hunks.map Hunk.chunk, ⟨i + (hunks.flatMap Hunk.lines).length, tail⟩) := by
  induction hunks generalizing passes i with
  | nil => exact parseHunks_of_nextOperation passes htail
  | cons hunk rest ih =>
    obtain ⟨passes, rfl⟩ : ∃ n, passes = n + 1 := ⟨passes - 1, by simp at hpasses; omega⟩
    have hrest : ∀ ctx ∈ rest.flatMap Hunk.contexts, Name ctx := fun ctx hctx =>
      hnames ctx (by rw [flatMap_cons]; exact mem_append_right _ hctx)
    have hhunk : ∀ ctx ∈ hunk.contexts, Name ctx := fun ctx hctx =>
      hnames ctx (mem_flatMap.mpr ⟨hunk, mem_cons_self, hctx⟩)
    have hread := @parseHunk_lines _ i hunk hhunk (hbodies hunk mem_cons_self)
      (hkept hunk mem_cons_self) (follows_of_hunks htail hrest)
    have hothers := @ih (i + hunk.lines.length) passes (by simpa using hpasses) hrest
      (fun h hh => hbodies h (mem_cons_of_mem _ hh))
      (fun h hh => hkept h (mem_cons_of_mem _ hh))
    rw [flatMap_cons, append_assoc, parseHunks_lines hhunk hread hothers,
      length_append, Nat.add_assoc, map_cons]

theorem length_le_flatMap {α : Type*} {f : α → List Text} (hf : ∀ a, f a ≠ []) (items : List α) :
    items.length ≤ (items.flatMap f).length := by
  induction items with
  | nil => exact Nat.le_refl _
  | cons item rest ih =>
    have hpos := length_pos_iff.mpr (hf item)
    rw [flatMap_cons, length_append, length_cons]
    omega

theorem Hunk.lines_ne_nil (hunk : Hunk) : hunk.lines ≠ [] := by
  rw [Hunk.lines, contextLines]
  split
  · exact cons_ne_nil _ _
  next hne => simp [hne]

variable {moveTo : Option Text}

theorem parseMove_header (hnames : ∀ name ∈ moveTo.toList, Name name)
    (htail : ∀ line ∈ tail.head?, isMarked "*** Move to:" line = false) :
    parseMove ⟨i, (moveTo.map (header "Move to")).toList ++ tail⟩ =
      .ok (moveTo, ⟨i + (moveTo.map (header "Move to")).toList.length, tail⟩) := by
  cases moveTo with
  | none =>
    cases tail with
    | nil => rfl
    | cons line rest =>
      rw [Option.map_none, Option.toList_none, nil_append, parseMove,
        if_neg (by rw [htail line rfl]; decide)]
      rfl
  | some path =>
    have hpath := hnames path (by simp)
    have hmarked : isMarked "*** Move to:" (header "Move to" path) = true :=
      isMarked_header hpath (by decide)
    rw [Option.map_some, Option.toList_some, singleton_append, parseMove, if_pos hmarked,
      parsePath_header i hpath]
    rfl

theorem parseOperation_add (hname : Name path) (htail : NextOperation tail) :
    parseOperation i (header "Add File" path) (contentLines.map ('+' :: ·) ++ tail) =
      .ok (.add path (addedContents contentLines), ⟨i + 1 + contentLines.length, tail⟩) := by
  have hmarked : isMarked "*** Add File:" (header "Add File" path) = true :=
    isMarked_header hname (by decide)
  have hlines : parseAddLines (i + 1) (contentLines.map ('+' :: ·) ++ tail) =
      .ok (contentLines, ⟨i + 1 + contentLines.length, tail⟩) := by
    apply parseAddLines_append
    intro line hline
    obtain ⟨first, rest, rfl, hstarts⟩ := htail
    cases hline
    exact NextOperation.marked ⟨_, rest, rfl, hstarts⟩
  rw [parseOperation, if_pos hmarked, parseAddFile, parsePath_header i hname]
  dsimp only
  rw [hlines]

theorem parseOperation_delete (hname : Name path) :
    parseOperation i (header "Delete File" path) tail = .ok (.delete path, ⟨i + 1, tail⟩) := by
  have hmarked : isMarked "*** Delete File:" (header "Delete File" path) = true :=
    isMarked_header hname (by decide)
  have hadd := @isMarked_eq_false _ _ "*** Add File:" hmarked (by decide)
  rw [parseOperation, if_neg (by rw [hadd]; decide), if_pos hmarked, parseDeleteFile,
    parsePath_header i hname]

theorem parseOperation_update (hwf : (Operation.update path moveTo hunks).WellFormed)
    (hreadable : (Operation.update path moveTo hunks).Readable) (htail : NextOperation tail) :
    parseOperation i (header "Update File" path)
        ((moveTo.map (header "Move to")).toList ++ (hunks.flatMap Hunk.lines ++ tail)) =
      .ok (.update path moveTo (hunks.map Hunk.chunk),
        ⟨i + 1 + (moveTo.map (header "Move to")).toList.length +
          (hunks.flatMap Hunk.lines).length, tail⟩) := by
  have hname : Name path := hwf.names path mem_cons_self
  have hmoveNames : ∀ name ∈ moveTo.toList, Name name := fun name hname =>
    hwf.names name (mem_cons_of_mem _ (mem_append_left _ hname))
  have hcontexts : ∀ ctx ∈ hunks.flatMap Hunk.contexts, Name ctx := fun ctx hctx =>
    hwf.names ctx (mem_cons_of_mem _ (mem_append_right _ hctx))
  have hmarked : isMarked "*** Update File:" (header "Update File" path) = true :=
    isMarked_header hname (by decide)
  have hadd := @isMarked_eq_false _ _ "*** Add File:" hmarked (by decide)
  have hdelete := @isMarked_eq_false _ _ "*** Delete File:" hmarked (by decide)
  have hhunks : hunks ≠ [] := by
    rintro rfl
    exact hreadable.hunks path moveTo rfl
  have hhead : ∀ line ∈ (hunks.flatMap Hunk.lines ++ tail).head?,
      isMarked "*** Move to:" line = false := by
    obtain ⟨hunk, rest, rfl⟩ := exists_cons_of_ne_nil hhunks
    obtain ⟨first, others, hlines, hcontext⟩ := @Hunk.head_lines hunk fun ctx hctx =>
      hcontexts ctx (mem_flatMap.mpr ⟨hunk, mem_cons_self, hctx⟩)
    intro line hline
    rw [flatMap_cons, hlines] at hline
    cases hline
    exact isMarked_eq_false hcontext (by decide)
  have hpasses : hunks.length ≤ (hunks.flatMap Hunk.lines ++ tail).length := by
    have hle := length_le_flatMap Hunk.lines_ne_nil hunks
    rw [length_append]
    omega
  rw [parseOperation, if_neg (by rw [hadd]; decide), if_neg (by rw [hdelete]; decide),
    if_pos hmarked, parseUpdateFile, parsePath_header i hname]
  dsimp only
  rw [parseMove_header hmoveNames hhead]
  dsimp only
  rw [parseHunks_flatMap hpasses hcontexts hwf.bodies hreadable.kept htail]
  dsimp only
  rw [if_neg (by simpa using hhunks)]

structure Begins (line : Text) : Prop where
  starts : startsOperation line = true
  notEnd : isMarked "*** End Patch" line = false
  notBlank : trim line ≠ []

theorem begins_header (h : Name path) (hlabel : label ∈ ["Add File", "Delete File",
      "Update File"]) :
    Begins (header label path) := by
  have hmarked := @isMarked_header _ path label h rfl
  have hstarts : startsOperation (header label path) = true := by
    simp only [mem_cons, not_mem_nil, or_false] at hlabel
    rcases hlabel with rfl | rfl | rfl
    · rw [startsOperation, @isMarked_header "*** Add File:" path _ h (by decide)]
      rfl
    · rw [startsOperation, @isMarked_header "*** Delete File:" path _ h (by decide), Bool.or_true]
      rfl
    · rw [startsOperation, @isMarked_header "*** Update File:" path _ h (by decide), Bool.or_true]
      rfl
  have hapart : ∀ label ∈ ["Add File", "Delete File", "Update File"],
      ¬ ("*** " ++ label ++ ":").toList <+: "*** End Patch".toList ∧
        ¬ "*** End Patch".toList <+: ("*** " ++ label ++ ":").toList := by decide
  refine ⟨hstarts, isMarked_eq_false hmarked (hapart label hlabel), ?_⟩
  rw [trim_header h, header_eq]
  simp

theorem Operation.lines_ne_nil (operation : Operation) : operation.lines ≠ [] := by
  cases operation <;> exact cons_ne_nil _ _

variable {operation : Operation}

theorem Operation.WellFormed.head_lines (hwf : operation.WellFormed) :
    ∃ line rest, operation.lines = line :: rest ∧ Begins line := by
  cases operation with
  | add path => exact ⟨_, _, rfl, begins_header (hwf.names path mem_cons_self) (by decide)⟩
  | delete path => exact ⟨_, _, rfl, begins_header (hwf.names path mem_cons_self) (by decide)⟩
  | update path => exact ⟨_, _, rfl, begins_header (hwf.names path mem_cons_self) (by decide)⟩

theorem parseOperation_lines {rest : List Text} (hwf : operation.WellFormed)
    (hreadable : operation.Readable) (htail : NextOperation tail)
    (hlines : operation.lines = line :: rest) : parseOperation i line (rest ++ tail) =
      .ok (operation.file, ⟨i + operation.lines.length, tail⟩) := by
  cases operation with
  | add path contentLines =>
    cases hlines
    rw [parseOperation_add (hwf.names path mem_cons_self) htail]
    simp [Operation.file, Operation.lines, Nat.add_comm, Nat.add_left_comm]
  | delete path =>
    cases hlines
    exact parseOperation_delete (hwf.names path mem_cons_self)
  | update path moveTo hunks =>
    cases hlines
    rw [append_assoc, parseOperation_update hwf hreadable htail]
    simp only [Operation.file, Operation.lines, length_cons, length_append]
    congr 3
    omega

variable {operations : List Operation}

theorem nextOperation_flatMap (hwf : ∀ operation ∈ operations, operation.WellFormed) :
    NextOperation (operations.flatMap Operation.lines ++ [endPatch]) := by
  cases operations with
  | nil => exact ⟨_, _, rfl, by decide⟩
  | cons operation rest =>
    obtain ⟨line, others, hlines, hbegins⟩ := (hwf operation mem_cons_self).head_lines
    exact ⟨line, _, by rw [flatMap_cons, hlines]; rfl, hbegins.starts⟩

theorem parseOperations_flatMap (hpasses : operations.length < passes)
    (hwf : ∀ operation ∈ operations, operation.WellFormed)
    (hreadable : ∀ operation ∈ operations, operation.Readable) :
    parseOperations passes ⟨i, operations.flatMap Operation.lines ++ [endPatch]⟩ =
      .ok (operations.map Operation.file, true) := by
  induction operations generalizing passes i with
  | nil =>
    obtain ⟨passes, rfl⟩ : ∃ n, passes = n + 1 := ⟨passes - 1, by simp at hpasses; omega⟩
    have hend : isMarked "*** End Patch" endPatch = true := by decide
    rw [flatMap_nil, nil_append, parseOperations, if_pos hend]
    rfl
  | cons operation rest ih =>
    obtain ⟨passes, rfl⟩ : ∃ n, passes = n + 1 := ⟨passes - 1, by simp at hpasses; omega⟩
    have hwfRest : ∀ op ∈ rest, op.WellFormed := fun op hop => hwf op (mem_cons_of_mem _ hop)
    obtain ⟨line, others, hlines, hbegins⟩ := (hwf operation mem_cons_self).head_lines
    have hread := @parseOperation_lines _ _ i _ _ (hwf operation mem_cons_self)
      (hreadable operation mem_cons_self) (nextOperation_flatMap hwfRest) hlines
    have hrest := @ih (i + operation.lines.length) passes (by simpa using hpasses) hwfRest
      fun op hop => hreadable op (mem_cons_of_mem _ hop)
    rw [flatMap_cons, append_assoc, hlines, cons_append, parseOperations,
      if_neg (by rw [hbegins.notEnd]; decide), if_neg hbegins.notBlank, hread]
    dsimp only
    rw [hrest]
    rfl

theorem Content.append {start : Text} (hstart : Content start) (h : Content text) :
    Content (start ++ text) := by
  refine ⟨?_, ?_⟩
  · rw [mem_append, not_or]
    exact ⟨hstart.newline, h.newline⟩
  · rw [List.getLast?_append]
    cases hlast : text.getLast? with
    | none => exact hstart.carriageReturn
    | some c =>
      rw [← hlast]
      simpa [hlast] using h.carriageReturn

theorem Name.content (h : Name text) (hclear : '\n' ∉ text) : Content text := by
  refine ⟨hclear, ?_⟩
  intro hreturn
  have hlast := h.getLast
  rw [List.getLast?_eq_some_getLast h.ne_nil, Option.some.injEq] at hreturn
  rw [hreturn] at hlast
  exact absurd hlast (by decide)

theorem content_writeHunkLine {line : HunkLine} (h : Content (lineContent line)) :
    Content (writeHunkLine line) := by
  cases line with
  | removed content => exact @Content.append _ ['-'] (by decide) h
  | added content => exact @Content.append _ ['+'] (by decide) h
  | context content => exact @Content.append _ [' '] (by decide) h

theorem content_header (hname : Name path) (hclear : '\n' ∉ path)
    (hlabel : label ∈ ["Add File", "Delete File", "Update File", "Move to"]) :
    Content (header label path) := by
  have hstart : ∀ label ∈ ["Add File", "Delete File", "Update File", "Move to"],
      Content ("*** " ++ label ++ ": ").toList := by decide
  exact (hstart label hlabel).append (hname.content hclear)

theorem Hunk.content_lines (hnames : ∀ ctx ∈ hunk.contexts, Content ctx)
    (hcontents : ∀ line ∈ hunk.body, Content (lineContent line)) :
    ∀ line ∈ hunk.lines, Content line := by
  intro line hline
  rw [Hunk.lines, mem_append, mem_append] at hline
  rcases hline with hline | hline | hline
  · rw [contextLines] at hline
    split at hline
    · rw [mem_singleton.mp hline]
      decide
    · obtain ⟨ctx, hctx, rfl⟩ := mem_map.mp hline
      exact @Content.append _ "@@ ".toList (by decide) (hnames ctx hctx)
  · obtain ⟨part, hpart, rfl⟩ := mem_map.mp hline
    exact content_writeHunkLine (hcontents part hpart)
  · rw [endOfFileLines] at hline
    split at hline
    · rw [mem_singleton.mp hline]
      decide
    · cases hline

theorem Operation.WellFormed.content_lines (hwf : operation.WellFormed)
    (hclear : ∀ name ∈ operation.names, '\n' ∉ name) : ∀ line ∈ operation.lines, Content line := by
  intro line hline
  cases operation with
  | add path contentLines =>
    rcases mem_cons.mp hline with rfl | hline
    · exact content_header (hwf.names path mem_cons_self)
        (hclear path mem_cons_self) (by decide)
    · obtain ⟨content, hcont, rfl⟩ := mem_map.mp hline
      exact @Content.append _ ['+'] (by decide) (hwf.contents content hcont)
  | delete path =>
    rw [mem_singleton.mp hline]
    exact content_header (hwf.names path mem_cons_self)
      (hclear path mem_cons_self) (by decide)
  | update path moveTo hunks =>
    rw [Operation.lines, mem_cons, mem_append] at hline
    rcases hline with rfl | hline | hline
    · exact content_header (hwf.names path mem_cons_self)
        (hclear path mem_cons_self) (by decide)
    · rw [Option.mem_toList, Option.map_eq_some_iff] at hline
      obtain ⟨target, htgt, rfl⟩ := hline
      have hmem : target ∈ (Operation.update path moveTo hunks).names := by
        simp [Operation.names, htgt]
      exact content_header (hwf.names target hmem) (hclear target hmem) (by decide)
    · obtain ⟨hunk, hhunk, hline⟩ := mem_flatMap.mp hline
      refine hunk.content_lines ?_ ?_ line hline
      · intro ctx hctx
        have hmem : ctx ∈ (Operation.update path moveTo hunks).names :=
          mem_cons_of_mem _
            (mem_append_right _ (mem_flatMap.mpr ⟨hunk, hhunk, hctx⟩))
        exact (hwf.names ctx hmem).content (hclear ctx hmem)
      · intro part hpart
        exact hwf.contents _ (mem_flatMap.mpr ⟨hunk, hhunk, mem_map_of_mem hpart⟩)

theorem lines_render (hwf : ∀ operation ∈ operations, operation.WellFormed)
    (hclear : ∀ operation ∈ operations, ∀ name ∈ operation.names, '\n' ∉ name) :
    lines (render operations) = patchLines operations ++ [endPatch] := by
  have hcont : ∀ line ∈ patchLines operations, Content line := by
    intro line hline
    rcases mem_cons.mp hline with rfl | hline
    · decide
    · obtain ⟨operation, hop, hline⟩ := mem_flatMap.mp hline
      exact (hwf operation hop).content_lines (hclear operation hop) line hline
  apply lines_intercalate
  · intro line hline
    rcases mem_append.mp hline with hline | hline
    · exact (hcont line hline).newline
    · rw [mem_singleton.mp hline]
      decide
  · exact fun line hline => (hcont line hline).carriageReturn
  · decide

theorem parsePatch_render (hne : operations ≠ [])
    (hwf : ∀ operation ∈ operations, operation.WellFormed)
    (hreadable : ∀ operation ∈ operations, operation.Readable) :
    parsePatch (render operations) = .ok (operations.map Operation.file) := by
  have hlines := lines_render hwf fun operation hop => (hreadable operation hop).names
  have hbegin : isMarked "*** Begin Patch" "*** Begin Patch".toList = true := by decide
  have hpasses : operations.length < (operations.flatMap Operation.lines ++ [endPatch]).length := by
    have hle := length_le_flatMap Operation.lines_ne_nil operations
    rw [length_append, length_singleton]
    omega
  have hskip : skipBlank 0 (patchLines operations ++ [endPatch]) =
      ⟨0, patchLines operations ++ [endPatch]⟩ := by
    rw [patchLines, cons_append, skipBlank, if_neg (by decide)]
  rw [parsePatch, hlines, hskip]
  dsimp only [patchLines, cons_append]
  rw [if_pos hbegin, parseOperations_flatMap hpasses hwf hreadable]
  dsimp only
  rw [if_neg (by decide), if_neg (by simpa using hne)]

end PatchFormat
