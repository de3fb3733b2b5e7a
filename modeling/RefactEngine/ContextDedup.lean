import RefactEngine.HistoryRepair
import Mathlib.Data.Finset.Card

/-! # Removing duplicate attachments from a history

Attachments of one file name are compared with each other. An older one of the same line range goes,
and of the rest those that are reported as duplicates of the longest one. The report is symmetric:
it also holds where the longest one is the part of the other.
-/
namespace ContextDedup

open HistoryRepair (Role)
open List
open TextLines

structure ContextFile where
  fileName : String
  fileContent : String
  line1 : ℕ
  line2 : ℕ
  fileRev : Option String
  deriving DecidableEq

inductive ChatContent where
  | simpleText (text : String)
  | multimodal (body : String)
  | contextFiles (files : List ContextFile)
  deriving DecidableEq

structure ChatMessage where
  role : Role
  content : ChatContent
  toolCallId : String
  deriving DecidableEq

structure FilesFormat where
  parse : String → Option (List ContextFile)
  render : List ContextFile → String

structure ContextFileInfo where
  msgIdx : ℕ
  cfIdx : ℕ
  file : ContextFile
  deriving DecidableEq

variable (info : ContextFileInfo)

def ContextFileInfo.range : ℕ × ℕ := (info.file.line1, info.file.line2)

def ContextFileInfo.contentLen : ℕ := info.file.fileContent.utf8ByteSize

def shownLines (content : String) : Finset (List Char) :=
  ((lines content.toList).filter fun line => !"...".toList.isPrefixOf line).toFinset

def contains (text part : String) : Bool := decide (part.toList <:+: text.toList)

def isContentDuplicate (current first : ContextFile) : Bool :=
  if ¬ (first.line1 ≤ current.line2 ∧ current.line1 ≤ first.line2) then false
  else if current.fileContent = "" ∨ first.fileContent = "" then false
  else if contains first.fileContent current.fileContent ||
      contains current.fileContent first.fileContent then true
  else
    let firstLines := shownLines first.fileContent
    let currentLines := shownLines current.fileContent
    let intersectCount := (firstLines ∩ currentLines).card
    decide (currentLines ≠ ∅ ∧ currentLines.card ≤ intersectCount) ||
      decide (firstLines ≠ ∅ ∧ firstLines.card ≤ intersectCount)

/-- The attachments that a message carries; nothing if its text cannot be read. -/
def contextFiles (format : FilesFormat) (m : ChatMessage) : List ContextFile :=
  if m.role ≠ .contextFile then []
  else
    match m.content with
    | .contextFiles files => files
    | .simpleText text => (format.parse text).getD []
    | .multimodal _ => []

variable (format : FilesFormat)

def infosOf (entry : ChatMessage × ℕ) : List ContextFileInfo :=
  (contextFiles format entry.1).zipIdx.map fun cf => ⟨entry.2, cf.2, cf.1⟩

def allFiles (messages : List ChatMessage) : List ContextFileInfo :=
  messages.zipIdx.flatMap (infosOf format)

variable (files : List ContextFileInfo)

/-- The attachments of one name. Each name is handled on its own, so the order of the names makes
no difference. -/
def group (info : ContextFileInfo) : List ContextFileInfo :=
  files.filter fun other => other.file.fileName = info.file.fileName

def newer (entry : Option ContextFileInfo) (info : ContextFileInfo) : Option ContextFileInfo :=
  match entry with
  | none => some info
  | some held => if held.msgIdx < info.msgIdx then some info else some held

variable (named : List ContextFileInfo)

def newestByRange (range : ℕ × ℕ) : Option ContextFileInfo :=
  (named.filter fun info => info.range = range).foldl newer none

def isSuperseded (info : ContextFileInfo) : Bool :=
  newestByRange named info.range ≠ some info

def sizeOrder : ℕ ×ₗ ℕ := toLex (info.contentLen, info.msgIdx)

def longer (entry : Option ContextFileInfo) (info : ContextFileInfo) : Option ContextFileInfo :=
  match entry with
  | none => some info
  | some held => if sizeOrder info < sizeOrder held then some held else some info

def bestOf : Option ContextFileInfo :=
  (named.filter fun info => !isSuperseded named info).foldl longer none

def isCompressed (info : ContextFileInfo) : Bool :=
  let named := group files info
  if named.length ≤ 1 then false
  else if isSuperseded named info then true
  else
    match bestOf named with
    | none => false
    | some best => best ≠ info && isContentDuplicate info.file best.file

def isPreserved (msgIdx : ℕ) : Bool :=
  files.any fun info =>
    decide (1 < (group files info).length) &&
      (bestOf (group files info)).any fun best => best.msgIdx = msgIdx

def isCompressedAt (msgIdx cfIdx : ℕ) : Bool :=
  files.any fun f => decide (f.msgIdx = msgIdx) && decide (f.cfIdx = cfIdx) && isCompressed files f

def compressedSummary (names : List String) : String :=
  let shown := ", ".intercalate names
  s!" Duplicate files compressed: '{shown}' files were shown earlier in the conversation " ++
    "history. Do not ask for these files again."

def rewriteMessage (files : List ContextFileInfo)
    (entry : ChatMessage × ℕ) : ChatMessage :=
  let (compressed, remaining) := (contextFiles format entry.1).zipIdx.partition fun cf =>
    isCompressedAt files entry.2 cf.2
  if compressed = [] then entry.1
  else if remaining = [] then
    { entry.1 with
      content := .simpleText (compressedSummary (compressed.map fun cf => cf.1.fileName))
      role := if entry.1.toolCallId = "" then .cdInstruction else entry.1.role }
  else { entry.1 with content := .simpleText (format.render (remaining.map Prod.fst)) }

/-- The rewritten messages, the number of attachments removed, and the messages with a best one. -/
def compressDuplicateContextFiles (messages : List ChatMessage) :
    List ChatMessage × ℕ × List Bool :=
  let files := allFiles format messages
  (messages.zipIdx.map (rewriteMessage format files),
    (files.filter fun info => isCompressed files info).length,
    messages.zipIdx.map fun entry => isPreserved files entry.2)

def Contains (info other : ContextFileInfo) : Prop :=
  other.file.fileName = info.file.fileName ∧
    ∀ line ∈ shownLines info.file.fileContent, line <:+: other.file.fileContent.toList

def remainingFiles (msgIdx : ℕ) : List ContextFile :=
  (files.filter fun info => info.msgIdx = msgIdx && !isCompressed files info).map
    ContextFileInfo.file

structure LosesNothing (format : FilesFormat) (messages result : List ChatMessage) : Prop where
  shown : ∀ info ∈ allFiles format messages,
    isCompressed (allFiles format messages) info = true →
      (∃ later ∈ allFiles format messages, later.file.fileName = info.file.fileName ∧
        later.range = info.range ∧ info.msgIdx < later.msgIdx ∧
        isCompressed (allFiles format messages) later = false) ∨
      ∃ other ∈ allFiles format messages,
        isCompressed (allFiles format messages) other = false ∧ Contains info other
  length_eq : result.length = messages.length
  unchanged : ∀ i m, messages[i]? = some m →
    (∀ info ∈ allFiles format messages, info.msgIdx = i →
      isCompressed (allFiles format messages) info = false) → result[i]? = some m
  kept : ∀ i m, messages[i]? = some m → ∀ info ∈ allFiles format messages, info.msgIdx = i →
    isCompressed (allFiles format messages) info = true → m.role = .contextFile ∧
      ∃ m', result[i]? = some m' ∧ m'.toolCallId = m.toolCallId ∧
        (remainingFiles (allFiles format messages) i = [] ∨ m'.role = m.role ∧
          m'.content = .simpleText (format.render (remainingFiles (allFiles format messages) i)))

/-- The newest of its name and range that is the longest such, or is not reported against it. -/
def Stays (info : ContextFileInfo) : Prop :=
  isSuperseded (group files info) info = false ∧ ∀ best, bestOf (group files info) = some best →
    best = info ∨ isContentDuplicate info.file best.file = false

def Shown (info : ContextFileInfo) : Prop :=
  ∃ other ∈ files, Stays files other ∧ Contains info other

/-- A report that rests on the first attachment being a part of the current one only. -/
def OnlyReversed (current first : ContextFile) : Prop :=
  isContentDuplicate current first = true ∧ contains first.fileContent current.fileContent = false ∧
    ¬ shownLines current.fileContent ⊆ shownLines first.fileContent

/-- Where a report is reversed, or the newest of a range does not stay in a later message, the lines
are shown by an attachment that stays. -/
structure NothingLost (files : List ContextFileInfo) : Prop where
  reversed : ∀ info ∈ files, isSuperseded (group files info) info = false →
    ∀ best, bestOf (group files info) = some best → best ≠ info →
      OnlyReversed info.file best.file → Shown files info
  superseded : ∀ info ∈ files, ∀ newest, newestByRange (group files info) info.range = some newest →
    newest ≠ info → ¬ (info.msgIdx < newest.msgIdx ∧ Stays files newest) → Shown files info

section Choice

variable {named : List ContextFileInfo}

/-- A fold whose step takes the held entry or the next one ends with an entry of the list. -/
theorem foldl_chooses {step : Option ContextFileInfo → ContextFileInfo → Option ContextFileInfo}
    (hstep : ∀ held info, step (some held) info = some held ∨ step (some held) info = some info)
    (l : List ContextFileInfo) (held : ContextFileInfo) :
    ∃ found ∈ held :: l, l.foldl step (some held) = some found := by
  induction l generalizing held with
  | nil => exact ⟨held, mem_cons_self, rfl⟩
  | cons info rest ih =>
    rw [foldl_cons]
    rcases hstep held info with hkept | htaken
    · rw [hkept]
      obtain ⟨found, hfound, heq⟩ := ih held
      refine ⟨found, ?_, heq⟩
      rcases mem_cons.mp hfound with rfl | hfound
      · exact mem_cons_self
      · exact mem_cons_of_mem _ (mem_cons_of_mem _ hfound)
    · rw [htaken]
      obtain ⟨found, hfound, heq⟩ := ih info
      exact ⟨found, mem_cons_of_mem _ hfound, heq⟩

theorem newer_chooses (held info : ContextFileInfo) :
    newer (some held) info = some held ∨ newer (some held) info = some info := by
  rw [newer]
  split_ifs
  · exact .inr rfl
  · exact .inl rfl

theorem longer_chooses (held info : ContextFileInfo) :
    longer (some held) info = some held ∨ longer (some held) info = some info := by
  rw [longer]
  split_ifs
  · exact .inl rfl
  · exact .inr rfl

theorem exists_newest {info : ContextFileInfo} (h : info ∈ named) :
    ∃ newest ∈ named, newestByRange named info.range = some newest ∧ newest.range = info.range := by
  have hmem : info ∈ named.filter fun other => other.range = info.range :=
    mem_filter.mpr ⟨h, decide_eq_true rfl⟩
  unfold newestByRange
  cases hranged : named.filter fun other => other.range = info.range with
  | nil =>
    rw [hranged] at hmem
    cases hmem
  | cons first rest =>
    obtain ⟨newest, hnewest, heq⟩ := foldl_chooses newer_chooses rest first
    rw [← hranged] at hnewest
    obtain ⟨hin, hrange⟩ := mem_filter.mp hnewest
    exact ⟨newest, hin, heq, of_decide_eq_true hrange⟩

theorem bestOf_mem {best : ContextFileInfo} (h : bestOf named = some best) :
    best ∈ named ∧ isSuperseded named best = false := by
  unfold bestOf at h
  cases hcandidates : named.filter fun info => !isSuperseded named info with
  | nil =>
    rw [hcandidates] at h
    cases h
  | cons first rest =>
    rw [hcandidates, foldl_cons] at h
    obtain ⟨found, hfound, heq⟩ := foldl_chooses longer_chooses rest first
    obtain rfl := Option.some.inj (heq.symm.trans h)
    rw [← hcandidates] at hfound
    obtain ⟨hin, hnot⟩ := mem_filter.mp hfound
    exact ⟨hin, by simpa using hnot⟩

theorem exists_best {info : ContextFileInfo} (h : info ∈ named)
    (hnewest : isSuperseded named info = false) : ∃ best, bestOf named = some best := by
  have hmem : info ∈ named.filter fun other => !isSuperseded named other :=
    mem_filter.mpr ⟨h, by rw [hnewest]; rfl⟩
  unfold bestOf
  cases hcandidates : named.filter fun other => !isSuperseded named other with
  | nil =>
    rw [hcandidates] at hmem
    cases hmem
  | cons first rest =>
    obtain ⟨best, -, heq⟩ := foldl_chooses longer_chooses rest first
    exact ⟨best, heq⟩

end Choice

variable {files : List ContextFileInfo} {info : ContextFileInfo} {other : ContextFileInfo}

theorem mem_group :
    other ∈ group files info ↔ other ∈ files ∧ other.file.fileName = info.file.fileName := by
  simp only [group, mem_filter, decide_eq_true_eq]

theorem group_eq (h : other.file.fileName = info.file.fileName) :
    group files other = group files info := by
  simp only [group, h]

theorem isCompressed_eq_false_iff (hmem : info ∈ files) :
    isCompressed files info = false ↔ Stays files info := by
  have hin : info ∈ group files info := mem_group.mpr ⟨hmem, rfl⟩
  unfold isCompressed
  by_cases hone : (group files info).length ≤ 1
  · rw [if_pos hone]
    -- It is the only one of its name.
    have hsingle : ∀ other ∈ group files info, other = info := by
      intro other hother
      obtain ⟨only, honly⟩ := length_eq_one_iff.mp
        (le_antisymm hone (length_pos_of_mem hin))
      rw [honly] at hother hin
      rw [mem_singleton.mp hother, mem_singleton.mp hin]
    refine ⟨fun _ => ⟨?_, fun best hbest => .inl (hsingle best (bestOf_mem hbest).1)⟩, fun _ => rfl⟩
    obtain ⟨newest, hnewest, heq, -⟩ := exists_newest hin
    rw [isSuperseded, heq, hsingle newest hnewest]
    exact decide_eq_false (not_not.mpr rfl)
  · rw [if_neg hone]
    cases hsup : isSuperseded (group files info) info with
    | true => simp [Stays, hsup]
    | false =>
      obtain ⟨best, hbest⟩ := exists_best hin hsup
      simp only [Stays, hsup, hbest, Option.some.injEq, forall_eq', Bool.false_eq_true,
        if_false, true_and, Bool.and_eq_false_iff, decide_eq_false_iff_not, not_not, ne_eq]

theorem mem_shownLines {content : String} {line : List Char} (h : line ∈ shownLines content) :
    line ∈ lines content.toList :=
  (mem_filter.mp (mem_toFinset.mp h)).1

/-- A report that is not reversed is of an attachment whose lines the other contains. -/
theorem contains_of_not_reversed {best : ContextFileInfo}
    (hname : best.file.fileName = info.file.fileName)
    (hdup : isContentDuplicate info.file best.file = true)
    (h : ¬ OnlyReversed info.file best.file) : Contains info best := by
  refine ⟨hname, fun line hline => ?_⟩
  by_cases hpart : contains best.file.fileContent info.file.fileContent = true
  · exact (infix_of_mem_lines (mem_shownLines hline)).trans (of_decide_eq_true hpart)
  · have hsubset : shownLines info.file.fileContent ⊆ shownLines best.file.fileContent := by
      by_contra hnot
      exact h ⟨hdup, Bool.not_eq_true _ ▸ hpart, hnot⟩
    exact infix_of_mem_lines (mem_shownLines (hsubset hline))

theorem superseded_iff (hmem : info ∈ files) :
    isSuperseded (group files info) info = true ↔ ∃ newest,
      newestByRange (group files info) info.range = some newest ∧ newest ≠ info := by
  obtain ⟨newest, -, heq, -⟩ := exists_newest (mem_group.mpr ⟨hmem, rfl⟩ : info ∈ group files info)
  simp only [isSuperseded, heq, decide_eq_true_eq, ne_eq, Option.some.injEq, exists_eq_left']

theorem newest_eq_of_stays {later : ContextFileInfo}
    (hname : later.file.fileName = info.file.fileName) (hrange : later.range = info.range)
    (hstays : Stays files later) :
    newestByRange (group files info) info.range = some later := by
  have hnot := hstays.1
  rw [isSuperseded, decide_eq_false_iff_not, not_not, group_eq hname, hrange] at hnot
  exact hnot

theorem shown_iff (files : List ContextFileInfo) :
    (∀ info ∈ files, isCompressed files info = true →
      (∃ later ∈ files, later.file.fileName = info.file.fileName ∧ later.range = info.range ∧
        info.msgIdx < later.msgIdx ∧ isCompressed files later = false) ∨
      ∃ other ∈ files, isCompressed files other = false ∧ Contains info other) ↔
      NothingLost files := by
  constructor
  · intro h
    have hshown : ∀ info ∈ files, ¬ Stays files info →
        (∀ newest, newestByRange (group files info) info.range = some newest →
          ¬ (info.msgIdx < newest.msgIdx ∧ Stays files newest)) → Shown files info := by
      intro info hmem hrem hnewest
      have hcomp : isCompressed files info = true := by
        rw [← Bool.not_eq_false, isCompressed_eq_false_iff hmem]
        exact hrem
      rcases h info hmem hcomp with ⟨later, hlater, hname, hrange, hlt, hkept⟩ | hother
      · rw [isCompressed_eq_false_iff hlater] at hkept
        exact absurd ⟨hlt, hkept⟩ (hnewest later (newest_eq_of_stays hname hrange hkept))
      · obtain ⟨other, hother, hkept, hcontains⟩ := hother
        exact ⟨other, hother, (isCompressed_eq_false_iff hother).mp hkept, hcontains⟩
    constructor
    case reversed =>
      intro info hmem hnot best hbest hne hreversed
      apply hshown info hmem
      · rintro ⟨-, hstays⟩
        rcases hstays best hbest with heq | hrep
        · exact hne heq
        · rw [hreversed.1] at hrep
          cases hrep
      · rintro newest hnewest ⟨hlt, -⟩
        rw [isSuperseded, decide_eq_false_iff_not, not_not] at hnot
        obtain rfl := Option.some.inj (hnewest.symm.trans hnot)
        exact lt_irrefl _ hlt
    case superseded =>
      intro info hmem newest hnewest hne hgone
      have hsup := (superseded_iff hmem).mpr ⟨newest, hnewest, hne⟩
      apply hshown info hmem
      · intro hstays
        rw [hstays.1] at hsup
        cases hsup
      · intro other hother
        obtain rfl := Option.some.inj (hother.symm.trans hnewest)
        exact hgone
  · intro h info hmem hcomp
    have hrem : ¬ Stays files info := by
      rw [← isCompressed_eq_false_iff hmem, hcomp]
      exact nofun
    have hkept : Shown files info →
        ∃ other ∈ files, isCompressed files other = false ∧ Contains info other := by
      rintro ⟨other, hother, hstays, hcontains⟩
      exact ⟨other, hother, (isCompressed_eq_false_iff hother).mpr hstays, hcontains⟩
    have hin : info ∈ group files info := mem_group.mpr ⟨hmem, rfl⟩
    cases hsup : isSuperseded (group files info) info with
    | true =>
      obtain ⟨newest, hnewest, hne⟩ := (superseded_iff hmem).mp hsup
      by_cases hlater : info.msgIdx < newest.msgIdx ∧ Stays files newest
      · obtain ⟨found, hfound, heq, hrange⟩ := exists_newest hin
        obtain rfl := Option.some.inj (heq.symm.trans hnewest)
        obtain ⟨hfound, hname⟩ := mem_group.mp hfound
        exact .inl ⟨found, hfound, hname, hrange, hlater.1,
          (isCompressed_eq_false_iff hfound).mpr hlater.2⟩
      · exact .inr (hkept (h.superseded info hmem newest hnewest hne hlater))
    | false =>
      obtain ⟨best, hbest⟩ := exists_best hin hsup
      obtain ⟨hbest_mem, hbest_newest⟩ := bestOf_mem hbest
      obtain ⟨hbest_mem, hname⟩ := mem_group.mp hbest_mem
      have hrep : best ≠ info ∧ isContentDuplicate info.file best.file = true := by
        constructor
        · rintro rfl
          exact hrem ⟨hsup, fun other hother =>
            .inl (Option.some.inj (hother.symm.trans hbest))⟩
        · by_contra hnot
          refine hrem ⟨hsup, fun other hother => .inr ?_⟩
          rw [Option.some.inj (hother.symm.trans hbest)]
          exact Bool.not_eq_true _ ▸ hnot
      by_cases hreversed : OnlyReversed info.file best.file
      · exact .inr (hkept (h.reversed info hmem hsup best hbest hrep.1 hreversed))
      · -- The best one stays, and it has the lines.
        have hbest_stays : Stays files best := by
          refine ⟨group_eq hname ▸ hbest_newest, fun other hother => .inl ?_⟩
          rw [group_eq hname] at hother
          exact Option.some.inj (hother.symm.trans hbest)
        exact .inr (hkept ⟨best, hbest_mem, hbest_stays,
          contains_of_not_reversed hname hrep.2 hreversed⟩)

section Rewriting

variable {format : FilesFormat} {messages : List ChatMessage}

theorem mem_allFiles {info : ContextFileInfo} :
    info ∈ allFiles format messages ↔ ∃ m, messages[info.msgIdx]? = some m ∧
      (contextFiles format m)[info.cfIdx]? = some info.file := by
  simp only [allFiles, infosOf, mem_flatMap, mem_map]
  constructor
  · rintro ⟨⟨m, i⟩, hm, ⟨cf, j⟩, hcf, rfl⟩
    exact ⟨m, List.mem_zipIdx_iff_getElem?.mp hm, List.mem_zipIdx_iff_getElem?.mp hcf⟩
  · rintro ⟨m, hm, hcf⟩
    exact ⟨(m, info.msgIdx), List.mem_zipIdx_iff_getElem?.mpr hm, (info.file, info.cfIdx),
      List.mem_zipIdx_iff_getElem?.mpr hcf, rfl⟩

variable {m : ChatMessage} {i : ℕ}

theorem isCompressedAt_iff {j : ℕ} {cf : ContextFile} (hm : messages[i]? = some m)
    (hcf : (contextFiles format m)[j]? = some cf) : isCompressedAt (allFiles format messages) i j =
      isCompressed (allFiles format messages) ⟨i, j, cf⟩ := by
  rw [Bool.eq_iff_iff, isCompressedAt, any_eq_true]
  simp only [Bool.and_eq_true, decide_eq_true_eq]
  constructor
  · rintro ⟨⟨i', j', cf'⟩, hmem, ⟨rfl, rfl⟩, hcomp⟩
    obtain ⟨m', hm', hcf'⟩ := mem_allFiles.mp hmem
    obtain rfl := Option.some.inj (hm.symm.trans hm')
    obtain rfl := Option.some.inj (hcf.symm.trans hcf')
    exact hcomp
  · intro hcomp
    exact ⟨_, mem_allFiles.mpr ⟨m, hm, hcf⟩, ⟨rfl, rfl⟩, hcomp⟩

theorem flatMap_zipIdx_single {α β : Type} {g : α × ℕ → List β} {l : List α} {k n : ℕ} {a : α}
    (ha : l[k]? = some a) (hg : ∀ entry, entry.2 ≠ n + k → g entry = []) :
    (l.zipIdx n).flatMap g = g (a, n + k) := by
  induction l generalizing k n with
  | nil => cases ha
  | cons first rest ih =>
    rw [zipIdx_cons, flatMap_cons]
    cases k with
    | zero =>
      obtain rfl := Option.some.inj ha
      have hrest : (rest.zipIdx (n + 1)).flatMap g = [] := by
        rw [flatMap_eq_nil_iff]
        intro entry hentry
        have hle := (mem_zipIdx hentry).1
        exact hg entry (by omega)
      rw [hrest, append_nil]
      rfl
    | succ k =>
      rw [hg (first, n) (by simp), nil_append,
        ih ha (fun entry hne => hg entry (by omega)), show n + 1 + k = n + (k + 1) by omega]

theorem filter_allFiles (q : ContextFileInfo → Bool) (hm : messages[i]? = some m) :
    ((allFiles format messages).filter fun info => info.msgIdx = i && q info) =
      (infosOf format (m, i)).filter q := by
  have hidx : ∀ entry, ∀ info ∈ infosOf format entry, info.msgIdx = entry.2 := by
    intro entry info hinfo
    obtain ⟨cf, -, rfl⟩ := mem_map.mp hinfo
    rfl
  rw [allFiles, filter_flatMap, flatMap_zipIdx_single hm]
  · rw [Nat.zero_add]
    apply filter_congr
    intro info hinfo
    simp [hidx _ info hinfo]
  · intro entry hne
    rw [filter_eq_nil_iff]
    intro info hinfo
    rw [Nat.zero_add] at hne
    simp [hidx _ info hinfo, hne]

theorem remainingFiles_eq (hm : messages[i]? = some m) :
    remainingFiles (allFiles format messages) i =
      ((contextFiles format m).zipIdx.filter fun cf =>
        !isCompressedAt (allFiles format messages) i cf.2).map Prod.fst := by
  rw [remainingFiles, filter_allFiles _ hm, infosOf, filter_map, map_map]
  refine congrArg (List.map Prod.fst) (filter_congr ?_)
  rintro ⟨cf, j⟩ hcf
  rw [isCompressedAt_iff hm (List.mem_zipIdx_iff_getElem?.mp hcf)]
  rfl

theorem getElem?_rewritten (hm : messages[i]? = some m) :
    (compressDuplicateContextFiles format messages).1[i]? =
      some (rewriteMessage format (allFiles format messages) (m, i)) := by
  rw [compressDuplicateContextFiles, List.getElem?_map, List.getElem?_zipIdx, hm]
  simp

theorem rewriteMessage_unchanged (hm : messages[i]? = some m)
    (h : ∀ info ∈ allFiles format messages, info.msgIdx = i →
      isCompressed (allFiles format messages) info = false) :
    rewriteMessage format (allFiles format messages) (m, i) = m := by
  have hnone : (contextFiles format m).zipIdx.filter (fun cf =>
      isCompressedAt (allFiles format messages) i cf.2) = [] := by
    rw [filter_eq_nil_iff]
    rintro ⟨cf, j⟩ hcf
    have hcf := List.mem_zipIdx_iff_getElem?.mp hcf
    rw [isCompressedAt_iff hm hcf, h _ (mem_allFiles.mpr ⟨m, hm, hcf⟩) rfl]
    exact Bool.false_ne_true
  simp only [rewriteMessage, partition_eq_filter_filter, hnone, if_true]

theorem rewriteMessage_kept {info : ContextFileInfo} (hm : messages[info.msgIdx]? = some m)
    (hinfo : info ∈ allFiles format messages)
    (hcomp : isCompressed (allFiles format messages) info = true) :
    (rewriteMessage format (allFiles format messages) (m, info.msgIdx)).toolCallId = m.toolCallId ∧
      (remainingFiles (allFiles format messages) info.msgIdx = [] ∨
        (rewriteMessage format (allFiles format messages) (m, info.msgIdx)).role = m.role ∧
        (rewriteMessage format (allFiles format messages) (m, info.msgIdx)).content =
          .simpleText
            (format.render (remainingFiles (allFiles format messages) info.msgIdx))) := by
  rw [remainingFiles_eq hm]
  simp only [rewriteMessage, partition_eq_filter_filter]
  split_ifs with hnone hremaining
  · obtain ⟨m', hm', hcf⟩ := mem_allFiles.mp hinfo
    obtain rfl := Option.some.inj (hm.symm.trans hm')
    have hmem : (info.file, info.cfIdx) ∈ (contextFiles format m).zipIdx :=
      List.mem_zipIdx_iff_getElem?.mpr hcf
    rw [filter_eq_nil_iff] at hnone
    exact absurd ((isCompressedAt_iff hm hcf).trans hcomp) (hnone _ hmem)
  · exact ⟨rfl, .inl (map_eq_nil_iff.mpr hremaining)⟩
  · exact ⟨rfl, .inl (map_eq_nil_iff.mpr hremaining)⟩
  · exact ⟨rfl, .inr ⟨rfl, rfl⟩⟩

theorem role_of_mem {info : ContextFileInfo} (hm : messages[info.msgIdx]? = some m)
    (hinfo : info ∈ allFiles format messages) : m.role = .contextFile := by
  obtain ⟨m', hm', hcf⟩ := mem_allFiles.mp hinfo
  obtain rfl := Option.some.inj (hm.symm.trans hm')
  by_contra hrole
  rw [contextFiles, if_pos hrole] at hcf
  cases hcf

end Rewriting

/-- For every list of messages: nothing is lost exactly when every reversed report and every newest
attachment that does not stay in a later message leaves the lines with one that stays. -/
theorem compress_loses_nothing_iff (format : FilesFormat) (messages : List ChatMessage) :
    LosesNothing format messages (compressDuplicateContextFiles format messages).1 ↔
      NothingLost (allFiles format messages) := by
  constructor
  · intro h
    exact (shown_iff _).mp h.shown
  · intro h
    constructor
    case shown => exact (shown_iff _).mpr h
    case length_eq => simp [compressDuplicateContextFiles]
    case unchanged =>
      intro i m hm hnone
      rw [getElem?_rewritten hm, rewriteMessage_unchanged hm hnone]
    case kept =>
      rintro _ m hm info hinfo rfl hcompressed
      exact ⟨role_of_mem hm hinfo, _, getElem?_rewritten hm,
        rewriteMessage_kept hm hinfo hcompressed⟩

/-! A longer attachment whose lines are among those of a shorter one. -/

def attached (text : String) (line2 : ℕ) : ChatMessage :=
  ⟨.contextFile, .contextFiles [⟨"a.rs", text, 1, line2, none⟩], ""⟩

/-- The second line of the second attachment is removed and shown nowhere else. -/
theorem reversed_report_loses_line :
    ¬ LosesNothing ⟨fun _ => none, fun _ => ""⟩ [attached "a\na\na\na" 4, attached "a\nb" 2]
      (compressDuplicateContextFiles ⟨fun _ => none, fun _ => ""⟩
        [attached "a\na\na\na" 4, attached "a\nb" 2]).1 := by
  intro h
  rcases h.shown ⟨1, 0, ⟨"a.rs", "a\nb", 1, 2, none⟩⟩ (by decide) (by decide) with
    ⟨later, hlater, -, -, hlt, -⟩ | ⟨other, hother, hkept, -, hlines⟩
  · revert hlt
    revert later
    decide
  · have hb := hlines ['b'] (by decide)
    revert hkept hb
    clear hlines
    revert other
    decide

end ContextDedup
