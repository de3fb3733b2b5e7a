import RefactEngine.ApplyPatch

/-! # What an update leaves of a file

The chunks of an update are placed one after the other; where the windows stay in the order of the
chunks, replacing them from the last to the first keeps every line between them. An insertion at
the end of the file is the one chunk that can be placed before an earlier one.
-/
namespace PatchUpdates

open ApplyPatch TextLines List

/-- Lines that are equal up to trailing white space and the spelling of quotes and dashes. -/
def Agree (found wanted : List Text) : Prop :=
  List.Forall₂ (fun h n => normalizeLine h = normalizeLine n) found wanted

variable {haystack needle : List Text}

theorem agree_of_matchesBy {same : Text → Text → Bool}
    (hsame : ∀ h n, same h n = true → normalizeLine h = normalizeLine n)
    (h : matchesBy same haystack needle = true) :
    needle.length ≤ haystack.length ∧ Agree (haystack.take needle.length) needle := by
  rw [matchesBy, Bool.and_eq_true, decide_eq_true_eq] at h
  obtain ⟨hlen, hall⟩ := h
  refine ⟨hlen, ?_⟩
  induction needle generalizing haystack with
  | nil => exact List.Forall₂.nil
  | cons n needle ih =>
    cases haystack with
    | nil => simp at hlen
    | cons h haystack =>
      rw [zip_cons_cons, all_cons, Bool.and_eq_true] at hall
      simp only [length_cons] at hlen
      exact List.Forall₂.cons (hsame h n hall.1) (ih (by omega) hall.2)

theorem agree_of_matchesSequence (h : matchesSequence haystack needle = true) :
    needle.length ≤ haystack.length ∧ Agree (haystack.take needle.length) needle := by
  apply agree_of_matchesBy _ h
  intro found wanted hsame
  rw [Bool.or_eq_true, decide_eq_true_eq, decide_eq_true_eq] at hsame
  rcases hsame with rfl | hsame
  · rfl
  · rw [normalizeLine, normalizeLine, hsame]

theorem mem_seekIndices {startFrom i : ℕ} {isEndOfFile : Bool} :
    i ∈ seekIndices haystack needle startFrom isEndOfFile ↔
      startFrom ≤ i ∧ i < startFrom + (haystack.length - needle.length + 1 - startFrom) := by
  rw [seekIndices]
  cases isEndOfFile
  · exact mem_range'_1
  · exact mem_reverse.trans mem_range'_1

theorem seekSequence_some {startFrom i : ℕ} {isEndOfFile : Bool}
    (h : seekSequence haystack needle startFrom isEndOfFile = some i) :
    startFrom ≤ i ∧ i + needle.length ≤ haystack.length ∧
      Agree ((haystack.drop i).take needle.length) needle := by
  by_cases hneedle : needle = []
  · simp [seekSequence, hneedle] at h
  · have hpos : 0 < needle.length := length_pos_iff.mpr hneedle
    simp only [seekSequence, if_neg hneedle, Option.or_eq_some_iff] at h
    have hrange : ∀ p : ℕ → Bool, (seekIndices haystack needle startFrom isEndOfFile).find? p =
        some i → startFrom ≤ i ∧ p i = true :=
      fun p hfind => ⟨(mem_seekIndices.mp (List.mem_of_find?_eq_some hfind)).1,
        List.find?_some hfind⟩
    have hinside : ∀ {k}, needle.length ≤ (haystack.drop k).length →
        k + needle.length ≤ haystack.length := by
      intro k hk
      rw [length_drop] at hk
      omega
    rcases h with h | ⟨-, h⟩
    · obtain ⟨hstart, hmatch⟩ := hrange _ h
      obtain ⟨hlen, hagree⟩ := agree_of_matchesSequence hmatch
      exact ⟨hstart, hinside hlen, hagree⟩
    · obtain ⟨hstart, hmatch⟩ := hrange _ h
      obtain ⟨hlen, hagree⟩ := 
        agree_of_matchesBy (fun _ _ hsame => of_decide_eq_true hsame) hmatch
      exact ⟨hstart, hinside hlen, hagree⟩

def window (lines : List Text) (r : Replacement) : List Text :=
  (lines.drop r.start).take r.oldLen

/-- The window matches the chunk's old lines and gets its new lines. Where the file does not have
the empty last line of the pattern, the empty last line of the new ones is dropped too. -/
def Fits (lines : List Text) (chunk : UpdateChunk) (r : Replacement) : Prop :=
  (r.oldLen = chunk.oldLines.length ∧ Agree (window lines r) chunk.oldLines ∧
      r.newLines = chunk.newLines) ∨
    ∃ pattern, chunk.oldLines = pattern ++ [[]] ∧ r.oldLen = pattern.length ∧
      Agree (window lines r) pattern ∧ r.newLines = dropLastEmpty chunk.newLines

variable {lineIndex : ℕ} {chunk : UpdateChunk} {seq : ℕ} {r : Replacement}

theorem findWindow_some {lines : List Text} (h : findWindow lines lineIndex seq chunk = some r) :
    lineIndex ≤ r.start ∧ r.stop ≤ lines.length ∧ r.seq = seq ∧ Fits lines chunk r := by
  simp only [findWindow] at h
  cases hseek : seekSequence lines chunk.oldLines lineIndex chunk.isEndOfFile with
  | some idx =>
    rw [hseek] at h
    cases h
    obtain ⟨hstart, hinside, hagree⟩ := seekSequence_some hseek
    exact ⟨hstart, hinside, rfl, .inl ⟨rfl, hagree, rfl⟩⟩
  | none =>
    rw [hseek] at h
    dsimp only at h
    split at h
    next hlast =>
      obtain ⟨idx, hretry, rfl⟩ := Option.map_eq_some_iff.mp h
      obtain ⟨hstart, hinside, hagree⟩ := seekSequence_some hretry
      refine ⟨hstart, hinside, rfl, .inr ⟨chunk.oldLines.dropLast, ?_, rfl, hagree, rfl⟩⟩
      exact (dropLast_append_getLast? [] hlast).symm
    next => cases h

theorem seekContext_le {lines : List Text} {next : ℕ} {contexts : List Text}
    (h : seekContext lines lineIndex contexts = .ok next) : lineIndex ≤ next := by
  induction contexts generalizing lineIndex with
  | nil =>
    cases h
    exact le_rfl
  | cons ctx rest ih =>
    simp only [seekContext] at h
    split at h
    next idx hseek =>
      have hstart := (seekSequence_some hseek).1
      have hnext := ih h
      omega
    next => cases h

def HasContent (chunk : UpdateChunk) : Bool := chunk.oldLines ≠ [] || chunk.newLines ≠ []

def IsEndInsertion (chunk : UpdateChunk) : Prop :=
  chunk.oldLines = [] ∧ chunk.newLines ≠ [] ∧ chunk.isEndOfFile = true

theorem fits_insertion {lines : List Text} (h : chunk.oldLines = []) (idx seq : ℕ) :
    Fits lines chunk ⟨idx, 0, chunk.newLines, seq⟩ := by
  left
  rw [h]
  exact ⟨rfl, List.Forall₂.nil, rfl⟩

/-- What one chunk does: nothing, a window or an insertion behind the line index, or an insertion
at the end of the file. -/
inductive Placing (lines : List Text) (lineIndex seq : ℕ) (chunk : UpdateChunk) :
    Option Replacement → ℕ → Prop where
  | nothing {next : ℕ} (empty : HasContent chunk = false) (le : lineIndex ≤ next) :
    Placing lines lineIndex seq chunk none next
  | found {r : Replacement} {next : ℕ} (content : HasContent chunk = true)
    (le : lineIndex ≤ r.start) (stop : r.stop ≤ next) (seqEq : r.seq = seq)
    (inside : r.stop ≤ lines.length ∨ r.oldLen = 0) (fits : Fits lines chunk r)
    (other : ¬ IsEndInsertion chunk) : Placing lines lineIndex seq chunk (some r) next
  | atEnd {next : ℕ} (insertion : IsEndInsertion chunk) (stop : endOfFileIndex lines ≤ next) :
    Placing lines lineIndex seq chunk (some ⟨endOfFileIndex lines, 0, chunk.newLines, seq⟩) next

theorem placing_of_placeChunk {lines : List Text} {next : ℕ} {placed : Option Replacement}
    (h : placeChunk lines lineIndex seq chunk = .ok (placed, next)) :
    Placing lines lineIndex seq chunk placed next := by
  simp only [placeChunk] at h
  split at h
  · cases h
  next context hcontext =>
    have hle := seekContext_le hcontext
    by_cases hold : chunk.oldLines = []
    · rw [if_pos hold] at h
      by_cases hnew : chunk.newLines = []
      · rw [if_pos hnew] at h
        cases h
        exact .nothing (by simp [HasContent, hold, hnew]) hle
      · rw [if_neg hnew] at h
        cases heof : chunk.isEndOfFile with
        | true =>
          rw [heof, if_pos rfl] at h
          cases h
          exact .atEnd ⟨hold, hnew, heof⟩ (Nat.le_add_right _ _)
        | false =>
          rw [heof, if_neg (by simp)] at h
          cases h
          exact .found (by simp [HasContent, hnew]) hle (Nat.le_add_right _ _) rfl (.inr rfl)
            (fits_insertion hold context seq) (by simp [IsEndInsertion, heof])
    · rw [if_neg hold] at h
      split at h
      next r hwindow =>
        cases h
        obtain ⟨hstart, hstop, hseq, hfits⟩ := findWindow_some hwindow
        exact .found (by simp [HasContent, hold]) (hle.trans hstart) le_rfl hseq (.inl hstop) hfits
          (by simp [IsEndInsertion, hold])
      next => cases h

inductive Run (lines : List Text) : ℕ → ℕ → List UpdateChunk → List Replacement → Prop where
  | nil (lineIndex seq : ℕ) : Run lines lineIndex seq [] []
  | cons {lineIndex seq next : ℕ} {chunk : UpdateChunk} {rest : List UpdateChunk}
    {placed : Option Replacement} {others : List Replacement}
    (head : Placing lines lineIndex seq chunk placed next)
    (tail : Run lines next (seq + 1) rest others) :
    Run lines lineIndex seq (chunk :: rest) (placed.toList ++ others)

variable {all : List Replacement}

theorem placeChunks_cons {lines : List Text} {rest : List UpdateChunk}
    (h : placeChunks lines lineIndex seq (chunk :: rest) = .ok all) :
    ∃ placed next others, placeChunk lines lineIndex seq chunk = .ok (placed, next) ∧
      placeChunks lines next (seq + 1) rest = .ok others ∧ all = placed.toList ++ others := by
  simp only [placeChunks] at h
  split at h
  · cases h
  next placed next hplace =>
    split at h
    · cases h
    next others hrest =>
      cases h
      exact ⟨placed, next, others, hplace, hrest, rfl⟩

variable {chunks : List UpdateChunk}

theorem run_of_placeChunks {lines : List Text}
    (h : placeChunks lines lineIndex seq chunks = .ok all) :
    Run lines lineIndex seq chunks all := by
  induction chunks generalizing lineIndex seq all with
  | nil =>
    cases h
    exact .nil _ _
  | cons chunk rest ih =>
    obtain ⟨placed, next, others, hplace, hrest, rfl⟩ := placeChunks_cons h
    exact .cons (placing_of_placeChunk hplace) (ih hrest)

theorem Run.fits {lines : List Text} (h : Run lines lineIndex seq chunks all) :
    List.Forall₂ (Fits lines) (chunks.filter HasContent) all := by
  induction h with
  | nil => exact List.Forall₂.nil
  | cons head tail ih =>
    cases head with
    | nothing empty le =>
      rw [filter_cons_of_neg (by simp [empty])]
      exact ih
    | found content le stop seqEq inside fits other =>
      rw [filter_cons_of_pos content]
      exact List.Forall₂.cons fits ih
    | atEnd insertion stop =>
      rw [filter_cons_of_pos (by simp [HasContent, insertion.2.1])]
      exact List.Forall₂.cons (fits_insertion insertion.1 _ _) ih

theorem Run.seq_le {lines : List Text} (h : Run lines lineIndex seq chunks all) :
    ∀ r ∈ all, seq ≤ r.seq := by
  induction h with
  | nil => simp
  | cons head tail ih =>
    intro r hr
    rcases mem_append.mp hr with hr | hr
    · cases head with
      | nothing empty le => cases hr
      | found content le stop seqEq inside fits other =>
        obtain rfl := Option.some.inj (Option.mem_toList.mp hr)
        exact le_of_eq seqEq.symm
      | atEnd insertion stop =>
        obtain rfl := Option.some.inj (Option.mem_toList.mp hr)
        exact le_rfl
    · have := ih r hr
      omega

theorem Run.seq_lt {lines : List Text} (h : Run lines lineIndex seq chunks all) :
    all.Pairwise fun a b => a.seq < b.seq := by
  induction h with
  | nil => exact List.Pairwise.nil
  | cons head tail ih =>
    have hbelow := tail.seq_le
    cases head with
    | nothing empty le => exact ih
    | found content le stop seqEq inside fits other =>
      refine pairwise_cons.mpr ⟨fun b hb => ?_, ih⟩
      have := hbelow b hb
      omega
    | atEnd insertion stop =>
      refine pairwise_cons.mpr ⟨fun b hb => ?_, ih⟩
      have := hbelow b hb
      dsimp only
      omega

/-- No chunk that adds lines at the end of a file whose last line is empty comes after a chunk
whose window or insertion reaches the end of the file. -/
def EndInsertionsClear (lines : List Text) (chunks : List UpdateChunk) : Prop :=
  ∀ before chunk after placed, chunks = before ++ chunk :: after →
    placeChunks lines 0 0 before = .ok placed → IsEndInsertion chunk →
    lines.getLast? = some [] → ∀ r ∈ placed, r.stop < lines.length

def InOrder (rs : List Replacement) : Prop := rs.Pairwise fun a b => a.stop ≤ b.start

/-- What was placed before keeps its place: it stops at the line index and inside the file. -/
structure PlacedBefore (lines : List Text) (lineIndex : ℕ) (placed : List Replacement) : Prop where
  ordered : InOrder placed
  behind : ∀ r ∈ placed, r.stop ≤ lineIndex
  inside : ∀ r ∈ placed, r.stop ≤ lines.length

variable {placed : List Replacement}

theorem InOrder.append_singleton (h : InOrder placed) (hr : ∀ a ∈ placed, a.stop ≤ r.start) :
    InOrder (placed ++ [r]) := by
  refine pairwise_append.mpr ⟨h, pairwise_singleton _ _, ?_⟩
  intro a ha b hb
  rw [mem_singleton.mp hb]
  exact hr a ha

theorem lt_length_of_getLast {lines : List Text} (h : lines.getLast? = some []) :
    0 < lines.length := by
  cases lines with
  | nil => cases h
  | cons line rest => exact Nat.succ_pos _

theorem PlacedBefore.append {lines : List Text} {lineIndex next : ℕ} {placed : List Replacement}
    {r : Replacement} (h : PlacedBefore lines lineIndex placed)
    (hbehind : ∀ a ∈ placed, a.stop ≤ r.start) (hnext : r.stop ≤ next)
    (hinside : r.stop ≤ lines.length) : PlacedBefore lines next (placed ++ [r]) := by
  refine ⟨h.ordered.append_singleton hbehind, ?_, ?_⟩
  · intro a ha
    rcases mem_append.mp ha with ha | ha
    · have hstart := hbehind a ha
      have hstop : r.start ≤ r.stop := Nat.le_add_right _ _
      omega
    · rw [mem_singleton.mp ha]
      exact hnext
  · intro a ha
    rcases mem_append.mp ha with ha | ha
    · exact h.inside a ha
    · rw [mem_singleton.mp ha]
      exact hinside

/-- One chunk keeps the order unless it is put before the end that was already reached. -/
theorem PlacedBefore.step {lines : List Text} {next : ℕ} {r : Option Replacement}
    (h : PlacedBefore lines lineIndex placed) (hplace : Placing lines lineIndex seq chunk r next)
    (hstart : ∀ a ∈ r.toList, a.start ≤ lines.length)
    (hclear : IsEndInsertion chunk → lines.getLast? = some [] →
      ∀ a ∈ placed, a.stop < lines.length) :
    PlacedBefore lines next (placed ++ r.toList) := by
  cases hplace with
  | nothing empty le =>
    simp only [Option.toList_none, append_nil]
    exact ⟨h.ordered, fun a ha => (h.behind a ha).trans le, h.inside⟩
  | @found r next content le stop seqEq inside fits other =>
    simp only [Option.toList_some, forall_mem_singleton] at hstart ⊢
    apply h.append (fun a ha => (h.behind a ha).trans le) stop
    rcases inside with hin | hzero
    · exact hin
    · rw [Replacement.stop, hzero]
      exact hstart
  | atEnd insertion stop =>
    simp only [Option.toList_some, forall_mem_singleton] at hstart ⊢
    refine h.append ?_ stop hstart
    intro a ha
    change a.stop ≤ endOfFileIndex lines
    by_cases hlast : lines.getLast? = some []
    · have hbef := hclear insertion hlast a ha
      rw [endOfFileIndex, if_pos hlast]
      omega
    · rw [endOfFileIndex, if_neg hlast]
      exact h.inside a ha

theorem placedBefore_placeChunks {lines : List Text} :
    ∀ {lineIndex seq : ℕ} {placed all : List Replacement},
      PlacedBefore lines lineIndex placed →
      placeChunks lines lineIndex seq chunks = .ok all →
      (∀ a ∈ all, a.start ≤ lines.length) →
      (∀ before chunk after others, chunks = before ++ chunk :: after →
        placeChunks lines lineIndex seq before = .ok others → IsEndInsertion chunk →
        lines.getLast? = some [] → ∀ a ∈ placed ++ others, a.stop < lines.length) →
      InOrder (placed ++ all) ∧ ∀ a ∈ placed ++ all, a.stop ≤ lines.length := by
  induction chunks with
  | nil =>
    intro lineIndex seq placed all hplaced hall _ _
    cases hall
    rw [append_nil]
    exact ⟨hplaced.ordered, hplaced.inside⟩
  | cons chunk rest ih =>
    intro lineIndex seq placed all hplaced hall hstart hclear
    obtain ⟨r, next, others, hplace, hrest, rfl⟩ := placeChunks_cons hall
    rw [← append_assoc]
    apply ih _ hrest (fun a ha => hstart a (mem_append_right _ ha))
    · intro before later after found hsplit hbef hend hlast
      rw [append_assoc]
      apply hclear (chunk :: before) later after (r.toList ++ found) (by rw [hsplit]; rfl) _ hend
        hlast
      simp only [placeChunks, hplace, hbef]
    · apply hplaced.step (placing_of_placeChunk hplace)
        (fun a ha => hstart a (mem_append_left _ ha))
      intro hend hlast a ha
      exact hclear [] chunk rest [] rfl rfl hend hlast a (mem_append_left _ ha)

theorem placeChunks_append {lines : List Text} {before after : List UpdateChunk} :
    ∀ {lineIndex seq : ℕ} {all placed : List Replacement},
      placeChunks lines lineIndex seq (before ++ after) = .ok all →
      placeChunks lines lineIndex seq before = .ok placed →
      ∃ next others, placeChunks lines next (seq + before.length) after = .ok others ∧
        all = placed ++ others := by
  induction before with
  | nil =>
    intro lineIndex seq all placed hall hplaced
    cases hplaced
    exact ⟨lineIndex, all, hall, rfl⟩
  | cons chunk before ih =>
    intro lineIndex seq all placed hall hplaced
    obtain ⟨r, next, others, hplace, hrest, rfl⟩ := placeChunks_cons hall
    obtain ⟨r', next', others', hplace', hrest', rfl⟩ := placeChunks_cons hplaced
    rw [hplace] at hplace'
    cases hplace'
    obtain ⟨last, found, hfound, rfl⟩ := ih hrest hrest'
    refine ⟨last, found, ?_, by rw [append_assoc]⟩
    rw [← hfound, length_cons]
    congr 1
    omega

theorem clear_of_inOrder {lines : List Text} (hall : placeChunks lines 0 0 chunks = .ok all)
    (horder : InOrder all) : EndInsertionsClear lines chunks := by
  intro before chunk after placed hchunks hplaced hend hlast r hr
  subst hchunks
  obtain ⟨next, others, hothers, rfl⟩ := placeChunks_append hall hplaced
  obtain ⟨o, next', found, hplace, -, rfl⟩ := placeChunks_cons hothers
  have hpos := lt_length_of_getLast hlast
  cases placing_of_placeChunk hplace with
  | nothing empty le => simp [HasContent, hend.2.1] at empty
  | found content le stop seqEq inside fits other => exact absurd hend other
  | atEnd insertion stop =>
    have hle := (pairwise_append.mp horder).2.2 r hr _
      (mem_append_left _ (Option.mem_toList.mpr rfl))
    dsimp only at hle
    rw [endOfFileIndex, if_pos hlast] at hle
    omega

/-- The lines from a position on, with the windows replaced and the lines between them kept. -/
def rewritten (lines : List Text) : ℕ → List Replacement → List Text
  | position, [] => lines.drop position
  | position, r :: rest =>
    (lines.drop position).take (r.start - position) ++ r.newLines ++ rewritten lines r.stop rest

theorem spliceAll_inOrder {lines : List Text} {rs : List Replacement} :
    ∀ {position : ℕ}, InOrder rs → (∀ r ∈ rs, position ≤ r.start) →
      (∀ r ∈ rs, r.stop ≤ lines.length) → position ≤ lines.length →
      spliceAll lines rs = some (lines.take position ++ rewritten lines position rs) := by
  induction rs with
  | nil =>
    intro position _ _ _ _
    simp [spliceAll, rewritten]
  | cons r rest ih =>
    intro position horder hposition hinside hle
    obtain ⟨hbehind, horder⟩ := pairwise_cons.mp horder
    have hstop : r.stop ≤ lines.length := hinside r mem_cons_self
    have hstart : r.start ≤ r.stop := Nat.le_add_right _ _
    have hrest := ih horder hbehind (fun a ha => hinside a (mem_cons_of_mem _ ha)) hstop
    have hlen : (lines.take r.stop).length = r.stop := by
      rw [length_take]
      omega
    have hend : min r.stop (lines.take r.stop ++ rewritten lines r.stop rest).length = r.stop := by
      rw [length_append, hlen]
      omega
    have htake : (lines.take r.stop ++ rewritten lines r.stop rest).take r.start =
        lines.take r.start := by
      rw [take_append_of_le_length (by omega), take_take]
      congr 1
      omega
    have hdrop : (lines.take r.stop ++ rewritten lines r.stop rest).drop r.stop =
        rewritten lines r.stop rest := drop_left' hlen
    have hle := hposition r mem_cons_self
    have hsplit : lines.take r.start =
        lines.take position ++ (lines.drop position).take (r.start - position) := by
      rw [← take_add]
      congr 1
      omega
    rw [spliceAll, hrest, Option.bind_some, splice, hend, if_pos hstart, htake, hdrop, hsplit]
    simp only [rewritten, append_assoc]

variable {rs : List Replacement}

theorem insertionSort_inOrder (horder : InOrder rs) (hseq : rs.Pairwise fun a b => a.seq < b.seq) :
    rs.insertionSort Replacement.le = rs := by
  apply List.Pairwise.insertionSort_eq
  apply (pairwise_and_iff.mpr ⟨horder, hseq⟩).imp
  rintro a b ⟨hstop, hlt⟩
  have hstart : a.start ≤ a.stop := Nat.le_add_right _ _
  rw [Replacement.le]
  omega

instance : IsTrans Replacement Replacement.le where
  trans a b c hab hbc := by
    rw [Replacement.le] at hab hbc ⊢
    omega

instance : Std.Total Replacement.le where
  total a b := by
    rw [Replacement.le, Replacement.le]
    omega

theorem start_le_of_spliceAll {lines out : List Text} (hsort : rs.Pairwise Replacement.le)
    (h : spliceAll lines rs = some out) : ∀ r ∈ rs, r.start ≤ lines.length := by
  induction rs generalizing out with
  | nil => simp
  | cons r rest ih =>
    obtain ⟨hle, hsort⟩ := pairwise_cons.mp hsort
    obtain ⟨spliced, hspliced, hfirst⟩ := Option.bind_eq_some_iff.mp h
    have hrest := ih hsort hspliced
    cases rest with
    | nil =>
      cases hspliced
      simp only [splice] at hfirst
      split at hfirst
      next hstart =>
        intro a ha
        rw [mem_singleton.mp ha]
        omega
      next => cases hfirst
    | cons next rest =>
      intro a ha
      rcases mem_cons.mp ha with rfl | ha
      · have hnext := hrest next mem_cons_self
        have hfirst := hle next mem_cons_self
        rw [Replacement.le] at hfirst
        omega
      · exact hrest a ha

theorem mem_rewritten {lines : List Text} {position : ℕ} {line : Text} (hr : r ∈ rs)
    (hline : line ∈ r.newLines) : line ∈ rewritten lines position rs := by
  induction rs generalizing position with
  | nil => cases hr
  | cons a rest ih =>
    rw [rewritten, mem_append, mem_append]
    rcases mem_cons.mp hr with rfl | hr
    · exact .inl (.inr hline)
    · exact .inr (ih hr)

theorem mem_joinLines {lines : List Text} {line : Text} {c : Char} {hadNewline : Bool}
    (hline : line ∈ lines) (hc : c ∈ line) : c ∈ joinLines lines hadNewline := by
  have hmem : c ∈ ['\n'].intercalate lines := by
    induction lines with
    | nil => cases hline
    | cons first rest ih =>
      cases rest with
      | nil =>
        rw [mem_singleton.mp hline] at hc
        simpa using hc
      | cons second rest =>
        rw [intercalate_cons_cons]
        rcases mem_cons.mp hline with rfl | hline
        · simp [hc]
        · exact mem_append_right _ (ih hline)
  rw [joinLines]
  split
  · exact mem_append_left _ hmem
  · exact hmem

/-- The windows, one for each chunk with content, lie in the file in the order of the chunks, match
their chunks and are replaced, and every other line is kept. -/
structure Realises (lines : List Text) (chunks : List UpdateChunk) (windows : List Replacement)
    (out : List Text) : Prop where
  fits : List.Forall₂ (Fits lines) (chunks.filter HasContent) windows
  ordered : InOrder windows
  inside : ∀ r ∈ windows, r.stop ≤ lines.length
  rewritten : out = rewritten lines 0 windows

/-- An update that succeeds replaces the windows that it finds and nothing else, exactly when no
insertion at the end of the file is put before a chunk that has reached the end. -/
theorem realised_iff_endInsertionsClear (original result : Text) (chunks : List UpdateChunk)
    (h : applyUpdateChunks original chunks = .ok result) :
    (∃ windows out, placeChunks (lines original) 0 0 chunks = .ok windows ∧
      Realises (lines original) chunks windows out ∧
      result = joinLines out (hadTrailingNewline original)) ↔
      EndInsertionsClear (lines original) chunks := by
  constructor
  · rintro ⟨windows, out, hplaced, hrealises, -⟩
    exact clear_of_inOrder hplaced hrealises.ordered
  · intro hclear
    simp only [applyUpdateChunks, computeReplacements] at h
    cases hplaced : placeChunks (lines original) 0 0 chunks with
    | error message =>
      rw [hplaced] at h
      cases h
    | ok windows =>
      rw [hplaced] at h
      dsimp only at h
      split at h
      · cases h
      next out hsplice =>
        cases h
        have hsorted := pairwise_insertionSort Replacement.le windows
        have hstart : ∀ r ∈ windows, r.start ≤ (lines original).length := fun r hr =>
          start_le_of_spliceAll hsorted hsplice r ((mem_insertionSort _).mpr hr)
        have hnone : PlacedBefore (lines original) 0 [] := ⟨List.Pairwise.nil, by simp, by simp⟩
        obtain ⟨horder, hinside⟩ := placedBefore_placeChunks hnone hplaced hstart hclear
        have hrun := run_of_placeChunks hplaced
        rw [nil_append] at horder hinside
        rw [insertionSort_inOrder horder hrun.seq_lt,
          @spliceAll_inOrder _ _ 0 horder (by simp) hinside (Nat.zero_le _)] at hsplice
        cases hsplice
        exact ⟨windows, _, rfl, ⟨hrun.fits, horder, hinside, rfl⟩, rfl⟩

/-- A line replaced and another added at the end. -/
theorem replaced_and_appended :
    applyUpdateChunks "a\nb\n".toList
      [⟨[], ["a".toList], ["x".toList], false⟩, ⟨[], [], ["z".toList], true⟩] =
        .ok "x\nb\nz\n".toList ∧
    ∃ windows out, placeChunks (lines "a\nb\n".toList) 0 0
      [⟨[], ["a".toList], ["x".toList], false⟩, ⟨[], [], ["z".toList], true⟩] = .ok windows ∧
      Realises (lines "a\nb\n".toList)
        [⟨[], ["a".toList], ["x".toList], false⟩, ⟨[], [], ["z".toList], true⟩] windows out ∧
      "x\nb\nz\n".toList = joinLines out (hadTrailingNewline "a\nb\n".toList) := by
  have hresult : applyUpdateChunks "a\nb\n".toList
      [⟨[], ["a".toList], ["x".toList], false⟩, ⟨[], [], ["z".toList], true⟩] =
        .ok "x\nb\nz\n".toList := by decide
  refine ⟨hresult, (realised_iff_endInsertionsClear _ _ _ hresult).mpr ?_⟩
  intro _ _ _ _ _ _ _ hlast
  exact absurd hlast (by decide)

/-- The first chunk takes the empty last line, before which the second is put: the added line is
in no reading of the result. -/
theorem appended_line_lost :
    applyUpdateChunks "a\n\n".toList
      [⟨[], ["a".toList, []], ["b".toList], false⟩, ⟨[], [], ["z".toList], true⟩] =
        .ok "b\n\n".toList ∧
    ¬ ∃ windows out, Realises (lines "a\n\n".toList)
        [⟨[], ["a".toList, []], ["b".toList], false⟩, ⟨[], [], ["z".toList], true⟩] windows out ∧
      "b\n\n".toList = joinLines out (hadTrailingNewline "a\n\n".toList) := by
  refine ⟨by decide, ?_⟩
  rintro ⟨windows, out, hrealises, hresult⟩
  cases hrealises.fits with
  | cons _ hrest =>
    cases hrest with
    | @cons _ last _ _ hlast _ =>
      have hnew : last.newLines = ["z".toList] := by
        rcases hlast with ⟨-, -, hnew⟩ | ⟨pattern, hpattern, -⟩
        · exact hnew
        · simp at hpattern
      have hline : "z".toList ∈ out := by
        rw [hrealises.rewritten]
        exact mem_rewritten (mem_cons_of_mem _ mem_cons_self) (by rw [hnew]; simp)
      have hz : 'z' ∈ "b\n\n".toList := by
        rw [hresult]
        exact mem_joinLines hline (by decide)
      exact absurd hz (by decide)

end PatchUpdates
