import RefactEngine.PatchUpdates

/-! # When an update panics

A chunk that names lines of the file moves the line index to a place inside the file. A chunk that
only adds lines moves it by the number of the lines it adds, which may be past the end; the next
such chunk is then spliced in behind the last line.
-/
namespace PatchCursor

open ApplyPatch PatchUpdates TextLines List

def SlicesInside (haystack : List Text) : Prop :=
  ∀ needle startFrom isEndOfFile, ∀ i ∈ seekIndices haystack needle startFrom isEndOfFile,
    i ≤ haystack.length

theorem slicesInside (haystack : List Text) : SlicesInside haystack := by
  intro needle startFrom isEndOfFile i hi
  obtain ⟨hstart, hstop⟩ := mem_seekIndices.mp hi
  omega

def Free (chunk : UpdateChunk) : Bool := chunk.changeContext = [] && chunk.oldLines = []

def lineIndexAfter (lines : List Text) : ℕ → ℕ → List UpdateChunk → Option ℕ
  | lineIndex, _, [] => some lineIndex
  | lineIndex, seq, chunk :: rest =>
    match placeChunk lines lineIndex seq chunk with
    | .error _ => none
    | .ok (_, next) => lineIndexAfter lines next (seq + 1) rest

/-- Added to a file at the line index, each chunk that adds lines goes to a line of the file or its
end. Lines for the end of the file always do. -/
def InsertionsFit (lines : List Text) : ℕ → List UpdateChunk → Prop
  | _, [] => True
  | lineIndex, chunk :: rest =>
    if chunk.newLines = [] then InsertionsFit lines lineIndex rest
    else if chunk.isEndOfFile then
      InsertionsFit lines (endOfFileIndex lines + chunk.newLines.length) rest
    else lineIndex ≤ lines.length ∧ InsertionsFit lines (lineIndex + chunk.newLines.length) rest

theorem endOfFileIndex_le (lines : List Text) : endOfFileIndex lines ≤ lines.length := by
  rw [endOfFileIndex]
  split_ifs
  · exact Nat.sub_le _ _
  · exact le_refl _

theorem length_le_endOfFileIndex (lines : List Text) : lines.length ≤ endOfFileIndex lines + 1 := by
  rw [endOfFileIndex]
  split_ifs <;> omega

variable {chunk : UpdateChunk}

theorem placeChunk_free (h : Free chunk = true) (lines : List Text) (lineIndex seq : ℕ) :
    placeChunk lines lineIndex seq chunk =
      let insertionIdx := if chunk.isEndOfFile then endOfFileIndex lines else lineIndex
      if chunk.newLines = [] then .ok (none, lineIndex)
      else .ok (some ⟨insertionIdx, 0, chunk.newLines, seq⟩,
        insertionIdx + chunk.newLines.length) := by
  rw [Free, Bool.and_eq_true, decide_eq_true_eq, decide_eq_true_eq] at h
  rw [placeChunk, h.1, seekContext]
  exact if_pos h.2

theorem ne_nil_of_seek {haystack needle : List Text} {startFrom i : ℕ} {isEndOfFile : Bool}
    (h : seekSequence haystack needle startFrom isEndOfFile = some i) : needle ≠ [] := by
  rintro rfl
  cases h

variable {lineIndex : ℕ}

theorem seekContext_inside {lines : List Text} {next : ℕ} {contexts : List Text}
    (hne : contexts ≠ []) (h : seekContext lines lineIndex contexts = .ok next) :
    lineIndex < lines.length ∧ next ≤ lines.length := by
  induction contexts generalizing lineIndex with
  | nil => exact absurd rfl hne
  | cons ctx rest ih =>
    simp only [seekContext] at h
    split at h
    next idx hseek =>
      obtain ⟨hstart, hinside, -⟩ := seekSequence_some hseek
      rw [length_singleton] at hinside
      refine ⟨by omega, ?_⟩
      by_cases hrest : rest = []
      · subst hrest
        cases h
        exact hinside
      · exact (ih hrest h).2
    next => cases h

theorem findWindow_inside {lines : List Text} {seq : ℕ} {r : Replacement}
    (h : findWindow lines lineIndex seq chunk = some r) :
    lineIndex < lines.length ∧ r.start ≤ lines.length := by
  obtain ⟨hstart, hstop, -, -⟩ := findWindow_some h
  have hpos : 0 < r.oldLen := by
    simp only [findWindow] at h
    cases hseek : seekSequence lines chunk.oldLines lineIndex chunk.isEndOfFile with
    | some idx =>
      rw [hseek] at h
      cases h
      exact length_pos_iff.mpr (ne_nil_of_seek hseek)
    | none =>
      rw [hseek] at h
      dsimp only at h
      split at h
      next =>
        obtain ⟨idx, hretry, rfl⟩ := Option.map_eq_some_iff.mp h
        exact length_pos_iff.mpr (ne_nil_of_seek hretry)
      next => cases h
  rw [Replacement.stop] at hstop
  omega

theorem placeChunk_anchored {lines : List Text} {seq next : ℕ} {placed : Option Replacement}
    (hfree : Free chunk = false) (h : placeChunk lines lineIndex seq chunk = .ok (placed, next)) :
    lineIndex < lines.length ∧ ∀ r ∈ placed.toList, r.start ≤ lines.length := by
  simp only [placeChunk] at h
  split at h
  · cases h
  next context hcontext =>
    have hle := seekContext_le hcontext
    by_cases hold : chunk.oldLines = []
    · have hne : chunk.changeContext ≠ [] := by
        intro hnil
        simp [Free, hnil, hold] at hfree
      obtain ⟨hlt, hinside⟩ := seekContext_inside hne hcontext
      refine ⟨hlt, ?_⟩
      rw [if_pos hold] at h
      by_cases hnew : chunk.newLines = []
      · rw [if_pos hnew] at h
        cases h
        exact fun r hr => by cases hr
      · rw [if_neg hnew] at h
        cases h
        intro r hr
        obtain rfl := Option.some.inj (Option.mem_toList.mp hr)
        dsimp only
        split_ifs
        · exact endOfFileIndex_le lines
        · exact hinside
    · rw [if_neg hold] at h
      split at h
      next r hwindow =>
        cases h
        obtain ⟨hlt, hstart⟩ := findWindow_inside hwindow
        refine ⟨by omega, fun a ha => ?_⟩
        obtain rfl := Option.some.inj (Option.mem_toList.mp ha)
        exact hstart
      next => cases h

variable {chunks : List UpdateChunk}

theorem free_of_past_end {lines : List Text} :
    ∀ {lineIndex seq : ℕ} {all : List Replacement}, lines.length ≤ lineIndex →
      placeChunks lines lineIndex seq chunks = .ok all → ∀ chunk ∈ chunks, Free chunk = true := by
  induction chunks with
  | nil => exact fun _ _ chunk hin => absurd hin not_mem_nil
  | cons first rest ih =>
    intro lineIndex seq all hpast hall
    obtain ⟨placed, next, others, hplace, hrest, -⟩ := placeChunks_cons hall
    have hfirst : Free first = true := by
      by_contra hnot
      have hlt := (placeChunk_anchored (Bool.eq_false_iff.mpr hnot) hplace).1
      omega
    have hnext : lines.length ≤ next := by
      rw [placeChunk_free hfirst] at hplace
      dsimp only at hplace
      by_cases hnew : first.newLines = []
      · rw [if_pos hnew] at hplace
        cases hplace
        exact hpast
      · have hpos := length_pos_iff.mpr hnew
        have hend := length_le_endOfFileIndex lines
        rw [if_neg hnew] at hplace
        cases hplace
        split_ifs <;> omega
    intro chunk hin
    rcases mem_cons.mp hin with rfl | hin
    · exact hfirst
    · exact ih hnext hrest chunk hin

/-- Up to the last chunk that names lines every replacement begins inside the file or at its end. -/
theorem start_le_of_anchored {lines : List Text} : ∀ {lineIndex seq : ℕ} {all : List Replacement},
      placeChunks lines lineIndex seq chunks = .ok all →
      (∀ h : chunks ≠ [], Free (chunks.getLast h) = false) →
      ∀ r ∈ all, r.start ≤ lines.length := by
  induction chunks with
  | nil =>
    intro lineIndex seq all hall _
    cases hall
    exact fun r hr => absurd hr not_mem_nil
  | cons first rest ih =>
    intro lineIndex seq all hall hlast
    have hbef : lineIndex < lines.length := by
      by_contra hnot
      have hfree := free_of_past_end (not_lt.mp hnot) hall _
        (getLast_mem (cons_ne_nil _ _))
      rw [hlast (cons_ne_nil _ _)] at hfree
      cases hfree
    obtain ⟨placed, next, others, hplace, hrest, rfl⟩ := placeChunks_cons hall
    have hothers : ∀ r ∈ others, r.start ≤ lines.length :=
      ih hrest fun hne => by rw [← hlast (cons_ne_nil _ _), getLast_cons hne]
    intro r hr
    rcases mem_append.mp hr with hr | hr
    · cases hfree : Free first with
      | false => exact (placeChunk_anchored hfree hplace).2 r hr
      | true =>
        rw [placeChunk_free hfree] at hplace
        dsimp only at hplace
        by_cases hnew : first.newLines = []
        · rw [if_pos hnew] at hplace
          cases hplace
          cases hr
        · rw [if_neg hnew] at hplace
          cases hplace
          obtain rfl := Option.some.inj (Option.mem_toList.mp hr)
          dsimp only
          split_ifs
          · exact endOfFileIndex_le lines
          · exact le_of_lt hbef
    · exact hothers r hr

/-- Chunks that name no lines are always placed; they go inside the file exactly when they fit. -/
theorem placeChunks_free {lines : List Text} {chunks : List UpdateChunk}
    (hfree : ∀ chunk ∈ chunks, Free chunk = true) : ∀ (lineIndex seq : ℕ),
      ∃ all, placeChunks lines lineIndex seq chunks = .ok all ∧
        ((∀ r ∈ all, r.start ≤ lines.length) ↔ InsertionsFit lines lineIndex chunks) := by
  induction chunks with
  | nil => exact fun _ _ => ⟨[], rfl, by simp [InsertionsFit]⟩
  | cons first rest ih =>
    intro lineIndex seq
    have hplace := placeChunk_free (hfree first mem_cons_self) lines lineIndex seq
    have hrest := ih fun chunk hin => hfree chunk (mem_cons_of_mem _ hin)
    rw [InsertionsFit]
    by_cases hnew : first.newLines = []
    · simp only [hnew, if_true] at hplace ⊢
      obtain ⟨others, hothers, hiff⟩ := hrest lineIndex (seq + 1)
      refine ⟨others, ?_, hiff⟩
      rw [placeChunks, hplace]
      dsimp only
      rw [hothers]
      rfl
    · simp only [hnew, if_false] at hplace ⊢
      cases heof : first.isEndOfFile with
      | true =>
        simp only [heof, if_true] at hplace ⊢
        obtain ⟨others, hothers, hiff⟩ :=
          hrest (endOfFileIndex lines + first.newLines.length) (seq + 1)
        refine ⟨⟨endOfFileIndex lines, 0, first.newLines, seq⟩ :: others, ?_, ?_⟩
        · rw [placeChunks, hplace]
          dsimp only
          rw [hothers]
          rfl
        · rw [forall_mem_cons, hiff, and_iff_right (endOfFileIndex_le lines)]
      | false =>
        simp only [heof, Bool.false_eq_true, if_false] at hplace ⊢
        obtain ⟨others, hothers, hiff⟩ := hrest (lineIndex + first.newLines.length) (seq + 1)
        refine ⟨⟨lineIndex, 0, first.newLines, seq⟩ :: others, ?_, ?_⟩
        · rw [placeChunks, hplace]
          dsimp only
          rw [hothers]
          rfl
        · rw [forall_mem_cons, hiff]

theorem placeChunks_split {lines : List Text} {before after : List UpdateChunk} :
    ∀ {lineIndex seq : ℕ},
      (lineIndexAfter lines lineIndex seq before = none →
        ∃ message, placeChunks lines lineIndex seq (before ++ after) = .error message) ∧
      ∀ next, lineIndexAfter lines lineIndex seq before = some next →
        ∃ placed, placeChunks lines lineIndex seq before = .ok placed ∧
          ∀ others, placeChunks lines next (seq + before.length) after = .ok others →
            placeChunks lines lineIndex seq (before ++ after) = .ok (placed ++ others) := by
  induction before with
  | nil =>
    intro lineIndex seq
    refine ⟨fun h => (by cases h), fun next h => ?_⟩
    cases h
    exact ⟨[], rfl, fun others hothers => hothers⟩
  | cons first rest ih =>
    intro lineIndex seq
    rw [cons_append, placeChunks, lineIndexAfter]
    cases hplace : placeChunk lines lineIndex seq first with
    | error message => exact ⟨fun _ => ⟨message, rfl⟩, fun _ h => by cases h⟩
    | ok result =>
      obtain ⟨herror, hok⟩ := @ih result.2 (seq + 1)
      dsimp only
      constructor
      · intro hnone
        obtain ⟨message, hmsg⟩ := herror hnone
        exact ⟨message, by rw [hmsg]⟩
      · intro next hnext
        obtain ⟨placed, hplaced, hothers⟩ := hok next hnext
        refine ⟨result.1.toList ++ placed, ?_, fun others hothers' => ?_⟩
        · rw [placeChunks, hplace]
          dsimp only
          rw [hplaced]
        · have hseq : seq + (first :: rest).length = seq + 1 + rest.length := by
            rw [length_cons]
            omega
          rw [hseq] at hothers'
          rw [hothers others hothers', append_assoc]

theorem spliceAll_some {lines : List Text} {rs : List Replacement}
    (hsort : rs.Pairwise Replacement.le) (hstart : ∀ r ∈ rs, r.start ≤ lines.length) :
    ∃ out, spliceAll lines rs = some out ∧
      ∀ k ≤ lines.length, (∀ r ∈ rs, k ≤ r.start) → k ≤ out.length := by
  induction rs with
  | nil => exact ⟨lines, rfl, fun k hk _ => hk⟩
  | cons r rest ih =>
    obtain ⟨hle, hsort⟩ := pairwise_cons.mp hsort
    obtain ⟨spliced, hspliced, hlen⟩ := ih hsort fun a ha =>
      hstart a (mem_cons_of_mem _ ha)
    have hinside : r.start ≤ spliced.length := by
      apply hlen _ (hstart r mem_cons_self)
      intro a ha
      have hbef := hle a ha
      rw [Replacement.le] at hbef
      omega
    have hstop : r.start ≤ min r.stop spliced.length :=
      le_min (Nat.le_add_right _ _) hinside
    refine ⟨spliced.take r.start ++ r.newLines ++ spliced.drop (min r.stop spliced.length), ?_, ?_⟩
    · rw [spliceAll, hspliced, Option.bind_some, splice]
      exact if_pos hstop
    · intro k _ hbelow
      have hk := hbelow r mem_cons_self
      rw [length_append, length_append, length_take]
      omega

theorem not_panicked_iff {original : Text} : applyUpdateChunks original chunks ≠ .error .panicked ↔
      ∀ placed, placeChunks (lines original) 0 0 chunks = .ok placed →
        ∀ r ∈ placed, r.start ≤ (lines original).length := by
  rw [applyUpdateChunks, computeReplacements]
  cases hplaced : placeChunks (lines original) 0 0 chunks with
  | error message => simp
  | ok placed =>
    have hsort := pairwise_insertionSort Replacement.le placed
    have hmem : ∀ r, r ∈ placed ↔ r ∈ placed.insertionSort Replacement.le := fun r =>
      (mem_insertionSort _).symm
    have hiff : (∀ r ∈ placed, r.start ≤ (lines original).length) ↔
        spliceAll (lines original) (placed.insertionSort Replacement.le) ≠ none := by
      constructor
      · intro hstart
        obtain ⟨out, hout, -⟩ := spliceAll_some hsort fun r hr => hstart r ((hmem r).mpr hr)
        rw [hout]
        exact Option.some_ne_none out
      · intro hsome r hr
        obtain ⟨out, hout⟩ := Option.ne_none_iff_exists'.mp hsome
        exact start_le_of_spliceAll hsort hout r ((hmem r).mp hr)
    simp only [Except.ok.injEq, forall_eq', hiff]
    cases spliceAll (lines original) (placed.insertionSort Replacement.le) <;> simp

/-- An update does not panic, and its searches take slices inside the file, exactly when the lines
that are added behind the last chunk that names lines stay inside the file. -/
theorem never_panics_iff (original : Text) (chunks : List UpdateChunk) :
    (applyUpdateChunks original chunks ≠ .error .panicked ∧ SlicesInside (lines original)) ↔
      ∀ lineIndex, lineIndexAfter (lines original) 0 0 (chunks.rdropWhile Free) = some lineIndex →
        InsertionsFit (lines original) lineIndex (chunks.rtakeWhile Free) := by
  rw [and_iff_left (slicesInside _), not_panicked_iff]
  have hsplit : chunks.rdropWhile Free ++ chunks.rtakeWhile Free = chunks :=
    rdropWhile_append_rtakeWhile ..
  have hlast : ∀ h : chunks.rdropWhile Free ≠ [],
      Free ((chunks.rdropWhile Free).getLast h) = false := fun h =>
    Bool.eq_false_iff.mpr (rdropWhile_last_not _ _ h)
  obtain ⟨herror, hok⟩ := @placeChunks_split (lines original) (chunks.rdropWhile Free)
    (chunks.rtakeWhile Free) 0 0
  rw [hsplit] at herror hok
  cases hindex : lineIndexAfter (lines original) 0 0 (chunks.rdropWhile Free) with
  | none =>
    obtain ⟨message, hmessage⟩ := herror hindex
    simp [hmessage]
  | some lineIndex =>
    obtain ⟨placed, hplaced, hall⟩ := hok lineIndex hindex
    have hfree : ∀ chunk ∈ chunks.rtakeWhile Free, Free chunk = true := fun chunk hin =>
      mem_rtakeWhile_imp hin
    obtain ⟨others, hothers, hfit⟩ := @placeChunks_free (lines original) _ hfree lineIndex
      (0 + (chunks.rdropWhile Free).length)
    have hstart := start_le_of_anchored hplaced hlast
    rw [hall others hothers]
    simp only [Except.ok.injEq, forall_eq', Option.some.injEq, forall_mem_append, ← hfit,
      and_iff_right hstart]

/-- Two lines are added before the only line, so that the next chunk is put at the third. -/
theorem second_insertion_panics :
    applyUpdateChunks "header\n".toList
        [⟨[], [], ["a".toList, "b".toList], false⟩, ⟨[], [], ["c".toList], false⟩] =
      .error .panicked := by
  decide

end PatchCursor
