import RefactEngine.FileEdits

/-! # Edits by line ranges

All ranges of a request are numbers of lines of the old file: the blocks take the place of their
ranges at once, in whatever order the request names them.
-/
namespace LineRangeEdits

open TextLines ApplyPatch PatchPlan FileEdits Splices List

structure Accepted (totalLines : ℕ) (ranges : List LineRange) : Prop where
  nonempty : ranges ≠ []
  start_pos : ∀ r ∈ ranges, 0 < r.start
  start_le : ∀ r ∈ ranges, r.start ≤ r.stop
  inside : ∀ r ∈ ranges, r.start ≤ totalLines ∨ (totalLines = 0 ∧ r.start = 1)
  apart : ranges.Pairwise fun r s => r.stop < s.start ∨ s.stop < r.start

theorem checkRange_ok {totalLines : ℕ} {part : Text} {range : LineRange}
    (h : checkRange totalLines part range = .ok ()) :
    0 < range.start ∧ range.start ≤ range.stop ∧
      (range.start ≤ totalLines ∨ (totalLines = 0 ∧ range.start = 1)) := by
  rw [checkRange] at h
  split_ifs at h with hzero hbackward hbeyond
  refine ⟨Nat.pos_of_ne_zero hzero, not_lt.mp hbackward, ?_⟩
  by_contra hout
  omega

theorem parseRanges_ok {totalLines : ℕ} {parts : List Text} {ranges : List LineRange}
    (h : parseRanges totalLines parts = .ok ranges) :
    ∀ r ∈ ranges, 0 < r.start ∧ r.start ≤ r.stop ∧
      (r.start ≤ totalLines ∨ (totalLines = 0 ∧ r.start = 1)) := by
  induction parts generalizing ranges with
  | nil =>
    rw [parseRanges] at h
    cases h
    exact fun _ hmem => absurd hmem not_mem_nil
  | cons part parts ih =>
    simp only [parseRanges] at h
    split_ifs at h with hblank
    · exact ih h
    · split at h
      · cases h
      next range hbounds =>
        split at h
        · cases h
        next hcheck =>
          split at h
          · cases h
          next rest hrest =>
            cases h
            intro r hr
            rcases mem_cons.mp hr with rfl | hr
            · exact checkRange_ok hcheck
            · exact ih hrest r hr

theorem sharedLine_none {ranges : List LineRange} (hle : ∀ r ∈ ranges, r.start ≤ r.stop)
    (h : sharedLine ranges = none) : ranges.Pairwise fun r s => r.stop < s.start := by
  induction ranges with
  | nil => exact .nil
  | cons r rest ih =>
    cases rest with
    | nil => exact pairwise_singleton _ _
    | cons s rest =>
      rw [sharedLine] at h
      split_ifs at h with hshared
      have hrest := ih (fun t ht => hle t (mem_cons_of_mem _ ht)) h
      refine pairwise_cons.mpr ⟨fun t ht => ?_, hrest⟩
      rcases mem_cons.mp ht with rfl | ht
      · omega
      · have hst := (pairwise_cons.mp hrest).1 t ht
        have hs := hle s (mem_cons_of_mem _ mem_cons_self)
        omega

theorem accepted_of_parse {rangesStr : Text} {totalLines : ℕ} {ranges : List LineRange}
    (h : parseLineRanges rangesStr totalLines = .ok ranges) : Accepted totalLines ranges := by
  rw [parseLineRanges] at h
  split at h
  · cases h
  next parsed hparsed =>
    have hchecked := parseRanges_ok hparsed
    split_ifs at h with hempty
    split at h
    · cases h
    next hshared =>
      cases h
      have hsort := ranges.perm_insertionSort fun a b : LineRange => a.start ≤ b.start
      have hsorted := sharedLine_none
        (fun r hr => (hchecked r (hsort.mem_iff.mp hr)).2.1) hshared
      refine ⟨hempty, fun r hr => (hchecked r hr).1, fun r hr => (hchecked r hr).2.1,
        fun r hr => (hchecked r hr).2.2, ?_⟩
      exact (hsort.pairwise_iff fun h => h.symm).mp (hsorted.imp Or.inl)

/-- No separator begins inside a block: not in the block, and not together with the separator that
follows it. -/
def Separable : List Text → Prop
  | [] => True
  | [block] => ¬ rangeSeparator <:+: block
  | block :: rest => ¬ rangeSeparator <:+: block ++ rangeSeparator.dropLast ∧ Separable rest

theorem separable_pair {first second : Text}
    (hfirst : ¬ rangeSeparator <:+: first ++ rangeSeparator.dropLast)
    (hsecond : ¬ rangeSeparator <:+: second) : Separable [first, second] := ⟨hfirst, hsecond⟩

theorem splitFrom_skip (separator piece : Text) (word rest : Text) :
    splitFrom separator word.length piece (word ++ rest) = splitFrom separator 0 piece rest := by
  induction word with
  | nil => rfl
  | cons c word ih => exact ih

variable {separator block : Text}

theorem splitFrom_last (piece : Text)
    (h : ¬ separator <:+: block) : splitFrom separator 0 piece block = [piece ++ block] := by
  induction block generalizing piece with
  | nil => rw [splitFrom, append_nil]
  | cons c block ih =>
    have hstart : ¬ separator.isPrefixOf (c :: block) = true := fun hp =>
      h ( isPrefixOf_iff_prefix.mp hp).isInfix
    rw [splitFrom, if_neg hstart, ih _ fun hin => h (hin.trans (suffix_cons c block).isInfix),
      append_assoc]
    rfl

theorem splitFrom_block (hne : separator ≠ []) (piece rest : Text)
    (h : ¬ separator <:+: block ++ separator.dropLast) :
    splitFrom separator 0 piece (block ++ separator ++ rest) =
      (piece ++ block) :: splitFrom separator 0 [] rest := by
  induction block generalizing piece with
  | nil =>
    obtain ⟨first, others, rfl⟩ := exists_cons_of_ne_nil hne
    have hstart : (first :: others).isPrefixOf (first :: (others ++ rest)) = true :=
      isPrefixOf_iff_prefix.mpr (prefix_append (first :: others) rest)
    rw [nil_append, cons_append, splitFrom, if_pos hstart, append_nil,
      length_cons, Nat.add_sub_cancel, splitFrom_skip]
  | cons c block ih =>
    have hstart : ¬ separator.isPrefixOf (c :: (block ++ separator ++ rest)) = true := by
      intro hp
      -- a separator that begins here ends before the last character of the next one
      have hlong : (c :: block) ++ separator.dropLast <+: c :: (block ++ separator ++ rest) := by
        rw [append_assoc, ← cons_append]
        exact (prefix_append_right_inj _).mpr
          (( dropLast_prefix _).trans (prefix_append _ _))
      have hlen : separator.length ≤ ((c :: block) ++ separator.dropLast).length := by
        rw [length_append, length_cons, length_dropLast]
        omega
      exact h (prefix_of_prefix_length_le ( isPrefixOf_iff_prefix.mp hp) hlong
        hlen).isInfix
    rw [cons_append, cons_append, splitFrom, if_neg hstart,
      ih _ fun hin => h (hin.trans (suffix_cons c _).isInfix), append_assoc]
    rfl

theorem split_join {blocks : List Text} (hne : blocks ≠ []) (h : Separable blocks) :
    split rangeSeparator (rangeSeparator.intercalate blocks) = blocks := by
  induction blocks with
  | nil => exact absurd rfl hne
  | cons block rest ih =>
    cases rest with
    | nil =>
      rw [intercalate_singleton]
      exact splitFrom_last [] h
    | cons next rest =>
      rw [intercalate_cons_cons, split, splitFrom_block (by decide) [] _ h.1, nil_append,
        ← split, ih (cons_ne_nil _ _) h.2]

variable {text : Text}

theorem replaceCrlf_of_clear (h : '\r' ∉ text) : replaceCrlf text = text := by
  fun_induction replaceCrlf text with
  | case1 rest ih => exact absurd mem_cons_self h
  | case2 c rest hne ih => rw [ih fun hmem => h (mem_cons_of_mem _ hmem)]
  | case3 => rfl

theorem normalize_of_clear (h : '\r' ∉ text) : normalizeLineEndings text = text := by
  rw [normalizeLineEndings, replaceCrlf_of_clear h]
  conv_rhs => rw [← map_id text]
  exact map_congr_left fun c hc => if_neg fun heq : c = '\r' => h (heq ▸ hc)

variable {c : Char}

/-- A character that is no line feed cannot end a line together with what stands before it. -/
theorem replaceCrlf_append (text : Text) (hc : c ≠ '\n') (rest : Text) :
    replaceCrlf (text ++ c :: rest) = replaceCrlf text ++ replaceCrlf (c :: rest) := by
  fun_induction replaceCrlf text with
  | case1 text ih =>
    rw [cons_append, cons_append, replaceCrlf, ih, cons_append]
  | case2 first text hne ih =>
    rw [cons_append, replaceCrlf, ih, cons_append]
    intro others hfirst hothers
    cases text with
    | nil => exact hc (List.cons.inj hothers).1
    | cons second text => exact hne _ hfirst (by rw [(List.cons.inj hothers).1])
  | case3 => rfl

theorem normalize_append (text : Text) (hc : c ≠ '\n') (rest : Text) :
    normalizeLineEndings (text ++ c :: rest) =
      normalizeLineEndings text ++ normalizeLineEndings (c :: rest) := by
  rw [normalizeLineEndings, replaceCrlf_append text hc, map_append]
  rfl

theorem normalize_cons (hc : c ≠ '\r') (rest : Text) :
    normalizeLineEndings (c :: rest) = c :: normalizeLineEndings rest := by
  rw [normalizeLineEndings, replaceCrlf, map_cons, if_neg hc]
  · rfl
  · exact fun _ heq => absurd heq hc

def Clean (word : Text) : Prop := '\r' ∉ word ∧ '\n' ∉ word

instance (word : Text) : Decidable (Clean word) := inferInstanceAs (Decidable (_ ∧ _))

variable {word : Text}

theorem normalize_clean_append (h : Clean word) (rest : Text) :
    normalizeLineEndings (word ++ rest) = word ++ normalizeLineEndings rest := by
  induction word with
  | nil => rfl
  | cons c word ih =>
    rw [cons_append, normalize_cons (fun heq => h.1 (heq ▸ mem_cons_self)),
      ih ⟨fun hmem => h.1 (mem_cons_of_mem _ hmem),
        fun hmem => h.2 (mem_cons_of_mem _ hmem)⟩, cons_append]

theorem normalize_append_clean (text : Text) (h : Clean word) (hne : word ≠ []) (rest : Text) :
    normalizeLineEndings (text ++ (word ++ rest)) =
      normalizeLineEndings text ++ (word ++ normalizeLineEndings rest) := by
  obtain ⟨c, word, rfl⟩ := exists_cons_of_ne_nil hne
  rw [cons_append, normalize_append text fun heq => h.2 (heq ▸ mem_cons_self),
    ← cons_append, normalize_clean_append h]

theorem prefix_of_prefix_normalize (hword : Clean word) (h : word <+: normalizeLineEndings text) :
    word <+: text := by
  induction word generalizing text with
  | nil => exact nil_prefix
  | cons c word ih =>
    have hr : c ≠ '\r' := fun heq => hword.1 (heq ▸ mem_cons_self)
    have hn : c ≠ '\n' := fun heq => hword.2 (heq ▸ mem_cons_self)
    have hrest : Clean word := ⟨fun hmem => hword.1 (mem_cons_of_mem _ hmem),
      fun hmem => hword.2 (mem_cons_of_mem _ hmem)⟩
    rw [normalizeLineEndings] at h
    fun_cases replaceCrlf text with
    | case1 rest =>
      rw [replaceCrlf, map_cons, if_neg (by decide), cons_prefix_cons] at h
      exact absurd h.1 hn
    | case2 first rest hne =>
      rw [replaceCrlf, map_cons, cons_prefix_cons] at h
      · split_ifs at h with hreturn
        · exact absurd h.1 hn
        · exact cons_prefix_cons.mpr ⟨h.1, ih hrest h.2⟩
      · exact hne
    | case3 => simp [replaceCrlf] at h

theorem infix_of_infix_normalize (hword : Clean word) (hne : word ≠ [])
    (h : word <:+: normalizeLineEndings text) : word <:+: text := by
  fun_induction replaceCrlf text with
  | case1 rest ih =>
    have hstep : normalizeLineEndings ('\r' :: '\n' :: rest) =
        '\n' :: normalizeLineEndings rest := by
      rw [normalizeLineEndings, replaceCrlf, map_cons, if_neg (by decide)]
      rfl
    rw [hstep, infix_cons_iff] at h
    rcases h with h | h
    · obtain ⟨c, others, rfl⟩ := exists_cons_of_ne_nil hne
      exact absurd (cons_prefix_cons.mp h).1 fun heq =>
        hword.2 (heq ▸ mem_cons_self)
    · exact (ih h).trans ((suffix_cons _ _).trans (suffix_cons _ _)).isInfix
  | case2 c rest hne' ih =>
    rw [normalizeLineEndings, replaceCrlf, map_cons, infix_cons_iff] at h
    · rcases h with h | h
      · refine (prefix_of_prefix_normalize hword ?_).isInfix
        rw [normalizeLineEndings, replaceCrlf, map_cons]
        · exact h
        · exact hne'
      · exact (ih h).trans (suffix_cons _ _).isInfix
    · exact hne'
  | case3 => simpa [normalizeLineEndings, replaceCrlf] using h

theorem clean_separator : Clean rangeSeparator := by decide

theorem normalize_join (blocks : List Text) :
    normalizeLineEndings (rangeSeparator.intercalate blocks) =
      rangeSeparator.intercalate (blocks.map normalizeLineEndings) := by
  induction blocks with
  | nil => rfl
  | cons block rest ih =>
    cases rest with
    | nil => rw [intercalate_singleton, map_singleton, intercalate_singleton]
    | cons next rest =>
      rw [intercalate_cons_cons, append_assoc,
        normalize_append_clean _ clean_separator (by decide), ih]
      simp only [map_cons, intercalate_cons_cons, append_assoc]

theorem Separable.normalize {blocks : List Text} (h : Separable blocks) :
    Separable (blocks.map normalizeLineEndings) := by
  have hclean : Clean rangeSeparator.dropLast := by decide
  have hne : rangeSeparator ≠ [] := by decide
  induction blocks with
  | nil => trivial
  | cons block rest ih =>
    cases rest with
    | nil => exact fun hin => h (infix_of_infix_normalize clean_separator hne hin)
    | cons next rest =>
      refine ⟨fun hin => h.1 (infix_of_infix_normalize clean_separator hne ?_), ih h.2⟩
      have happend := normalize_append_clean block hclean (by decide) []
      rw [append_nil] at happend
      rw [happend]
      simpa [normalizeLineEndings, replaceCrlf] using hin

theorem strip_lines {fileLines : List Text} (hreturn : ∀ line ∈ fileLines, '\r' ∉ line) :
    fileLines.map stripCarriageReturn = fileLines := by
  conv_rhs => rw [← map_id fileLines]
  refine map_congr_left fun line hline => ?_
  rw [stripCarriageReturn, if_neg fun heq => hreturn line hline (List.mem_of_getLast? heq), id]

/-- Joined lines with a line feed at the end are read back unless there is no line. -/
theorem lines_join_newline {fileLines : List Text} (hne : fileLines ≠ [])
    (hclear : ∀ line ∈ fileLines, Clean line) :
    lines (['\n'].intercalate fileLines ++ ['\n']) = fileLines := by
  have hjoin : ['\n'].intercalate fileLines ++ ['\n'] =
      ['\n'].intercalate (fileLines ++ [[]]) := by
    induction fileLines with
    | nil => exact absurd rfl hne
    | cons line rest ih =>
      cases rest with
      | nil => simp
      | cons next rest =>
        rw [intercalate_cons_cons, append_assoc, append_assoc,
          ih (cons_ne_nil _ _) fun l hl => hclear l (mem_cons_of_mem _ hl)]
        simp
  have hblank : ∀ line ∈ fileLines ++ [[]], '\n' ∉ line := by
    intro line hline
    rcases mem_append.mp hline with hline | hline
    · exact (hclear line hline).2
    · rw [mem_singleton.mp hline]
      exact not_mem_nil
  rw [lines, hjoin, splitOn_intercalate '\n' hblank (by simp), dropLast_concat, List.getLast?_concat,
    strip_lines fun line hline => (hclear line hline).1]
  simp

/-- Joined lines are read back unless the last one is blank. -/
theorem lines_join {fileLines : List Text} (hclear : ∀ line ∈ fileLines, Clean line)
    (hlast : fileLines.getLast? ≠ some []) : lines (['\n'].intercalate fileLines) = fileLines := by
  rcases eq_nil_or_concat' fileLines with rfl | ⟨before, last, rfl⟩
  · rfl
  · rw [List.getLast?_concat] at hlast
    exact lines_intercalate (fun line hline => (hclear line hline).2)
      (fun line hline heq => (hclear line (mem_append_left _ hline)).1
        (List.mem_of_getLast? heq))
      fun heq => hlast (congrArg some heq)

def regionOf (edit : LineRange × Text) : Region Text :=
  ⟨edit.1.start - 1, edit.1.stop, lines edit.2⟩

theorem editSorted_append (fileLines : List Text) (first second : List (LineRange × Text)) :
    editSorted fileLines (first ++ second) =
      (editSorted fileLines first).bind fun fileLines => editSorted fileLines second := by
  induction first generalizing fileLines with
  | nil => rfl
  | cons edit first ih =>
    rw [cons_append, editSorted, editSorted]
    split_ifs
    · rfl
    · exact ih _

theorem editSorted_reverse {fileLines : List Text} {cursor : ℕ} {edits : List (LineRange × Text)}
    (h : InOrder fileLines.length cursor (edits.map regionOf)) :
    editSorted fileLines edits.reverse = .ok (replaceAll fileLines (edits.map regionOf)) := by
  induction edits generalizing cursor with
  | nil => rfl
  | cons edit edits ih =>
    obtain ⟨hle, hstart, hrest⟩ := h
    have hlen : edit.1.stop ≤ (replaceAll fileLines (edits.map regionOf)).length := by
      have hstop : edit.1.stop ≤ fileLines.length := hrest.cursor_le
      rw [replaceAll_eq hrest, length_append, length_take]
      have : (regionOf edit).stop = edit.1.stop := rfl
      omega
    rw [reverse_cons, editSorted_append, ih hrest]
    change editSorted _ [edit] = _
    rw [editSorted, if_neg (not_lt.mpr hlen)]
    rfl

section Ranges

variable {totalLines : ℕ} {ranges : List LineRange} {blocks : List Text}

theorem inOrder_of_sorted {n cursor : ℕ} {edits : List (LineRange × Text)}
    (hcursor : cursor ≤ n) (hstart : ∀ e ∈ edits, cursor < e.1.start)
    (hle : ∀ e ∈ edits, e.1.start ≤ e.1.stop) (hfit : ∀ e ∈ edits, e.1.stop ≤ n)
    (hsort : edits.Pairwise fun d e => d.1.stop < e.1.start) :
    InOrder n cursor (edits.map regionOf) := by
  induction edits generalizing cursor with
  | nil => exact hcursor
  | cons e edits ih =>
    obtain ⟨hlater, hsort⟩ := pairwise_cons.mp hsort
    have hbef := hstart e mem_cons_self
    have hwidth := hle e mem_cons_self
    refine ⟨?_, ?_, ih (hfit e mem_cons_self) hlater
      (fun d hd => hle d (mem_cons_of_mem _ hd))
      (fun d hd => hfit d (mem_cons_of_mem _ hd)) hsort⟩
    · change cursor ≤ e.1.start - 1
      omega
    · change e.1.start - 1 ≤ e.1.stop
      omega

def lastFirst (edits : List (LineRange × Text)) : List (LineRange × Text) :=
  edits.insertionSort fun a b => b.1.start ≤ a.1.start

theorem perm_lastFirst (edits : List (LineRange × Text)) : (lastFirst edits).Perm edits :=
  edits.perm_insertionSort _

structure DisjointEdits (edits : List (LineRange × Text)) : Prop where
  start_pos : ∀ e ∈ edits, 0 < e.1.start
  start_le : ∀ e ∈ edits, e.1.start ≤ e.1.stop
  apart : edits.Pairwise fun d e => d.1.stop < e.1.start ∨ e.1.stop < d.1.start

theorem Accepted.disjoint (h : Accepted totalLines ranges) (hlen : ranges.length ≤
      blocks.length) :
    DisjointEdits (ranges.zip blocks) where
  start_pos e he := h.start_pos _ (of_mem_zip he).1
  start_le e he := h.start_le _ (of_mem_zip he).1
  apart := by
    have hfst : (ranges.zip blocks).map Prod.fst = ranges := map_fst_zip hlen
    exact pairwise_map.mp (hfst ▸ h.apart)

theorem DisjointEdits.perm {edits edits' : List (LineRange × Text)} (h : DisjointEdits edits)
    (hperm : edits.Perm edits') : DisjointEdits edits' where
  start_pos e he := h.start_pos e (hperm.mem_iff.mpr he)
  start_le e he := h.start_le e (hperm.mem_iff.mpr he)
  apart := (hperm.pairwise_iff fun h => h.symm).mp h.apart

theorem DisjointEdits.starts_ne {edits : List (LineRange × Text)} (h : DisjointEdits edits) :
    edits.Pairwise fun d e => d.1.start ≠ e.1.start := by
  refine (List.Pairwise.imp_of_mem fun hd he hapart => ?_) h.apart
  have hd' := h.start_le _ hd
  have he' := h.start_le _ he
  omega

theorem DisjointEdits.sorted {edits : List (LineRange × Text)} (h : DisjointEdits edits) :
    (lastFirst edits).Pairwise fun d e => e.1.stop < d.1.start := by
  have hdisj := h.perm (perm_lastFirst edits).symm
  have hle : (lastFirst edits).Pairwise fun d e => e.1.start ≤ d.1.start :=
    pairwise_insertionSort _ edits
  refine (List.Pairwise.imp_of_mem fun {d e} hd he hapart => ?_) (hle.and hdisj.apart)
  have hd' := hdisj.start_le d hd
  have he' := hdisj.start_le e he
  omega

theorem lastFirst_perm {edits edits' : List (LineRange × Text)} (h : DisjointEdits edits)
    (hperm : edits.Perm edits') : lastFirst edits = lastFirst edits' := by
  have hanti : ∀ d e, d ∈ lastFirst edits → e ∈ lastFirst edits' →
      e.1.stop < d.1.start → d.1.stop < e.1.start → d = e := by
    intro d e hd he hed hde
    have hd' := h.start_le d ((perm_lastFirst edits).mem_iff.mp hd)
    have he' := h.start_le e (hperm.mem_iff.mpr ((perm_lastFirst edits').mem_iff.mp he))
    omega
  exact List.Perm.eq_of_pairwise hanti h.sorted (h.perm hperm).sorted
    ((perm_lastFirst edits).trans (hperm.trans (perm_lastFirst edits').symm))

end Ranges

def runEdits (fileLines : List Text) (edits : List (LineRange × Text)) : Except Text (List Text) :=
  match edits with
  | [(range, block)] => editRange fileLines range block
  | _ => editSorted fileLines (lastFirst edits)

/-- All blocks in the places of their ranges; the sole range of an empty file stands for its
content. -/
def editedLines (fileLines : List Text) (edits : List (LineRange × Text)) : List Text :=
  if fileLines = [] then edits.flatMap fun edit => lines edit.2
  else replaceTogether List.singleton fileLines (edits.map regionOf)

section Requests

variable {fileLines : List Text} {edits edits' : List (LineRange × Text)}

theorem editSorted_lastFirst (h : DisjointEdits edits) (hfit : ∀ e ∈ edits,
      e.1.stop ≤ fileLines.length) :
    editSorted fileLines (lastFirst edits) =
      .ok (replaceTogether List.singleton fileLines (edits.map regionOf)) := by
  have hperm : (lastFirst edits).reverse.Perm edits :=
    (reverse_perm _).trans (perm_lastFirst edits)
  have hdisj := h.perm hperm.symm
  have horder : InOrder fileLines.length 0 ((lastFirst edits).reverse.map regionOf) :=
    inOrder_of_sorted (Nat.zero_le _) hdisj.start_pos hdisj.start_le
      (fun e he => hfit e (hperm.mem_iff.mp he)) (pairwise_reverse.mpr h.sorted)
  have hwidth : ∀ r ∈ (lastFirst edits).reverse.map regionOf, r.start < r.stop := by
    refine forall_mem_map.mpr fun e he => ?_
    have hpos := hdisj.start_pos e he
    have hle := hdisj.start_le e he
    change e.1.start - 1 < e.1.stop
    omega
  have hstarts : ((lastFirst edits).reverse.map regionOf).Pairwise
      fun r s => r.start ≠ s.start := by
    refine pairwise_map.mpr (List.Pairwise.imp_of_mem (fun {d e} hd he hne => ?_)
      hdisj.starts_ne)
    have hd' := hdisj.start_pos d hd
    have he' := hdisj.start_pos e he
    change d.1.start - 1 ≠ e.1.start - 1
    omega
  have hrun := editSorted_reverse horder
  rw [reverse_reverse] at hrun
  rw [hrun, replaceAll_eq horder, take_zero, nil_append,
    show splice _ _ 0 _ = replaceTogether _ _ _ from splice_eq_flatMap horder hwidth,
    replaceTogether_perm (hperm.map regionOf) hstarts, drop_zero]

theorem runEdits_fitting (h : DisjointEdits edits) (hfit : ∀ e ∈ edits,
      e.1.stop ≤ fileLines.length) :
    runEdits fileLines edits =
      .ok (replaceTogether List.singleton fileLines (edits.map regionOf)) := by
  rw [← editSorted_lastFirst h hfit]
  match edits with
  | [(range, block)] =>
    have hstop : range.stop ≤ fileLines.length := hfit _ (mem_singleton_self _)
    rw [runEdits, editRange, if_neg (by omega), min_eq_left hstop]
    change _ = editSorted fileLines [(range, block)]
    rw [editSorted, if_neg (not_lt.mpr hstop)]
    rfl
  | [] => rfl
  | _ :: _ :: _ => rfl

theorem runEdits_beyond (h : DisjointEdits edits) (hlines : fileLines ≠ [])
    (hbeyond : ∃ e ∈ edits, fileLines.length < e.1.stop) :
    ∃ message, runEdits fileLines edits = .error message := by
  obtain ⟨e, he, hlt⟩ := hbeyond
  have hsort : ∃ message, editSorted fileLines (lastFirst edits) = .error message := by
    have hmem := (perm_lastFirst edits).mem_iff.mpr he
    cases hlast : lastFirst edits with
    | nil =>
      rw [hlast] at hmem
      exact absurd hmem not_mem_nil
    | cons first rest =>
      have hfirst : fileLines.length < first.1.stop := by
        rw [hlast] at hmem
        rcases mem_cons.mp hmem with rfl | hmem
        · exact hlt
        · have hapart := (pairwise_cons.mp (hlast ▸ h.sorted)).1 e hmem
          have hle := h.start_le first
            ((perm_lastFirst edits).mem_iff.mp (hlast ▸ mem_cons_self))
          omega
      rw [editSorted, if_pos hfirst]
      exact ⟨_, rfl⟩
  match edits with
  | [(range, block)] =>
    obtain rfl := mem_singleton.mp he
    have hlen := length_pos_of_ne_nil hlines
    rw [runEdits, editRange, if_pos ⟨hlt, by omega⟩]
    exact ⟨_, rfl⟩
  | [] => exact absurd he not_mem_nil
  | _ :: _ :: _ => exact hsort

theorem runEdits_perm (h : DisjointEdits edits) (hperm : edits.Perm edits') :
    runEdits fileLines edits = runEdits fileLines edits' := by
  have hsort := lastFirst_perm h hperm
  match edits with
  | [edit] =>
    rw [singleton_perm.mp hperm]
  | [] => rw [nil_perm.mp hperm]
  | _ :: _ :: _ =>
    match edits' with
    | [_] => simpa using hperm.length_eq
    | [] => simpa using hperm.length_eq
    | _ :: _ :: _ => exact congrArg (editSorted fileLines) hsort

end Requests

variable {before : Text}

/-- A request whose ranges were accepted. -/
theorem linesContent_eq {rangesStr : Text} {ranges : List LineRange} {blocks : List Text}
    (hclear : '\r' ∉ before) (hparse : parseLineRanges rangesStr (lines before).length = .ok ranges)
    (hlen : blocks.length = ranges.length) (hblocks : Separable blocks) :
    linesContent (rangeSeparator.intercalate blocks) rangesStr before =
      (runEdits (lines before) (ranges.zip (blocks.map normalizeLineEndings))).map fun fileLines =>
        if before.getLast? = some '\n' then ['\n'].intercalate fileLines ++ ['\n']
        else ['\n'].intercalate fileLines := by
  have hcrlf : containsCrlf before = false := by
    refine decide_eq_false fun hin => hclear (hin.subset mem_cons_self)
  have hne := (accepted_of_parse hparse).nonempty
  have hsplit : split rangeSeparator (normalizeLineEndings (rangeSeparator.intercalate blocks)) =
      blocks.map normalizeLineEndings := by
    rw [normalize_join, split_join _ hblocks.normalize]
    intro heq
    rw [map_eq_nil_iff.mp heq, length_nil] at hlen
    exact hne (length_eq_zero_iff.mp hlen.symm)
  have hinner : editLines (lines before) ranges
      (normalizeLineEndings (rangeSeparator.intercalate blocks)) =
      runEdits (lines before) (ranges.zip (blocks.map normalizeLineEndings)) := by
    match ranges, blocks with
    | [range], [block] => rw [intercalate_singleton]; rfl
    | first :: second :: rest, blocks =>
      change editRanges _ _ _ = _
      rw [editRanges, hsplit, if_neg (by simpa using hlen)]
      match blocks with
      | _ :: _ :: _ => rfl
  rw [linesContent]
  simp only [normalize_of_clear hclear, hparse, hcrlf]
  rw [hinner]
  rfl

theorem eq_nil_of_lines (h : lines text = []) : text = [] := by
  rw [lines, append_eq_nil_iff, map_eq_nil_iff] at h
  have hjoin : ['\n'].intercalate (text.splitOn '\n') = text := intercalate_splitOn '\n'
  rcases eq_nil_or_concat' (text.splitOn '\n') with hpieces | ⟨before, last, hpieces⟩
  · exact absurd hpieces (splitOn_ne_nil _ _)
  · rw [hpieces, dropLast_concat, List.getLast?_concat] at h
    rw [hpieces, h.1, nil_append, intercalate_singleton] at hjoin
    rw [← hjoin]
    by_contra hlast
    simp [hlast] at h

theorem return_not_mem_normalize (text : Text) : '\r' ∉ normalizeLineEndings text := by
  intro h
  obtain ⟨c, -, hc⟩ := mem_map.mp h
  split_ifs at hc with hreturn
  · exact absurd hc (by decide)
  · exact hreturn hc

theorem clean_of_mem_lines {line : Text} (hclear : '\r' ∉ text) (h : line ∈ lines text) :
    Clean line :=
  ⟨fun hmem => hclear ((infix_of_mem_lines h).subset hmem), newline_not_mem_of_mem_lines h⟩

theorem clean_of_mem_editedLines {line : Text} {edits : List (LineRange × Text)}
    (hclear : '\r' ∉ before) (hblocks : ∀ e ∈ edits, '\r' ∉ e.2)
    (h : line ∈ editedLines (lines before) edits) : Clean line := by
  rw [editedLines] at h
  split_ifs at h with hempty
  · obtain ⟨e, he, hline⟩ := mem_flatMap.mp h
    exact clean_of_mem_lines (hblocks e he) hline
  · rcases mem_replaceTogether h with ⟨r, hr, hline⟩ | ⟨old, hold, hline⟩
    · obtain ⟨e, he, rfl⟩ := mem_map.mp hr
      exact clean_of_mem_lines (hblocks e he) hline
    · rw [mem_singleton.mp hline]
      exact clean_of_mem_lines hclear hold

theorem Accepted.sole {ranges : List LineRange} (h : Accepted 0 ranges) :
    ∃ range, ranges = [range] ∧ range.start = 1 := by
  have hone : ∀ r ∈ ranges, r.start = 1 := fun r hr => by
    have := h.start_pos r hr
    rcases h.inside r hr with hle | ⟨-, heq⟩ <;> omega
  match ranges with
  | [] => exact absurd rfl h.nonempty
  | [range] => exact ⟨range, rfl, hone range (mem_singleton_self _)⟩
  | first :: second :: rest =>
    have hfirst := hone first mem_cons_self
    have hsecond := hone second (mem_cons_of_mem _ mem_cons_self)
    have hle := h.start_le first mem_cons_self
    have hle' := h.start_le second (mem_cons_of_mem _ mem_cons_self)
    have := (pairwise_cons.mp h.apart).1 second mem_cons_self
    omega

theorem runEdits_empty {ranges : List LineRange} {blocks : List Text} (h : Accepted 0 ranges)
    (hlen : blocks.length = ranges.length) :
    runEdits [] (ranges.zip blocks) = .ok (editedLines [] (ranges.zip blocks)) := by
  obtain ⟨range, rfl, hstart⟩ := h.sole
  match blocks with
  | [block] =>
    change editRange [] range block = _
    rw [editRange, if_neg (by simp [hstart]), spliceLines, replaceAt, editedLines, if_pos rfl]
    simp

/-- When the lines of the written content are the edited ones: a file that ends with a line feed
keeps one, and in a file that does not a blank last line is not seen. -/
def ReadsBack (before : Text) (edited : List Text) : Prop :=
  if before.getLast? = some '\n' then edited ≠ [] else edited.getLast? ≠ some []

theorem FileHost.edit_ok {host : FileHost} {compute : Text → Except Text Text} {after : Text}
    (hread : host.getFileText = .ok before) (h : (host.edit compute).result = .ok (before, after)) :
    compute before = .ok after := by
  rw [FileHost.edit, hread] at h
  dsimp only at h
  split at h
  · cases h
  next hcompute =>
    split at h
    · cases h
    · cases h
      exact hcompute

/-- The blocks take the places of their ranges, in numbers of old lines and in any order; a range
that does not fit a file that is not empty makes the request fail. -/
theorem range_edits_simultaneous {host : FileHost} {before : Text}
    (hread : host.getFileText = .ok before) (hclear : '\r' ∉ before) {rangesStr : Text}
    {ranges : List LineRange} (hparse : parseLineRanges rangesStr (lines before).length =
      .ok ranges)
    {blocks : List Text} (hlength : blocks.length = ranges.length) (hblocks : Separable blocks) :
    (∀ after edited,
      editedLines (lines before) (ranges.zip (blocks.map normalizeLineEndings)) = edited →
      (strReplaceLines host (rangeSeparator.intercalate blocks) rangesStr).result =
        .ok (before, after) →
      ReadsBack before edited → lines after = edited) ∧
    (∀ rangesStr' ranges' blocks',
      parseLineRanges rangesStr' (lines before).length = .ok ranges' →
      blocks'.length = ranges'.length → Separable blocks' →
      (ranges.zip blocks).Perm (ranges'.zip blocks') →
      strReplaceLines host (rangeSeparator.intercalate blocks') rangesStr' =
        strReplaceLines host (rangeSeparator.intercalate blocks) rangesStr) ∧
    (before ≠ [] → (∃ r ∈ ranges, (lines before).length < r.stop) →
      ∃ message, strReplaceLines host (rangeSeparator.intercalate blocks) rangesStr =
        ⟨.error message, none⟩) := by
  have haccepted := accepted_of_parse hparse
  have hcontent := linesContent_eq hclear hparse hlength hblocks
  have hlength' : (blocks.map normalizeLineEndings).length = ranges.length := by
    rw [length_map, hlength]
  have hdisjoint := haccepted.disjoint hlength'.ge
  refine ⟨fun after edited hedited hok hreads => ?_, fun rangesStr' ranges' blocks' hparse' hlen
    hsep hperm => ?_, fun hne hbeyond => ?_⟩
  · have hafter := FileHost.edit_ok hread hok
    have hrun : runEdits (lines before) (ranges.zip (blocks.map normalizeLineEndings)) =
        .ok edited := by
      by_cases hempty : lines before = []
      · rw [hempty] at hedited haccepted ⊢
        rw [← hedited]
        exact runEdits_empty haccepted hlength'
      · have hfit : ∀ e ∈ ranges.zip (blocks.map normalizeLineEndings),
            e.1.stop ≤ (lines before).length := by
          by_contra hout
          push Not at hout
          obtain ⟨message, hmessage⟩ := runEdits_beyond hdisjoint hempty hout
          rw [hcontent, hmessage] at hafter
          cases hafter
        rw [runEdits_fitting hdisjoint hfit, ← hedited, editedLines, if_neg hempty]
    have hclean : ∀ line ∈ edited, Clean line := fun line hline =>
      clean_of_mem_editedLines hclear (fun e he => by
        obtain ⟨block, -, heq⟩ := mem_map.mp (of_mem_zip he).2
        exact heq ▸ return_not_mem_normalize block) (hedited.symm ▸ hline)
    rw [hcontent, hrun] at hafter
    rw [ReadsBack] at hreads
    obtain rfl := Except.ok.inj hafter
    split_ifs at hreads ⊢ with hnewline
    · exact lines_join_newline hreads hclean
    · exact lines_join hclean hreads
  · have hcontent' := linesContent_eq hclear hparse' hlen hsep
    have hedits : (ranges.zip (blocks.map normalizeLineEndings)).Perm
        (ranges'.zip (blocks'.map normalizeLineEndings)) := by
      rw [zip_map_right, zip_map_right]
      exact hperm.map _
    rw [strReplaceLines, strReplaceLines, FileHost.edit, FileHost.edit, hread]
    dsimp only
    rw [hcontent', hcontent, runEdits_perm hdisjoint hedits]
  · have hlines : lines before ≠ [] := fun heq => hne (eq_nil_of_lines heq)
    obtain ⟨r, hr, hlt⟩ := hbeyond
    obtain ⟨e, he, rfl⟩ : ∃ e ∈ ranges.zip (blocks.map normalizeLineEndings), e.1 = r := by
      rw [← mem_map, map_fst_zip hlength'.ge]
      exact hr
    obtain ⟨message, hmessage⟩ := runEdits_beyond hdisjoint hlines ⟨e, he, hlt⟩
    refine ⟨message, ?_⟩
    rw [strReplaceLines, FileHost.edit, hread]
    dsimp only
    rw [hcontent, hmessage]
    rfl

def writable (content : String) : FileHost :=
  ⟨.ok content.toList, "f".toList, fun _ => .ok (), false⟩

theorem two_ranges_edited :
    lines "y\nz\nx\n".toList = ["y".toList, "z".toList, "x".toList] ∧
      strReplaceLines (writable "a\nb\nc\n")
          (rangeSeparator.intercalate ["x".toList, "y\nz".toList]) "3,:2".toList =
        strReplaceLines (writable "a\nb\nc\n")
          (rangeSeparator.intercalate ["y\nz".toList, "x".toList]) "1:2,3".toList := by
  obtain ⟨hlines, hperm, -⟩ := @range_edits_simultaneous (writable "a\nb\nc\n")
    "a\nb\nc\n".toList rfl (by decide) "1:2,3".toList [⟨1, 2⟩, ⟨3, 3⟩] (by decide)
    ["y\nz".toList, "x".toList] rfl (separable_pair (by decide) (by decide))
  refine ⟨hlines _ _ (by decide) (by decide) ?_,
    hperm "3,:2".toList [⟨3, 3⟩, ⟨1, 2⟩] _ (by decide) rfl
      (separable_pair (by decide) (by decide)) (List.Perm.swap _ _ _)⟩
  rw [ReadsBack]
  decide

/-- Line 3 of an empty file can be named; without any line left the line feed at the end stays; a
blank line at the end is lost; a carriage return in a block ends a line; and a separator can begin
in a block that does not hold one. -/
theorem line_edit_corners :
    (¬ ∀ (host : FileHost) (before rangesStr : Text) (ranges : List LineRange)
        (blocks : List Text), host.getFileText = .ok before → '\r' ∉ before →
        parseLineRanges rangesStr (lines before).length = .ok ranges →
        blocks.length = ranges.length → (∀ block ∈ blocks, ¬ rangeSeparator <:+: block) →
        (∀ after, (strReplaceLines host (rangeSeparator.intercalate blocks) rangesStr).result =
            .ok (before, after) →
          lines after =
            replaceTogether List.singleton (lines before) ((ranges.zip blocks).map regionOf)) ∧
        ((∃ r ∈ ranges, (lines before).length < r.stop) →
          ∃ message, strReplaceLines host (rangeSeparator.intercalate blocks) rangesStr =
            ⟨.error message, none⟩)) ∧
      linesContent "x".toList "1:3".toList [] = .ok "x".toList ∧
      linesContent [] "1".toList "a\n".toList = .ok "\n".toList ∧
      linesContent "\n".toList "2".toList "a\nb".toList = .ok "a\n".toList ∧
      linesContent "x\ry".toList "1".toList "a\n".toList = .ok "x\ny\n".toList ∧
      linesContent "---RANGE_SEPARATOR---RANGE_SEPARATOR---x".toList "1,2".toList "a\nb".toList =
        .ok "RANGE_SEPARATOR---x".toList := by
  refine ⟨fun h => ?_, ?_⟩
  · obtain ⟨-, hfails⟩ := h (writable "") [] "1:3".toList [⟨1, 3⟩] ["x".toList] rfl (by decide)
      (by decide) rfl (by decide)
    obtain ⟨message, hmessage⟩ := hfails (by decide)
    have hok : (strReplaceLines (writable "") "x".toList "1:3".toList).result =
        .ok ([], "x".toList) := by decide
    have heq := congrArg Outcome.result hmessage
    rw [intercalate_singleton, hok] at heq
    cases heq
  · decide

end LineRangeEdits
