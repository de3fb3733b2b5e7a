import RefactEngine.LineRangeEdits

/-! # What an edit leaves alone

The pieces of a text are its characters and its line ends, each as it was written. An edit replaces
its regions; every other piece keeps its place, and a line end among them is written as the line end
of the file: a carriage return and a line feed if the file had one such pair, else a line feed.
-/
namespace EditFrames

open TextLines ApplyPatch PatchPlan FileEdits Splices LineRangeEdits

inductive Piece where
  | char (c : Char)
  | crlf
  | cr
  | lf
  deriving DecidableEq

namespace Piece

def bytes : Piece → Text
  | .char c => [c]
  | .crlf => ['\r', '\n']
  | .cr => ['\r']
  | .lf => ['\n']

def plain : Piece → Char
  | .char c => c
  | _ => '\n'

end Piece

variable (crlfFile : Bool)

def lineEnd : Text := if crlfFile then ['\r', '\n'] else ['\n']

def Piece.restored : Piece → Text
  | .char c => [c]
  | _ => lineEnd crlfFile

def single (c : Char) : Piece := if c = '\r' then .cr else if c = '\n' then .lf else .char c

def pieces : Text → List Piece
  | '\r' :: '\n' :: rest => .crlf :: pieces rest
  | c :: rest => single c :: pieces rest
  | [] => []

theorem plain_single (c : Char) : (single c).plain = if c = '\r' then '\n' else c := by
  rw [single]
  split_ifs with hreturn hnewline
  · rfl
  · exact hnewline.symm
  · rfl

theorem plain_pieces (text : Text) : (pieces text).map Piece.plain = normalizeLineEndings text := by
  rw [normalizeLineEndings]
  fun_induction pieces text with
  | case1 rest ih => rw [List.map_cons, ih, replaceCrlf, List.map_cons]; rfl
  | case2 c rest hne ih =>
    rw [List.map_cons, ih, plain_single, replaceCrlf, List.map_cons]
    exact hne
  | case3 => rfl

theorem length_pieces (text : Text) : (pieces text).length =
      (normalizeLineEndings text).length := by
  rw [← plain_pieces, List.length_map]

def shown (c : Char) : Text := if c = '\n' then lineEnd crlfFile else [c]

variable (crlfFile : Bool)

theorem shown_ne_nil (c : Char) : shown crlfFile c ≠ [] := by
  rw [shown]
  cases crlfFile <;> split_ifs <;> simp [lineEnd]

theorem shown_single (c : Char) :
    shown crlfFile (single c).plain = (single c).restored crlfFile := by
  rw [single]
  split_ifs with hreturn hnewline
  · rfl
  · rfl
  · exact if_neg hnewline

variable {text : Text}

theorem shown_plain {p : Piece} (h : p ∈ pieces text) :
    shown crlfFile p.plain = p.restored crlfFile := by
  fun_induction pieces text with
  | case1 rest ih =>
    rcases List.mem_cons.mp h with rfl | h
    · rfl
    · exact ih h
  | case2 c rest hne ih =>
    rcases List.mem_cons.mp h with rfl | h
    · exact shown_single crlfFile c
    · exact ih h
  | case3 => exact absurd h List.not_mem_nil

theorem restore_eq (hclear : '\r' ∉ text) (crlfFile : Bool) :
    restoreLineEndings text crlfFile = text.flatMap (shown crlfFile) := by
  cases crlfFile with
  | true =>
    rw [restoreLineEndings, if_pos rfl, normalize_of_clear hclear]
    rfl
  | false =>
    rw [restoreLineEndings, if_neg (by decide)]
    have hshown : shown false = List.singleton := by
      funext c
      rw [shown]
      split_ifs with hnewline
      · rw [hnewline]; rfl
      · rfl
    rw [hshown, flatMap_singleton]

def physicalLines {α : Type*} (isEnd : α → Bool) : List α → List (List α)
  | [] => []
  | p :: rest =>
    if isEnd p then [p] :: physicalLines isEnd rest
    else match physicalLines isEnd rest with
      | [] => [[p]]
      | line :: lines => (p :: line) :: lines

theorem physicalLines_map {α β : Type*} (isEnd : β → Bool) (f : α → β) (ps : List α) :
    (physicalLines (fun p => isEnd (f p)) ps).map (List.map f) =
      physicalLines isEnd (ps.map f) := by
  induction ps with
  | nil => rfl
  | cons p rest ih =>
    rw [physicalLines, List.map_cons, physicalLines, ← ih]
    split_ifs
    · rfl
    · cases physicalLines (fun p => isEnd (f p)) rest <;> rfl

theorem flatten_physicalLines {α : Type*} (isEnd : α → Bool) (ps : List α) :
    (physicalLines isEnd ps).flatten = ps := by
  induction ps with
  | nil => rfl
  | cons p rest ih =>
    rw [physicalLines]
    split_ifs
    · rw [List.flatten_cons, ih, List.singleton_append]
    · cases hrest : physicalLines isEnd rest with
      | nil =>
        rw [hrest, List.flatten_nil] at ih
        rw [← ih]
        rfl
      | cons line lines =>
        rw [hrest, List.flatten_cons] at ih
        rw [List.flatten_cons, List.cons_append, ih]

def isLineFeed (c : Char) : Bool := c = '\n'

theorem physicalLines_line {line : Text} (hclear : '\n' ∉ line) (rest : Text) :
    physicalLines isLineFeed (line ++ '\n' :: rest) =
      (line ++ ['\n']) :: physicalLines isLineFeed rest := by
  induction line with
  | nil => rfl
  | cons c line ih =>
    have hc : isLineFeed c = false :=
      decide_eq_false fun heq => hclear (heq ▸ List.mem_cons_self)
    rw [List.cons_append, physicalLines, ih fun hmem => hclear (List.mem_cons_of_mem _ hmem), hc]
    rfl

theorem physicalLines_last {line : Text} (hclear : '\n' ∉ line) (hne : line ≠ []) :
    physicalLines isLineFeed line = [line] := by
  induction line with
  | nil => exact absurd rfl hne
  | cons c line ih =>
    have hc : isLineFeed c = false :=
      decide_eq_false fun heq => hclear (heq ▸ List.mem_cons_self)
    rw [physicalLines, hc]
    cases line with
    | nil => rfl
    | cons d line =>
      rw [ih (fun hmem => hclear (List.mem_cons_of_mem _ hmem)) (List.cons_ne_nil _ _)]
      rfl

def ended (fileLines : List Text) : Text := fileLines.flatMap (· ++ ['\n'])

variable {fileLines : List Text}

theorem physicalLines_ended (hclear : ∀ line ∈ fileLines, '\n' ∉ line) (rest : Text) :
    physicalLines isLineFeed (ended fileLines ++ rest) =
      fileLines.map (· ++ ['\n']) ++ physicalLines isLineFeed rest := by
  induction fileLines with
  | nil => rfl
  | cons line fileLines ih =>
    rw [ended, List.flatMap_cons, List.append_assoc, List.append_assoc, List.singleton_append,
      physicalLines_line (hclear line List.mem_cons_self), ← ended,
      ih fun l hl => hclear l (List.mem_cons_of_mem _ hl)]
    rfl

theorem join_concat (before : List Text) (last : Text) :
    ['\n'].intercalate (before ++ [last]) = ended before ++ last := by
  induction before with
  | nil => exact List.intercalate_singleton
  | cons line before ih =>
    have hcons : ∃ next rest, before ++ [last] = next :: rest :=
      List.exists_cons_of_ne_nil (by simp)
    obtain ⟨next, rest, hnext⟩ := hcons
    rw [List.cons_append, hnext, List.intercalate_cons_cons, ← hnext, ih, ended, ended,
      List.flatMap_cons, List.append_assoc, List.append_assoc, List.append_assoc]

/-- A normalised text is its lines, each with a line feed, except that a last line that is not
blank may end without one. -/
theorem lines_form (hclear : '\r' ∉ text) :
    (text.getLast? = some '\n' ∧ text = ended (lines text)) ∨
      (text = [] ∧ lines text = []) ∨
      ∃ before last, lines text = before ++ [last] ∧ last ≠ [] ∧ text.getLast? ≠ some '\n' ∧
        text = ended before ++ last := by
  have hjoin : ['\n'].intercalate (text.splitOn '\n') = text := List.intercalate_splitOn '\n'
  rcases List.eq_nil_or_concat' (text.splitOn '\n') with hpieces | ⟨before, last, hpieces⟩
  · exact absurd hpieces (List.splitOn_ne_nil _ _)
  · have hmem : ∀ line ∈ text.splitOn '\n', '\r' ∉ line := fun line hline hr =>
      hclear (hjoin ▸ (infix_intercalate ['\n'] hline).subset hr)
    have hstrip : before.map stripCarriageReturn = before :=
      strip_lines fun line hline => hmem line (hpieces ▸ List.mem_append_left _ hline)
    have hlast : '\n' ∉ last := not_mem_of_mem_splitOn (hpieces ▸ List.mem_append_right _
      (List.mem_singleton_self last))
    rw [hpieces, join_concat] at hjoin
    have hlines : lines text = before ++ (some last |>.filter (· ≠ [])).toList := by
      rw [lines, hpieces, List.dropLast_concat, List.getLast?_concat, hstrip]
    by_cases hblank : last = []
    · subst hblank
      rw [List.append_nil] at hjoin
      have hbef : lines text = before := hlines.trans (List.append_nil before)
      rcases List.eq_nil_or_concat' before with rfl | ⟨front, final, rfl⟩
      · exact .inr (.inl ⟨hjoin.symm, hbef⟩)
      · refine .inl ⟨?_, by rw [hbef, hjoin]⟩
        rw [← hjoin, ended, List.flatMap_append, List.flatMap_singleton, ← List.append_assoc,
          List.getLast?_concat]
    · refine .inr (.inr ⟨before, last, ?_, hblank, fun heq => ?_, hjoin.symm⟩)
      · rw [hlines]
        simp [hblank]
      · rw [← hjoin, List.getLast?_append_of_ne_nil _ hblank] at heq
        exact hlast (List.mem_of_getLast? heq)

variable {pattern : Text}

theorem matchIndicesFrom_inOrder (hne : pattern ≠ []) (new : Text) {skip : ℕ}
    (hskip : skip ≤ text.length) (index : ℕ) : InOrder (index + text.length) (index + skip)
      ((matchIndicesFrom pattern skip index text).map (occurrence pattern new)) := by
  induction text generalizing skip index with
  | nil =>
    cases skip with
    | zero => exact le_rfl
    | succ skip => exact absurd hskip (by simp)
  | cons c rest ih =>
    rw [List.length_cons] at hskip ⊢
    have hlen : index + (rest.length + 1) = index + 1 + rest.length := by omega
    cases skip with
    | succ skip =>
      rw [matchIndicesFrom, hlen, show index + (skip + 1) = index + 1 + skip by omega]
      exact ih (by omega) (index + 1)
    | zero =>
      rw [matchIndicesFrom]
      split_ifs with hmatch
      · have hpos := List.length_pos_of_ne_nil hne
        have hle := ( List.isPrefixOf_iff_prefix.mp hmatch).length_le
        rw [List.length_cons] at hle
        refine ⟨le_rfl, Nat.le_add_right _ _, ?_⟩
        have hrest := @ih (pattern.length - 1) (by omega) (index + 1)
        rw [show index + 1 + (pattern.length - 1) = index + pattern.length by omega] at hrest
        rw [hlen]
        exact hrest
      · rw [hlen]
        exact (ih (Nat.zero_le _) (index + 1)).mono (by omega)

theorem prefix_of_mem_matchIndicesFrom {skip index i : ℕ}
    (h : i ∈ matchIndicesFrom pattern skip index text) :
    index ≤ i ∧ pattern <+: text.drop (i - index) := by
  induction text generalizing skip index with
  | nil => simp [matchIndicesFrom] at h
  | cons c rest ih =>
    have hlater : ∀ {skip}, i ∈ matchIndicesFrom pattern skip (index + 1) rest →
        index ≤ i ∧ pattern <+: (c :: rest).drop (i - index) := by
      intro skip h
      obtain ⟨hle, hpre⟩ := ih h
      rw [show i - index = (i - (index + 1)) + 1 by omega, List.drop_succ_cons]
      exact ⟨by omega, hpre⟩
    cases skip with
    | succ skip => exact hlater h
    | zero =>
      rw [matchIndicesFrom] at h
      split_ifs at h with hmatch
      · rcases List.mem_cons.mp h with rfl | h
        · rw [Nat.sub_self]
          exact ⟨le_rfl, List.isPrefixOf_iff_prefix.mp hmatch⟩
        · exact hlater h
      · exact hlater h

theorem matchIndices_inOrder (hne : pattern ≠ []) (new content : Text) :
    InOrder content.length 0 ((matchIndices pattern content).map (occurrence pattern new)) := by
  have h := matchIndicesFrom_inOrder hne new (Nat.zero_le content.length) 0
  rwa [Nat.zero_add] at h

variable {content : Text}

theorem prefix_of_mem_matchIndices {i : ℕ} (h : i ∈ matchIndices pattern content) :
    pattern <+: content.drop i :=
  (prefix_of_mem_matchIndicesFrom h).2

def betweenRegions (content before after replacement : Text) : List (Region Char) :=
  ((anchorPairs content before after).insertionSort fun p q => p.1 ≤ q.1).map fun p =>
    ⟨p.1 + before.length, p.2, replacement⟩

def insertRegions (content anchor insert : Text) (after : Bool) : List (Region Char) :=
  (matchIndices anchor content).map fun pos =>
    let insertPos := if after then pos + anchor.length else pos
    ⟨insertPos, insertPos, insert⟩

theorem insertRegions_inOrder {anchor : Text} (hne : anchor ≠ []) (content insert : Text)
    (after : Bool) : InOrder content.length 0 (insertRegions content anchor insert after) := by
  have h := matchIndices_inOrder hne insert content
  rw [insertRegions]
  generalize matchIndices anchor content = positions at h
  have hgeneral : ∀ {cursor}, InOrder content.length cursor
      (positions.map (occurrence anchor insert)) →
      InOrder content.length cursor (positions.map fun pos =>
        (⟨if after then pos + anchor.length else pos, if after then pos + anchor.length else pos,
          insert⟩ : Region Char)) := by
    clear h
    induction positions with
    | nil => exact fun h => h
    | cons pos positions ih =>
      intro cursor h
      obtain ⟨hle, hstart, hrest⟩ := h
      have hle' : cursor ≤ pos := hle
      refine ⟨?_, le_rfl, ?_⟩
      · dsimp only
        split_ifs <;> omega
      · refine (ih hrest).mono ?_
        change _ ≤ pos + anchor.length
        dsimp only
        split_ifs <;> omega
  exact hgeneral h

variable {before after : Text}

theorem mem_anchorPairs {p : ℕ × ℕ} (h : p ∈ anchorPairs content before after) :
    p.1 + before.length ≤ p.2 ∧ after <+: content.drop p.2 := by
  obtain ⟨start, -, hp⟩ := List.mem_filterMap.mp h
  obtain ⟨index, hindex, rfl⟩ := Option.map_eq_some_iff.mp hp
  have hfound := prefix_of_mem_matchIndices (List.mem_of_head? hindex)
  rw [List.drop_drop] at hfound
  exact ⟨Nat.le_add_right _ _, hfound⟩

theorem betweenRegions_inOrder {replacement : Text} {cursor : ℕ} {pairs : List (ℕ × ℕ)}
    (hcursor : cursor ≤ content.length) (hstart : ∀ p ∈ pairs.head?, cursor ≤ p.1)
    (hpairs : ∀ p ∈ pairs, p.1 + before.length ≤ p.2 ∧ p.2 + after.length ≤ content.length)
    (h : overlapping after.length pairs = none) : InOrder content.length cursor ((pairs.map fun p =>
      (⟨p.1 + before.length, p.2, replacement⟩ : Region Char)).map (extend after)) := by
  induction pairs generalizing cursor with
  | nil => exact hcursor
  | cons p pairs ih =>
    obtain ⟨hwidth, hend⟩ := hpairs p List.mem_cons_self
    have hfirst := hstart p rfl
    refine ⟨?_, ?_, ih hend ?_ (fun q hq => hpairs q (List.mem_cons_of_mem _ hq)) ?_⟩
    · change cursor ≤ p.1 + before.length
      omega
    · change p.1 + before.length ≤ p.2 + after.length
      omega
    · cases pairs with
      | nil => exact fun q hq => absurd hq (by simp)
      | cons q pairs =>
        intro r hr
        obtain rfl := Option.some.inj hr
        rw [overlapping] at h
        split_ifs at h with hover
        exact not_lt.mp hover
    · cases pairs with
      | nil => rfl
      | cons q pairs =>
        rw [overlapping] at h
        split_ifs at h
        exact h

/-- The pieces outside the regions as `keep` shows them, and the new texts with the line ends of
the file. -/
def textFrame (keep : Piece → Text) (before : Text) (regions : List (Region Char)) : Text :=
  splice keep (pieces before) 0
    (regions.map (Region.map (List.flatMap (shown (containsCrlf before)))))

theorem restore_splice {regions : List (Region Char)} (hclear : ∀ r ∈ regions, '\r' ∉ r.items) :
    restoreLineEndings (splice List.singleton (normalizeLineEndings before) 0 regions)
        (containsCrlf before) =
      textFrame (Piece.restored (containsCrlf before)) before regions := by
  have hreturn : '\r' ∉ splice List.singleton (normalizeLineEndings before) 0 regions := by
    intro hmem
    rcases mem_splice hmem with ⟨r, hr, hitem⟩ | ⟨c, hc, hitem⟩
    · exact hclear r hr hitem
    · exact return_not_mem_normalize before (List.mem_singleton.mp hitem ▸ hc)
  rw [restore_eq hreturn, flatMap_splice, ← plain_pieces, splice_map, textFrame]
  refine splice_congr (fun p hp => ?_) 0 _
  rw [List.singleton, List.flatMap_singleton, shown_plain _ hp]

variable (re : NumberPrefix)

def replacedRegions (oldStr newStr before : Text) : List (Region Char) :=
  let old := stripLineNumberPrefixes re (normalizeLineEndings oldStr)
  (matchIndices old (normalizeLineEndings before)).map
    (occurrence old (normalizeLineEndings newStr))

theorem replaceContent_ok {re : NumberPrefix} {shownPath oldStr newStr : Text}
    {replaceMultiple : Bool}
    (h : replaceContent re shownPath oldStr newStr replaceMultiple before = .ok after) :
    InOrder (pieces before).length 0 (replacedRegions re oldStr newStr before) ∧
      after = textFrame (Piece.restored (containsCrlf before)) before
        (replacedRegions re oldStr newStr before) := by
  have hclear : ∀ r ∈ replacedRegions re oldStr newStr before, '\r' ∉ r.items := by
    intro r hr
    obtain ⟨i, -, rfl⟩ := List.mem_map.mp hr
    exact return_not_mem_normalize newStr
  rw [← restore_splice hclear, length_pieces]
  rw [replacedRegions]
  simp only [replaceContent] at h
  generalize stripLineNumberPrefixes re (normalizeLineEndings oldStr) = old at h ⊢
  split_ifs at h with hempty hnone hseveral hmultiple
  all_goals
    refine ⟨matchIndices_inOrder hempty _ _, ?_⟩
  · exact (Except.ok.inj h).symm
  · have hone : (matchIndices old (normalizeLineEndings before)).take 1 =
        matchIndices old (normalizeLineEndings before) := by
      refine List.take_of_length_le ?_
      simp only [Bool.and_eq_true, Bool.not_eq_true', decide_eq_true_eq, not_and, not_lt] at hseveral
      exact hseveral (Bool.eq_false_iff.mpr hmultiple)
    rw [← Except.ok.inj h, replacen, hone]

variable {multiple : Bool}

theorem insertAtAnchor_ok {anchor insert result : Text} {after : Bool}
    (h : insertAtAnchor content anchor insert multiple after = .ok result) :
    InOrder content.length 0 (insertRegions content anchor insert after) ∧
      result = splice List.singleton content 0 (insertRegions content anchor insert after) := by
  have hreplace : anchor ≠ [] → replaceAll content (insertRegions content anchor insert after) =
      splice List.singleton content 0 (insertRegions content anchor insert after) := fun hne => by
    rw [replaceAll_eq (insertRegions_inOrder hne content insert after), List.take_zero,
      List.nil_append]
  cases after <;>
  · simp only [insertAtAnchor, reduceIte, Bool.false_eq_true] at h
    split_ifs at h with hempty hnone hseveral
    refine ⟨insertRegions_inOrder hempty content insert _, ?_⟩
    rw [← Except.ok.inj h, ← hreplace hempty]
    rfl

theorem replaceBetweenAnchors_ok {replacement result : Text}
    (h : replaceBetweenAnchors content before after replacement multiple = .ok result) :
    InOrder content.length 0 (betweenRegions content before after replacement) ∧
      result =
        splice List.singleton content 0 (betweenRegions content before after replacement) := by
  simp only [replaceBetweenAnchors] at h
  split_ifs at h with hbef hafter hnone hpairs hseveral
  split at h
  · cases h
  next hover =>
    have hfacts : ∀ p ∈ (anchorPairs content before after).insertionSort fun p q => p.1 ≤ q.1,
        p.1 + before.length ≤ p.2 ∧ after <+: content.drop p.2 := fun p hp =>
      mem_anchorPairs ((List.mem_insertionSort _).mp hp)
    have horder : InOrder content.length 0
        ((betweenRegions content before after replacement).map (extend after)) := by
      refine betweenRegions_inOrder (Nat.zero_le _) (fun p _ => Nat.zero_le _) (fun p hp => ?_) hover
      obtain ⟨hwidth, hfound⟩ := hfacts p hp
      have hlen := hfound.length_le
      rw [List.length_drop] at hlen
      have hpos := List.length_pos_of_ne_nil hafter
      exact ⟨hwidth, by omega⟩
    have hextend : (((anchorPairs content before after).insertionSort fun p q => p.1 ≤ q.1).map
        fun p => (⟨p.1 + before.length, p.2 + after.length, replacement ++ after⟩ : Region Char)) =
        (betweenRegions content before after replacement).map (extend after) := by
      rw [betweenRegions, List.map_map]
      rfl
    have hword : ∀ r ∈ betweenRegions content before after replacement,
        after <+: content.drop r.stop := by
      intro r hr
      obtain ⟨p, hp, rfl⟩ := List.mem_map.mp hr
      exact (hfacts p hp).2
    refine ⟨horder.of_extend fun r hr => ?_, ?_⟩
    · obtain ⟨p, hp, rfl⟩ := List.mem_map.mp hr
      exact (hfacts p hp).1
    · rw [← Except.ok.inj h, hextend, replaceAll_eq horder, List.take_zero, List.nil_append]
      exact splice_extend horder hword

def anchoredRegions (mode : AnchorMode) (anchor1 : Text) (anchor2 : Option Text) (content : Text)
    (normalized : Text) : List (Region Char) :=
  match mode with
  | .replaceBetween =>
    betweenRegions normalized (normalizeLineEndings anchor1)
      (normalizeLineEndings (anchor2.getD [])) (normalizeLineEndings content)
  | .insertAfter =>
    insertRegions normalized (normalizeLineEndings anchor1) (normalizeLineEndings content) true
  | .insertBefore =>
    insertRegions normalized (normalizeLineEndings anchor1) (normalizeLineEndings content) false

theorem anchoredContent_ok {mode : AnchorMode} {anchor1 : Text} {anchor2 : Option Text}
    (h : anchoredContent mode anchor1 anchor2 content multiple before = .ok after) :
    InOrder (pieces before).length 0
        (anchoredRegions mode anchor1 anchor2 content (normalizeLineEndings before)) ∧
      after = textFrame (Piece.restored (containsCrlf before)) before
        (anchoredRegions mode anchor1 anchor2 content (normalizeLineEndings before)) := by
  have hclear : ∀ r ∈ anchoredRegions mode anchor1 anchor2 content (normalizeLineEndings before),
      '\r' ∉ r.items := by
    intro r hr
    cases mode <;>
    · obtain ⟨i, -, rfl⟩ := List.mem_map.mp hr
      exact return_not_mem_normalize content
  rw [← restore_splice hclear, length_pieces]
  unfold anchoredContent at h
  have hmap : ∀ {result : Except Text Text},
      (result.map fun text => restoreLineEndings text (containsCrlf before)) = .ok after →
      ∃ text, result = .ok text ∧ restoreLineEndings text (containsCrlf before) = after := by
    intro result hres
    cases result with
    | error message => cases hres
    | ok text => exact ⟨text, rfl, Except.ok.inj hres⟩
  obtain ⟨text, htext, rfl⟩ := hmap h
  cases mode with
  | replaceBetween =>
    cases anchor2 with
    | none => cases htext
    | some anchor2 =>
      dsimp only at htext
      split_ifs at htext with hempty
      obtain ⟨horder, heq⟩ := replaceBetweenAnchors_ok htext
      exact ⟨horder, by rw [heq]; rfl⟩
  | insertAfter =>
    obtain ⟨horder, heq⟩ := insertAtAnchor_ok htext
    exact ⟨horder, by rw [heq]; rfl⟩
  | insertBefore =>
    obtain ⟨horder, heq⟩ := insertAtAnchor_ok htext
    exact ⟨horder, by rw [heq]; rfl⟩

def lineRegions (newContent rangesStr : Text) (fileLines : List Text) : List (Region Text) :=
  match parseLineRanges rangesStr fileLines.length with
  | .error _ => []
  | .ok [range] => [⟨range.start - 1, min range.stop fileLines.length, lines newContent⟩]
  | .ok ranges =>
    (lastFirst (ranges.zip (split rangeSeparator newContent))).reverse.map regionOf

theorem return_not_mem_split {separator piece part : Text} {skip : ℕ} (hpiece : '\r' ∉ piece)
    (htext : '\r' ∉ text) (h : part ∈ splitFrom separator skip piece text) : '\r' ∉ part := by
  induction text generalizing skip piece with
  | nil =>
    cases skip <;>
    · rw [splitFrom] at h
      rwa [List.mem_singleton.mp h]
  | cons c text ih =>
    have hrest : '\r' ∉ text := fun hmem => htext (List.mem_cons_of_mem _ hmem)
    have hnext : '\r' ∉ piece ++ [c] := fun hmem => by
      rcases List.mem_append.mp hmem with hmem | hmem
      · exact hpiece hmem
      · exact htext (List.mem_singleton.mp hmem ▸ List.mem_cons_self)
    cases skip with
    | succ skip => exact ih hpiece hrest h
    | zero =>
      rw [splitFrom] at h
      split_ifs at h
      · rcases List.mem_cons.mp h with rfl | h
        · exact hpiece
        · exact ih List.not_mem_nil hrest h
      · exact ih hnext hrest h

variable {edited : List Text} {newContent rangesStr : Text} {ranges : List LineRange}

theorem editLines_ok (hparse : parseLineRanges rangesStr fileLines.length = .ok ranges)
    (hedit : editLines fileLines ranges newContent = .ok edited) :
    InOrder fileLines.length 0 (lineRegions newContent rangesStr fileLines) ∧
      (fileLines ≠ [] → ∀ r ∈ lineRegions newContent rangesStr fileLines, r.start < r.stop) ∧
      edited = splice List.singleton fileLines 0 (lineRegions newContent rangesStr fileLines) := by
  have hacc := accepted_of_parse hparse
  have hreplace : ∀ {regions : List (Region Text)}, InOrder fileLines.length 0 regions →
      replaceAll fileLines regions = splice List.singleton fileLines 0 regions := fun horder => by
    rw [replaceAll_eq horder, List.take_zero, List.nil_append]
  rcases ranges with _ | ⟨range, _ | ⟨second, rest⟩⟩
  · exact absurd rfl hacc.nonempty
  · have hpos := hacc.start_pos range (List.mem_singleton_self _)
    have hle := hacc.start_le range (List.mem_singleton_self _)
    have hin := hacc.inside range (List.mem_singleton_self _)
    have hregions : lineRegions newContent rangesStr fileLines =
        [⟨range.start - 1, min range.stop fileLines.length, lines newContent⟩] := by
      rw [lineRegions, hparse]
    rw [hregions]
    have horder : InOrder fileLines.length 0
        [(⟨range.start - 1, min range.stop fileLines.length, lines newContent⟩ : Region Text)] :=
      ⟨Nat.zero_le _, show range.start - 1 ≤ min range.stop fileLines.length by omega,
        min_le_right _ _⟩
    refine ⟨horder, fun hne r hr => ?_, ?_⟩
    · rw [List.mem_singleton.mp hr]
      have hlen := List.length_pos_of_ne_nil hne
      change range.start - 1 < min range.stop fileLines.length
      omega
    · rw [editLines, editRange] at hedit
      split_ifs at hedit
      rw [← hreplace horder, ← Except.ok.inj hedit]
      rfl
  · have hlines : fileLines ≠ [] := by
      rintro rfl
      obtain ⟨range, heq, -⟩ := hacc.sole
      cases heq
    have hregions : lineRegions newContent rangesStr fileLines =
        (lastFirst ((range :: second :: rest).zip
          (split rangeSeparator newContent))).reverse.map regionOf := by
      rw [lineRegions, hparse]
    change editRanges fileLines _ newContent = _ at hedit
    rw [editRanges] at hedit
    split_ifs at hedit with hcount
    rw [not_not] at hcount
    rw [hregions]
    generalize split rangeSeparator newContent = parts at hcount hedit ⊢
    have hdisj := hacc.disjoint hcount.ge
    have hperm := perm_lastFirst ((range :: second :: rest).zip parts)
    have hfit : ∀ e ∈ (range :: second :: rest).zip parts, e.1.stop ≤ fileLines.length := by
      by_contra hout
      push Not at hout
      obtain ⟨message, hmsg⟩ := runEdits_beyond hdisj hlines hout
      rcases parts with _ | ⟨first, _ | ⟨next, parts⟩⟩
      · cases hcount
      · cases hcount
      · have hsame := hmsg.symm.trans hedit
        cases hsame
    have hreverse := hdisj.perm ((List.reverse_perm _).trans hperm).symm
    have hmem : ∀ e, e ∈ (lastFirst ((range :: second :: rest).zip parts)).reverse →
        e ∈ (range :: second :: rest).zip parts := fun e he =>
      hperm.mem_iff.mp (List.mem_reverse.mp he)
    have horder : InOrder fileLines.length 0
        ((lastFirst ((range :: second :: rest).zip parts)).reverse.map regionOf) :=
      inOrder_of_sorted (Nat.zero_le _) hreverse.start_pos hreverse.start_le
        (fun e he => hfit e (hmem e he)) (List.pairwise_reverse.mpr hdisj.sorted)
    refine ⟨horder, fun _ => List.forall_mem_map.mpr fun e he => ?_, ?_⟩
    · have hpos := hreverse.start_pos e he
      have hle := hreverse.start_le e he
      change e.1.start - 1 < e.1.stop
      omega
    · have hrun := editSorted_reverse horder
      rw [List.reverse_reverse] at hrun
      rw [← hreplace horder]
      exact Except.ok.inj (hedit.symm.trans hrun)

/-- The lines outside the regions as `keep` shows their pieces, and the blocks with the line ends of
the file. A file that ends with a line end still does; in another one an edit of the last line
leaves none at the end. -/
def lineFrame (keep : Piece → Text) (before : Text) (regions : List (Region Text)) : Text :=
  let crlfFile := containsCrlf before
  let normalized := normalizeLineEndings before
  let kept := splice (List.flatMap keep) (physicalLines (fun p => isLineFeed p.plain) (pieces before))
    0 (regions.map (Region.map fun block => (ended block).flatMap (shown crlfFile)))
  if normalized.getLast? = some '\n' then if kept = [] then lineEnd crlfFile else kept
  else if regions.any fun r => r.stop = (lines normalized).length then
    kept.take (kept.length - (lineEnd crlfFile).length)
  else kept

theorem ended_concat (before : List Text) (last : Text) :
    ended (before ++ [last]) = ended before ++ last ++ ['\n'] := by
  rw [ended, List.flatMap_append, List.flatMap_singleton, List.append_assoc]
  rfl

theorem splice_ended (fileLines : List Text) (regions : List (Region Text)) :
    splice id (fileLines.map (· ++ ['\n'])) 0 (regions.map (Region.map ended)) =
      ended (splice List.singleton fileLines 0 regions) := by
  rw [ended, flatMap_splice, splice_map]
  refine splice_congr (fun line _ => ?_) 0 _
  rw [List.singleton, List.flatMap_singleton]
  rfl

theorem join_splice {normalized : Text} (hclear : '\r' ∉ normalized) {regions : List (Region Text)}
    (horder : InOrder (lines normalized).length 0 regions)
    (hwidth : lines normalized ≠ [] → ∀ r ∈ regions, r.start < r.stop) (hne : regions ≠ [])
    (hedited : edited = splice List.singleton (lines normalized) 0 regions) :
    let kept := splice id (physicalLines isLineFeed normalized) 0 (regions.map (Region.map ended))
    (if normalized.getLast? = some '\n' then ['\n'].intercalate edited ++ ['\n']
      else ['\n'].intercalate edited) =
      (if normalized.getLast? = some '\n' then if kept = [] then ['\n'] else kept
      else if regions.any fun r => r.stop = (lines normalized).length then kept.dropLast
      else kept) ∧
    (normalized.getLast? ≠ some '\n' → (regions.any fun r => r.stop = (lines normalized).length) →
      kept = ended edited) := by
  have hclean : ∀ line ∈ lines normalized, '\n' ∉ line := fun line hline =>
    newline_not_mem_of_mem_lines hline
  have hjoin : ['\n'].intercalate edited = (ended edited).dropLast := by
    rcases List.eq_nil_or_concat' edited with rfl | ⟨front, last, rfl⟩
    · rfl
    · rw [join_concat, ended_concat, List.dropLast_concat]
  intro kept
  rcases lines_form hclear with ⟨hend, hform⟩ | ⟨rfl, hlines⟩ | ⟨before, last, hlines, hlast, hend,
    hform⟩
  · have hkept : kept = ended edited := by
      have hphysical := physicalLines_ended hclean []
      rw [List.append_nil, ← hform] at hphysical
      rw [hedited, ← splice_ended, ← List.append_nil ((lines normalized).map _)]
      exact congrArg (fun xs => splice id xs 0 (regions.map (Region.map ended))) hphysical
    refine ⟨?_, fun hnot => absurd hend hnot⟩
    rw [if_pos hend, if_pos hend, hkept]
    rcases List.eq_nil_or_concat' edited with rfl | ⟨front, last, rfl⟩
    · rfl
    · rw [join_concat, ended_concat, if_neg (by simp)]
  · have hkept : kept = ended edited := by
      rw [hedited, hlines, ← splice_ended]
      rfl
    have hany : (regions.any fun r => r.stop = (lines ([] : Text)).length) = true := by
      obtain ⟨r, rest, rfl⟩ := List.exists_cons_of_ne_nil hne
      rw [hlines] at horder ⊢
      have hstop := (horder.start_le r List.mem_cons_self).2
      rw [List.length_nil] at hstop ⊢
      simp [Nat.le_zero.mp hstop]
    refine ⟨?_, fun _ _ => hkept⟩
    rw [if_neg (by simp), if_neg (by simp), if_pos hany, hkept, hjoin]
  · have hphysical : physicalLines isLineFeed normalized = before.map (· ++ ['\n']) ++ [last] := by
      rw [hform, physicalLines_ended fun line hline => hclean line
        (hlines ▸ List.mem_append_left _ hline)]
      rw [physicalLines_last (hclean last (hlines ▸ List.mem_append_right _
        (List.mem_singleton_self last))) hlast]
    have hlen : (before.map (· ++ ['\n'])).length = before.length := List.length_map _
    have htotal : (lines normalized).length = before.length + 1 := by
      rw [hlines, List.length_append, List.length_singleton]
    have hregions : InOrder ((before.map (· ++ ['\n'])).length + 1) 0
        (regions.map (Region.map ended)) := by
      rw [hlen, ← htotal]
      exact horder.map ended
    rw [if_neg hend, if_neg hend]
    by_cases hcover : (regions.any fun r => r.stop = (lines normalized).length) = true
    · obtain ⟨r, hr, hstop⟩ := List.any_eq_true.mp hcover
      have hkept : kept = ended edited := by
        rw [hedited, ← splice_ended, hlines, List.map_append, List.map_singleton]
        change splice id (physicalLines isLineFeed normalized) 0 _ = _
        rw [hphysical]
        refine splice_covered hregions ⟨r.map ended, List.mem_map_of_mem hr, ?_, ?_⟩ _ _
        · exact hwidth (by simp [hlines]) r hr
        · rw [hlen, ← htotal]
          exact of_decide_eq_true hstop
      refine ⟨?_, fun _ _ => hkept⟩
      rw [if_pos hcover, hkept, hjoin]
    · have hout : ∀ r ∈ regions, r.stop ≤ before.length := by
        intro r hr
        have hle := (horder.start_le r hr).2
        have hne' : r.stop ≠ (lines normalized).length := fun heq =>
          hcover (List.any_eq_true.mpr ⟨r, hr, decide_eq_true heq⟩)
        omega
      have hkept : kept = ended (splice List.singleton before 0 regions) ++ last := by
        change splice id (physicalLines isLineFeed normalized) 0 _ = _
        rw [hphysical, splice_concat hregions (Nat.zero_le _), splice_ended]
        · rfl
        · refine List.forall_mem_map.mpr fun r hr => ?_
          rw [hlen]
          exact hout r hr
      refine ⟨?_, fun _ h => absurd h hcover⟩
      rw [if_neg hcover, hedited, hlines,
        splice_concat (by rw [← htotal]; exact horder) (Nat.zero_le _) hout, hkept]
      exact join_concat _ _

theorem lineRegions_clear {newContent rangesStr : Text} {fileLines : List Text}
    (hclear : '\r' ∉ newContent) :
    ∀ r ∈ lineRegions newContent rangesStr fileLines, '\r' ∉ ended r.items := by
  have hended : ∀ {text : Text}, '\r' ∉ text → '\r' ∉ ended (lines text) := by
    intro text htext hmem
    obtain ⟨line, hline, hr⟩ := List.mem_flatMap.mp hmem
    rcases List.mem_append.mp hr with hr | hr
    · exact htext ((infix_of_mem_lines hline).subset hr)
    · exact absurd (List.mem_singleton.mp hr) (by decide)
  intro r hr
  rw [lineRegions] at hr
  split at hr
  · exact absurd hr List.not_mem_nil
  · rw [List.mem_singleton.mp hr]
    exact hended hclear
  · obtain ⟨e, he, rfl⟩ := List.mem_map.mp hr
    have hzip := (perm_lastFirst _).mem_iff.mp (List.mem_reverse.mp he)
    exact hended (return_not_mem_split List.not_mem_nil hclear (List.of_mem_zip hzip).2)

theorem lineRegions_ne_nil (hparse : parseLineRanges rangesStr fileLines.length = .ok ranges)
    (hedit : editLines fileLines ranges newContent = .ok edited) :
    lineRegions newContent rangesStr fileLines ≠ [] := by
  intro hnil
  have hempty : ∀ {edits : List (LineRange × Text)}, (lastFirst edits).reverse.map regionOf = [] →
      edits = [] := by
    intro edits h
    have hlen := congrArg List.length h
    rw [List.length_map, List.length_reverse, (perm_lastFirst edits).length_eq] at hlen
    exact List.length_eq_zero_iff.mp hlen
  match ranges with
  | [] => exact (accepted_of_parse hparse).nonempty rfl
  | [range] => rw [lineRegions, hparse] at hnil; cases hnil
  | first :: second :: rest =>
    rw [lineRegions, hparse] at hnil
    change editRanges fileLines _ newContent = _ at hedit
    rw [editRanges] at hedit
    split_ifs at hedit with hcount
    rw [not_not] at hcount
    have hzip := hempty hnil
    cases hsplit : split rangeSeparator newContent with
    | nil => rw [hsplit] at hcount; cases hcount
    | cons part parts => rw [hsplit] at hzip; cases hzip

theorem dropLast_shown (fileLines : List Text) :
    (ended fileLines).dropLast.flatMap (shown crlfFile) =
      ((ended fileLines).flatMap (shown crlfFile)).take
        (((ended fileLines).flatMap (shown crlfFile)).length - (lineEnd crlfFile).length) := by
  rcases List.eq_nil_or_concat' fileLines with rfl | ⟨front, last, rfl⟩
  · simp [ended]
  · have hend : shown crlfFile '\n' = lineEnd crlfFile := if_pos rfl
    rw [ended_concat]
    generalize ended front ++ last = text
    rw [List.dropLast_concat, List.flatMap_append, List.flatMap_singleton, hend,
      List.length_append, Nat.add_sub_cancel, List.take_left]

theorem linesContent_ok (h : linesContent newContent rangesStr before = .ok after) :
    InOrder (lines (normalizeLineEndings before)).length 0
        (lineRegions (normalizeLineEndings newContent) rangesStr
          (lines (normalizeLineEndings before))) ∧
      after = lineFrame (Piece.restored (containsCrlf before)) before
        (lineRegions (normalizeLineEndings newContent) rangesStr
          (lines (normalizeLineEndings before))) := by
  rw [linesContent] at h
  dsimp only at h
  split at h
  · cases h
  next ranges hparse =>
    cases hedit : editLines (lines (normalizeLineEndings before)) ranges
        (normalizeLineEndings newContent) with
    | error message => rw [hedit] at h; cases h
    | ok edited =>
      rw [hedit] at h
      obtain ⟨horder, hwidth, hedited⟩ := editLines_ok hparse hedit
      refine ⟨horder, ?_⟩
      have hne := lineRegions_ne_nil hparse hedit
      have hclear := @lineRegions_clear (normalizeLineEndings newContent) rangesStr
        (lines (normalizeLineEndings before)) (return_not_mem_normalize newContent)
      generalize lineRegions (normalizeLineEndings newContent) rangesStr
        (lines (normalizeLineEndings before)) = regions at *
      obtain ⟨hjoin, hcover⟩ := join_splice (return_not_mem_normalize before) horder hwidth hne
        hedited
      generalize hkept : splice id (physicalLines isLineFeed (normalizeLineEndings before)) 0
        (regions.map (Region.map ended)) = kept at hjoin hcover
      have hreturn : '\r' ∉ kept := by
        intro hmem
        rw [← hkept] at hmem
        rcases mem_splice hmem with ⟨r, hr, hitem⟩ | ⟨line, hline, hitem⟩
        · obtain ⟨region, hregion, rfl⟩ := List.mem_map.mp hr
          exact hclear region hregion hitem
        · refine return_not_mem_normalize before ?_
          rw [← flatten_physicalLines isLineFeed (normalizeLineEndings before)]
          exact List.mem_flatten.mpr ⟨line, hline, hitem⟩
      have hshown : kept.flatMap (shown (containsCrlf before)) =
          splice (List.flatMap (Piece.restored (containsCrlf before)))
            (physicalLines (fun p => isLineFeed p.plain) (pieces before)) 0
            (regions.map (Region.map fun block =>
              (ended block).flatMap (shown (containsCrlf before)))) := by
        rw [← hkept, flatMap_splice, ← plain_pieces, ← physicalLines_map, splice_map, List.map_map]
        refine splice_congr (fun line hline => ?_) 0 _
        rw [id, List.flatMap_map]
        refine List.flatMap_congr fun p hp => ?_
        have hpiece : p ∈ pieces before := by
          rw [← flatten_physicalLines (fun p => isLineFeed p.plain) (pieces before)]
          exact List.mem_flatten.mpr ⟨line, hline, hp⟩
        exact shown_plain _ hpiece
      have hafter := (Except.ok.inj h).symm
      dsimp only at hafter
      rw [hjoin] at hafter
      rw [hafter, lineFrame, ← hshown]
      have hnil : kept.flatMap (shown (containsCrlf before)) = [] ↔ kept = [] := by
        refine ⟨fun hflat => ?_, fun hkept => by rw [hkept, List.flatMap_nil]⟩
        cases kept with
        | nil => rfl
        | cons c kept =>
          rw [List.flatMap_cons, List.append_eq_nil_iff] at hflat
          exact absurd hflat.1 (shown_ne_nil _ c)
      by_cases hend : (normalizeLineEndings before).getLast? = some '\n'
      · rw [if_pos hend, if_pos hend]
        by_cases hempty : kept = []
        · rw [if_pos hempty, if_pos (hnil.mpr hempty), restore_eq (by decide)]
          exact List.flatMap_singleton _ _
        · rw [if_neg hempty, if_neg (mt hnil.mp hempty), restore_eq hreturn]
      · rw [if_neg hend, if_neg hend]
        by_cases hcovered :
            (regions.any fun r => r.stop = (lines (normalizeLineEndings before)).length) = true
        · rw [if_pos hcovered, if_pos hcovered,
            restore_eq fun hmem => hreturn ((List.dropLast_sublist kept).subset hmem),
            hcover hend hcovered, dropLast_shown]
        · rw [if_neg hcovered, if_neg hcovered, restore_eq hreturn]

inductive Call where
  | strReplace (oldStr newStr : Text) (replaceMultiple : Bool)
  | anchored (mode : AnchorMode) (anchor1 : Text) (anchor2 : Option Text) (content : Text)
      (multiple : Bool)
  | lines (newContent rangesStr : Text)

def Call.run (host : FileHost) : Call → Outcome
  | .strReplace oldStr newStr replaceMultiple => FileEdits.strReplace re host oldStr newStr replaceMultiple
  | .anchored mode anchor1 anchor2 content multiple =>
    strReplaceAnchored host mode anchor1 anchor2 content multiple
  | .lines newContent rangesStr => strReplaceLines host newContent rangesStr

/-- The old content with the regions of the call replaced: the occurrences of the old text, the text
between the anchors or the place at the anchor, the numbered lines. -/
def Call.framed (keep : Piece → Text) (before : Text) : Call → Text
  | .strReplace oldStr newStr _ => textFrame keep before (replacedRegions re oldStr newStr before)
  | .anchored mode anchor1 anchor2 content _ =>
    textFrame keep before
      (anchoredRegions mode anchor1 anchor2 content (normalizeLineEndings before))
  | .lines newContent rangesStr =>
    lineFrame keep before (lineRegions (normalizeLineEndings newContent) rangesStr
      (TextLines.lines (normalizeLineEndings before)))

def Call.InFile (before : Text) : Call → Prop
  | .strReplace oldStr newStr _ =>
    InOrder (pieces before).length 0 (replacedRegions re oldStr newStr before)
  | .anchored mode anchor1 anchor2 content _ =>
    InOrder (pieces before).length 0
      (anchoredRegions mode anchor1 anchor2 content (normalizeLineEndings before))
  | .lines newContent rangesStr =>
    InOrder (TextLines.lines (normalizeLineEndings before)).length 0
      (lineRegions (normalizeLineEndings newContent) rangesStr
        (TextLines.lines (normalizeLineEndings before)))

def Uniform (text : Text) : Prop :=
  ∀ p ∈ pieces text, p.restored (containsCrlf text) = p.bytes

theorem Uniform.framed (h : Uniform before) (re : NumberPrefix) (call : Call) :
    call.framed re (Piece.restored (containsCrlf before)) before =
      call.framed re Piece.bytes before := by
  have htext : ∀ regions, textFrame (Piece.restored (containsCrlf before)) before regions =
      textFrame Piece.bytes before regions := fun regions => splice_congr h 0 _
  cases call with
  | strReplace oldStr newStr replaceMultiple => exact htext _
  | anchored mode anchor1 anchor2 content multiple => exact htext _
  | lines newContent rangesStr =>
    have hline : ∀ line ∈ physicalLines (fun p => isLineFeed p.plain) (pieces before),
        line.flatMap (Piece.restored (containsCrlf before)) = line.flatMap Piece.bytes := by
      refine fun line hline => List.flatMap_congr fun p hp => h p ?_
      rw [← flatten_physicalLines (fun p => isLineFeed p.plain) (pieces before)]
      exact List.mem_flatten.mpr ⟨line, hline, hp⟩
    rw [Call.framed, Call.framed, lineFrame, lineFrame]
    simp only [splice_congr hline]

theorem FileHost.edit_cases {host : FileHost} {compute : Text → Except Text Text}
    (h : (host.edit compute).result = .ok (before, after)) : compute before = .ok after ∧
      (host.edit compute).written = if host.dry then none else some after := by
  rw [FileHost.edit] at h ⊢
  split at h
  · cases h
  next content hread =>
    split at h
    · cases h
    next text hcompute =>
      split at h
      · cases h
      · obtain ⟨rfl, rfl⟩ := Prod.mk.inj (Except.ok.inj h)
        exact ⟨hcompute, by simp_all⟩

/-- A successful edit keeps every piece outside its regions, with line ends as the file gets them;
in a file of such line ends it keeps the bytes. -/
theorem edits_keep_pieces (re : NumberPrefix) (host : FileHost) (call : Call) {before after : Text}
    (h : (call.run re host).result = .ok (before, after)) :
    (call.run re host).written = (if host.dry then none else some after) ∧
      call.InFile re before ∧
      after = call.framed re (Piece.restored (containsCrlf before)) before ∧
      (Uniform before → after = call.framed re Piece.bytes before) := by
  have hmain : (call.run re host).written = (if host.dry then none else some after) ∧
      call.InFile re before ∧
      after = call.framed re (Piece.restored (containsCrlf before)) before := by
    cases call with
    | strReplace oldStr newStr replaceMultiple =>
      rw [Call.run, strReplace] at h ⊢
      by_cases hempty : oldStr = []
      · rw [if_pos hempty] at h
        cases h
      · rw [if_neg hempty] at h ⊢
        obtain ⟨hcompute, hwritten⟩ := FileHost.edit_cases h
        exact ⟨hwritten, replaceContent_ok hcompute⟩
    | anchored mode anchor1 anchor2 content multiple =>
      rw [Call.run, strReplaceAnchored] at h ⊢
      by_cases hempty : anchor1 = []
      · rw [if_pos hempty] at h
        cases h
      · rw [if_neg hempty] at h ⊢
        obtain ⟨hcompute, hwritten⟩ := FileHost.edit_cases h
        exact ⟨hwritten, anchoredContent_ok hcompute⟩
    | lines newContent rangesStr =>
      rw [Call.run, strReplaceLines] at h ⊢
      obtain ⟨hcompute, hwritten⟩ := FileHost.edit_cases h
      exact ⟨hwritten, linesContent_ok hcompute⟩
  obtain ⟨hwritten, hin, hafter⟩ := hmain
  exact ⟨hwritten, hin, hafter, fun huniform => hafter.trans (huniform.framed re call)⟩

def unnumbered : NumberPrefix := ⟨fun _ => false, id⟩

/-- In a file of carriage returns and line feeds they are kept, and one stands in the new text. -/
theorem crlf_file_kept :
    "a\r\nx\r\ny\r\nc".toList =
      (Call.strReplace "b".toList "x\ny".toList false).framed unnumbered Piece.bytes
        "a\r\nb\r\nc".toList :=
  (edits_keep_pieces unnumbered (writable "a\r\nb\r\nc") (.strReplace "b".toList "x\ny".toList
      false)
    (by decide)).2.2.2 (by rw [Uniform]; decide)

/-- A line feed becomes a pair when another line of the file ends with one, and the end of the line
before a removed last line goes with it. -/
theorem line_ends_outside_change :
    (¬ ∀ (re : NumberPrefix) (host : FileHost) (oldStr newStr : Text) (replaceMultiple : Bool)
        (before after : Text),
        (strReplace re host oldStr newStr replaceMultiple).result = .ok (before, after) →
        ∃ regions : List (Region Char),
          regions.map (fun r => (r.start, r.stop)) =
            (replacedRegions re oldStr newStr before).map (fun r => (r.start, r.stop)) ∧
          after = splice Piece.bytes (pieces before) 0 regions) ∧
      linesContent [] "2".toList "a\nb".toList = .ok "a".toList := by
  refine ⟨fun h => ?_, by decide⟩
  obtain ⟨regions, hbounds, hafter⟩ := h unnumbered (writable "a\r\nb\nc") "c".toList "d".toList
    false "a\r\nb\nc".toList "a\r\nb\r\nd".toList (by decide)
  have hplaces : (replacedRegions unnumbered "c".toList "d".toList "a\r\nb\nc".toList).map
      (fun r => (r.start, r.stop)) = [(4, 5)] := by decide
  rw [hplaces] at hbounds
  obtain ⟨r, rest, rfl, hr, hrest⟩ := List.map_eq_cons_iff.mp hbounds
  obtain rfl := List.map_eq_nil_iff.mp hrest
  obtain ⟨hstart, hstop⟩ := Prod.mk.inj hr
  have hpieces : pieces "a\r\nb\nc".toList =
      [.char 'a', .crlf, .char 'b', .lf, .char 'c'] := by decide
  rw [hpieces, Splices.splice, Splices.splice, hstart, hstop] at hafter
  revert hafter
  simp [Piece.bytes]

end EditFrames
