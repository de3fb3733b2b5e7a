import Mathlib.Data.List.Chain
import RefactEngine.UndoHistory

/-! # What an undo takes back

The limits of the history only ever drop the oldest entries of a file, since times do not go back.
The entries of a file are therefore a run of consecutive changes of it as long as every kept edit
starts where the last entry ended, which `record_edit` does not check.
-/
namespace UndoSafety

open ApplyPatch UndoHistory List

variable {Path Actor Digest : Type} [LinearOrder Path]

def entriesIn (h : UndoMap Path Actor Digest) (path : Path) : List (UndoEntry Actor Digest) :=
  (h.lookup path).getD []

def TimeOrdered (h : UndoMap Path Actor Digest) (clock : ℕ) : Prop :=
  ∀ path, (entriesIn h path).Pairwise (fun a b => a.timestamp ≤ b.timestamp) ∧
    ∀ e ∈ entriesIn h path, e.timestamp ≤ clock

def Thinned (h' h : UndoMap Path Actor Digest) : Prop :=
  ∀ path, entriesIn h' path <:+ entriesIn h path

theorem Thinned.refl (h : UndoMap Path Actor Digest) : Thinned h h :=
  fun _ => suffix_rfl

theorem Thinned.trans {h₁ h₂ h₃ : UndoMap Path Actor Digest} (ha : Thinned h₁ h₂)
    (hb : Thinned h₂ h₃) : Thinned h₁ h₃ :=
  fun path => (ha path).trans (hb path)

variable {h h' : UndoMap Path Actor Digest} {clock : ℕ}

theorem Thinned.timeOrdered (ht : Thinned h' h) (ho : TimeOrdered h clock) :
    TimeOrdered h' clock := by
  intro path
  obtain ⟨hp, hc⟩ := ho path
  exact ⟨hp.sublist (ht path).sublist, fun e he => hc e ((ht path).subset he)⟩

@[simp] theorem entriesIn_insert (h : UndoMap Path Actor Digest) (path q : Path)
    (l : List (UndoEntry Actor Digest)) :
    entriesIn (h.insert path l) q = if q = path then l else entriesIn h q := by
  simp only [entriesIn, AList.lookup_insert_if]
  split <;> rfl

@[simp] theorem entriesIn_erase (h : UndoMap Path Actor Digest) (path q : Path) :
    entriesIn (h.erase path) q = if q = path then [] else entriesIn h q := by
  simp only [entriesIn, AList.lookup_erase_if]
  split <;> rfl

theorem thinned_of_lookup {h h' : UndoMap Path Actor Digest} {path : Path}
    (hown : entriesIn h' path <:+ entriesIn h path)
    (hrest : ∀ q, q ≠ path → entriesIn h' q = entriesIn h q) : Thinned h' h := by
  intro q
  by_cases hq : q = path
  · subst hq; exact hown
  · exact (hrest q hq).symm ▸ suffix_rfl

variable {key : EntryKey Path}

theorem mem_allEntries : key ∈ allEntries h ↔ ∃ path idx e, (entriesIn h path)[idx]? = some e ∧
      key = toLex (e.timestamp, toLex (path, idx)) := by
  simp only [allEntries, entryKeys, mem_flatMap, mem_map, Prod.exists]
  constructor
  · rintro ⟨⟨path, entries⟩, hentry, e, idx, hidx, rfl⟩
    have hl : h.lookup path = some entries := AList.mem_entries_iff.mp hentry
    refine ⟨path, idx, e, ?_, rfl⟩
    rw [entriesIn, hl]
    exact List.mem_zipIdx_iff_getElem?.mp hidx
  · rintro ⟨path, idx, e, he, rfl⟩
    cases hl : h.lookup path with
    | none => simp [entriesIn, hl] at he
    | some entries =>
      refine ⟨⟨path, entries⟩, AList.mem_entries_iff.mpr hl, e, idx, ?_, rfl⟩
      rw [entriesIn, hl] at he
      exact List.mem_zipIdx_iff_getElem?.mpr he

theorem head_insertionSort_le {α : Type*} [LinearOrder α] {l : List α} {a b : α}
    (h : (l.insertionSort (· ≤ ·)).head? = some a) (hb : b ∈ l) : a ≤ b := by
  have hs := pairwise_insertionSort (· ≤ ·) l
  have hb' : b ∈ l.insertionSort (· ≤ ·) := (mem_insertionSort _).mpr hb
  cases hl : l.insertionSort (· ≤ ·) with
  | nil => rw [hl] at h; cases h
  | cons x xs =>
    rw [hl] at h hs hb'
    cases h
    rcases mem_cons.mp hb' with rfl | hx
    · exact le_rfl
    · exact (pairwise_cons.mp hs).1 b hx

theorem oldest_is_first (ho : TimeOrdered h clock)
    (hk : ((allEntries h).insertionSort (· ≤ ·)).head? = some key) :
    (ofLex (ofLex key).2).2 = 0 := by
  have hmem : key ∈ allEntries h := by
    rw [← mem_insertionSort (· ≤ ·)]
    exact List.mem_of_mem_head? hk
  obtain ⟨path, idx, e, he, rfl⟩ := mem_allEntries.mp hmem
  cases hl : entriesIn h path with
  | nil => rw [hl] at he; cases he
  | cons first rest =>
    have hfirst : toLex (first.timestamp, toLex (path, 0)) ∈ allEntries h :=
      mem_allEntries.mpr ⟨path, 0, first, by rw [hl]; rfl, rfl⟩
    have hle := head_insertionSort_le hk hfirst
    have hpos : idx ≠ 0 → first.timestamp ≤ e.timestamp := by
      intro hidx
      obtain ⟨i, rfl⟩ := Nat.exists_eq_succ_of_ne_zero hidx
      have hp := (ho path).1
      rw [hl] at he hp
      exact (pairwise_cons.mp hp).1 e (mem_of_getElem? he)
    by_contra hidx
    have ht := hpos hidx
    rw [Prod.Lex.toLex_le_toLex] at hle
    rcases hle with hlt | ⟨-, hle⟩
    · exact absurd ht (not_le.mpr hlt)
    · rw [Prod.Lex.toLex_le_toLex] at hle
      rcases hle with hlt | ⟨-, hle⟩
      · exact lt_irrefl _ hlt
      · exact hidx (Nat.le_zero.mp hle)

theorem pruneOldest_thinned (ho : TimeOrdered h clock) : Thinned (pruneOldest h).2 h := by
  unfold pruneOldest
  cases hk : ((allEntries h).insertionSort (· ≤ ·)).head? with
  | none => exact Thinned.refl h
  | some key =>
    have hidx := oldest_is_first ho hk
    dsimp only
    rw [hidx]
    cases hl : h.lookup (ofLex (ofLex key).2).1 with
    | none => exact Thinned.refl h
    | some entries =>
      have hown : entriesIn h (ofLex (ofLex key).2).1 = entries := by rw [entriesIn, hl]; rfl
      cases entries with
      | nil =>
        apply thinned_of_lookup
        · rw [hown]; simp
        · intro q hq; simp [hq]
      | cons first rest =>
        apply @thinned_of_lookup _ _ _ _ _ _ (ofLex (ofLex key).2).1
        · rw [hown]
          by_cases hr : rest = []
          · simp [hr]
          · simp [hr]
        · intro q hq
          by_cases hr : rest = []
          · simp [hr, hq]
          · simp [hr, hq]

theorem pruneWhile_thinned (max fuel total : ℕ) (ho : TimeOrdered h clock) :
    Thinned (pruneWhile max fuel total h) h := by
  induction fuel generalizing total h with
  | zero => exact Thinned.refl h
  | succ fuel ih =>
    have hstep := pruneOldest_thinned ho
    unfold pruneWhile
    by_cases hmax : total > max
    · rw [if_pos hmax]
      generalize pruneOldest h = pruned at hstep
      obtain ⟨removed, h'⟩ := pruned
      cases removed with
      | none => exact hstep
      | some bytes => exact (ih _ (hstep.timeOrdered ho)).trans hstep
    · rw [if_neg hmax]; exact Thinned.refl h

theorem trimOldest_suffix {α : Type} (max : ℕ) (l : List α) : trimOldest max l <:+ l := by
  induction l with
  | nil => exact suffix_rfl
  | cons e es ih =>
    unfold trimOldest
    split
    · exact ih.trans (suffix_cons e es)
    · exact suffix_rfl

variable (digest : Text → Digest)

def editEntry (now : ℕ) (actor : Option Actor) (before : Option Text)
    (text : Text) : UndoEntry Actor Digest :=
  { content := before.getD [], timestamp := now, existed := before.isSome,
    afterDigest := some (digest text), actor }

/-- What an edit leaves of the history: the entry it appends, if it is kept, and nothing else that
is new. -/
theorem recordEdit_entries (digest : Text → Digest) (limits : UndoLimits) {now : ℕ}
    (actor : Option Actor) (path : Path) (before : Option Text) (text : Text)
    (ho : TimeOrdered h now) :
    let h' := recordEdit digest limits now actor h path before (some text)
    TimeOrdered h' now ∧ (∀ q, q ≠ path → entriesIn h' q <:+ entriesIn h q) ∧
      entriesIn h' path <:+ if recorded limits h path before then
        entriesIn h path ++ [editEntry digest now actor before text] else entriesIn h path := by
  dsimp only
  unfold recordEdit
  cases hr : recorded limits h path before with
  | false => exact ⟨ho, fun q _ => suffix_rfl, suffix_rfl⟩
  | true =>
    simp only [if_true, Option.isNone_some, Bool.false_and, Bool.false_eq_true, if_false,
      Option.map_some]
    set pushed := entriesIn h path ++ [editEntry digest now actor before text] with hpushed
    have hp : TimeOrdered (h.insert path pushed) now := by
      intro q
      rw [entriesIn_insert]
      by_cases hq : q = path
      · rw [if_pos hq, hpushed]
        obtain ⟨hord, hle⟩ := ho path
        constructor
        · refine pairwise_append.mpr ⟨hord, pairwise_singleton _ _, ?_⟩
          intro a ha b hb
          rw [mem_singleton.mp hb]
          exact hle a ha
        · intro e he
          rcases mem_append.mp he with he | he
          · exact hle e he
          · rw [mem_singleton.mp he]; exact le_rfl
      · rw [if_neg hq]; exact ho q
    have htrim : Thinned (h.insert path (trimOldest limits.maxUndoEntriesPerFile pushed))
        (h.insert path pushed) := by
      intro q
      rw [entriesIn_insert, entriesIn_insert]
      by_cases hq : q = path
      · rw [if_pos hq, if_pos hq]; exact trimOldest_suffix _ _
      · simp only [if_neg hq, suffix_rfl]
    have hthin := (pruneWhile_thinned limits.maxUndoBytes
      ((allEntries (h.insert path (trimOldest limits.maxUndoEntriesPerFile pushed))).length + 1)
      (totalBytes (h.insert path (trimOldest limits.maxUndoEntriesPerFile pushed)))
      (htrim.timeOrdered hp)).trans htrim
    refine ⟨hthin.timeOrdered hp, ?_, ?_⟩
    · intro q hq
      have hsuf := hthin q
      rw [entriesIn_insert, if_neg hq] at hsuf
      exact hsuf
    · have hsuf := hthin path
      rw [entriesIn_insert, if_pos rfl] at hsuf
      exact hsuf

/-- The entry tells of the change: the state before it, and the digest of the content after it. -/
def Records (e : UndoEntry Actor Digest) (c : Change) : Prop :=
  e.before = c.before ∧ e.afterDigest = c.after.map digest

def ChangeLog (changes : List Change) (now : Option Text) : Prop :=
  changes.IsChain (fun a b => a.after = b.before) ∧ ∀ c ∈ changes.getLast?, c.after = now

def Moved (entries : List (UndoEntry Actor Digest))
    (now : Option Text) : Prop :=
  ∀ e ∈ entries.getLast?, e.afterDigest ≠ now.map digest

/-- The entries tell of consecutive changes, and of the last ones unless the file has moved on. -/
def Covered (entries : List (UndoEntry Actor Digest))
    (changes : List Change) (now : Option Text) : Prop :=
  ∃ older own newer, changes = older ++ own ++ newer ∧
    List.Forall₂ (Records digest) entries own ∧ (newer = [] ∨ Moved digest entries now)

variable {digest : Text → Digest} {entries : List (UndoEntry Actor Digest)}
  {changes : List Change} {now : Option Text}

theorem ChangeLog.push (h : ChangeLog changes now) (after : Option Text) :
    ChangeLog (changes ++ [⟨now, after⟩]) after := by
  refine ⟨isChain_append.mpr ⟨h.1, isChain_singleton _, ?_⟩, ?_⟩
  · intro a ha b hb
    obtain rfl : b = ⟨now, after⟩ := by simpa using hb.symm
    exact h.2 a ha
  · intro c hc
    obtain rfl : c = ⟨now, after⟩ := by simpa using hc.symm
    rfl

theorem ChangeLog.logWrite (h : ChangeLog changes now) (after : Option Text) :
    ChangeLog (logWrite changes now after) after := by
  unfold UndoHistory.logWrite
  by_cases hna : now = after
  · rw [if_pos hna, ← hna]; exact h
  · rw [if_neg hna]; exact h.push after

variable {entries' : List (UndoEntry Actor Digest)}

theorem Moved.suffix (h : Moved digest entries now) (hs : entries' <:+ entries) :
    Moved digest entries' now := by
  obtain ⟨front, rfl⟩ := hs
  intro e he
  apply h e
  rw [List.getLast?_append, Option.mem_def.mp he]
  rfl

theorem Covered.suffix (h : Covered digest entries changes now) (hs : entries' <:+ entries) :
    Covered digest entries' changes now := by
  obtain ⟨older, own, newer, hc, hf, hnew⟩ := h
  have hmoved : newer = [] ∨ Moved digest entries' now := hnew.imp_right fun hm => hm.suffix hs
  obtain ⟨front, rfl⟩ := hs
  refine ⟨older ++ own.take front.length, own.drop front.length, newer, ?_, ?_, hmoved⟩
  · rw [hc, append_assoc older (own.take _), take_append_drop]
  · have hd := forall₂_drop front.length hf
    rwa [drop_left] at hd

variable {after : Option Text}

theorem Covered.logWrite (h : Covered digest entries changes now)
    (hs : now ≠ after → Moved digest entries after) :
    Covered digest entries (logWrite changes now after) after := by
  unfold UndoHistory.logWrite
  by_cases hna : now = after
  · rw [if_pos hna, ← hna]; exact h
  · rw [if_neg hna]
    obtain ⟨older, own, newer, hc, hf, -⟩ := h
    refine ⟨older, own, newer ++ [⟨now, after⟩], ?_, hf, Or.inr (hs hna)⟩
    rw [hc, append_assoc (older ++ own)]

theorem Covered.last_changes (h : Covered digest entries changes now)
    (hlast : ∀ e ∈ entries.getLast?, e.afterDigest = now.map digest) :
    ∃ older own, changes = older ++ own ∧ List.Forall₂ (Records digest) entries own := by
  obtain ⟨older, own, newer, hc, hf, hnew⟩ := h
  cases entries with
  | nil => exact ⟨changes, [], (append_nil _).symm, List.Forall₂.nil⟩
  | cons e es =>
    rcases hnew with rfl | hm
    · exact ⟨older, own, by rw [hc, append_nil], hf⟩
    · have hl := List.getLast?_eq_some_getLast (cons_ne_nil e es)
      exact absurd (hlast _ hl) (hm _ hl)

theorem Covered.push (h : Covered digest entries changes now)
    (hlast : ∀ e ∈ entries.getLast?, e.afterDigest = now.map digest) (clock : ℕ)
    (actor : Option Actor) (text : Text) :
    Covered digest (entries ++ [editEntry digest clock actor now text])
      (changes ++ [⟨now, some text⟩]) (some text) := by
  obtain ⟨older, own, hc, hf⟩ := h.last_changes hlast
  refine ⟨older, own ++ [⟨now, some text⟩], [], ?_, ?_, Or.inl rfl⟩
  · rw [hc, append_nil, append_assoc]
  · have hrec : Records digest (editEntry digest clock actor now text) ⟨now, some text⟩ := by
      cases now with
      | none => exact ⟨rfl, rfl⟩
      | some content => exact ⟨rfl, rfl⟩
    exact rel_append hf (List.Forall₂.cons hrec List.Forall₂.nil)

theorem chain_of_records {cs : List Change} (hf : List.Forall₂ (Records digest) entries cs)
    (hc : cs.IsChain (fun a b => a.after = b.before)) :
    entries.IsChain (fun a b => a.afterDigest = b.before.map digest) := by
  induction hf with
  | nil => exact isChain_nil
  | @cons e c es cs he hes ih =>
    cases hes with
    | nil => exact isChain_singleton _
    | @cons e' c' es cs he' hes =>
      obtain ⟨hac, hrest⟩ := isChain_cons_cons.mp hc
      refine isChain_cons_cons.mpr ⟨?_, ih hrest⟩
      rw [he.2, he'.1, hac]

/-- The condition on a step under which the history stays in line with the files. A kept edit starts
where the last entry of the file ended; a change that is not recorded does not put back what that
entry left; an undo ends with the entries and the content that it checked. -/
def InLine (digest : Text → Digest) (s : State Path Actor Digest) : Event Path Actor → Prop
  | .write path after => s.disk path ≠ after → Moved digest (s.entriesOf path) after
  | .edit _ path text _ =>
    if recorded s.limits s.history path (s.disk path) then
      ∀ e ∈ (s.entriesOf path).getLast?, e.afterDigest = (s.disk path).map digest
    else s.disk path ≠ some text → Moved digest (s.entriesOf path) (some text)
  | .finishUndo path => ∀ u, s.pending path = some u →
      s.entriesOf path = u.entries ∧ s.disk path = some u.current
  | _ => True

structure Checked (digest : Text → Digest) (u : PendingUndo Actor Digest) : Prop where
  positive : 0 < u.steps
  enough : u.steps ≤ u.entries.length
  last : u.entries.getLast?.bind UndoEntry.afterDigest = some (digest u.current)

structure Consistent (digest : Text → Digest) (s : State Path Actor Digest) : Prop where
  ordered : TimeOrdered s.history s.clock
  logged : ∀ path, ChangeLog (s.changes path) (s.disk path)
  covered : ∀ path, Covered digest (s.entriesOf path) (s.changes path) (s.disk path)
  checked : ∀ path u, s.pending path = some u → Checked digest u

theorem consistent_initial (limits : UndoLimits) (clock : ℕ) (disk buffers : Path → Option Text) :
    Consistent digest (initial limits clock disk buffers : State Path Actor Digest) where
  ordered := fun _ => ⟨List.Pairwise.nil, fun _ he => absurd he not_mem_nil⟩
  logged := fun _ => ⟨isChain_nil, fun _ hc => by cases hc⟩
  covered := fun _ => ⟨[], [], [], rfl, List.Forall₂.nil, Or.inl rfl⟩
  checked := fun _ _ hu => by cases hu

theorem forall_update {α : Type*} {β : Type*} {P : Path → α → β → Prop} {f : Path → α}
    {g : Path → β} {path : Path} {a : α} {b : β} (hrest : ∀ q, q ≠ path → P q (f q) (g q))
    (hown : P path a b) (q : Path) :
    P q (Function.update f path a q) (Function.update g path b q) := by
  by_cases hq : q = path
  · subst hq; simpa using hown
  · simpa [hq] using hrest q hq

theorem consistent_write {s : State Path Actor Digest} (h : Consistent digest s) {path : Path}
    (hs : InLine digest s (.write path after)) :
    Consistent digest (write s path after) where
  ordered := h.ordered
  logged := by
    apply forall_update
    · exact fun q _ => h.logged q
    · exact (h.logged path).logWrite after
  covered := by
    apply @forall_update _ _ _ _ fun q c n => Covered digest (s.entriesOf q) c n
    · exact fun q _ => h.covered q
    · exact (h.covered path).logWrite hs
  checked := h.checked

theorem consistent_edit {s : State Path Actor Digest} (h : Consistent digest s)
    {actor : Option Actor} {path : Path} {text : Text} {expected : Option Text}
    (hs : InLine digest s (.edit actor path text expected)) :
    Consistent digest (edit digest s actor path text) := by
  obtain ⟨hord, hrest, hown⟩ :=
    recordEdit_entries digest s.limits actor path (s.disk path) text h.ordered
  simp only [InLine] at hs
  cases hr : recorded s.limits s.history path (s.disk path) with
  | true =>
    simp only [hr, if_true] at hs hown
    refine ⟨hord, ?_, ?_, h.checked⟩
    · simp only [edit, hr, if_true]
      apply forall_update
      · exact fun q _ => h.logged q
      · exact (h.logged path).push (some text)
    · simp only [edit, hr, if_true]
      apply @forall_update _ _ _ _ fun q c n => Covered digest (entriesIn _ q) c n
      · exact fun q hq => (h.covered q).suffix (hrest q hq)
      · exact ((h.covered path).push hs s.clock actor text).suffix hown
  | false =>
    simp only [hr, Bool.false_eq_true, if_false] at hs hown
    refine ⟨hord, ?_, ?_, h.checked⟩
    · simp only [edit, hr, Bool.false_eq_true, if_false]
      apply forall_update
      · exact fun q _ => h.logged q
      · exact (h.logged path).logWrite (some text)
    · simp only [edit, hr, Bool.false_eq_true, if_false]
      apply @forall_update _ _ _ _ fun q c n => Covered digest (entriesIn _ q) c n
      · exact fun q hq => (h.covered q).suffix (hrest q hq)
      · exact ((h.covered path).logWrite hs).suffix hown

theorem last_record {cs : List Change} {e : UndoEntry Actor Digest}
    (hf : List.Forall₂ (Records digest) entries cs) (he : e ∈ entries.getLast?) :
    ∃ c ∈ cs.getLast?, Records digest e c := by
  induction hf with
  | nil => cases he
  | @cons a c as cs ha has ih =>
    cases has with
    | nil =>
      obtain rfl : a = e := by simpa using he
      exact ⟨c, rfl, ha⟩
    | cons hb hbs => exact ih he

/-- What it means that an undo is exact. The entries it consumes tell of the last changes of the
file, as many as the steps; each ends where the next begins and the last in the present content; the
file is as it was before the first of them; the entries that remain end where the file now is. -/
structure UndoExact (digest : Text → Digest) (s : State Path Actor Digest) (path : Path)
    (u : PendingUndo Actor Digest) (s' : State Path Actor Digest) : Prop where
  count : (u.entries.drop u.targetIdx).length = u.steps
  lastChanges : ∃ older own, s.changes path = older ++ own ∧
    List.Forall₂ (Records digest) (u.entries.drop u.targetIdx) own ∧
    own.head?.map Change.before = some (s'.disk path)
  chained : (u.entries.drop u.targetIdx).IsChain fun a b => a.afterDigest = b.before.map digest
  current : ∃ content, s.disk path = some content ∧
    (u.entries.drop u.targetIdx).getLast?.bind UndoEntry.afterDigest = some (digest content)
  others : ∀ q, q ≠ path → s'.disk q = s.disk q
  remaining : s'.entriesOf path = u.entries.take u.targetIdx ∧
    (s'.entriesOf path).IsChain (fun a b => a.afterDigest = b.before.map digest) ∧
    ∀ e ∈ (s'.entriesOf path).getLast?, e.afterDigest = (s'.disk path).map digest

section Finish

variable {s : State Path Actor Digest} {path : Path} {u : PendingUndo Actor Digest}
  {target : UndoEntry Actor Digest}

theorem split_at_target (h : Consistent digest s) (hu : s.pending path = some u)
    (hs : InLine digest s (.finishUndo path)) (ht : u.entries[u.targetIdx]? = some target) :
    ∃ older own c rest, s.changes path = older ++ own ++ c :: rest ∧
      List.Forall₂ (Records digest) (u.entries.take u.targetIdx) own ∧
      List.Forall₂ (Records digest) (u.entries.drop u.targetIdx) (c :: rest) ∧
      Records digest target c := by
  obtain ⟨hents, hdisk⟩ := hs u hu
  have hchk := h.checked path u hu
  have hcov := h.covered path
  rw [hents] at hcov
  obtain ⟨older, own, hc, hf⟩ := hcov.last_changes fun e he => by
    have hl := hchk.last
    rw [Option.mem_def.mp he] at hl
    rw [hdisk]
    exact hl
  have hdrop := forall₂_drop u.targetIdx hf
  have hhead : u.entries.drop u.targetIdx = target :: u.entries.drop (u.targetIdx + 1) := by
    obtain ⟨hlt, hget⟩ := List.getElem?_eq_some_iff.mp ht
    rw [drop_eq_getElem_cons hlt, hget]
  generalize hcut : own.drop u.targetIdx = cut at hdrop
  rw [hhead] at hdrop
  cases hdrop with
  | @cons _ c _ rest hrec hrest =>
    refine ⟨older, own.take u.targetIdx, c, rest, ?_, forall₂_take _ hf, ?_, hrec⟩
    · rw [hc, ← hcut, append_assoc, take_append_drop]
    · rw [hhead]; exact List.Forall₂.cons hrec hrest

theorem length_consumed (hchk : Checked digest u) :
    (u.entries.drop u.targetIdx).length = u.steps := by
  have henough := hchk.enough
  rw [length_drop, PendingUndo.targetIdx]
  omega

omit [LinearOrder Path] in
theorem take_changes {older own rest : List Change} {c : Change} (hchk : Checked digest u)
    (hc : s.changes path = older ++ own ++ c :: rest)
    (hf : List.Forall₂ (Records digest) (u.entries.drop u.targetIdx) (c :: rest)) :
    (s.changes path).take ((s.changes path).length - u.steps) = older ++ own := by
  have hlen : (c :: rest).length = u.steps := by
    rw [← hf.length_eq]; exact length_consumed hchk
  rw [hc, ← hlen, length_append, Nat.add_sub_cancel]
  exact take_left

theorem entriesOf_finishUndo (s : State Path Actor Digest) (path q : Path)
    (u : PendingUndo Actor Digest) (target : UndoEntry Actor Digest) :
    (finishUndo s path u target).entriesOf q =
      if q = path then (s.entriesOf q).take u.targetIdx else s.entriesOf q := by
  simp only [State.entriesOf, finishUndo, AList.lookup_modify]
  by_cases hq : q = path
  · rw [if_pos hq, if_pos hq]
    cases s.history.lookup q with
    | none => exact take_nil.symm
    | some l => rfl
  · rw [if_neg hq, if_neg hq]

theorem consistent_finishUndo (h : Consistent digest s) (hu : s.pending path = some u)
    (hs : InLine digest s (.finishUndo path)) (ht : u.entries[u.targetIdx]? = some target) :
    Consistent digest (finishUndo s path u target) := by
  obtain ⟨older, own, c, rest, hc, hkept, hgone, hrec⟩ := split_at_target h hu hs ht
  have htake := take_changes (h.checked path u hu) hc hgone
  have hlog := h.logged path
  rw [hc] at hlog
  obtain ⟨hfront, -, hjoin⟩ := isChain_append.mp hlog.1
  refine ⟨?_, ?_, ?_, ?_⟩
  · intro q
    have hsub : ((finishUndo s path u target).entriesOf q).Sublist (s.entriesOf q) := by
      rw [entriesOf_finishUndo]
      split
      · exact take_sublist _ _
      · exact List.Sublist.refl _
    obtain ⟨hp, hle⟩ := h.ordered q
    exact ⟨hp.sublist hsub, fun e he => hle e (hsub.subset he)⟩
  · simp only [finishUndo]
    apply forall_update
    · exact fun q _ => h.logged q
    · rw [htake]
      refine ⟨hfront, fun x hx => ?_⟩
      rw [hrec.1]
      exact hjoin x hx c rfl
  · intro q
    rw [entriesOf_finishUndo]
    by_cases hq : q = path
    · subst hq
      simp only [finishUndo, Function.update_self, if_true]
      rw [htake, (hs u hu).1]
      exact ⟨older, own, [], (append_nil _).symm, hkept, Or.inl rfl⟩
    · simp only [finishUndo, Function.update_of_ne hq, if_neg hq]
      exact h.covered q
  · intro q v hv
    by_cases hq : q = path
    · subst hq; simp [finishUndo] at hv
    · exact h.checked q v (by simpa [finishUndo, hq] using hv)

theorem finishUndo_exact (h : Consistent digest s) (hu : s.pending path = some u)
    (hs : InLine digest s (.finishUndo path)) (ht : u.entries[u.targetIdx]? = some target) :
    UndoExact digest s path u (finishUndo s path u target) := by
  have hchk := h.checked path u hu
  obtain ⟨hents, hdisk⟩ := hs u hu
  obtain ⟨older, own, c, rest, hc, hkept, hgone, hrec⟩ := split_at_target h hu hs ht
  have hchain := (h.logged path).1
  rw [hc] at hchain
  obtain ⟨hfront, hback, hjoin⟩ := isChain_append.mp hchain
  have hafter : (finishUndo s path u target).disk path = c.before := by
    rw [← hrec.1]; exact Function.update_self _ _ _
  have hleft : (finishUndo s path u target).entriesOf path = u.entries.take u.targetIdx := by
    rw [entriesOf_finishUndo, if_pos rfl, hents]
  refine ⟨length_consumed hchk, ?_, chain_of_records hgone hback, ?_, ?_, hleft, ?_, ?_⟩
  · exact ⟨older ++ own, c :: rest, hc, hgone, by rw [hafter]; rfl⟩
  · refine ⟨u.current, hdisk, ?_⟩
    have hlt : u.targetIdx < u.entries.length := (List.getElem?_eq_some_iff.mp ht).1
    rw [List.getLast?_drop, if_neg (not_le.mpr hlt)]
    exact hchk.last
  · intro q hq
    exact Function.update_of_ne hq _ _
  · rw [hleft]
    exact chain_of_records hkept (isChain_append.mp hfront).2.1
  · intro e he
    rw [hleft] at he
    rw [hafter]
    obtain ⟨c', hc', hrec'⟩ := last_record hkept he
    have hlast : c' ∈ (older ++ own).getLast? := by
      rw [List.getLast?_append, Option.mem_def.mp hc']
      rfl
    rw [hrec'.2, hjoin c' hlast c rfl]

end Finish

variable [DecidableEq Actor] [DecidableEq Digest]

theorem checked_of_checkUndo {s : State Path Actor Digest} {actor : Option Actor} {path : Path}
    {steps : ℕ} {u : PendingUndo Actor Digest}
    (h : checkUndo digest s actor path steps = .ok u) : Checked digest u := by
  simp only [checkUndo] at h
  split_ifs at h with hzero hempty hmany hactor
  split at h
  · cases h
  · split_ifs at h with hchanged hbuffer
    cases h
    exact ⟨Nat.pos_of_ne_zero hzero, Nat.le_of_not_gt hmany, not_not.mp hchanged⟩

inductive Run (digest : Text → Digest)
    (ok : State Path Actor Digest → Event Path Actor → Prop) :
    State Path Actor Digest → Prop where
  | start (limits clock disk buffers) : Run digest ok (initial limits clock disk buffers)
  | next {s s' e} : Run digest ok s → ok s e → step digest s e = some s' → Run digest ok s'

theorem consistent_step {s s' : State Path Actor Digest} {e : Event Path Actor}
    (h : Consistent digest s) (hs : InLine digest s e) (hstep : step digest s e = some s') :
    Consistent digest s' := by
  cases e with
  | tick elapsed =>
    cases hstep
    refine ⟨fun q => ?_, h.logged, h.covered, h.checked⟩
    obtain ⟨hp, hle⟩ := h.ordered q
    exact ⟨hp, fun e he => (hle e he).trans (Nat.le_add_right _ _)⟩
  | configure limits => cases hstep; exact ⟨h.ordered, h.logged, h.covered, h.checked⟩
  | editBuffer path text => cases hstep; exact ⟨h.ordered, h.logged, h.covered, h.checked⟩
  | write path after => cases hstep; exact consistent_write h hs
  | edit actor path text expected =>
    simp only [step] at hstep
    split at hstep
    · cases hstep; exact consistent_edit h hs
    · cases hstep
  | startUndo actor path steps =>
    simp only [step] at hstep
    split at hstep
    next u _ hu =>
      cases hstep
      refine ⟨h.ordered, h.logged, h.covered, fun q v hv => ?_⟩
      by_cases hq : q = path
      · subst hq
        obtain rfl : u = v := by simpa using hv
        exact checked_of_checkUndo hu
      · exact h.checked q v (by simpa [hq] using hv)
    · cases hstep
  | finishUndo path =>
    simp only [step] at hstep
    split at hstep
    · cases hstep
    next u hu =>
      split at hstep
      · cases hstep
      next target ht =>
        split at hstep
        · cases hstep
        · cases hstep; exact consistent_finishUndo h hu hs ht
  | failUndo path =>
    obtain ⟨u, hu, rfl⟩ := Option.map_eq_some_iff.mp hstep
    refine ⟨h.ordered, h.logged, h.covered, fun q v hv => ?_⟩
    by_cases hq : q = path
    · subst hq; simp [release] at hv
    · exact h.checked q v (by simpa [release, hq] using hv)

theorem consistent_run {s : State Path Actor Digest} (h : Run digest (InLine digest) s) :
    Consistent digest s := by
  induction h with
  | start limits clock disk buffers => exact consistent_initial limits clock disk buffers
  | next _ hs hstep ih => exact consistent_step ih hs hstep

theorem finishUndo_of_step {s s' : State Path Actor Digest} {path : Path}
    (h : step digest s (.finishUndo path) = some s') :
    ∃ u target, s.pending path = some u ∧ u.entries[u.targetIdx]? = some target ∧
      s' = finishUndo s path u target := by
  simp only [step] at h
  split at h
  · cases h
  next u hu =>
    split at h
    · cases h
    next target ht =>
      split at h
      · cases h
      · cases h; exact ⟨u, target, hu, ht, rfl⟩

/-- In a run whose steps are all in line, every undo that succeeds takes back exactly the last
changes of its file. -/
theorem undo_exact_of_inLine {s s' : State Path Actor Digest} {path : Path}
    (hrun : Run digest (InLine digest) s) (hs : InLine digest s (.finishUndo path))
    (hstep : step digest s (.finishUndo path) = some s') :
    ∃ u, s.pending path = some u ∧ UndoExact digest s path u s' := by
  obtain ⟨u, target, hu, ht, rfl⟩ := finishUndo_of_step hstep
  exact ⟨u, hu, finishUndo_exact (consistent_run hrun) hu hs ht⟩

def start : State ℕ ℕ Text :=
  initial ⟨100, 10, 10⟩ 0 (fun _ => some ['a']) fun _ => none

def ask (s : State ℕ ℕ Text) (current : Text) : State ℕ ℕ Text :=
  { s with pending := Function.update s.pending 0 (some ⟨s.entriesOf 0, 2, current⟩) }

def once : State ℕ ℕ Text := edit id start none 0 ['b']

def twice : State ℕ ℕ Text := edit id once none 0 ['c']

theorem run_twice : Run id (InLine id) (ask twice ['c']) := by
  have hstart : Run id (InLine id) start := .start _ _ _ _
  have honce : Run id (InLine id) once :=
    .next (e := .edit none 0 ['b'] none) hstart (by intro e he; cases he) rfl
  have htwice : Run id (InLine id) twice :=
    .next (e := .edit none 0 ['c'] none) honce (by intro e he; cases he; rfl) rfl
  exact .next (e := .startUndo none 0 2) htwice trivial rfl

theorem two_edits_undone : ∃ s' u, step id (ask twice ['c']) (.finishUndo 0) = some s' ∧
    s'.disk 0 = some ['a'] ∧ UndoExact id (ask twice ['c']) 0 u s' := by
  have hline : InLine id (ask twice ['c']) (.finishUndo 0) := by
    intro u hu
    cases hu
    exact ⟨rfl, rfl⟩
  obtain ⟨u, -, hexact⟩ := undo_exact_of_inLine run_twice hline rfl
  exact ⟨_, u, rfl, rfl, hexact⟩

def interleaved : State ℕ ℕ Text := edit id (write once 0 (some ['x'])) none 0 ['c']

/-- The undo of two steps succeeds, restores `a` and loses `x`, which no entry tells of. -/
theorem foreign_write_lost : ∃ (s s' : State ℕ ℕ Text) (u : PendingUndo ℕ Text),
    Run id (fun _ _ => True) s ∧
    s.changes 0 = [⟨some ['a'], some ['b']⟩, ⟨some ['b'], some ['x']⟩, ⟨some ['x'], some ['c']⟩] ∧
    s.pending 0 = some u ∧ step id s (.finishUndo 0) = some s' ∧ s'.disk 0 = some ['a'] ∧
    ¬ UndoExact id s 0 u s' := by
  have hstart : Run id (fun _ _ => True) start := .start _ _ _ _
  have honce : Run id (fun _ _ => True) once :=
    .next (e := .edit none 0 ['b'] none) hstart trivial rfl
  have hforeign : Run id (fun _ _ => True) (write once 0 (some ['x'])) :=
    .next (e := .write 0 (some ['x'])) honce trivial rfl
  have hboth : Run id (fun _ _ => True) interleaved :=
    .next (e := .edit none 0 ['c'] none) hforeign trivial rfl
  have hrun : Run id (fun _ _ => True) (ask interleaved ['c']) :=
    .next (e := .startUndo none 0 2) hboth trivial rfl
  refine ⟨_, _, _, hrun, rfl, rfl, rfl, rfl, fun h => ?_⟩
  -- The first entry ends in `b`, the second begins in `x`.
  have hchain := (isChain_cons_cons.mp h.chained).1
  revert hchain
  decide

end UndoSafety
