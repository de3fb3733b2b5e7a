import Mathlib.Data.List.Infix
import RefactEngine.ExecTranscript

/-! # Transcripts lose nothing silently

The chunks of a run are numbered from zero; those that are retained are the ones after the dropped
ones. What a reader has passed over was dropped before it came there. The spilled text is the
longest prefix of the whole output under the cap.
-/
namespace TranscriptSafety

open ExecTranscript Utf8Prefix List

def chunkBytes (chunks : List ExecOutputChunk) : ℕ :=
  (chunks.map fun chunk => byteLength chunk.text).sum

@[simp] theorem chunkBytes_nil : chunkBytes [] = 0 := rfl

@[simp] theorem chunkBytes_cons (c : ExecOutputChunk) (cs : List ExecOutputChunk) :
    chunkBytes (c :: cs) = byteLength c.text + chunkBytes cs := by
  simp [chunkBytes]

@[simp] theorem chunkBytes_append (a b : List ExecOutputChunk) :
    chunkBytes (a ++ b) = chunkBytes a + chunkBytes b := by
  simp [chunkBytes]

def cutBytes (maxBytes : ℕ) (texts : List Text) : ℕ :=
  (texts.map fun text =>
    byteLength text - byteLength (truncateToCharBoundary text maxBytes)).sum

def appendedText (s : State) : Text := s.appended.flatten

def spilledText (s : State) : Text := s.spilledTexts.flatten

/-- Every byte of the output is retained, dropped or cut off, and counted as such. -/
structure BytesAccounted (config : Config) (s : State) : Prop where
  current : s.transcript.currentBytes = chunkBytes s.transcript.chunks
  bounded : s.transcript.currentBytes ≤ normalizeMaxBytes config.maxBytes
  total : s.transcript.totalBytesAppended = byteLength (appendedText s)
  accounted : s.transcript.totalBytesAppended =
    s.transcript.currentBytes + s.transcript.droppedBytes +
      cutBytes (normalizeMaxBytes config.maxBytes) s.appended

structure Contiguous (s : State) : Prop where
  seqs : s.transcript.chunks.map ExecOutputChunk.seq =
    List.range' s.transcript.droppedChunks s.transcript.chunks.length
  last : s.transcript.droppedChunks + s.transcript.chunks.length = s.transcript.nextSeq
  emitted : ∀ chunk ∈ s.transcript.chunks, chunk ∈ s.emitted

def pending (s : State) : List ExecOutputChunk :=
  s.transcript.chunks.filter fun chunk => s.since ≤ chunk.seq

/-- What a reader that began at `since` has received: every chunk at most once, in order and as it
was emitted; what it has passed over without receiving it was dropped; and a chunk that is retained
it has received, or it is pending. A read appends the first pending chunks up to its limit, all of
them if it has none. -/
structure Delivered (since : ℕ) (s : State) : Prop where
  inOrder : s.received.Pairwise fun a b => a.seq < b.seq
  genuine : ∀ chunk ∈ s.received, chunk ∈ s.emitted ∧ since ≤ chunk.seq ∧ chunk.seq < s.since
  gap : ∀ chunk ∈ s.emitted, since ≤ chunk.seq → chunk.seq < s.since →
    chunk ∈ s.received ∨ chunk.seq < s.transcript.droppedChunks
  retained : ∀ chunk ∈ s.transcript.chunks, since ≤ chunk.seq →
    (chunk ∈ s.received ∧ chunk ∉ pending s) ∨ (chunk ∉ s.received ∧ chunk ∈ pending s)
  page : ∀ n, (step s (.read (some n))).received = s.received ++ (pending s).take n
  whole : (step s (.read none)).received = s.received ++ pending s
  caughtUp : ∀ chunk ∈ s.transcript.chunks, since ≤ chunk.seq →
    chunk ∈ (step s (.read none)).received

structure SpillFaithful (config : Config) (s : State) : Prop where
  quiet : config.spill = none ∨ s.transcript.totalBytesAppended ≤ config.spillThresholdBytes →
    spilledText s = []
  isPrefix : (spilledText s).IsPrefix (appendedText s)
  capped : byteLength (spilledText s) ≤ config.spillMaxBytes
  longest : config.spill ≠ none →
    config.spillThresholdBytes < s.transcript.totalBytesAppended →
    ∀ text, text.IsPrefix (appendedText s) → byteLength text ≤ config.spillMaxBytes →
      text.IsPrefix (spilledText s)
  equal : config.spill ≠ none →
    config.spillThresholdBytes < s.transcript.totalBytesAppended →
    byteLength (appendedText s) ≤ config.spillMaxBytes → spilledText s = appendedText s

theorem truncate_eq_takeBytes (text : Text) (n : ℕ) :
    truncateToCharBoundary text n = takeBytes text n := by
  rw [truncateToCharBoundary]
  by_cases h : byteLength text ≤ n
  · rw [if_pos h, takeBytes_eq_self h]
  · rw [if_neg h, takeBytes_floorBoundary]

theorem finalText_eq (text : Text) (n : ℕ) :
    (if n < byteLength text then truncateToCharBoundary text n else text) =
      truncateToCharBoundary text n := by
  by_cases h : n < byteLength text
  · rw [if_pos h]
  · rw [if_neg h, truncateToCharBoundary, if_pos (by omega)]

/-- The chunks that make room are the first ones, and only as many as needed are dropped. -/
theorem evict_spec (n : ℕ) (chunks : List ExecOutputChunk) : ∀ t : Transcript,
    t.currentBytes = chunkBytes chunks → n ≤ t.maxBytes →
    ∃ k ≤ chunks.length,
      evict n chunks t = { t with
        chunks := chunks.drop k
        currentBytes := chunkBytes (chunks.drop k)
        droppedChunks := t.droppedChunks + k
        droppedBytes := t.droppedBytes + chunkBytes (chunks.take k) } ∧
      chunkBytes (chunks.drop k) + n ≤ t.maxBytes := by
  induction chunks with
  | nil =>
    intro t hcur hn
    refine ⟨0, Nat.le_refl 0, ?_, ?_⟩
    · rw [evict]
      simp only [drop_nil, take_nil, chunkBytes_nil, Nat.add_zero]
      rw [← chunkBytes_nil, ← hcur]
    · simpa using hn
  | cons c rest ih =>
    intro t hcur hn
    rw [evict]
    rw [chunkBytes_cons] at hcur
    by_cases hfull : t.maxBytes < t.currentBytes + n
    · rw [if_pos hfull]
      obtain ⟨k, hk, heq, hfits⟩ := ih
        { t with
          currentBytes := t.currentBytes - byteLength c.text
          droppedChunks := t.droppedChunks + 1
          droppedBytes := t.droppedBytes + byteLength c.text }
        (by simp only [hcur]; omega) hn
      refine ⟨k + 1, by simpa using hk, ?_, by simpa using hfits⟩
      rw [heq]
      simp only [drop_succ_cons, take_succ_cons, chunkBytes_cons]
      congr 1
      · omega
      · omega
    · rw [if_neg hfull]
      refine ⟨0, Nat.zero_le _, ?_, ?_⟩
      · simp only [drop_zero, take_zero, chunkBytes_cons, chunkBytes_nil, Nat.add_zero]
        rw [← hcur]
      · rw [drop_zero, chunkBytes_cons]
        omega

variable {t : Transcript}

theorem appendChunkToRing_spec (hcur : t.currentBytes = chunkBytes t.chunks)
    (stream : ExecOutputStream) {text : Text} (htext : text ≠ []) (nowMs : ℕ) :
    ∃ k ≤ t.chunks.length,
      appendChunkToRing t stream text nowMs =
        ({ t with
            nextSeq := t.nextSeq + 1
            totalBytesAppended := t.totalBytesAppended + byteLength text
            totalLinesAppended := t.totalLinesAppended + max (TextLines.lines text).length 1
            truncatedChunks := t.truncatedChunks + if t.maxBytes < byteLength text then 1 else 0
            droppedChunks := t.droppedChunks + k
            droppedBytes := t.droppedBytes + chunkBytes (t.chunks.take k)
            currentBytes := chunkBytes (t.chunks.drop k) +
              byteLength (truncateToCharBoundary text t.maxBytes)
            chunks := t.chunks.drop k ++ [⟨t.processId, t.nextSeq, stream,
              truncateToCharBoundary text t.maxBytes, nowMs⟩] },
          ⟨t.processId, t.nextSeq, stream, truncateToCharBoundary text t.maxBytes, nowMs⟩) ∧
      chunkBytes (t.chunks.drop k) + byteLength (truncateToCharBoundary text t.maxBytes) ≤
        t.maxBytes := by
  have hfits : byteLength (truncateToCharBoundary text t.maxBytes) ≤ t.maxBytes := by
    rw [truncate_eq_takeBytes]
    exact byteLength_takeBytes_le text t.maxBytes
  obtain ⟨k, hk, heq, hroom⟩ := evict_spec
    (byteLength (truncateToCharBoundary text t.maxBytes)) t.chunks
    { t with
      nextSeq := t.nextSeq + 1
      totalBytesAppended := t.totalBytesAppended + byteLength text
      totalLinesAppended := t.totalLinesAppended + max (TextLines.lines text).length 1
      truncatedChunks := t.truncatedChunks + if t.maxBytes < byteLength text then 1 else 0 }
    hcur hfits
  refine ⟨k, hk, ?_, hroom⟩
  rw [appendChunkToRing, if_neg htext, finalText_eq]
  simp only [heq]

structure Ring (maxBytes : ℕ) (t : Transcript) (appended : List Text)
    (emitted : List ExecOutputChunk) : Prop where
  size : t.maxBytes = maxBytes
  numbered : emitted.map ExecOutputChunk.seq = List.range t.nextSeq
  dropped : t.droppedChunks ≤ emitted.length
  kept : t.chunks = emitted.drop t.droppedChunks
  current : t.currentBytes = chunkBytes t.chunks
  bounded : t.currentBytes ≤ t.maxBytes
  droppedBytes : t.droppedBytes = chunkBytes (emitted.take t.droppedChunks)
  total : t.totalBytesAppended = byteLength appended.flatten
  accounted : t.totalBytesAppended = chunkBytes emitted + cutBytes t.maxBytes appended

theorem ring_start (config : Config) :
    Ring (normalizeMaxBytes config.maxBytes) (.new config) [] [] := by
  constructor
  · rfl
  · rfl
  · exact Nat.le_refl 0
  · rfl
  · rfl
  · exact Nat.zero_le _
  · rfl
  · rfl
  · rfl

theorem cutBytes_append (maxBytes : ℕ) (texts : List Text) (text : Text) :
    cutBytes maxBytes (texts ++ [text]) = cutBytes maxBytes texts +
      (byteLength text - byteLength (truncateToCharBoundary text maxBytes)) := by
  simp [cutBytes]

variable {emitted : List ExecOutputChunk} {appended : List Text} {maxBytes : ℕ}

theorem Ring.append (h : Ring maxBytes t appended emitted) (stream : ExecOutputStream) (text : Text)
    (nowMs : ℕ) : Ring maxBytes (appendChunkToRing t stream text nowMs).1 (appended ++ [text])
      (emitted ++ if text = [] then [] else [(appendChunkToRing t stream text nowMs).2]) := by
  by_cases htext : text = []
  · subst htext
    have hsame : (appendChunkToRing t stream [] nowMs).1 = t := by
      rw [appendChunkToRing, if_pos rfl]
    rw [hsame, if_pos rfl, append_nil]
    refine ⟨h.size, h.numbered, h.dropped, h.kept, h.current, h.bounded, h.droppedBytes, ?_, ?_⟩
    · rw [h.total, flatten_append, flatten_singleton, append_nil]
    · rw [h.accounted, cutBytes_append, byteLength_nil, Nat.zero_sub, Nat.add_zero]
  · obtain ⟨k, hk, heq, hroom⟩ := appendChunkToRing_spec h.current stream htext nowMs
    have hlen : k ≤ emitted.length - t.droppedChunks := by
      rw [h.kept, length_drop] at hk
      exact hk
    have hle := h.dropped
    have hcut : byteLength (truncateToCharBoundary text t.maxBytes) ≤ byteLength text := by
      rw [truncate_eq_takeBytes]
      obtain ⟨rest, hrest⟩ := takeBytes_isPrefix text t.maxBytes
      have hsum := congrArg byteLength hrest
      rw [byteLength_append] at hsum
      omega
    rw [heq, if_neg htext]
    constructor
    · exact h.size
    · rw [map_append, h.numbered, range_succ]
      rfl
    · simp only [length_append, length_singleton]
      omega
    · simp only
      rw [drop_append_of_le_length (by omega), ← drop_drop, ← h.kept]
    · simp
    · exact hroom
    · simp only
      rw [take_append_of_le_length (by omega), take_add, chunkBytes_append, ← h.kept,
        h.droppedBytes]
    · simp only
      rw [flatten_append, flatten_singleton, byteLength_append, h.total]
    · simp only [cutBytes_append, chunkBytes_append, chunkBytes_cons, chunkBytes_nil, h.accounted]
      omega

variable {c : ExecOutputChunk}

theorem getElem?_of_numbered {n : ℕ} (h : emitted.map ExecOutputChunk.seq = List.range n)
    (hc : c ∈ emitted) : emitted[c.seq]? = some c := by
  obtain ⟨i, hi, rfl⟩ := mem_iff_getElem.mp hc
  have hlen : i < (emitted.map ExecOutputChunk.seq).length := by rwa [length_map]
  have hseq : (emitted.map ExecOutputChunk.seq)[i] = i := by simp only [h, getElem_range]
  rw [getElem_map] at hseq
  rw [hseq, List.getElem?_eq_getElem hi]

theorem Ring.length_emitted (h : Ring maxBytes t appended emitted) :
    emitted.length = t.nextSeq := by
  have := congrArg List.length h.numbered
  rwa [length_map, length_range] at this

theorem Ring.seq_lt (h : Ring maxBytes t appended emitted) (hc : c ∈ emitted) :
    c.seq < t.nextSeq := by
  have hmem := mem_map_of_mem (f := ExecOutputChunk.seq) hc
  rw [h.numbered] at hmem
  exact mem_range.mp hmem

theorem Ring.mem_chunks_iff (h : Ring maxBytes t appended emitted) :
    c ∈ t.chunks ↔ c ∈ emitted ∧ t.droppedChunks ≤ c.seq := by
  rw [h.kept]
  constructor
  · intro hc
    have hmem := mem_of_mem_drop hc
    refine ⟨hmem, ?_⟩
    obtain ⟨i, hi⟩ := mem_iff_getElem?.mp hc
    rw [List.getElem?_drop] at hi
    have hseq := congrArg (Option.map ExecOutputChunk.seq) hi
    rw [← List.getElem?_map, h.numbered, Option.map_some] at hseq
    obtain ⟨hlt, hval⟩ := List.getElem?_eq_some_iff.mp hseq
    rw [getElem_range] at hval
    omega
  · rintro ⟨hc, hle⟩
    have hget := getElem?_of_numbered h.numbered hc
    apply mem_iff_getElem?.mpr
    refine ⟨c.seq - t.droppedChunks, ?_⟩
    rw [List.getElem?_drop, Nat.add_sub_cancel' hle, hget]

theorem Ring.increasing (h : Ring maxBytes t appended emitted) :
    t.chunks.Pairwise fun a b => a.seq < b.seq := by
  have hall : (emitted.map ExecOutputChunk.seq).Pairwise (· < ·) := by
    rw [h.numbered]
    exact pairwise_lt_range
  rw [h.kept]
  exact (pairwise_map.mp hall).sublist (drop_sublist _ _)

theorem Ring.contiguous (h : Ring maxBytes t appended emitted) :
    t.chunks.map ExecOutputChunk.seq = List.range' t.droppedChunks t.chunks.length ∧
      t.droppedChunks + t.chunks.length = t.nextSeq := by
  have hlen := h.length_emitted
  have hle := h.dropped
  have hcount : t.chunks.length = t.nextSeq - t.droppedChunks := by
    rw [h.kept, length_drop, hlen]
  refine ⟨?_, by omega⟩
  rw [hcount, h.kept, map_drop, h.numbered, range_eq_range', drop_range']
  simp

structure Reader (since : ℕ) (s : State) : Prop where
  inOrder : s.received.Pairwise fun a b => a.seq < b.seq
  genuine : ∀ c ∈ s.received, c ∈ s.emitted ∧ since ≤ c.seq ∧ c.seq < s.since
  gap : ∀ c ∈ s.emitted, since ≤ c.seq → c.seq < s.since →
    c ∈ s.received ∨ c.seq < s.transcript.droppedChunks
  forward : since ≤ s.since
  behind : s.since ≤ max since s.transcript.nextSeq

theorem mem_readSince {n : ℕ} : c ∈ readSince t n ↔ c ∈ t.chunks ∧ n ≤ c.seq := by
  rw [readSince, mem_filter, decide_eq_true_eq]

theorem limited_prefix (limit : Option ℕ) (chunks : List ExecOutputChunk) :
    (limited limit chunks).IsPrefix chunks := by
  cases limit with
  | none => exact prefix_rfl
  | some n => exact take_prefix n chunks

theorem mem_page_iff {offered page : List ExecOutputChunk} {place : ℕ}
    (hsort : offered.Pairwise fun a b => a.seq < b.seq) (hpage : page.IsPrefix offered)
    (hplace : ∀ c ∈ offered, place ≤ c.seq) (hc : c ∈ offered) :
    c ∈ page ↔ c.seq < (page.getLast?.map fun chunk => chunk.seq + 1).getD place := by
  obtain ⟨rest, rfl⟩ := hpage
  obtain ⟨hin, -, hacross⟩ := pairwise_append.mp hsort
  rcases eq_nil_or_concat page with rfl | ⟨front, last, rfl⟩
  · have := hplace c hc
    simp only [not_mem_nil, List.getLast?_nil, Option.map_none, Option.getD_none, false_iff]
    omega
  · rw [concat_eq_append] at *
    rw [List.getLast?_append_of_ne_nil _ (cons_ne_nil _ _), List.getLast?_singleton,
      Option.map_some, Option.getD_some, Nat.lt_succ_iff]
    constructor
    · intro hmem
      rcases mem_append.mp hmem with hfront | hlast
      · exact le_of_lt ((pairwise_append.mp hin).2.2 c hfront last mem_cons_self)
      · rw [mem_singleton.mp hlast]
    · intro hle
      rcases mem_append.mp hc with hmem | hrest
      · exact hmem
      · have := hacross last (mem_append_right _ mem_cons_self) c hrest
        omega

variable {s : State} {since : ℕ}

theorem Reader.read (h : Reader since s) (hring : Ring maxBytes s.transcript s.appended s.emitted)
    (limit : Option ℕ) : Reader since (step s (.read limit)) := by
  have hsort : (readSince s.transcript s.since).Pairwise fun a b => a.seq < b.seq :=
    hring.increasing.sublist filter_sublist
  have hplace : ∀ c ∈ readSince s.transcript s.since, s.since ≤ c.seq :=
    fun c hc => (mem_readSince.mp hc).2
  have hpage := limited_prefix limit (readSince s.transcript s.since)
  have hiff := fun c hc => mem_page_iff hsort hpage hplace (c := c) hc
  have hmove : s.since ≤ (step s (.read limit)).since := by
    simp only [step, ExecTranscript.read]
    cases hlast : (limited limit (readSince s.transcript s.since)).getLast? with
    | none => exact Nat.le_refl _
    | some c =>
      have := hplace c (hpage.subset (List.mem_of_getLast? hlast))
      simp only [Option.map_some, Option.getD_some]
      omega
  constructor
  · refine pairwise_append.mpr ⟨h.inOrder, hsort.sublist hpage.sublist, ?_⟩
    intro a ha b hb
    have h1 := (h.genuine a ha).2.2
    have h2 := hplace b (hpage.subset hb)
    omega
  · intro c hc
    rcases mem_append.mp hc with hc | hc
    · obtain ⟨h1, h2, h3⟩ := h.genuine c hc
      exact ⟨h1, h2, lt_of_lt_of_le h3 hmove⟩
    · have hoffered := hpage.subset hc
      obtain ⟨hkept, hle⟩ := mem_readSince.mp hoffered
      exact ⟨(hring.mem_chunks_iff.mp hkept).1, le_trans h.forward hle, (hiff c hoffered).mp hc⟩
  · intro c hc hfrom hbef
    by_cases hold : c.seq < s.since
    · rcases h.gap c hc hfrom hold with hmem | hdrop
      · exact Or.inl (mem_append_left _ hmem)
      · exact Or.inr hdrop
    · by_cases hdrop : c.seq < s.transcript.droppedChunks
      · exact Or.inr hdrop
      · -- It was offered, and the page reaches beyond it.
        have hoffered : c ∈ readSince s.transcript s.since :=
          mem_readSince.mpr ⟨hring.mem_chunks_iff.mpr ⟨hc, by omega⟩, by omega⟩
        exact Or.inl (mem_append_right _ ((hiff c hoffered).mpr hbef))
  · exact le_trans h.forward hmove
  · simp only [step, ExecTranscript.read]
    cases hlast : (limited limit (readSince s.transcript s.since)).getLast? with
    | none => exact h.behind
    | some c =>
      have hkept := (mem_readSince.mp (hpage.subset (List.mem_of_getLast? hlast))).1
      have := hring.seq_lt (hring.mem_chunks_iff.mp hkept).1
      simp only [Option.map_some, Option.getD_some]
      omega

theorem Reader.delivered (h : Reader since s)
    (hring : Ring maxBytes s.transcript s.appended s.emitted) : Delivered since s := by
  have hretained : ∀ c ∈ s.transcript.chunks, since ≤ c.seq →
      (c ∈ s.received ∧ c ∉ pending s) ∨ (c ∉ s.received ∧ c ∈ pending s) := by
    intro c hc hfrom
    obtain ⟨hemitted, hkept⟩ := hring.mem_chunks_iff.mp hc
    by_cases hbef : c.seq < s.since
    · refine .inl ⟨(h.gap c hemitted hfrom hbef).resolve_right (by omega), fun hpending => ?_⟩
      have := (mem_readSince.mp hpending).2
      omega
    · refine .inr ⟨fun hrecv => hbef (h.genuine c hrecv).2.2, ?_⟩
      exact mem_readSince.mpr ⟨hc, by omega⟩
  refine ⟨h.inOrder, h.genuine, h.gap, hretained, fun _ => rfl, rfl, fun c hc hfrom => ?_⟩
  rcases hretained c hc hfrom with ⟨hmem, -⟩ | ⟨-, hmem⟩
  · exact mem_append_left _ hmem
  · exact mem_append_right _ hmem

structure Spill (config : Config) (t : Transcript) (whole spilled : Text) : Prop where
  target : t.spill = config.spill
  threshold : t.spillThresholdBytes = config.spillThresholdBytes
  cap : t.spillMaxBytes = config.spillMaxBytes
  off : config.spill = none → t.spillStarted = false
  waiting : t.spillStarted = false → spilled = [] ∧ t.spillTruncated = false ∧
    (config.spill ≠ none → t.preSpillBuffer = whole ∧
      byteLength whole ≤ config.spillThresholdBytes)
  started : t.spillStarted = true → spilled = takeBytes whole config.spillMaxBytes ∧
    t.spillBytes = byteLength spilled ∧
    (t.spillTruncated = true ↔ config.spillMaxBytes < byteLength whole) ∧
    config.spillThresholdBytes < byteLength whole

theorem spill_start (config : Config) : Spill config (.new config) [] [] := by
  refine ⟨rfl, rfl, rfl, fun _ => rfl, fun _ => ⟨rfl, rfl, fun _ => ⟨rfl, Nat.zero_le _⟩⟩, ?_⟩
  intro h
  cases h

variable {config : Config} {spilled whole : Text}

theorem Spill.continues (h : Spill config t whole spilled) {target : SpillTarget} {text : Text}
    (htext : text ≠ []) (hsome : config.spill ≠ none) (hstart : t.spillStarted = true)
    (hroom : ¬ t.spillTruncated = true) :
    Spill config (continueSpill t target text).1 (whole ++ text)
      (spilled ++ ((continueSpill t target text).2.map SpillAppend.text).getD []) := by
  obtain ⟨hspilled, hbytes, htruncated, hthreshold⟩ := h.started hstart
  have hwhole : byteLength whole ≤ config.spillMaxBytes := by
    by_contra hlt
    exact hroom (htruncated.mpr (by omega))
  have hpos := byteLength_pos htext
  rw [takeBytes_eq_self hwhole] at hspilled
  subst hspilled
  rw [continueSpill, h.cap, hbytes, truncate_eq_takeBytes]
  by_cases hremaining : config.spillMaxBytes - byteLength spilled = 0
  · rw [if_pos hremaining]
    refine ⟨h.target, h.threshold, rfl, fun hn => absurd hn hsome,
      fun hf => absurd hstart (by simpa using hf), fun _ => ⟨?_, ?_, ?_, ?_⟩⟩
    · rw [takeBytes_append, if_pos hwhole, hremaining, takeBytes_zero]
      rfl
    · simp
    · simp only [byteLength_append, true_iff]
      omega
    · rw [byteLength_append]
      omega
  · rw [if_neg hremaining]
    refine ⟨h.target, h.threshold, rfl, fun hn => absurd hn hsome,
      fun hf => absurd hstart (by simpa using hf), fun _ => ⟨?_, ?_, ?_, ?_⟩⟩
    · rw [takeBytes_append, if_pos hwhole]
      rfl
    · simp
    · simp only [Bool.eq_false_iff.mpr hroom, Bool.false_or, decide_eq_true_eq,
        byteLength_takeBytes_lt_iff, byteLength_append]
      omega
    · rw [byteLength_append]
      omega

theorem Spill.prepare (h : Spill config t whole spilled)
    (htotal : t.totalBytesAppended = byteLength whole) (text : Text) :
    Spill config (prepareSpillAppend t text).1 (whole ++ text)
      (spilled ++ ((prepareSpillAppend t text).2.map SpillAppend.text).getD []) := by
  rw [prepareSpillAppend]
  by_cases htext : text = []
  · rw [if_pos (Or.inl htext), htext]
    simpa using h
  by_cases htruncated : t.spillTruncated = true
  · -- The cap was reached before: what fits is already there.
    rw [if_pos (Or.inr htruncated)]
    have hstart : t.spillStarted = true := by
      by_contra hf
      rw [(h.waiting (Bool.eq_false_iff.mpr hf)).2.1] at htruncated
      cases htruncated
    obtain ⟨hspilled, hbytes, hiff, hthreshold⟩ := h.started hstart
    have hlt := hiff.mp htruncated
    refine ⟨h.target, h.threshold, h.cap, h.off, fun hf => absurd hstart (by simpa using hf),
      fun _ => ⟨?_, ?_, ?_, ?_⟩⟩
    · rw [takeBytes_append, if_neg (by omega), ← hspilled]
      exact append_nil _
    · simpa using hbytes
    · simp only [htruncated, byteLength_append, true_iff]
      omega
    · rw [byteLength_append]
      omega
  rw [if_neg (not_or.mpr ⟨htext, htruncated⟩)]
  cases htgt : t.spill with
  | none =>
    have hnone : config.spill = none := h.target.symm.trans htgt
    have hoff := h.off hnone
    obtain ⟨hspilled, hopen, -⟩ := h.waiting hoff
    refine ⟨h.target, h.threshold, h.cap, h.off, fun _ => ⟨?_, hopen, fun hs => absurd hnone hs⟩,
      fun hs => absurd hs (by simp [hoff])⟩
    simp [hspilled]
  | some target =>
    have hsome : config.spill ≠ none := by
      rw [← h.target, htgt]
      exact Option.some_ne_none target
    dsimp only
    rw [spillText]
    by_cases hstart : t.spillStarted = true
    · rw [if_pos hstart]
      exact h.continues htext hsome hstart htruncated
    rw [if_neg hstart]
    obtain ⟨rfl, hopen, hbuffer⟩ := h.waiting (Bool.eq_false_iff.mpr hstart)
    obtain ⟨rfl, hle⟩ := hbuffer hsome
    by_cases hbelow : t.totalBytesAppended + byteLength text ≤ t.spillThresholdBytes
    · rw [if_pos hbelow]
      refine ⟨h.target, h.threshold, h.cap, h.off, fun _ => ⟨rfl, hopen, fun _ => ⟨rfl, ?_⟩⟩,
        fun hs => absurd hs hstart⟩
      rw [byteLength_append]
      have := h.threshold
      omega
    · rw [if_neg hbelow, startSpill, h.cap, truncate_eq_takeBytes]
      refine ⟨h.target, h.threshold, rfl, fun hn => absurd hn hsome, fun hf => (by cases hf),
        fun _ => ⟨rfl, rfl, ?_, ?_⟩⟩
      · simp only [decide_eq_true_eq, byteLength_takeBytes_lt_iff]
      · rw [byteLength_append]
        have := h.threshold
        omega

theorem prepare_frame (t : Transcript) (text : Text) :
    (prepareSpillAppend t text).1 = { t with
      preSpillBuffer := (prepareSpillAppend t text).1.preSpillBuffer
      spillStarted := (prepareSpillAppend t text).1.spillStarted
      spillBytes := (prepareSpillAppend t text).1.spillBytes
      spillTruncated := (prepareSpillAppend t text).1.spillTruncated } := by
  rw [prepareSpillAppend]
  by_cases hskip : text = [] ∨ t.spillTruncated = true
  · rw [if_pos hskip]
  rw [if_neg hskip]
  split
  · rfl
  next target _ =>
    rw [spillText]
    by_cases hstart : t.spillStarted = true
    · simp only [if_pos hstart, continueSpill]
      by_cases hremaining : t.spillMaxBytes - t.spillBytes = 0
      · rw [if_pos hremaining]
      · rw [if_neg hremaining]
    · simp only [if_neg hstart]
      by_cases hbelow : t.totalBytesAppended + byteLength text ≤ t.spillThresholdBytes
      · simp only [if_pos hbelow]
      · simp only [if_neg hbelow, startSpill]

theorem Ring.prepare (h : Ring maxBytes t appended emitted) (text : Text) :
    Ring maxBytes (prepareSpillAppend t text).1 appended emitted := by
  rw [prepare_frame]
  exact ⟨h.size, h.numbered, h.dropped, h.kept, h.current, h.bounded, h.droppedBytes, h.total,
    h.accounted⟩

theorem Spill.ring (h : Spill config t whole spilled) (hcur : t.currentBytes = chunkBytes t.chunks)
    (stream : ExecOutputStream) (text : Text) (nowMs : ℕ) :
    Spill config (appendChunkToRing t stream text nowMs).1 whole spilled := by
  by_cases htext : text = []
  · rw [appendChunkToRing, if_pos htext]
    exact h
  · obtain ⟨k, -, heq, -⟩ := appendChunkToRing_spec hcur stream htext nowMs
    rw [heq]
    exact ⟨h.target, h.threshold, h.cap, h.off, h.waiting, h.started⟩

theorem Spill.faithful (h : Spill config s.transcript (appendedText s) (spilledText s))
    (htotal : s.transcript.totalBytesAppended = byteLength (appendedText s)) :
    SpillFaithful config s := by
  have hbegun : config.spill ≠ none →
      config.spillThresholdBytes < s.transcript.totalBytesAppended →
      spilledText s = takeBytes (appendedText s) config.spillMaxBytes := by
    intro hsome hover
    by_cases hstart : s.transcript.spillStarted = true
    · exact (h.started hstart).1
    · have := ((h.waiting (Bool.eq_false_iff.mpr hstart)).2.2 hsome).2
      omega
  have hquiet : config.spill = none ∨
      s.transcript.totalBytesAppended ≤ config.spillThresholdBytes → spilledText s = [] := by
    intro hor
    by_cases hstart : s.transcript.spillStarted = true
    · have hover := (h.started hstart).2.2.2
      rcases hor with hnone | hle
      · rw [h.off hnone] at hstart
        cases hstart
      · omega
    · exact (h.waiting (Bool.eq_false_iff.mpr hstart)).1
  have hpre : (spilledText s).IsPrefix (appendedText s) ∧
      byteLength (spilledText s) ≤ config.spillMaxBytes := by
    by_cases hstart : s.transcript.spillStarted = true
    · rw [(h.started hstart).1]
      exact ⟨takeBytes_isPrefix _ _, byteLength_takeBytes_le _ _⟩
    · rw [(h.waiting (Bool.eq_false_iff.mpr hstart)).1]
      exact ⟨ nil_prefix, Nat.zero_le _⟩
  refine ⟨hquiet, hpre.1, hpre.2, fun hsome hover text htext hfits => ?_,
    fun hsome hover hfits => ?_⟩
  · rw [hbegun hsome hover]
    exact takeBytes_of_isPrefix htext hfits
  · rw [hbegun hsome hover, takeBytes_eq_self hfits]

structure Invariant (config : Config) (since : ℕ) (s : State) : Prop where
  ring : Ring (normalizeMaxBytes config.maxBytes) s.transcript s.appended s.emitted
  reader : Reader since s
  spill : Spill config s.transcript (appendedText s) (spilledText s)

theorem invariant_start (config : Config) (since : ℕ) :
    Invariant config since (start config since) := by
  refine ⟨ring_start config, ⟨List.Pairwise.nil, ?_, ?_, Nat.le_refl _, Nat.le_max_left _ _⟩,
    spill_start config⟩
  · exact fun c hc => absurd hc not_mem_nil
  · exact fun c hc => absurd hc not_mem_nil

/-- The transcript only moves forward under an appended text. -/
theorem Reader.append (h : Reader since s) (hring : Ring maxBytes s.transcript s.appended s.emitted)
    (stream : ExecOutputStream) (text : Text) (nowMs : ℕ) :
    Reader since (step s (.append stream text nowMs)) := by
  have hprepared := hring.prepare text
  have hseq : (prepareSpillAppend s.transcript text).1.nextSeq = s.transcript.nextSeq := by
    rw [prepare_frame]
  have hdrop : (prepareSpillAppend s.transcript text).1.droppedChunks =
      s.transcript.droppedChunks := by
    rw [prepare_frame]
  by_cases htext : text = []
  · have hsame : step s (.append stream text nowMs) =
        { s with
          transcript := (prepareSpillAppend s.transcript text).1
          appended := s.appended ++ [text]
          spilledTexts := (step s (.append stream text nowMs)).spilledTexts } := by
      simp [step, appendChunk, appendChunkToRing, htext]
    rw [hsame]
    refine ⟨h.inOrder, h.genuine, fun c hc h1 h2 => ?_, h.forward, ?_⟩
    · rw [hdrop]
      exact h.gap c hc h1 h2
    · rw [hseq]
      exact h.behind
  · obtain ⟨k, -, heq, -⟩ := appendChunkToRing_spec hprepared.current stream htext nowMs
    have hstep : step s (.append stream text nowMs) = { s with
        transcript := (appendChunkToRing (prepareSpillAppend s.transcript text).1 stream text
          nowMs).1
        appended := s.appended ++ [text]
        emitted := s.emitted ++ [(appendChunkToRing (prepareSpillAppend s.transcript text).1 stream
          text nowMs).2]
        spilledTexts := (step s (.append stream text nowMs)).spilledTexts } := by
      simp [step, appendChunk, htext]
    rw [hstep, heq]
    refine ⟨h.inOrder, fun c hc => ?_, fun c hc h1 h2 => ?_, h.forward, ?_⟩
    · obtain ⟨hmem, hrest⟩ := h.genuine c hc
      exact ⟨mem_append_left _ hmem, hrest⟩
    · simp only at hc h1 h2 ⊢
      have hbehind := h.behind
      rcases mem_append.mp hc with hc | hc
      · rw [hdrop]
        refine (h.gap c hc h1 h2).imp (fun hm => hm) fun hlt => ?_
        omega
      · -- The new chunk stands at the end, which the reader has not passed.
        rw [mem_singleton.mp hc] at h1 h2
        simp only [hseq] at h1 h2
        omega
    · simp only
      have := h.behind
      omega

theorem invariant_step (h : Invariant config since s) (op : Op) :
    Invariant config since (step s op) := by
  cases op with
  | append stream text nowMs =>
    have hprepared := h.ring.prepare text
    refine ⟨hprepared.append stream text nowMs, h.reader.append h.ring stream text nowMs, ?_⟩
    have hspill := (h.spill.prepare h.ring.total text).ring hprepared.current stream text nowMs
    have happended : appendedText (step s (.append stream text nowMs)) = appendedText s ++ text := by
      simp [appendedText, step]
    have hspilled : spilledText (step s (.append stream text nowMs)) = spilledText s ++
        ((prepareSpillAppend s.transcript text).2.map SpillAppend.text).getD [] := by
      simp only [spilledText, step, appendChunk, flatten_append]
      cases (prepareSpillAppend s.transcript text).2 <;> simp
    rw [happended, hspilled]
    exact hspill
  | spilled result =>
    have hring : Ring (normalizeMaxBytes config.maxBytes) (recordSpillResult s.transcript result)
        s.appended s.emitted := by
      cases result with
      | ok path => exact ⟨h.ring.size, h.ring.numbered, h.ring.dropped, h.ring.kept,
          h.ring.current, h.ring.bounded, h.ring.droppedBytes, h.ring.total, h.ring.accounted⟩
      | error e => exact ⟨h.ring.size, h.ring.numbered, h.ring.dropped, h.ring.kept,
          h.ring.current, h.ring.bounded, h.ring.droppedBytes, h.ring.total, h.ring.accounted⟩
    refine ⟨hring, ?_, ?_⟩
    · cases result with
      | ok path => exact ⟨h.reader.inOrder, h.reader.genuine, h.reader.gap, h.reader.forward,
          h.reader.behind⟩
      | error e => exact ⟨h.reader.inOrder, h.reader.genuine, h.reader.gap, h.reader.forward,
          h.reader.behind⟩
    · cases result with
      | ok path => exact ⟨h.spill.target, h.spill.threshold, h.spill.cap, h.spill.off,
          h.spill.waiting, h.spill.started⟩
      | error e => exact ⟨h.spill.target, h.spill.threshold, h.spill.cap, h.spill.off,
          h.spill.waiting, h.spill.started⟩
  | read limit => exact ⟨h.ring, h.reader.read h.ring limit, h.spill⟩

theorem invariant_run (config : Config) (since : ℕ) (ops : List Op) :
    Invariant config since (run config since ops) := by
  have hfold : ∀ (ops : List Op) (s : State), Invariant config since s →
      Invariant config since (ops.foldl step s) := by
    intro ops
    induction ops with
    | nil => exact fun s h => h
    | cons op ops ih => exact fun s h => ih _ (invariant_step h op)
  exact hfold ops _ (invariant_start config since)

/-- Every byte is accounted for, the retained numbers have no gap, the reader misses what was
dropped only, and the spilled text is the output up to the cap. -/
theorem nothing_lost_silently (config : Config) (since : ℕ) (ops : List Op) :
    BytesAccounted config (run config since ops) ∧ Contiguous (run config since ops) ∧
      Delivered since (run config since ops) ∧ SpillFaithful config (run config since ops) := by
  obtain ⟨hring, hreader, hspill⟩ := invariant_run config since ops
  refine ⟨⟨hring.current, ?_, hring.total, ?_⟩, ⟨hring.contiguous.1, hring.contiguous.2,
    fun c hc => (hring.mem_chunks_iff.mp hc).1⟩, hreader.delivered hring,
    hspill.faithful hring.total⟩
  · rw [← hring.size]
    exact hring.bounded
  · have hsplit : chunkBytes (run config since ops).emitted =
        (run config since ops).transcript.droppedBytes +
          (run config since ops).transcript.currentBytes := by
      rw [hring.current, hring.droppedBytes, hring.kept, ← chunkBytes_append,
        take_append_drop]
    rw [hring.accounted, hsplit, hring.size]
    omega

end TranscriptSafety
