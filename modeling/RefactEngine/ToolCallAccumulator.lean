import Mathlib.Data.List.Sort
import RefactEngine.JsonValues
import RefactEngine.TextCodes

/-! # Streamed tool calls

The deltas of a stream build up the tool calls of an answer, each at the index that the delta names.
-/
namespace ToolCallAccumulator

open JsonValues List

def maxToolCalls : ℕ := 128

structure ToolCallEntry (F : Type) where
  id : Option String
  toolType : Option String
  name : String
  arguments : String
  index : ℕ
  initialized : Bool
  extraContent : Option (Json F)

variable {F : Type}

def placeholder (index : ℕ) : ToolCallEntry F := ⟨none, none, "", "", index, false, none⟩

variable (tc : Json F)

def field (key : String) : Option String := (tc.get key).bind Json.asStr

def ofFunction (key : String) : Option (Json F) :=
  (tc.get "function").bind (Json.get · key)

def parseU64 (text : String) : Option ℕ :=
  let digits := if text.toList.head? = some '+' then text.toList.tail else text.toList
  if digits ≠ [] ∧ digits.all Char.isDigit then
    some (digits.foldl (fun n c => 10 * n + (c.toNat - 48)) 0) |>.filter (· < 2 ^ 64)
  else none

def readIndex : ℕ :=
  ((tc.get "index").bind fun i => i.asU64.or (i.asStr.bind parseU64)).getD 0

def writeId (entry : ToolCallEntry F) : ToolCallEntry F :=
  match field tc "id" with
  | none => entry
  | some id => if id = "" then entry else { entry with id := some id, initialized := true }

def writeType (entry : ToolCallEntry F) : ToolCallEntry F :=
  match field tc "type" with
  | none => entry
  | some t => { entry with toolType := some t, initialized := true }

def writeName (entry : ToolCallEntry F) : ToolCallEntry F :=
  match (ofFunction tc "name").bind Json.asStr with
  | none => entry
  | some name => if name = "" then entry else { entry with name := name, initialized := true }

def writeExtra (entry : ToolCallEntry F) : ToolCallEntry F :=
  match tc.get "extra_content" with
  | none => entry
  | some .null => entry
  | some extra => { entry with extraContent := some extra, initialized := true }

variable (print : Json F → String)

def argumentsText : Json F → String
  | .str text => text
  | value => print value

def appendArguments (tc : Json F) (entry : ToolCallEntry F) :
    ToolCallEntry F :=
  match ofFunction tc "arguments" with
  | none => entry
  | some .null => entry
  | some arguments =>
    if argumentsText print arguments = "" then entry
    else { entry with
      arguments := entry.arguments ++ argumentsText print arguments, initialized := true }

def replaceArguments (tc : Json F) (entry : ToolCallEntry F) :
    ToolCallEntry F :=
  match ofFunction tc "arguments" with
  | none => entry
  | some .null => entry
  | some arguments =>
    { entry with arguments := argumentsText print arguments, initialized := true }

def mergeEntry (tc : Json F) (entry : ToolCallEntry F) :
    ToolCallEntry F :=
  writeExtra tc (appendArguments print tc (writeName tc (writeType tc (writeId tc entry))))

def finalEntry (tc : Json F) (entry : ToolCallEntry F) :
    ToolCallEntry F :=
  writeExtra tc (replaceArguments print tc (writeName tc (writeType tc (writeId tc entry))))

variable (entries : List (ToolCallEntry F))

def grow (index : ℕ) : List (ToolCallEntry F) :=
  entries ++ (List.range' entries.length (index + 1 - entries.length)).map placeholder

def update (index : ℕ)
    (write : ToolCallEntry F → ToolCallEntry F) : List (ToolCallEntry F) :=
  if maxToolCalls ≤ index then entries else (grow entries index).modify index write

def isHidden : Bool :=
  decide (field tc "role" ∈ [some "event", some "plan", some "goal"])

def merge (tc : Json F) :
    List (ToolCallEntry F) :=
  if isHidden tc then entries else update entries (readIndex tc) (mergeEntry print tc)

def setFinal (tc : Json F) :
    List (ToolCallEntry F) := update entries (readIndex tc) (finalEntry print tc)

def pendingId (index : ℕ) : String := "pending_call_" ++ toString index

def ToolCallEntry.json (entry : ToolCallEntry F) : Json F :=
  .obj ([("id", .str (entry.id.getD (pendingId entry.index))),
    ("type", .str (entry.toolType.getD "function")), ("index", .nat entry.index),
    ("function", .obj [("name", .str entry.name), ("arguments", .str entry.arguments)])] ++
    (entry.extraContent.map fun extra => ("extra_content", extra)).toList)

def ToolCallEntry.isShown (entry : ToolCallEntry F) : Bool :=
  entry.initialized && entry.name ≠ ""

def finalize : List (Json F) :=
  (entries.filter ToolCallEntry.isShown).map ToolCallEntry.json

structure ToolCall where
  id : Option String
  type : String
  name : String
  arguments : String
  index : ℕ
  deriving DecidableEq

variable (call : ToolCall)

def ToolCall.realId : Option String := call.id.filter (· ≠ "")

def ToolCall.entry : ToolCallEntry F :=
  ⟨call.realId, some call.type, call.name, call.arguments, call.index, true, none⟩

def ToolCall.finalId : String := call.realId.getD (pendingId call.index)

structure IsDelta (call : ToolCall) (piece : String) (tc : Json F) : Prop where
  role : tc.get "role" = none
  index : tc.get "index" = some (.nat call.index)
  id : tc.get "id" = none ∨ tc.get "id" = call.id.map .str
  type : tc.get "type" = none ∨ tc.get "type" = some (.str call.type)
  name : ofFunction tc "name" = none ∨ ofFunction tc "name" = some (.str call.name)
  arguments : ofFunction tc "arguments" = none ∧ piece = "" ∨
    ofFunction tc "arguments" = some (.str piece)
  extra : tc.get "extra_content" = none

structure Delta (F : Type) where
  call : ToolCall
  piece : String
  value : Json F
  isDelta : IsDelta call piece value

structure Final (F : Type) where
  call : ToolCall
  value : Json F
  isDelta : IsDelta call call.arguments value
  arguments : ofFunction value "arguments" = some (.str call.arguments)

structure Streamable (calls : List ToolCall) : Prop where
  indices : (calls.map (·.index)).Nodup
  bound : ∀ call ∈ calls, call.index < maxToolCalls
  name : ∀ call ∈ calls, call.name ≠ ""

/-- The deltas of each call are its pieces, in their order, wherever those of others stand. -/
structure Streams (calls : List ToolCall) (deltas : List (Delta F)) : Prop where
  known : ∀ d ∈ deltas, d.call ∈ calls
  pieces : ∀ call ∈ calls,
    String.join ((deltas.filter (·.call = call)).map (·.piece)) = call.arguments
  id : ∀ call ∈ calls, call.id.isSome →
    ∃ d ∈ deltas, d.call = call ∧ (d.value.get "id").isSome
  type : ∀ call ∈ calls, ∃ d ∈ deltas, d.call = call ∧ (d.value.get "type").isSome
  name : ∀ call ∈ calls, ∃ d ∈ deltas, d.call = call ∧ (ofFunction d.value "name").isSome

def merged (deltas : List (Delta F)) : List (ToolCallEntry F) :=
  deltas.foldl (fun entries d => merge print entries d.value) []

def finished (deltas : List (Delta F)) (finals : List (Final F)) :
    List (ToolCallEntry F) :=
  finals.foldl (fun entries final => setFinal print entries final.value) (merged print deltas)

def inOrder (calls : List ToolCall) : List ToolCall :=
  calls.insertionSort fun a b => a.index ≤ b.index

structure Reassembled (print : Json F → String) (calls : List ToolCall)
    (deltas : List (Delta F)) : Prop where
  whole : finalize (merged print deltas) = (inOrder calls).map fun call => call.entry.json
  stable : ∀ finals : List (Final F), (∀ final ∈ finals, final.call ∈ calls) →
    finalize (finished print deltas finals) = finalize (merged print deltas)
  distinct : (calls.filterMap (·.id)).Nodup →
    ((finalize (merged print deltas)).map fun tc => field tc "id").Nodup

variable {print : Json F → String} {call : ToolCall} {piece : String} {tc : Json F}

theorem argumentsText_str (text : String) : argumentsText print (.str text) = text := rfl

theorem mergeEntry_delta (h : IsDelta call piece tc) (hname : call.name ≠ "")
    (entry : ToolCallEntry F) : mergeEntry print tc entry =
      { entry with
        id := if (tc.get "id").isSome then call.realId.or entry.id else entry.id
        toolType := if (tc.get "type").isSome then some call.type else entry.toolType
        name := if (ofFunction tc "name").isSome then call.name else entry.name
        arguments := entry.arguments ++ piece
        initialized := entry.initialized || ((tc.get "id").isSome && call.realId.isSome) ||
          (tc.get "type").isSome || (ofFunction tc "name").isSome || decide (piece ≠ "") } := by
  have hid : writeId tc entry =
      { entry with
        id := if (tc.get "id").isSome then call.realId.or entry.id else entry.id
        initialized := entry.initialized || ((tc.get "id").isSome && call.realId.isSome) } := by
    rcases h.id with hnone | hsome
    · simp [writeId, field, hnone]
    · cases hcall : call.id with
      | none => simp [writeId, field, hsome, hcall]
      | some id =>
        by_cases hblank : id = ""
        · simp [writeId, field, hsome, hcall, Json.asStr, ToolCall.realId, Option.filter_some, hblank]
        · simp [writeId, field, hsome, hcall, Json.asStr, ToolCall.realId, Option.filter_some, hblank]
  have htype : ∀ e : ToolCallEntry F, writeType tc e =
      { e with
        toolType := if (tc.get "type").isSome then some call.type else e.toolType
        initialized := e.initialized || (tc.get "type").isSome } := by
    intro e
    rcases h.type with hnone | hsome
    · simp [writeType, field, hnone]
    · simp [writeType, field, hsome, Json.asStr]
  have hnamed : ∀ e : ToolCallEntry F, writeName tc e =
      { e with
        name := if (ofFunction tc "name").isSome then call.name else e.name
        initialized := e.initialized || (ofFunction tc "name").isSome } := by
    intro e
    rcases h.name with hnone | hsome
    · simp [writeName, hnone]
    · simp [writeName, hsome, Json.asStr, hname]
  have harguments : ∀ e : ToolCallEntry F, appendArguments print tc e =
      { e with
        arguments := e.arguments ++ piece
        initialized := e.initialized || decide (piece ≠ "") } := by
    intro e
    rcases h.arguments with ⟨hnone, rfl⟩ | hsome
    · simp [appendArguments, hnone]
    · by_cases hempty : piece = ""
      · simp [appendArguments, hsome, argumentsText_str, hempty]
      · simp [appendArguments, hsome, argumentsText_str, hempty]
  rw [mergeEntry, hid, htype, hnamed, harguments, writeExtra, h.extra]

theorem finalEntry_entry (h : IsDelta call call.arguments tc)
    (harguments : ofFunction tc "arguments" = some (.str call.arguments)) :
    finalEntry print tc call.entry = call.entry := by
  have hid : writeId tc (call.entry : ToolCallEntry F) = call.entry := by
    rcases h.id with hnone | hsome
    · simp [writeId, field, hnone]
    · cases hcall : call.id with
      | none => simp [writeId, field, hsome, hcall]
      | some id =>
        by_cases hblank : id = ""
        · simp [writeId, field, hsome, hcall, Json.asStr, hblank]
        · simp [writeId, field, hsome, hcall, Json.asStr, ToolCall.entry, ToolCall.realId,
            Option.filter_some, hblank]
  have htype : writeType tc (call.entry : ToolCallEntry F) = call.entry := by
    rcases h.type with hnone | hsome
    · simp [writeType, field, hnone]
    · simp [writeType, field, hsome, Json.asStr, ToolCall.entry]
  have hnamed : writeName tc (call.entry : ToolCallEntry F) = call.entry := by
    rcases h.name with hnone | hsome
    · simp [writeName, hnone]
    · simp [writeName, hsome, Json.asStr, ToolCall.entry]
  rw [finalEntry, hid, htype, hnamed, replaceArguments, harguments, writeExtra, h.extra]
  rfl

def entryAt (i : ℕ) : ToolCallEntry F :=
  entries[i]?.getD (placeholder i)

variable (entries : List (ToolCallEntry F)) (k : ℕ)

theorem length_grow : (grow entries k).length = max entries.length (k + 1) := by
  rw [grow, length_append, length_map, length_range']
  omega

theorem entryAt_grow (i : ℕ) : entryAt (grow entries k) i = entryAt entries i := by
  unfold entryAt grow
  by_cases hi : i < entries.length
  · rw [getElem?_append_left hi]
  · rw [getElem?_append_right (by omega), getElem?_map, getElem?_eq_none (l := entries) (by omega)]
    by_cases hnew : i - entries.length < k + 1 - entries.length
    · have hindex : entries.length + (i - entries.length) = i := by omega
      rw [getElem?_range' hnew, Nat.one_mul, hindex]
      rfl
    · rw [getElem?_eq_none (by simpa using Nat.not_lt.mp hnew)]
      rfl

theorem entryAt_update (hk : k < maxToolCalls) (write : ToolCallEntry F → ToolCallEntry F) (i : ℕ) :
    entryAt (update entries k write) i =
      if i = k then write (entryAt entries k) else entryAt entries i := by
  have hlen := length_grow entries k
  rw [update, if_neg (by omega)]
  by_cases hi : i = k
  · subst hi
    rw [if_pos rfl, ← entryAt_grow entries i i]
    have hlt : i < (grow entries i).length := by omega
    simp [entryAt, getElem?_eq_getElem hlt]
  · rw [if_neg hi, ← entryAt_grow entries k i]
    simp [entryAt, Ne.symm hi]

theorem length_update (hk : k < maxToolCalls) (write : ToolCallEntry F → ToolCallEntry F)
    (h : entries.length ≤ maxToolCalls) : (update entries k write).length ≤ maxToolCalls := by
  rw [update, if_neg (by omega), length_modify, length_grow]
  omega

theorem finalize_eq (h : entries.length ≤ maxToolCalls) : finalize entries =
    (((List.range maxToolCalls).map (entryAt entries)).filter ToolCallEntry.isShown).map
      ToolCallEntry.json := by
  have hrange : List.range maxToolCalls = List.range entries.length ++
      (List.range (maxToolCalls - entries.length)).map (entries.length + ·) := by
    rw [← range_add, Nat.add_sub_cancel' h]
  have hfront : (List.range entries.length).map (entryAt entries) = entries := by
    refine ext_getElem (by simp) fun i h₁ h₂ => ?_
    simp [entryAt, getElem?_eq_getElem h₂]
  have hback : (((List.range (maxToolCalls - entries.length)).map (entries.length + ·)).map
      (entryAt entries)).filter ToolCallEntry.isShown = [] := by
    refine filter_eq_nil_iff.mpr fun entry hentry => ?_
    obtain ⟨_, hi, rfl⟩ := mem_map.mp hentry
    obtain ⟨i, -, rfl⟩ := mem_map.mp hi
    simp [entryAt, placeholder, ToolCallEntry.isShown]
  rw [hrange, map_append, hfront, filter_append, hback, append_nil]
  rfl

structure Partial (call : ToolCall) (own : List (Delta F)) (entry : ToolCallEntry F) : Prop where
  index : entry.index = call.index
  extra : entry.extraContent = none
  arguments : entry.arguments = String.join (own.map (·.piece))
  id : entry.id = if own.any fun d => (d.value.get "id").isSome then call.realId else none
  type : entry.toolType = if own.any fun d => (d.value.get "type").isSome then some call.type else none
  name : entry.name = if own.any fun d => (ofFunction d.value "name").isSome then call.name else ""
  initialized : own.any (fun d => (ofFunction d.value "name").isSome) → entry.initialized = true

variable {entry : ToolCallEntry F} {own : List (Delta F)}

theorem Partial.merge (h : Partial call own entry) (hname : call.name ≠ "") (d : Delta F)
    (hd : d.call = call) : Partial call (own ++ [d]) (mergeEntry print d.value entry) := by
  subst hd
  rw [mergeEntry_delta d.isDelta hname]
  constructor
  · exact h.index
  · exact h.extra
  · simp [h.arguments, String.join]
  · rw [any_append, h.id]
    cases own.any fun d => (d.value.get "id").isSome <;>
      cases hget : (d.value.get "id").isSome <;> simp [hget]
  · rw [any_append, h.type]
    cases own.any fun d => (d.value.get "type").isSome <;>
      cases hget : (d.value.get "type").isSome <;> simp [hget]
  · rw [any_append, h.name]
    cases own.any fun d => (ofFunction d.value "name").isSome <;>
      cases hget : (ofFunction d.value "name").isSome <;> simp [hget]
  · intro hany
    rw [any_append, Bool.or_eq_true] at hany
    rcases hany with hold | hnew
    · simp [h.initialized hold]
    · have hget : (ofFunction d.value "name").isSome = true := by simpa using hnew
      simp [hget]

theorem Partial.whole (h : Partial call own entry)
    (hpieces : String.join (own.map (·.piece)) = call.arguments)
    (hid : call.id.isSome → ∃ d ∈ own, (d.value.get "id").isSome)
    (htype : ∃ d ∈ own, (d.value.get "type").isSome)
    (hname : ∃ d ∈ own, (ofFunction d.value "name").isSome) : entry = call.entry := by
  have hinitialized := h.initialized (any_eq_true.mpr hname)
  have hids : entry.id = call.realId := by
    cases hcall : call.id with
    | none =>
      have hreal : call.realId = none := by rw [ToolCall.realId, hcall]; rfl
      rw [h.id, hreal, ite_self]
    | some id => rw [h.id, if_pos (any_eq_true.mpr (hid (by rw [hcall]; rfl)))]
  have htypes := h.type
  have hnames := h.name
  rw [if_pos (any_eq_true.mpr htype)] at htypes
  rw [if_pos (any_eq_true.mpr hname)] at hnames
  obtain ⟨id, toolType, name, arguments, index, initialized, extra⟩ := entry
  simp only at hids htypes hnames hinitialized
  rw [ToolCall.entry, ← hpieces, ← h.arguments, ← h.index, hids, htypes, hnames, hinitialized]
  exact congrArg _ h.extra

variable {calls : List ToolCall} {deltas : List (Delta F)}

theorem Streamable.eq_of_index (h : Streamable calls) {a b : ToolCall} (ha : a ∈ calls)
    (hb : b ∈ calls) (heq : a.index = b.index) : a = b := inj_on_of_nodup_map h.indices ha hb heq

structure Assembling (print : Json F → String) (calls : List ToolCall) (deltas : List (Delta F)) :
    Prop where
  bound : (merged print deltas).length ≤ maxToolCalls
  parts : ∀ call ∈ calls,
    Partial call (deltas.filter (·.call = call)) (entryAt (merged print deltas) call.index)
  vacant : ∀ i, (∀ call ∈ calls, call.index ≠ i) →
    entryAt (merged print deltas) i = placeholder i

theorem assembling (hcalls : Streamable calls) (hknown : ∀ d ∈ deltas, d.call ∈ calls) :
    Assembling print calls deltas := by
  induction deltas using List.reverseRecOn with
  | nil =>
    exact ⟨Nat.zero_le _, fun call _ => ⟨rfl, rfl, rfl, rfl, rfl, rfl, nofun⟩, fun _ _ => rfl⟩
  | append_singleton deltas d ih =>
    have h := ih fun d hd => hknown d (mem_append_left _ hd)
    have hd : d.call ∈ calls := hknown d (by simp)
    have hbound := hcalls.bound d.call hd
    have hstep : merged print (deltas ++ [d]) =
        update (merged print deltas) d.call.index (mergeEntry print d.value) := by
      have hrole : isHidden d.value = false := by simp [isHidden, field, d.isDelta.role]
      have hindex : readIndex d.value = d.call.index := by
        simp [readIndex, d.isDelta.index, Json.asU64]
      rw [merged, foldl_concat, merge, if_neg (by simp [hrole]), hindex]
      rfl
    refine ⟨?_, fun call hcall => ?_, fun i hi => ?_⟩
    · rw [hstep]
      exact length_update _ _ hbound _ h.bound
    · rw [hstep, entryAt_update _ _ hbound, filter_append]
      by_cases hown : d.call = call
      · rw [if_pos (by rw [hown]), hown, filter_cons_of_pos (by simpa using hown),
          filter_nil]
        exact (h.parts call hcall).merge (hcalls.name call hcall) d hown
      · have hne : call.index ≠ d.call.index := fun heq =>
          hown (hcalls.eq_of_index hd hcall heq.symm)
        rw [if_neg hne, filter_cons_of_neg (by simpa using hown), filter_nil, append_nil]
        exact h.parts call hcall
    · rw [hstep, entryAt_update _ _ hbound, if_neg (hi d.call hd).symm]
      exact h.vacant i hi

structure Holds (calls : List ToolCall) (entries : List (ToolCallEntry F)) : Prop where
  bound : entries.length ≤ maxToolCalls
  held : ∀ call ∈ calls, entryAt entries call.index = call.entry
  vacant : ∀ i, (∀ call ∈ calls, call.index ≠ i) → entryAt entries i = placeholder i

theorem holds_merged (hcalls : Streamable calls) (h : Streams calls deltas) :
    Holds calls (merged print deltas) := by
  have hassembling : Assembling print calls deltas := assembling hcalls h.known
  refine ⟨hassembling.bound, fun call hcall => ?_, hassembling.vacant⟩
  have hown : ∀ {p : Delta F → Prop}, (∃ d ∈ deltas, d.call = call ∧ p d) →
      ∃ d ∈ deltas.filter (·.call = call), p d := by
    rintro p ⟨d, hd, heq, hp⟩
    exact ⟨d, mem_filter.mpr ⟨hd, by simpa using heq⟩, hp⟩
  exact (hassembling.parts call hcall).whole (h.pieces call hcall)
    (fun hid => hown (h.id call hcall hid)) (hown (h.type call hcall)) (hown (h.name call hcall))

theorem Holds.setFinal {entries : List (ToolCallEntry F)} (h : Holds calls entries)
    (hcalls : Streamable calls) (final : Final F) (hfinal : final.call ∈ calls) :
    Holds calls (setFinal print entries final.value) := by
  have hbound := hcalls.bound final.call hfinal
  have hindex : readIndex final.value = final.call.index := by
    simp [readIndex, final.isDelta.index, Json.asU64]
  have hsame : ∀ i, entryAt (ToolCallAccumulator.setFinal print entries final.value) i =
      entryAt entries i := by
    intro i
    rw [ToolCallAccumulator.setFinal, hindex, entryAt_update _ _ hbound]
    split_ifs with hi
    · rw [h.held final.call hfinal, finalEntry_entry final.isDelta final.arguments, hi,
        h.held final.call hfinal]
    · rfl
  refine ⟨?_, fun call hcall => ?_, fun i hi => ?_⟩
  · rw [ToolCallAccumulator.setFinal, hindex]
    exact length_update _ _ hbound _ h.bound
  · rw [hsame]
    exact h.held call hcall
  · rw [hsame]
    exact h.vacant i hi

theorem holds_finished (hcalls : Streamable calls) (h : Streams calls deltas)
    {finals : List (Final F)} (hfinals : ∀ final ∈ finals, final.call ∈ calls) :
    Holds calls (finished print deltas finals) := by
  induction finals using List.reverseRecOn with
  | nil => exact holds_merged hcalls h
  | append_singleton finals final ih =>
    rw [finished, foldl_concat]
    exact (ih fun final hmem => hfinals final (mem_append_left _ hmem)).setFinal hcalls final
      (hfinals final (by simp))

theorem Holds.finalize {entries : List (ToolCallEntry F)} (h : Holds calls entries)
    (hcalls : Streamable calls) :
    finalize entries = (inOrder calls).map fun call => call.entry.json := by
  have hcase : ∀ i, entryAt entries i = placeholder i ∨
      ∃ call ∈ calls, call.index = i ∧ entryAt entries i = call.entry := by
    intro i
    by_cases hi : ∃ call ∈ calls, call.index = i
    · obtain ⟨call, hcall, rfl⟩ := hi
      exact Or.inr ⟨call, hcall, rfl, h.held call hcall⟩
    · exact Or.inl (h.vacant i fun call hcall heq => hi ⟨call, hcall, heq⟩)
  have hindex : ∀ i, (entryAt entries i).index = i := by
    intro i
    rcases hcase i with heq | ⟨call, -, hi, heq⟩
    · rw [heq]
      rfl
    · rw [heq]
      exact hi
  have hfound : (((List.range maxToolCalls).map (entryAt entries)).filter
      ToolCallEntry.isShown).Pairwise (fun a b => a.index < b.index) := by
    apply Pairwise.filter
    rw [pairwise_map]
    exact pairwise_lt_range.imp fun hlt => by rwa [hindex, hindex]
  have hgiven : ((inOrder calls).map (ToolCall.entry (F := F))).Pairwise
      (fun a b => a.index < b.index) := by
    have hsort := pairwise_insertionSort (fun a b : ToolCall => a.index ≤ b.index) calls
    have hne : ((inOrder calls).map (·.index)).Nodup :=
      ((perm_insertionSort _ calls).map _).nodup_iff.mpr hcalls.indices
    rw [pairwise_map]
    exact (hsort.and (pairwise_map.mp hne)).imp fun hboth => lt_of_le_of_ne hboth.1 hboth.2
  have hperm : ((List.range maxToolCalls).map (entryAt entries)).filter ToolCallEntry.isShown ~
      (inOrder calls).map ToolCall.entry := by
    refine (perm_ext_iff_of_nodup (hfound.imp fun hlt heq => by rw [heq] at hlt; omega)
      (hgiven.imp fun hlt heq => by rw [heq] at hlt; omega)).mpr fun entry => ?_
    rw [mem_filter, mem_map, mem_map]
    constructor
    · rintro ⟨⟨i, -, rfl⟩, hshown⟩
      rcases hcase i with heq | ⟨call, hcall, -, heq⟩
      · rw [heq] at hshown
        cases hshown
      · exact ⟨call, (mem_insertionSort _).mpr hcall, heq.symm⟩
    · rintro ⟨call, hcall, rfl⟩
      have hmem := (mem_insertionSort _).mp hcall
      refine ⟨⟨call.index, mem_range.mpr (hcalls.bound call hmem), h.held call hmem⟩, ?_⟩
      simp [ToolCallEntry.isShown, ToolCall.entry, hcalls.name call hmem]
  have heq := hperm.eq_of_pairwise (fun a b _ _ hab hba => absurd hab (by omega)) hfound hgiven
  rw [finalize_eq _ h.bound, heq, map_map]
  rfl

def ClearOfPending (calls : List ToolCall) : Prop :=
  ∀ a ∈ calls, ∀ b ∈ calls, a.realId = none → b.realId ≠ some (pendingId a.index)

theorem pendingId_injective : Function.Injective pendingId := by
  intro m n h
  have hdigits := (String.append_right_inj _).mp h
  rw [Nat.toString_eq_ofList_toDigits, Nat.toString_eq_ofList_toDigits, String.ofList_inj] at hdigits
  exact toDigits_ten_injective hdigits

theorem id_of_realId {id : String} (h : call.realId = some id) : call.id = some id := by
  rw [ToolCall.realId, Option.filter_eq_some_iff] at h
  exact h.1

theorem finalIds_nodup_iff (hcalls : Streamable calls) (hgiven : (calls.filterMap (·.id)).Nodup) :
    (calls.map ToolCall.finalId).Nodup ↔ ClearOfPending calls := by
  constructor
  · intro h a ha b hb hnone hsome
    have hids : a.finalId = b.finalId := by
      rw [ToolCall.finalId, ToolCall.finalId, hnone, hsome]
      rfl
    rw [inj_on_of_nodup_map h ha hb hids, hsome] at hnone
    cases hnone
  · intro hclear
    have hapart := (pairwise_filterMap.mp hgiven).and (pairwise_map.mp hcalls.indices)
    rw [Nodup, pairwise_map]
    refine hapart.imp_of_mem fun {a b} ha hb ⟨hids, hindex⟩ heq => ?_
    rw [ToolCall.finalId, ToolCall.finalId] at heq
    cases hreal : a.realId with
    | none =>
      cases hreal' : b.realId with
      | none =>
        rw [hreal, hreal'] at heq
        exact hindex (pendingId_injective heq)
      | some id =>
        rw [hreal, hreal'] at heq
        exact hclear a ha b hb hreal (hreal'.trans (congrArg some heq.symm))
    | some id =>
      cases hreal' : b.realId with
      | none =>
        rw [hreal, hreal'] at heq
        exact hclear b hb a ha hreal' (hreal.trans (congrArg some heq))
      | some id' =>
        rw [hreal, hreal'] at heq
        exact hids id (id_of_realId hreal) id' (id_of_realId hreal') heq

theorem ids_nodup_iff (hcalls : Streamable calls) (hstream : Streams calls deltas) :
    ((finalize (merged print deltas)).map fun tc => field tc "id").Nodup ↔
      (calls.map ToolCall.finalId).Nodup := by
  have hfield : ((finalize (merged print deltas)).map fun tc => field tc "id") =
      ((inOrder calls).map ToolCall.finalId).map some := by
    rw [(holds_merged hcalls hstream).finalize hcalls, map_map, map_map]
    rfl
  rw [hfield, nodup_map_iff (Option.some_injective _)]
  exact ((perm_insertionSort _ calls).map _).nodup_iff

/-- Whatever the pieces and their order, the calls come out whole and in the order of their indices;
their ids are distinct unless one has the id that is made for another. -/
theorem reassembled_iff (print : Json F → String) (calls : List ToolCall) (deltas : List (Delta F))
    (hcalls : Streamable calls) (hstream : Streams calls deltas) :
    Reassembled print calls deltas ↔ ((calls.filterMap (·.id)).Nodup → ClearOfPending calls) := by
  have hheld : Holds calls (merged print deltas) := holds_merged hcalls hstream
  have hwhole := hheld.finalize hcalls
  have hids := @ids_nodup_iff _ print _ _ hcalls hstream
  constructor
  · intro h hgiven
    exact (finalIds_nodup_iff hcalls hgiven).mp (hids.mp (h.distinct hgiven))
  · intro h
    refine ⟨hwhole, fun finals hfinals => ?_, fun hgiven => ?_⟩
    · rw [(holds_finished hcalls hstream hfinals).finalize hcalls, hwhole]
    · exact hids.mpr ((finalIds_nodup_iff hcalls hgiven).mpr (h hgiven))

def starts (call : ToolCall) : Delta Empty where
  call := call
  piece := ""
  value := .obj ([("index", .nat call.index), ("type", .str call.type),
    ("function", .obj [("name", .str call.name)])] ++ (call.id.map fun id => ("id", .str id)).toList)
  isDelta := by cases hid : call.id <;> constructor <;> simp [hid, Json.get, ofFunction, lookup_cons]

def continues (call : ToolCall) (piece : String) : Delta Empty where
  call := call
  piece := piece
  value := .obj [("index", .nat call.index), ("function", .obj [("arguments", .str piece)])]
  isDelta := by constructor <;> simp [Json.get, ofFunction, lookup_cons]

def listing : ToolCall := ⟨some "call_1", "function", "tree", "{}", 1⟩

def reading : ToolCall := ⟨none, "function", "cat", "\x7b\"p\":1\x7d", 0⟩

theorem alternating_reassembled : Reassembled (fun _ => "") [listing, reading]
    [starts listing, starts reading, continues reading "\x7b\"p\"", continues listing "{}",
      continues reading ":1\x7d"] := by
  refine (reassembled_iff _ _ _ ⟨by decide, by decide, by decide⟩
    ⟨by decide, by decide, by decide, by decide, by decide⟩).mpr fun _ => ?_
  unfold ClearOfPending
  decide

def taken : ToolCall := { listing with id := some "pending_call_0" }

/-- A call without an id, and another one that bears the id made for it. -/
theorem pending_id_taken : Streamable [taken, reading] ∧
    Streams [taken, reading]
      [starts taken, starts reading, continues taken "{}", continues reading "\x7b\"p\":1\x7d"] ∧
    ¬ Reassembled (fun _ => "") [taken, reading]
      [starts taken, starts reading, continues taken "{}", continues reading "\x7b\"p\":1\x7d"] := by
  have hcalls : Streamable [taken, reading] := ⟨by decide, by decide, by decide⟩
  refine ⟨hcalls, ⟨by decide, by decide, by decide, by decide, by decide⟩, fun h => ?_⟩
  have hids := (ids_nodup_iff hcalls ⟨by decide, by decide, by decide, by decide, by decide⟩).mp
    (h.distinct (by decide))
  exact absurd hids (by decide)

end ToolCallAccumulator
