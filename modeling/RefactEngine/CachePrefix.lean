import RefactEngine.CacheGuard
import Mathlib.Data.List.DropRight

/-! # Cached prefixes as flat sequences

What a provider has cached is a sequence: for each message its fields and then the blocks of its
content, up to the last marked block. A request can use the cache exactly if the sequence of the
last one is a prefix of its own. The guard compares trees instead.
-/
namespace CacheGuard

open List

variable {N : Type}

namespace Value

def without (value : Value N) (key : String) : Value N :=
  match value with
  | .object keys field =>
    .object (keys.erase key) fun k => field ⟨k.1, Finset.mem_of_mem_erase k.2⟩
  | _ => value

def messages (body : Value N) : List (Value N) :=
  ((body.get "messages").bind Value.asArray).getD []

end Value

def textBlock (text : String) : Value N :=
  .ofFields [("type", .string "text"), ("text", .string text)]

def blocks (message : Value N) : List (Value N) :=
  match message.get "content" with
  | some (.array items) => items
  | some (.string text) => [textBlock text]
  | _ => []

/-- The fields of a message but for the content that its blocks make up. -/
def otherFields (message : Value N) : Value N :=
  match message.get "content" with
  | some (.array _) | some (.string _) => message.without "content"
  | _ => message

inductive Entry (N : Type) where
  | message (fields : Value N)
  | block (value : Value N)

namespace Entry

instance [DecidableEq N] : DecidableEq (Entry N)
  | .message a, .message b => decidable_of_iff (a = b) (by rw [message.injEq])
  | .block a, .block b => decidable_of_iff (a = b) (by rw [block.injEq])
  | .message _, .block _ => isFalse nofun
  | .block _, .message _ => isFalse nofun

def marked : Entry N → Bool
  | .message _ => false
  | .block value => hasMarker value

def sanitize : Entry N → Entry N
  | .message fields => .message (sanitizeValueWithParent false (some "messages") fields)
  | .block value => .block (sanitizeValueWithParent false (some "content") value)

end Entry

def entries (message : Value N) : List (Entry N) :=
  .message (otherFields message) :: (blocks message).map .block

def flatPrefix (body : Value N) : List (Entry N) :=
  ((body.messages.flatMap entries).rdropWhile fun entry => !entry.marked).map Entry.sanitize

def Marked (body : Value N) : Prop :=
  ∃ message ∈ body.messages, ∃ block ∈ blocks message, hasMarker block = true

namespace Value

variable {key : String}

variable {keys : Finset String}

theorem get_object {field : {key // key ∈ keys} → Value N} (h : key ∈ keys) :
    (Value.object keys field).get key = some (field ⟨key, h⟩) := dif_pos h

theorem get_eq_none {field : {key // key ∈ keys} → Value N} (h : key ∉ keys) :
    (Value.object keys field).get key = none := dif_neg h

variable {value : Value N}

theorem get_isSome {v : Value N} (h : value.get key = some v) :
    ∃ keys field, value = .object keys field ∧ key ∈ keys := by
  cases value with
  | object keys field =>
    by_cases hkey : key ∈ keys
    · exact ⟨keys, field, rfl, hkey⟩
    · rw [get_eq_none hkey] at h
      cases h
  | _ => cases h

def IsObject (value : Value N) : Prop := ∃ keys field, value = .object keys field

theorem isObject_of_get {v : Value N} (h : value.get key = some v) : value.IsObject := by
  obtain ⟨keys, field, rfl, -⟩ := get_isSome h
  exact ⟨keys, field, rfl⟩

theorem ext_get {a b : Value N} (ha : a.IsObject) (hb : b.IsObject)
    (h : ∀ key, a.get key = b.get key) : a = b := by
  obtain ⟨keys, f, rfl⟩ := ha
  obtain ⟨keys', g, rfl⟩ := hb
  have hkeys : keys = keys' := by
    ext key
    have hkey := h key
    constructor
    · intro hmem
      by_contra hnot
      rw [get_object hmem, get_eq_none hnot] at hkey
      cases hkey
    · intro hmem
      by_contra hnot
      rw [get_eq_none hnot, get_object hmem] at hkey
      cases hkey
  subst hkeys
  congr 1
  funext key
  have hkey := h key.1
  rw [get_object key.2, get_object key.2] at hkey
  exact Option.some.inj hkey

theorem IsObject.without (h : value.IsObject) (key : String) : (value.without key).IsObject := by
  obtain ⟨keys, field, rfl⟩ := h
  exact ⟨_, _, rfl⟩

theorem get_without (value : Value N) (key k : String) :
    (value.without key).get k = if k = key then none else value.get k := by
  cases value with
  | object keys field =>
    rw [without]
    by_cases hk : k = key
    · rw [if_pos hk, get_eq_none (by simp [hk])]
    · rw [if_neg hk]
      by_cases hmem : k ∈ keys
      · rw [get_object (Finset.mem_erase.mpr ⟨hk, hmem⟩), get_object hmem]
      · rw [get_eq_none hmem, get_eq_none]
        exact fun h => hmem (Finset.mem_of_mem_erase h)
  | _ => exact (ite_self none).symm

end Value

variable {value : Value N}

theorem get_sanitize (h : value.IsObject) (topLevel : Bool) (parentKey : Option String)
    (key : String) : (sanitizeValueWithParent topLevel parentKey value).get key =
      if isIgnoredKey key topLevel parentKey then none
      else (value.get key).map (sanitizeValueWithParent false (some key)) := by
  obtain ⟨keys, field, rfl⟩ := h
  rw [sanitizeValueWithParent]
  by_cases hkey : key ∈ keys
  · by_cases hignored : isIgnoredKey key topLevel parentKey = true
    · rw [if_pos hignored, Value.get_eq_none]
      simp [hignored]
    · rw [if_neg hignored, Value.get_object hkey, Value.get_object]
      · rfl
      · simpa [hkey] using hignored
  · rw [Value.get_eq_none hkey, Value.get_eq_none, Option.map_none, ite_self]
    exact fun h => hkey (Finset.mem_filter.mp h).1

theorem sanitizeItems_eq_map (parentKey : Option String) (items : List (Value N)) :
    sanitizeItems parentKey items = items.map (sanitizeValueWithParent false parentKey) := by
  induction items with
  | nil => rfl
  | cons item items ih => rw [sanitizeItems, ih, map_cons]

variable (text : String)

theorem get_textBlock (key : String) : (textBlock text : Value N).get key =
    if key = "type" then some (.string "text") else if key = "text" then some (.string text)
    else none := by
  by_cases htype : key = "type"
  · subst htype
    rfl
  · by_cases htext : key = "text"
    · subst htext
      rfl
    · rw [if_neg htype, if_neg htext]
      apply Value.get_eq_none
      simp [htype, htext]

/-- A block that is nothing but text is the text block of its text. -/
theorem plainText_eq_some {block : Value N} {text : String} :
    plainText block = some text ↔ block = textBlock text := by
  constructor
  · intro h
    cases block with
    | object keys field =>
      rw [plainText] at h
      split_ifs at h with hcard
      rw [ne_eq, not_not] at hcard
      split at h
      · rename_i s htype htext
        cases h
        obtain ⟨_, _, ⟨⟩, hmem⟩ := Value.get_isSome htype
        obtain ⟨_, _, ⟨⟩, hmem'⟩ := Value.get_isSome htext
        -- there is no room for a third key
        have hsub : ({"type", "text"} : Finset String) ⊆ keys := by
          intro key hkey
          rcases Finset.mem_insert.mp hkey with rfl | hkey
          · exact hmem
          · rw [Finset.mem_singleton.mp hkey]
            exact hmem'
        have hkeys : {"type", "text"} = keys :=
          Finset.eq_of_subset_of_card_le hsub (by rw [hcard]; decide)
        refine Value.ext_get ⟨_, _, rfl⟩ ⟨_, _, rfl⟩ fun key => ?_
        rw [get_textBlock]
        split_ifs with hty hte
        · rw [hty, htype]
        · rw [hte, htext]
        · apply Value.get_eq_none
          rw [← hkeys, Finset.mem_insert, Finset.mem_singleton, not_or]
          exact ⟨hty, hte⟩
      · cases h
    | _ => cases h
  · rintro rfl
    rfl

theorem isIgnoredKey_none (key : String) :
    isIgnoredKey key false none = isIgnoredKey key false (some "messages") := by
  simp [isIgnoredKey]

theorem isObject_sanitize (h : value.IsObject) (topLevel : Bool) (parentKey : Option String) :
    (sanitizeValueWithParent topLevel parentKey value).IsObject := by
  obtain ⟨keys, field, rfl⟩ := h
  exact ⟨_, _, sanitizeValueWithParent.eq_1 _ _ _ _⟩

theorem sanitize_textBlock :
    sanitizeValueWithParent false (some "content") (textBlock text : Value N) = textBlock text := by
  have hobject : (textBlock text : Value N).IsObject := ⟨_, _, rfl⟩
  refine Value.ext_get (isObject_sanitize hobject _ _) hobject fun key => ?_
  rw [get_sanitize hobject, get_textBlock]
  by_cases htype : key = "type"
  · subst htype
    rfl
  · by_cases htext : key = "text"
    · subst htext
      rfl
    · rw [if_neg htype, if_neg htext, Option.map_none, ite_self]

theorem sanitize_without {message : Value N} (h : message.IsObject) :
    sanitizeValueWithParent false (some "messages") (message.without "content") =
      (sanitizeValueWithParent false (some "messages") message).without "content" := by
  have hwithout := h.without "content"
  have hsanitized := isObject_sanitize h false (some "messages")
  refine Value.ext_get (isObject_sanitize hwithout _ _) (hsanitized.without _) fun key => ?_
  rw [get_sanitize hwithout, Value.get_without, Value.get_without, get_sanitize h]
  split_ifs <;> rfl

theorem entries_canonical {message : Value N} {items : List (Value N)}
    (h : message.get "content" =
      some (canonicalizeContentShape (.array items) (some "content"))) :
    entries message = .message (message.without "content") :: items.map .block := by
  have hshape : canonicalizeContentShape (.array items : Value N) (some "content") = .array items ∨
      ∃ text, items = [textBlock text] ∧
        canonicalizeContentShape (.array items : Value N) (some "content") = .string text := by
    unfold canonicalizeContentShape
    rw [if_neg (not_not.mpr rfl)]
    match items with
    | [] => exact Or.inl rfl
    | [block] =>
      cases htext : plainText block with
      | none =>
        simp only [htext]
        exact Or.inl rfl
      | some text =>
        simp only [htext]
        exact Or.inr ⟨text, by rw [plainText_eq_some.mp htext], rfl⟩
    | _ :: _ :: _ => exact Or.inl rfl
  rcases hshape with hshape | ⟨text, rfl, hshape⟩
  · rw [hshape] at h
    simp only [entries, otherFields, blocks, h]
  · rw [hshape] at h
    simp only [entries, otherFields, blocks, h]

theorem entries_of_get {message : Value N} (h : message.get "content" = some value)
    (harray : ∀ items, value ≠ .array items) (hstring : ∀ text, value ≠ .string text) :
    entries message = [.message message] := by
  cases value with
  | array items => exact absurd rfl (harray items)
  | string text => exact absurd rfl (hstring text)
  | _ => simp only [entries, otherFields, blocks, h, map_nil]

theorem entries_of_none {message : Value N} (h : message.get "content" = none) :
    entries message = [.message message] := by
  simp only [entries, otherFields, blocks, h, map_nil]

theorem entries_sanitize (message : Value N) :
    entries (sanitizeValueWithParent false (some "messages") message) =
      (entries message).map Entry.sanitize := by
  by_cases hobject : message.IsObject
  · have hget := get_sanitize hobject false (some "messages") "content"
    rw [if_neg (by decide)] at hget
    cases hcont : message.get "content" with
    | none =>
      rw [hcont, Option.map_none] at hget
      rw [entries_of_none hget, entries_of_none hcont]
      rfl
    | some value =>
      rw [hcont, Option.map_some] at hget
      cases value with
      | array items =>
        rw [sanitizeValueWithParent] at hget
        rw [entries_canonical hget, sanitizeItems_eq_map]
        simp only [entries, otherFields, blocks, hcont, map_cons, map_map,
          Entry.sanitize, sanitize_without hobject]
        rfl
      | string text =>
        rw [sanitizeValueWithParent] at hget
        simp only [entries, otherFields, blocks, hcont, hget, map_cons, map_nil,
          Entry.sanitize, sanitize_without hobject, sanitize_textBlock]
      | null =>
        rw [entries_of_get hcont nofun nofun, entries_of_get hget nofun nofun]
        rfl
      | bool b =>
        rw [entries_of_get hcont nofun nofun, entries_of_get hget nofun nofun]
        rfl
      | number n =>
        rw [entries_of_get hcont nofun nofun, entries_of_get hget nofun nofun]
        rfl
      | object keys field =>
        rw [entries_of_get hcont nofun nofun, entries_of_get hget nofun nofun]
        rfl
  · have hnone : message.get "content" = none := by
      cases message with
      | object keys field => exact absurd ⟨keys, field, rfl⟩ hobject
      | _ => rfl
    rw [entries_of_none hnone, entries_of_none]
    · rfl
    · cases message with
      | object keys field => exact absurd ⟨keys, field, rfl⟩ hobject
      | array items => rfl
      | _ => rfl

theorem get_sanitizeThrough {message : Value N} (h : message.IsObject) (contentIndex : ℕ)
    (key : String) :
    (sanitizeMessageThroughCacheMarker message contentIndex).get key =
      if isIgnoredKey key false none then none
      else (message.get key).map fun value =>
        if key = "content" then sanitizeArrayThroughCacheMarker value contentIndex "content"
        else sanitizeValueWithParent false (some key) value := by
  obtain ⟨keys, field, rfl⟩ := h
  rw [sanitizeMessageThroughCacheMarker]
  by_cases hkey : key ∈ keys
  · by_cases hignored : isIgnoredKey key false none = true
    · rw [if_pos hignored, Value.get_eq_none]
      simp [hignored]
    · rw [if_neg hignored, Value.get_object hkey, Value.get_object]
      · rfl
      · simpa [hkey] using hignored
  · rw [Value.get_eq_none hkey, Value.get_eq_none, Option.map_none, ite_self]
    exact fun h => hkey (Finset.mem_filter.mp h).1

theorem entries_sanitizeThrough {message : Value N} {items : List (Value N)}
    (h : message.get "content" = some (.array items)) (contentIndex : ℕ) :
    entries (sanitizeMessageThroughCacheMarker message contentIndex) =
      (Entry.message (message.without "content") ::
        (items.take (contentIndex + 1)).map .block).map Entry.sanitize := by
  have hobject := Value.isObject_of_get h
  have hget := get_sanitizeThrough hobject contentIndex "content"
  rw [if_neg (by decide), h, Option.map_some, if_pos rfl, sanitizeArrayThroughCacheMarker] at hget
  have hrest : (sanitizeMessageThroughCacheMarker message contentIndex).without "content" =
      sanitizeValueWithParent false (some "messages") (message.without "content") := by
    have hwithout := hobject.without "content"
    refine Value.ext_get (Value.IsObject.without ?_ _) (isObject_sanitize hwithout _ _)
      fun key => ?_
    · exact Value.isObject_of_get hget
    · rw [Value.get_without, get_sanitizeThrough hobject, get_sanitize hwithout,
        Value.get_without, isIgnoredKey_none]
      split_ifs <;> rfl
  rw [entries_canonical hget, hrest, map_cons, map_map, map_map]
  rfl

theorem split_last {α : Type} {p : α → Bool} {l : List α} (h : ∃ x ∈ l, p x = true) :
    ∃ before x after, l = before ++ x :: after ∧ p x = true ∧ ∀ y ∈ after, p y = false := by
  induction l with
  | nil =>
    obtain ⟨x, hx, -⟩ := h
    cases hx
  | cons a l ih =>
    by_cases hl : ∃ x ∈ l, p x = true
    · obtain ⟨before, x, after, rfl, hx, hafter⟩ := ih hl
      exact ⟨a :: before, x, after, rfl, hx, hafter⟩
    · obtain ⟨x, hmem, hx⟩ := h
      have hnone : ∀ y ∈ l, p y = false := fun y hy => by
        rw [← Bool.not_eq_true]
        exact fun hp => hl ⟨y, hy, hp⟩
      rcases mem_cons.mp hmem with rfl | hmem
      · exact ⟨[], x, l, rfl, hx, hnone⟩
      · exact absurd ⟨x, hmem, hx⟩ hl

theorem lastDirectCacheMarkerIndex_append {before after : List (Value N)} {x : Value N}
    (hx : hasMarker x = true) (hafter : ∀ y ∈ after, hasMarker y = false) :
    lastDirectCacheMarkerIndex (before ++ x :: after) = some before.length := by
  have hfind : (before ++ x :: after).reverse.findIdx? hasMarker = some after.length := by
    have hnone : after.reverse.findIdx? hasMarker = none := by
      rw [List.findIdx?_eq_none_iff]
      exact fun y hy => hafter y (mem_reverse.mp hy)
    rw [reverse_append, reverse_cons, append_assoc, List.findIdx?_append, hnone]
    simp [List.findIdx?_cons, hx]
  rw [lastDirectCacheMarkerIndex, hfind, Option.map_some, length_append, length_cons]
  congr 1
  omega

theorem lastDirectCacheMarkerIndex_none {values : List (Value N)}
    (h : ∀ y ∈ values, hasMarker y = false) : lastDirectCacheMarkerIndex values = none := by
  rw [lastDirectCacheMarkerIndex, Option.map_eq_none_iff, List.findIdx?_eq_none_iff]
  exact fun y hy => h y (mem_reverse.mp hy)

theorem hasMarker_textBlock : hasMarker (textBlock text : Value N) = false := by
  rw [hasMarker, get_textBlock]
  rfl

/-- The messages of a body around the last one with a marker, whose content is cut after it. -/
structure Cut (body : Value N) (before : List (Value N)) (message : Value N)
    (items : List (Value N)) (marker : Value N) : Prop where
  messages : ∃ after, body.messages = before ++ message :: after ∧
    ∀ later ∈ after, ∀ block ∈ blocks later, hasMarker block = false
  content : ∃ rest, message.get "content" = some (.array (items ++ marker :: rest)) ∧
    ∀ block ∈ rest, hasMarker block = false
  marked : hasMarker marker = true

theorem exists_cut {body : Value N} (h : Marked body) :
    ∃ before message items marker, Cut body before message items marker := by
  have hmarked : ∃ message ∈ body.messages, (blocks message).any hasMarker = true := by
    obtain ⟨message, hmem, block, hblock, hmarker⟩ := h
    exact ⟨message, hmem, any_eq_true.mpr ⟨block, hblock, hmarker⟩⟩
  obtain ⟨before, message, after, hmsgs, hany, hafter⟩ := split_last hmarked
  have hlater : ∀ later ∈ after, ∀ block ∈ blocks later, hasMarker block = false :=
    fun later hmem => by simpa using hafter later hmem
  -- plain strings have no markers
  cases hcont : message.get "content" with
  | none =>
    rw [blocks, hcont] at hany
    cases hany
  | some value =>
    cases value with
    | array blocksOf =>
      rw [blocks, hcont] at hany
      obtain ⟨items, marker, rest, rfl, hmarker, hrest⟩ := split_last (any_eq_true.mp hany)
      exact ⟨before, message, items, marker, ⟨after, hmsgs, hlater⟩, ⟨rest, hcont, hrest⟩,
        hmarker⟩
    | string text =>
      rw [blocks, hcont] at hany
      simp [hasMarker_textBlock] at hany
    | _ =>
      rw [blocks, hcont] at hany
      cases hany

section Cuts

variable {body : Value N} {before : List (Value N)} {message marker : Value N}
  {items : List (Value N)}

theorem Cut.boundary (h : Cut body before message items marker) :
    anthropicCachePrefixBoundary body = some (.messages before.length items.length) := by
  obtain ⟨after, hmsgs, hlater⟩ := h.messages
  obtain ⟨rest, hcont, hrest⟩ := h.content
  have hindex : lastMessageCacheMarkerIndex body.messages = some (before.length, items.length) := by
    have hnone : (after.zipIdx (before.length + 1)).reverse.findSome? (fun entry => do
        let content ← (entry.1.get "content").bind Value.asArray
        let contentIndex ← lastDirectCacheMarkerIndex content
        some (entry.2, contentIndex)) = none := by
      rw [List.findSome?_eq_none_iff]
      intro entry hentry
      have hmem : entry.1 ∈ after := fst_mem_of_mem_zipIdx (mem_reverse.mp hentry)
      have hblocks := hlater entry.1 hmem
      rw [blocks] at hblocks
      cases hget : entry.1.get "content" with
      | none => rfl
      | some value =>
        cases value with
        | array content =>
          rw [hget] at hblocks
          simp [Value.asArray, lastDirectCacheMarkerIndex_none hblocks]
        | _ => rfl
    rw [lastMessageCacheMarkerIndex, hmsgs, zipIdx_append, reverse_append,
      zipIdx_cons, reverse_cons, append_assoc, List.findSome?_append, Nat.zero_add,
      hnone, Option.none_or]
    simp [hcont, Value.asArray, lastDirectCacheMarkerIndex_append h.marked hrest]
  have harray : ((body.get "messages").bind Value.asArray).bind lastMessageCacheMarkerIndex =
      some (before.length, items.length) := by
    rw [Value.messages] at hindex
    cases hget : (body.get "messages").bind Value.asArray with
    | none =>
      rw [hget] at hindex
      cases hindex
    | some messages =>
      rw [hget] at hindex
      exact hindex
  simp only [anthropicCachePrefixBoundary, harray]

theorem Cut.dropped (h : Cut body before message items marker) :
    (body.messages.flatMap entries).rdropWhile (fun entry => !entry.marked) =
      before.flatMap entries ++
        .message (message.without "content") :: (items ++ [marker]).map .block := by
  obtain ⟨after, hmsgs, hlater⟩ := h.messages
  obtain ⟨rest, hcont, hrest⟩ := h.content
  have hents : entries message =
      .message (message.without "content") :: (items ++ marker :: rest).map .block := by
    simp only [entries, otherFields, blocks, hcont]
  have hunmarked : ∀ entry ∈ (rest.map Entry.block ++ after.flatMap entries).reverse,
      (!entry.marked) = true := by
    intro entry hentry
    rw [Bool.not_eq_true']
    rcases mem_append.mp (mem_reverse.mp hentry) with hmem | hmem
    · obtain ⟨block, hblock, rfl⟩ := mem_map.mp hmem
      exact hrest block hblock
    · obtain ⟨later, hin, hentry⟩ := mem_flatMap.mp hmem
      rcases mem_cons.mp hentry with rfl | hentry
      · rfl
      · obtain ⟨block, hblock, rfl⟩ := mem_map.mp hentry
        exact hlater later hin block hblock
  have hsplit : body.messages.flatMap entries = (before.flatMap entries ++
      .message (message.without "content") :: (items ++ [marker]).map .block) ++
        (rest.map .block ++ after.flatMap entries) := by
    rw [hmsgs, flatMap_append, flatMap_cons, hents]
    simp
  have hlast : (before.flatMap entries ++
      Entry.message (message.without "content") :: (items ++ [marker]).map Entry.block).reverse =
        Entry.block marker :: (before.flatMap entries ++
          Entry.message (message.without "content") :: items.map Entry.block).reverse := by
    simp
  rw [List.rdropWhile, hsplit, reverse_append, dropWhile_append_of_pos hunmarked, hlast,
    dropWhile_cons_of_neg, ← hlast, reverse_reverse]
  simp [Entry.marked, h.marked]

end Cuts

theorem get_sanitizePrefix {body : Value N} (h : body.IsObject) (messageIndex contentIndex : ℕ)
    (key : String) :
    (sanitizeAnthropicCachePrefix body (.messages messageIndex contentIndex)).get key =
      if isIgnoredKey key true none then none
      else (body.get key).map ((AnthropicCachePrefixBoundary.messages messageIndex
        contentIndex).sanitize key) := by
  obtain ⟨keys, field, rfl⟩ := h
  rw [sanitizeAnthropicCachePrefix]
  by_cases hkey : key ∈ keys
  · by_cases hignored : isIgnoredKey key true none = true
    · rw [if_pos hignored, Value.get_eq_none]
      simp [hignored]
    · rw [if_neg hignored, Value.get_object hkey, Value.get_object]
      · rfl
      · simpa [hkey, AnthropicCachePrefixBoundary.keeps] using hignored
  · rw [Value.get_eq_none hkey, Value.get_eq_none, Option.map_none, ite_self]
    exact fun h => hkey (Finset.mem_filter.mp h).1

def prefixMessages (body : Value N) : List (Value N) := (bodyForCacheGuard body).messages

section Cuts

variable {body : Value N} {before : List (Value N)} {message marker : Value N}
  {items : List (Value N)}

theorem Cut.isObject (h : Cut body before message items marker) : body.IsObject := by
  obtain ⟨after, hmsgs, -⟩ := h.messages
  cases hget : body.get "messages" with
  | none =>
    rw [Value.messages, hget] at hmsgs
    cases before <;> cases hmsgs
  | some value => exact Value.isObject_of_get hget

theorem Cut.get (h : Cut body before message items marker) (key : String) :
    (bodyForCacheGuard body).get key =
      if isIgnoredKey key true none then none
      else (body.get key).map ((AnthropicCachePrefixBoundary.messages before.length
        items.length).sanitize key) := by
  rw [bodyForCacheGuard, h.boundary, bodyForCacheGuardWithBoundary, get_sanitizePrefix h.isObject]

theorem Cut.get_messages (h : Cut body before message items marker) :
    (bodyForCacheGuard body).get "messages" = some (.array
      (before.map (sanitizeValueWithParent false (some "messages")) ++
        [sanitizeMessageThroughCacheMarker message items.length])) := by
  obtain ⟨after, hmsgs, -⟩ := h.messages
  have harray : body.get "messages" = some (.array (before ++ message :: after)) := by
    rw [Value.messages] at hmsgs
    cases hget : body.get "messages" with
    | none =>
      rw [hget] at hmsgs
      cases before <;> cases hmsgs
    | some value =>
      rw [hget] at hmsgs
      cases value with
      | array messages =>
        simp only [Option.bind_some, Value.asArray, Option.getD_some] at hmsgs
        rw [hmsgs]
      | _ => cases before <;> cases hmsgs
  rw [h.get, if_neg (by decide), harray, Option.map_some, AnthropicCachePrefixBoundary.sanitize,
    if_pos rfl, sanitizeMessagesThroughCacheMarker]
  have htake : (before ++ message :: after).take (before.length + 1) = before ++ [message] := by
    rw [take_append, take_of_length_le (Nat.le_succ _), Nat.add_sub_cancel_left]
    rfl
  have hbef : before.mapIdx (fun index value =>
      if index = before.length then sanitizeMessageThroughCacheMarker value items.length
      else sanitizeValueWithParent false (some "messages") value) =
        before.map (sanitizeValueWithParent false (some "messages")) := by
    apply ext_getElem
    · simp
    · intro i hi hi'
      have hlt : i ≠ before.length := by
        rw [length_mapIdx] at hi
        omega
      simp [hlt]
  rw [htake, mapIdx_append, hbef]
  simp

theorem Cut.prefixMessages_eq (h : Cut body before message items marker) :
    prefixMessages body = before.map (sanitizeValueWithParent false (some "messages")) ++
      [sanitizeMessageThroughCacheMarker message items.length] := by
  rw [prefixMessages, Value.messages, h.get_messages]
  rfl

theorem Cut.flatPrefix_eq (h : Cut body before message items marker) :
    flatPrefix body = (prefixMessages body).flatMap entries := by
  obtain ⟨rest, hcont, -⟩ := h.content
  have htake : (items ++ marker :: rest).take (items.length + 1) = items ++ [marker] := by
    rw [take_append, take_of_length_le (Nat.le_succ _), Nat.add_sub_cancel_left]
    rfl
  have hbef : (before.map (sanitizeValueWithParent false (some "messages"))).flatMap entries =
      (before.flatMap entries).map Entry.sanitize := by
    rw [flatMap_map, map_flatMap]
    simp only [entries_sanitize]
  rw [flatPrefix, h.dropped, h.prefixMessages_eq, flatMap_append, hbef,
    List.flatMap_singleton, entries_sanitizeThrough hcont, htake, map_append]

end Cuts

section Compare

variable [DecidableEq N]

theorem sameSize_self (topLevel : Bool) (parentKey : Option String) (keys : Finset String) :
    sameSize topLevel parentKey keys keys = true := decide_eq_true rfl

mutual

theorem isAnthropicCachePrefixInner_self (parentKey : Option String) (topLevel appendOk : Bool) :
    ∀ value : Value N, isAnthropicCachePrefixInner parentKey topLevel appendOk value value = true
  | .array items => by
    rw [isAnthropicCachePrefixInner]
    split_ifs
    · exact isAnthropicCachePrefixItems_self items
    · exact decide_eq_true rfl
  | .object keys f => by
    rw [isAnthropicCachePrefixInner, sameSize_self, Bool.true_and, decide_eq_true_eq]
    exact fun key _ => ⟨key.2, isAnthropicCachePrefixInner_self (some key.1) false _ (f key)⟩
  | .null => rfl
  | .bool b => decide_eq_true rfl
  | .number n => decide_eq_true rfl
  | .string text => decide_eq_true rfl

theorem isAnthropicCachePrefixItems_self :
    ∀ items : List (Value N), isAnthropicCachePrefixItems items items = true
  | [] => rfl
  | item :: items => by
    rw [isAnthropicCachePrefixItems, isAnthropicCachePrefixInner_self none false false item,
      isAnthropicCachePrefixItems_self items, Bool.and_self]

end

theorem isAnthropicCachePrefixInner_object {keys keys' : Finset String}
    {f : {key // key ∈ keys} → Value N} {g : {key // key ∈ keys'} → Value N}
    {parentKey : Option String} {topLevel appendOk : Bool} :
    isAnthropicCachePrefixInner parentKey topLevel appendOk (.object keys f) (.object keys' g) =
        true ↔
      sameSize topLevel parentKey keys keys' = true ∧
        ∀ key v, (Value.object keys f).get key = some v →
          isIgnoredKey key topLevel parentKey = false →
          ∃ w, (Value.object keys' g).get key = some w ∧
            isAnthropicCachePrefixInner (some key) false (decide (key = "content") &&
              decide ((Value.object keys f).get "role" = (Value.object keys' g).get "role"))
              v w = true := by
  rw [isAnthropicCachePrefixInner]
  simp only [Bool.and_eq_true, decide_eq_true_eq]
  refine and_congr_right fun _ => ⟨fun h key v hget hkept => ?_, fun h key hkept => ?_⟩
  · obtain ⟨_, _, ⟨⟩, hkey⟩ := Value.get_isSome hget
    rw [Value.get_object hkey] at hget
    cases hget
    obtain ⟨hkey', hinner⟩ := h ⟨key, hkey⟩ hkept
    exact ⟨_, Value.get_object hkey', hinner⟩
  · obtain ⟨w, hget, hinner⟩ := h key.1 (f key) (Value.get_object key.2) hkept
    obtain ⟨_, _, ⟨⟩, hkey'⟩ := Value.get_isSome hget
    rw [Value.get_object hkey'] at hget
    cases hget
    exact ⟨hkey', hinner⟩

variable {as bs : List (Value N)}

theorem isAnthropicCachePrefixItems_of_zip (hlen : as.length ≤ bs.length)
    (hzip : ∀ pair ∈ as.zip bs, pair.1 = pair.2) :
    isAnthropicCachePrefixItems as bs = true := by
  induction as generalizing bs with
  | nil => cases bs <;> rfl
  | cons a as ih =>
    cases bs with
    | nil => cases hlen
    | cons b bs =>
      have hab : a = b := hzip (a, b) mem_cons_self
      rw [isAnthropicCachePrefixItems, hab, isAnthropicCachePrefixInner_self, Bool.true_and]
      exact ih (Nat.le_of_succ_le_succ hlen) fun pair hp => hzip pair (mem_cons_of_mem _ hp)

theorem items_of_isAppendOnlyPrefix {a b : Value N}
    (h : isAppendOnlyPrefix a b = true) (ha : a.get "messages" = some (.array as))
    (hb : b.get "messages" = some (.array bs)) : isAnthropicCachePrefixItems as bs = true := by
  obtain ⟨keys, f, rfl, hkey⟩ := Value.get_isSome ha
  obtain ⟨keys', g, rfl, hkey'⟩ := Value.get_isSome hb
  rw [isAppendOnlyPrefix, isAppendOnlyPrefixInner] at h
  simp only [Bool.and_eq_true, decide_eq_true_eq] at h
  have hkept : isIgnoredKey "messages" true none = false := by decide
  obtain ⟨_, hinner⟩ := h.2 ⟨"messages", hkey⟩ hkept
  rw [Value.get_object hkey] at ha
  rw [Value.get_object hkey'] at hb
  rw [Option.some.inj ha, Option.some.inj hb, isAppendOnlyPrefixInner,
    if_pos (Or.inl rfl)] at hinner
  simp only [Bool.and_eq_true, decide_eq_true_eq, all_eq_true] at hinner
  exact isAnthropicCachePrefixItems_of_zip hinner.1 hinner.2

def SameRest (b₁ b₂ : Value N) : Prop :=
  ∀ key, key ≠ "messages" → isIgnoredKey key true none = false →
    (b₁.get key).map (sanitizeValueWithParent false (some key)) =
      (b₂.get key).map (sanitizeValueWithParent false (some key))

section Cuts

variable {b₁ b₂ : Value N} {before₁ before₂ items₁ items₂ : List (Value N)}
  {message₁ message₂ marker₁ marker₂ : Value N} (c₁ : Cut b₁ before₁ message₁ items₁ marker₁)
  (c₂ : Cut b₂ before₂ message₂ items₂ marker₂)

include c₁ c₂

omit [DecidableEq N] in
theorem Cut.get_rest (h : SameRest b₁ b₂) {key : String} (hkey : key ≠ "messages") :
    (bodyForCacheGuard b₁).get key = (bodyForCacheGuard b₂).get key := by
  rw [c₁.get, c₂.get]
  split_ifs with hignored
  · rfl
  · rw [Bool.not_eq_true] at hignored
    have hsanitize : ∀ messageIndex contentIndex,
        (AnthropicCachePrefixBoundary.messages messageIndex contentIndex).sanitize key =
          (sanitizeValueWithParent false (some key) : Value N → Value N) := by
      intro messageIndex contentIndex
      funext value
      rw [AnthropicCachePrefixBoundary.sanitize, if_neg hkey]
    rw [hsanitize, hsanitize]
    exact h key hkey hignored

theorem Cut.compatible_iff (h : SameRest b₁ b₂) :
    cachePrefixCompatible (bodyForCacheGuard b₁) (bodyForCacheGuard b₂) true = true ↔
      isAnthropicCachePrefixItems (prefixMessages b₁) (prefixMessages b₂) = true := by
  have h₁ := c₁.get_messages
  have h₂ := c₂.get_messages
  rw [← c₁.prefixMessages_eq] at h₁
  rw [← c₂.prefixMessages_eq] at h₂
  have hrest : ∀ key, key ≠ "messages" →
      (bodyForCacheGuard b₁).get key = (bodyForCacheGuard b₂).get key := fun key =>
    c₁.get_rest c₂ h
  generalize bodyForCacheGuard b₁ = p at h₁ hrest ⊢
  generalize bodyForCacheGuard b₂ = q at h₂ hrest ⊢
  rw [cachePrefixCompatible, Bool.true_and, Bool.or_eq_true]
  constructor
  · rintro (happend | hanthropic)
    · exact items_of_isAppendOnlyPrefix happend h₁ h₂
    · obtain ⟨keys, f, rfl, hkey⟩ := Value.get_isSome h₁
      obtain ⟨keys', g, rfl, hkey'⟩ := Value.get_isSome h₂
      obtain ⟨-, hall⟩ := isAnthropicCachePrefixInner_object.mp hanthropic
      obtain ⟨w, hw, hinner⟩ := hall "messages" _ h₁ (by decide)
      cases h₂.symm.trans hw
      rw [isAnthropicCachePrefixInner, if_pos (Or.inl rfl)] at hinner
      exact hinner
  · intro hitems
    right
    obtain ⟨keys, f, rfl, hkey⟩ := Value.get_isSome h₁
    obtain ⟨keys', g, rfl, hkey'⟩ := Value.get_isSome h₂
    have hkeys : keys = keys' := by
      ext key
      by_cases hmsgs : key = "messages"
      · rw [hmsgs]
        exact iff_of_true hkey hkey'
      · have hget := hrest key hmsgs
        constructor
        · intro hmem
          by_contra hnot
          rw [Value.get_object hmem, Value.get_eq_none hnot] at hget
          cases hget
        · intro hmem
          by_contra hnot
          rw [Value.get_eq_none hnot, Value.get_object hmem] at hget
          cases hget
    refine isAnthropicCachePrefixInner_object.mpr ⟨?_, fun key v hv _ => ?_⟩
    · rw [hkeys]
      exact sameSize_self _ _ _
    · by_cases hmsgs : key = "messages"
      · subst hmsgs
        cases h₁.symm.trans hv
        refine ⟨_, h₂, ?_⟩
        rw [isAnthropicCachePrefixInner, if_pos (Or.inl rfl)]
        exact hitems
      · exact ⟨v, (hrest key hmsgs).symm.trans hv, isAnthropicCachePrefixInner_self _ _ _ v⟩

end Cuts

end Compare

end CacheGuard
