import Mathlib.Data.Finset.Card
import Mathlib.Data.Fintype.Basic
import Mathlib.Data.String.Basic

/-! # The prompt cache guard

A provider request is compared with the last one whose prefix the provider has cached. Bodies are
cut off at their last cache marker and stripped of what does not take part in the cached prefix;
then the new one has to continue the old one.
-/
namespace CacheGuard

inductive Value (N : Type) where
  | null
  | bool (b : Bool)
  | number (n : N)
  | string (text : String)
  | array (items : List (Value N))
  | object (keys : Finset String) (field : {key // key ∈ keys} → Value N)

variable {N : Type}

namespace Value

section Equality

variable [DecidableEq N]

mutual

def beq : Value N → Value N → Bool
  | .null, .null => true
  | .bool a, .bool b => decide (a = b)
  | .number a, .number b => decide (a = b)
  | .string a, .string b => decide (a = b)
  | .array as, .array bs => beqItems as bs
  | .object keys f, .object keys' g =>
    if h : keys = keys' then decide (∀ key : {key // key ∈ keys}, beq (f key) (g ⟨key.1, h ▸ key.2⟩))
    else false
  | _, _ => false

def beqItems : List (Value N) → List (Value N) → Bool
  | [], [] => true
  | a :: as, b :: bs => beq a b && beqItems as bs
  | _, _ => false

end

mutual

theorem beq_iff : ∀ a b : Value N, beq a b = true ↔ a = b
  | .null, b => by cases b <;> simp [beq]
  | .bool _, b => by cases b <;> simp [beq]
  | .number _, b => by cases b <;> simp [beq]
  | .string _, b => by cases b <;> simp [beq]
  | .array items, b => by cases b <;> simp [beq, beqItems_iff items]
  | .object keys f, b => by
    cases b with
    | object keys' g =>
      rw [beq]
      split_ifs with h
      · subst h
        rw [decide_eq_true_eq]
        simp only [beq_iff (f _), object.injEq, true_and, heq_eq_eq]
        exact funext_iff.symm
      · simp [h]
    | _ => simp [beq]

theorem beqItems_iff : ∀ as bs : List (Value N), beqItems as bs = true ↔ as = bs
  | [], bs => by cases bs <;> simp [beqItems]
  | a :: as, bs => by cases bs <;> simp [beqItems, beq_iff a, beqItems_iff as]

end

instance : DecidableEq (Value N) := fun a b => decidable_of_iff (beq a b = true) (beq_iff a b)

end Equality

def get (value : Value N) (key : String) : Option (Value N) :=
  match value with
  | .object keys field => if h : key ∈ keys then some (field ⟨key, h⟩) else none
  | _ => none

def asArray : Value N → Option (List (Value N))
  | .array items => some items
  | _ => none

def ofFields (fields : List (String × Value N)) : Value N :=
  .object (fields.map Prod.fst).toFinset fun key => (fields.lookup key.1).getD .null

end Value

def recursivelyIgnoredKeys : List String :=
  ["cache_control", "request_attempt_id", "usage", "finish_reason", "checkpoints"]

def topLevelIgnoredKeys : List String :=
  ["temperature", "max_tokens", "max_completion_tokens", "max_output_tokens",
    "frequency_penalty", "presence_penalty", "stop", "stop_sequences", "n"]

def isIgnoredKey (key : String) (topLevel : Bool) (parentKey : Option String) : Bool :=
  decide (key ∈ recursivelyIgnoredKeys) ||
    (decide (key ∈ ["started_at_ms", "completed_at_ms"]) && decide (parentKey =
      some "tool_calls")) ||
    (topLevel && decide (key ∈ topLevelIgnoredKeys))

/-- The text of a block that is nothing but text. -/
def plainText (block : Value N) : Option String :=
  match block with
  | .object keys _ =>
    if keys.card ≠ 2 then none
    else
      match block.get "type", block.get "text" with
      | some (.string "text"), some (.string text) => some text
      | _, _ => none
  | _ => none

def canonicalizeContentShape (value : Value N) (parentKey : Option String) : Value N :=
  if parentKey ≠ some "content" then value
  else
    match value with
    | .array [block] => ((plainText block).map Value.string).getD value
    | _ => value

mutual

def sanitizeValueWithParent (topLevel : Bool) (parentKey : Option String) : Value N → Value N
  | .object keys field =>
    .object (keys.filter fun key => !isIgnoredKey key topLevel parentKey) fun key =>
      sanitizeValueWithParent false (some key.1) (field ⟨key.1, (Finset.mem_filter.mp key.2).1⟩)
  | .array items => canonicalizeContentShape (.array (sanitizeItems parentKey items)) parentKey
  | .null => .null
  | .bool b => .bool b
  | .number n => .number n
  | .string text => .string text

def sanitizeItems (parentKey : Option String) : List (Value N) → List (Value N)
  | [] => []
  | item :: items => sanitizeValueWithParent false parentKey item :: sanitizeItems parentKey items

end

def sanitizeBodyForCacheGuard (value : Value N) : Value N := sanitizeValueWithParent true none value

def hasMarker (value : Value N) : Bool := (value.get "cache_control").isSome

mutual

def countCacheControlMarkers : Value N → ℕ
  | .array items => countItemMarkers items
  | _ => 0

def countItemMarkers : List (Value N) → ℕ
  | [] => 0
  | item :: items =>
    (if hasMarker item then 1 else 0) + countContentMarkers item + countItemMarkers items

def countContentMarkers : Value N → ℕ
  | .object keys field =>
    if h : "content" ∈ keys then countCacheControlMarkers (field ⟨"content", h⟩) else 0
  | _ => 0

end

def hasAnthropicExplicitCacheMarkers (value : Value N) : Bool :=
  let count (key : String) : ℕ := ((value.get key).map countCacheControlMarkers).getD 0
  decide (0 < count "system" + count "messages" + count "tools")

inductive AnthropicCachePrefixBoundary where
  | messages (messageIndex contentIndex : ℕ)
  | system (index : ℕ)
  | tools (index : ℕ)
  deriving DecidableEq

def lastDirectCacheMarkerIndex (values : List (Value N)) : Option ℕ :=
  (values.reverse.findIdx? hasMarker).map fun index => values.length - 1 - index

def lastMessageCacheMarkerIndex (messages : List (Value N)) : Option (ℕ × ℕ) :=
  messages.zipIdx.reverse.findSome? fun entry => do
    let content ← (entry.1.get "content").bind Value.asArray
    let contentIndex ← lastDirectCacheMarkerIndex content
    some (entry.2, contentIndex)

def anthropicCachePrefixBoundary (value : Value N) : Option AnthropicCachePrefixBoundary :=
  let array (key : String) := (value.get key).bind Value.asArray
  match (array "messages").bind lastMessageCacheMarkerIndex with
  | some (messageIndex, contentIndex) => some (.messages messageIndex contentIndex)
  | none =>
    match (array "system").bind lastDirectCacheMarkerIndex with
    | some index => some (.system index)
    | none => ((array "tools").bind lastDirectCacheMarkerIndex).map .tools

def sanitizeArrayThroughCacheMarker (value : Value N) (index : ℕ) (parentKey : String) : Value N :=
  match value with
  | .array items =>
    canonicalizeContentShape
      (.array ((items.take (index + 1)).map (sanitizeValueWithParent false (some parentKey))))
      (some parentKey)
  | _ => sanitizeValueWithParent false (some parentKey) value

def sanitizeMessageThroughCacheMarker (value : Value N) (contentIndex : ℕ) : Value N :=
  match value with
  | .object keys field =>
    .object (keys.filter fun key => !isIgnoredKey key false none) fun key =>
      let value := field ⟨key.1, (Finset.mem_filter.mp key.2).1⟩
      if key.1 = "content" then sanitizeArrayThroughCacheMarker value contentIndex "content"
      else sanitizeValueWithParent false (some key.1) value
  | _ => sanitizeValueWithParent false (some "messages") value

def sanitizeMessagesThroughCacheMarker (value : Value N) (messageIndex contentIndex : ℕ) : Value N :=
  match value with
  | .array messages =>
    .array ((messages.take (messageIndex + 1)).mapIdx fun index message =>
      if index = messageIndex then sanitizeMessageThroughCacheMarker message contentIndex
      else sanitizeValueWithParent false (some "messages") message)
  | _ => sanitizeValueWithParent false (some "messages") value

namespace AnthropicCachePrefixBoundary

def keeps (boundary : AnthropicCachePrefixBoundary) (key : String) : Bool :=
  match boundary with
  | .messages _ _ => true
  | .system _ => key ≠ "messages"
  | .tools _ => key ≠ "messages" && key ≠ "system"

def sanitize (boundary : AnthropicCachePrefixBoundary) (key : String) (value : Value N) : Value N :=
  match boundary with
  | .messages messageIndex contentIndex =>
    if key = "messages" then sanitizeMessagesThroughCacheMarker value messageIndex contentIndex
    else sanitizeValueWithParent false (some key) value
  | .system index =>
    if key = "system" then sanitizeArrayThroughCacheMarker value index "system"
    else sanitizeValueWithParent false (some key) value
  | .tools index =>
    if key = "tools" then sanitizeArrayThroughCacheMarker value index "tools"
    else sanitizeValueWithParent false (some key) value

end AnthropicCachePrefixBoundary

def sanitizeAnthropicCachePrefix (value : Value N) (boundary : AnthropicCachePrefixBoundary) :
    Value N :=
  match value with
  | .object keys field =>
    .object (keys.filter fun key => !isIgnoredKey key true none && boundary.keeps key) fun key =>
      boundary.sanitize key.1 (field ⟨key.1, (Finset.mem_filter.mp key.2).1⟩)
  | _ => sanitizeBodyForCacheGuard value

def bodyForCacheGuardWithBoundary (value : Value N)
    (boundary : Option AnthropicCachePrefixBoundary) : Value N :=
  match boundary with
  | some boundary => sanitizeAnthropicCachePrefix value boundary
  | none => sanitizeBodyForCacheGuard value

def bodyForCacheGuard (value : Value N) : Value N :=
  bodyForCacheGuardWithBoundary value (anthropicCachePrefixBoundary value)

section Compatible

variable [DecidableEq N]

def sameSize (topLevel : Bool) (parentKey : Option String) (keys keys' : Finset String) : Bool :=
  let kept (keys : Finset String) := keys.filter fun key => !isIgnoredKey key topLevel parentKey
  decide ((kept keys).card = (kept keys').card)

def isAppendOnlyPrefixInner (parentKey : Option String) (topLevel : Bool) :
    Value N → Value N → Bool
  | .array a, .array b =>
    if parentKey = some "messages" ∨ parentKey = some "input" then
      decide (a.length ≤ b.length) && (a.zip b).all fun pair => decide (pair.1 = pair.2)
    else decide (Value.array a = .array b)
  | .object keys f, .object keys' g =>
    sameSize topLevel parentKey keys keys' &&
      decide (∀ key : {key // key ∈ keys}, isIgnoredKey key.1 topLevel parentKey = false →
        ∃ h : key.1 ∈ keys',
          isAppendOnlyPrefixInner (some key.1) false (f key) (g ⟨key.1, h⟩) = true)
  | .null, .null => true
  | .bool a, .bool b => decide (a = b)
  | .number a, .number b => decide (a = b)
  | .string a, .string b => decide (a = b)
  | _, _ => false

def isAppendOnlyPrefix (prev next : Value N) : Bool := isAppendOnlyPrefixInner none true prev next

mutual

def isAnthropicCachePrefixInner (parentKey : Option String) (topLevel contentAppendOk : Bool) :
    Value N → Value N → Bool
  | .array a, .array b =>
    if parentKey = some "messages" ∨ contentAppendOk = true then isAnthropicCachePrefixItems a b
    else decide (Value.array a = .array b)
  | .object keys f, .object keys' g =>
    let sameRole := decide ((Value.object keys f).get "role" = (Value.object keys' g).get "role")
    sameSize topLevel parentKey keys keys' &&
      decide (∀ key : {key // key ∈ keys}, isIgnoredKey key.1 topLevel parentKey = false →
        ∃ h : key.1 ∈ keys',
          isAnthropicCachePrefixInner (some key.1) false (decide (key.1 = "content") && sameRole)
            (f key) (g ⟨key.1, h⟩) = true)
  | .null, .null => true
  | .bool a, .bool b => decide (a = b)
  | .number a, .number b => decide (a = b)
  | .string a, .string b => decide (a = b)
  | _, _ => false

def isAnthropicCachePrefixItems : List (Value N) → List (Value N) → Bool
  | [], _ => true
  | _ :: _, [] => false
  | a :: as, b :: bs =>
    isAnthropicCachePrefixInner none false false a b && isAnthropicCachePrefixItems as bs

end

def isAnthropicCachePrefixCompatible (prev next : Value N) : Bool :=
  isAnthropicCachePrefixInner none true false prev next

def cachePrefixCompatible (prev next : Value N) (hasExplicitMarkers : Bool) : Bool :=
  isAppendOnlyPrefix prev next || hasExplicitMarkers && isAnthropicCachePrefixCompatible prev next

end Compatible

end CacheGuard
