import RefactEngine.CachePrefix

/-! # Growth that the cache guard lets pass

The guard takes a message for a continuation if content lists in it have grown at their ends, in
every message and at every depth, and a lone text block for a string. Where this is not the order
of the flat sequence, it passes requests that have lost the cached prefix and stops others that have
kept it.
-/
namespace CacheGuard

open List

variable {N : Type}

mutual

def Clean (parentKey : Option String) : Value N → Prop
  | .object keys f => (∀ key ∈ keys, isIgnoredKey key false parentKey = false) ∧
    ∀ key : {key // key ∈ keys}, Clean (some key.1) (f key)
  | .array items => CleanItems items
  | .null | .bool _ | .number _ | .string _ => True

def CleanItems : List (Value N) → Prop
  | [] => True
  | item :: items => Clean none item ∧ CleanItems items

end

variable {parentKey : Option String} {key : String}

theorem isIgnoredKey_weaken {topLevel : Bool} (h : isIgnoredKey key topLevel parentKey = false) :
    isIgnoredKey key false none = false := by
  simp only [isIgnoredKey, Bool.or_eq_false_iff] at h ⊢
  simp [h.1.1]

theorem isIgnoredKey_inner {topLevel : Bool} (h : isIgnoredKey key topLevel parentKey = false) :
    isIgnoredKey key false parentKey = false := by
  simp only [isIgnoredKey, Bool.or_eq_false_iff] at h ⊢
  exact ⟨h.1, rfl⟩

theorem Clean.weaken {value : Value N} (h : Clean parentKey value) : Clean none value := by
  cases value with
  | object keys f =>
    rw [Clean] at h ⊢
    exact ⟨fun key hkey => isIgnoredKey_weaken (h.1 key hkey), h.2⟩
  | array items =>
    rw [Clean] at h ⊢
    exact h
  | _ => trivial

theorem clean_canonicalize {items : List (Value N)} (h : CleanItems items) (parent : Option String)
      :
    Clean parentKey (canonicalizeContentShape (.array items) parent) := by
  unfold canonicalizeContentShape
  split_ifs
  · rw [Clean]
    exact h
  · match items, h with
    | [], h => exact h
    | [block], h =>
      cases htext : plainText block with
      | none =>
        simp only [htext, Option.map_none, Option.getD_none]
        rw [Clean]
        exact h
      | some text =>
        simp only [htext, Option.map_some, Option.getD_some]
        trivial
    | _ :: _ :: _, h => exact h

mutual

theorem clean_sanitize (topLevel : Bool) (parentKey : Option String) :
    ∀ value : Value N, Clean parentKey (sanitizeValueWithParent topLevel parentKey value)
  | .object keys f => by
    rw [sanitizeValueWithParent, Clean]
    refine ⟨fun key hkey => ?_, fun key => ?_⟩
    · have hkept := (Finset.mem_filter.mp hkey).2
      rw [Bool.not_eq_true'] at hkept
      exact isIgnoredKey_inner hkept
    · exact clean_sanitize false (some key.1) (f ⟨key.1, (Finset.mem_filter.mp key.2).1⟩)
  | .array items => by
    rw [sanitizeValueWithParent]
    exact clean_canonicalize (clean_sanitizeItems parentKey items) parentKey
  | .null => trivial
  | .bool _ => trivial
  | .number _ => trivial
  | .string _ => trivial

theorem clean_sanitizeItems (parentKey : Option String) :
    ∀ items : List (Value N), CleanItems (sanitizeItems parentKey items)
  | [] => trivial
  | item :: items => by
    rw [sanitizeItems, CleanItems]
    exact ⟨(clean_sanitize false parentKey item).weaken, clean_sanitizeItems parentKey items⟩

end

theorem clean_sanitizeArrayThrough (value : Value N) (index : ℕ) (parentKey : String) :
    Clean (some parentKey) (sanitizeArrayThroughCacheMarker value index parentKey) := by
  cases value with
  | array items =>
    rw [sanitizeArrayThroughCacheMarker, ← sanitizeItems_eq_map]
    exact clean_canonicalize (clean_sanitizeItems _ _) _
  | object keys f => exact clean_sanitize _ _ _
  | _ => trivial

theorem clean_sanitizeThrough {message : Value N} (contentIndex : ℕ) :
    Clean none (sanitizeMessageThroughCacheMarker message contentIndex) := by
  cases message with
  | object keys f =>
    rw [sanitizeMessageThroughCacheMarker, Clean]
    refine ⟨fun key hkey => ?_, fun key => ?_⟩
    · have hkept := (Finset.mem_filter.mp hkey).2
      rwa [Bool.not_eq_true'] at hkept
    · simp only
      split_ifs with hcont
      · have hkey : some "content" = some key.1 := congrArg some hcont.symm
        exact hkey ▸ clean_sanitizeArrayThrough _ contentIndex "content"
      · exact clean_sanitize false (some key.1) _
  | _ => exact (clean_sanitize false (some "messages") _).weaken

def Value.kind : Value N → ℕ
  | .null => 0
  | .bool _ => 1
  | .number _ => 2
  | .string _ => 3
  | .array _ => 4
  | .object _ _ => 5

section Growth

variable [DecidableEq N]

def grows (key : String) (a b : Value N) : Bool :=
  decide (key = "messages") || (decide (key = "content") && decide (a.get "role" = b.get "role"))

/-- The second value is the first with items added at the ends of lists that may grow. -/
inductive Grown : Bool → Value N → Value N → Prop where
  | same (ok : Bool) (value : Value N) : Grown ok value value
  | array {as bs : List (Value N)} (hlength : as.length ≤ bs.length)
      (h : ∀ (i : ℕ) a b, as[i]? = some a → bs[i]? = some b → Grown false a b) :
      Grown true (.array as) (.array bs)
  | object (ok : Bool) {keys : Finset String} {f g : {key // key ∈ keys} → Value N}
      (h : ∀ key : {key // key ∈ keys},
        Grown (grows key.1 (.object keys f) (.object keys g)) (f key) (g key)) :
      Grown ok (.object keys f) (.object keys g)

variable {a b : Value N}

variable {ok : Bool}

theorem Grown.kind (h : Grown ok a b) : a.kind = b.kind := by
  cases h <;> rfl

theorem Grown.eq (h : Grown ok a b) :
    a = b ∨ (∃ as, a = .array as ∧ ok = true) ∨ ∃ keys f, a = .object keys f := by
  cases h with
  | same => exact Or.inl rfl
  | array => exact Or.inr (Or.inl ⟨_, rfl, rfl⟩)
  | object => exact Or.inr (Or.inr ⟨_, _, rfl⟩)

/-- The second list of messages is as long, and each message of the first has only grown. -/
def GrownItems (as bs : List (Value N)) : Prop :=
  as.length ≤ bs.length ∧
    ∀ (i : ℕ) a b, as[i]? = some a → bs[i]? = some b → Grown false a b

variable {as bs : List (Value N)}

theorem grownItems_cons : GrownItems (a :: as) (b :: bs) ↔ Grown false a b ∧ GrownItems as bs := by
  rw [GrownItems, GrownItems, length_cons, length_cons, Nat.succ_le_succ_iff]
  constructor
  · rintro ⟨hlen, h⟩
    exact ⟨h 0 a b rfl rfl, hlen, fun i x y hx hy => h (i + 1) x y hx hy⟩
  · rintro ⟨hab, hlen, h⟩
    refine ⟨hlen, fun i x y hx hy => ?_⟩
    cases i with
    | zero =>
      cases hx
      cases hy
      exact hab
    | succ i => exact h i x y hx hy

theorem grown_array_iff : Grown true (.array as) (.array bs) ↔ GrownItems as bs := by
  constructor
  · intro h
    cases h with
    | same =>
      refine ⟨le_rfl, fun i a b ha hb => ?_⟩
      cases ha.symm.trans hb
      exact .same false a
    | array hlen h => exact ⟨hlen, h⟩
  · exact fun h => .array h.1 h.2

variable {keys keys' : Finset String}

theorem grown_object_iff {f : {key // key ∈ keys} → Value N} {g : {key // key ∈ keys'} → Value N} :
    Grown ok (.object keys f) (.object keys' g) ↔ keys = keys' ∧
      ∀ key v, (Value.object keys f).get key = some v →
        ∃ w, (Value.object keys' g).get key = some w ∧
          Grown (grows key (.object keys f) (.object keys' g)) v w := by
  constructor
  · intro h
    cases h with
    | same => exact ⟨rfl, fun key v hv => ⟨v, hv, .same _ v⟩⟩
    | object _ h =>
      refine ⟨rfl, fun key v hv => ?_⟩
      obtain ⟨_, _, ⟨⟩, hkey⟩ := Value.get_isSome hv
      rw [Value.get_object hkey] at hv
      cases hv
      exact ⟨_, Value.get_object hkey, h ⟨key, hkey⟩⟩
  · rintro ⟨rfl, h⟩
    refine .object ok fun key => ?_
    obtain ⟨w, hw, hgrown⟩ := h key.1 (f key) (Value.get_object key.2)
    rw [Value.get_object key.2] at hw
    cases hw
    exact hgrown

theorem sameSize_iff {parentKey : Option String}
    (h : ∀ key ∈ keys, isIgnoredKey key false parentKey = false)
    (h' : ∀ key ∈ keys', isIgnoredKey key false parentKey = false) :
    sameSize false parentKey keys keys' = true ↔ keys.card = keys'.card := by
  have hall : ∀ {keys : Finset String}, (∀ key ∈ keys, isIgnoredKey key false parentKey = false) →
      (keys.filter fun key => !isIgnoredKey key false parentKey) = keys := fun h =>
    Finset.filter_true_of_mem fun key hkey => by rw [h key hkey]; rfl
  simp only [sameSize, hall h, hall h', decide_eq_true_eq]

mutual

theorem inner_iff_grown (parentKey : Option String) (appendOk : Bool) :
    ∀ a b : Value N, Clean parentKey a → Clean parentKey b →
      (isAnthropicCachePrefixInner parentKey false appendOk a b = true ↔
        Grown (decide (parentKey = some "messages") || appendOk) a b)
  | .array as, b, ha, hb => by
    cases b with
    | array bs =>
      rw [Clean] at ha hb
      have hitems := items_iff_grown as bs ha hb
      rw [isAnthropicCachePrefixInner]
      split_ifs with hok
      · have htrue : (decide (parentKey = some "messages") || appendOk) = true := by
          simpa using hok
        rw [htrue, grown_array_iff]
        exact hitems
      · have hfalse : (decide (parentKey = some "messages") || appendOk) = false := by
          simpa using hok
        rw [hfalse, decide_eq_true_eq]
        constructor
        · intro heq
          rw [heq]
          exact .same false _
        · intro h
          rcases h.eq with heq | ⟨_, _, hok⟩ | ⟨_, _, heq⟩
          · exact heq
          · cases hok
          · cases heq
    | _ =>
      apply iff_of_false (by simp [isAnthropicCachePrefixInner])
      exact fun h => absurd h.kind (by simp [Value.kind])
  | .object keys f, b, ha, hb => by
    cases b with
    | object keys' g =>
      rw [Clean] at ha hb
      rw [isAnthropicCachePrefixInner_object, grown_object_iff, sameSize_iff ha.1 hb.1]
      constructor
      · rintro ⟨hcard, h⟩
        have hsub : keys ⊆ keys' := by
          intro key hkey
          obtain ⟨w, hw, -⟩ := h key _ (Value.get_object hkey) (ha.1 key hkey)
          obtain ⟨_, _, ⟨⟩, hkey'⟩ := Value.get_isSome hw
          exact hkey'
        have hkeys : keys = keys' := Finset.eq_of_subset_of_card_le hsub hcard.ge
        refine ⟨hkeys, fun key v hv => ?_⟩
        obtain ⟨_, _, ⟨⟩, hkey⟩ := Value.get_isSome hv
        obtain ⟨w, hw, hinner⟩ := h key v hv (ha.1 key hkey)
        refine ⟨w, hw, ?_⟩
        have hkey' := hsub hkey
        rw [Value.get_object hkey] at hv
        rw [Value.get_object hkey'] at hw
        cases hv
        cases hw
        have hgrown := (inner_iff_grown (some key) _ (f ⟨key, hkey⟩) (g ⟨key, hkey'⟩)
          (ha.2 ⟨key, hkey⟩) (hb.2 ⟨key, hkey'⟩)).mp hinner
        simpa only [grows, Option.some.injEq] using hgrown
      · rintro ⟨rfl, h⟩
        refine ⟨rfl, fun key v hv _ => ?_⟩
        obtain ⟨_, _, ⟨⟩, hkey⟩ := Value.get_isSome hv
        obtain ⟨w, hw, hgrown⟩ := h key v hv
        refine ⟨w, hw, ?_⟩
        rw [Value.get_object hkey] at hv hw
        cases hv
        cases hw
        refine (inner_iff_grown (some key) _ (f ⟨key, hkey⟩) (g ⟨key, hkey⟩)
          (ha.2 ⟨key, hkey⟩) (hb.2 ⟨key, hkey⟩)).mpr ?_
        simpa only [grows, Option.some.injEq] using hgrown
    | _ =>
      apply iff_of_false (by simp [isAnthropicCachePrefixInner])
      exact fun h => absurd h.kind (by simp [Value.kind])
  | .null, b, _, _ => by
    cases b with
    | null => exact iff_of_true rfl (.same _ _)
    | _ =>
      apply iff_of_false (by simp [isAnthropicCachePrefixInner])
      exact fun h => absurd h.kind (by simp [Value.kind])
  | .bool x, b, _, _ => by
    cases b with
    | bool y =>
      rw [isAnthropicCachePrefixInner, decide_eq_true_eq]
      refine ⟨fun h => h ▸ .same _ _, fun h => ?_⟩
      rcases h.eq with heq | ⟨_, heq, _⟩ | ⟨_, _, heq⟩ <;> cases heq
      rfl
    | _ =>
      apply iff_of_false (by simp [isAnthropicCachePrefixInner])
      exact fun h => absurd h.kind (by simp [Value.kind])
  | .number x, b, _, _ => by
    cases b with
    | number y =>
      rw [isAnthropicCachePrefixInner, decide_eq_true_eq]
      refine ⟨fun h => h ▸ .same _ _, fun h => ?_⟩
      rcases h.eq with heq | ⟨_, heq, _⟩ | ⟨_, _, heq⟩ <;> cases heq
      rfl
    | _ =>
      apply iff_of_false (by simp [isAnthropicCachePrefixInner])
      exact fun h => absurd h.kind (by simp [Value.kind])
  | .string x, b, _, _ => by
    cases b with
    | string y =>
      rw [isAnthropicCachePrefixInner, decide_eq_true_eq]
      refine ⟨fun h => h ▸ .same _ _, fun h => ?_⟩
      rcases h.eq with heq | ⟨_, heq, _⟩ | ⟨_, _, heq⟩ <;> cases heq
      rfl
    | _ =>
      apply iff_of_false (by simp [isAnthropicCachePrefixInner])
      exact fun h => absurd h.kind (by simp [Value.kind])

theorem items_iff_grown : ∀ as bs : List (Value N), CleanItems as → CleanItems bs →
    (isAnthropicCachePrefixItems as bs = true ↔ GrownItems as bs)
  | [], bs, _, _ => by
    cases bs <;> exact iff_of_true rfl ⟨Nat.zero_le _, nofun⟩
  | a :: as, bs, ha, hb => by
    cases bs with
    | nil => exact iff_of_false nofun fun h => absurd h.1 (Nat.not_succ_le_zero _)
    | cons b bs =>
      rw [CleanItems] at ha hb
      rw [isAnthropicCachePrefixItems, Bool.and_eq_true, grownItems_cons,
        inner_iff_grown none false a b ha.1 hb.1, items_iff_grown as bs ha.2 hb.2]
      rfl

end

end Growth

theorem flatMap_entries_cons (message : Value N) (messages : List (Value N)) :
    (message :: messages).flatMap entries =
      .message (otherFields message) :: ((blocks message).map .block ++
        messages.flatMap entries) := by
  rw [flatMap_cons, entries, cons_append]

variable {xs ys messages : List (Value N)}

theorem blocks_prefix_iff :
    xs.map Entry.block <+: ys.map Entry.block ++ messages.flatMap entries ↔ xs <+: ys := by
  induction xs generalizing ys with
  | nil => exact iff_of_true nil_prefix nil_prefix
  | cons x xs ih =>
    cases ys with
    | nil =>
      refine iff_of_false (fun h => ?_) fun h => by cases h.length_le
      cases messages with
      | nil => cases h.length_le
      | cons message messages =>
        rw [flatMap_entries_cons, map_nil, nil_append, map_cons,
          cons_prefix_cons] at h
        cases h.1
    | cons y ys =>
      rw [map_cons, map_cons, cons_append, cons_prefix_cons, ih,
        cons_prefix_cons, Entry.block.injEq]

variable {a : Value N}

theorem blocks_append_prefix_iff {as : List (Value N)} :
    xs.map Entry.block ++ (a :: as).flatMap entries <+:
        ys.map Entry.block ++ messages.flatMap entries ↔
      xs = ys ∧ (a :: as).flatMap entries <+: messages.flatMap entries := by
  induction xs generalizing ys with
  | nil =>
    cases ys with
    | nil => simp
    | cons y ys =>
      refine iff_of_false (fun h => ?_) fun h => by cases h.1
      rw [flatMap_entries_cons, map_nil, nil_append, map_cons, cons_append,
        cons_prefix_cons] at h
      cases h.1
  | cons x xs ih =>
    cases ys with
    | nil =>
      refine iff_of_false (fun h => ?_) fun h => by cases h.1
      cases messages with
      | nil => cases h.length_le
      | cons message messages =>
        rw [flatMap_entries_cons message, map_nil, nil_append, map_cons,
          cons_append, cons_prefix_cons] at h
        cases h.1
    | cons y ys =>
      rw [map_cons, map_cons, cons_append, cons_append,
        cons_prefix_cons, ih, List.cons.injEq, Entry.block.injEq, and_assoc]

/-- The messages go on where the first ones end: within the last message or after it. -/
def Continues : List (Value N) → List (Value N) → Prop
  | [], _ => True
  | _ :: _, [] => False
  | [a], b :: _ => otherFields a = otherFields b ∧ blocks a <+: blocks b
  | a :: a' :: as, b :: bs => entries a = entries b ∧ Continues (a' :: as) bs

theorem flatPrefix_iff_continues (as bs : List (Value N)) :
    as.flatMap entries <+: bs.flatMap entries ↔ Continues as bs := by
  fun_induction Continues as bs with
  | case1 => exact iff_of_true nil_prefix trivial
  | case2 a as => exact iff_of_false (fun h => by cases h.length_le) id
  | case3 a b bs =>
    rw [flatMap_entries_cons, flatMap_entries_cons, cons_prefix_cons, flatMap_nil,
      append_nil, blocks_prefix_iff, Entry.message.injEq]
  | case4 a a' as b bs ih =>
    rw [flatMap_entries_cons, flatMap_entries_cons b, cons_prefix_cons,
      blocks_append_prefix_iff, ih, entries, entries, List.cons.injEq, and_assoc,
      List.map_inj_right fun _ _ => Entry.block.inj]

/-- As `Continues`, with the same values for all messages but the last. -/
def Appends : List (Value N) → List (Value N) → Prop
  | [], _ => True
  | _ :: _, [] => False
  | [a], b :: _ => otherFields a = otherFields b ∧ blocks a <+: blocks b
  | a :: a' :: as, b :: bs => a = b ∧ Appends (a' :: as) bs

variable (message : Value N)

def IsText : Prop := ∃ text, message.get "content" = some (.string text)

def IsList : Prop := ∃ items, message.get "content" = some (.array items)

def TextAgainstList : List (Value N) → List (Value N) → Prop
  | [a], b :: _ => IsText a ∧ IsList b
  | _ :: as, _ :: bs => TextAgainstList as bs
  | _, _ => False

def EmptyAgainstNone (a b : Value N) : Prop :=
  a.get "content" = some (.array []) ∧ b.get "content" = none ∨
    a.get "content" = none ∧ b.get "content" = some (.array [])

def LosesEmpty : List (Value N) → List (Value N) → Prop
  | a :: a' :: as, b :: bs => EmptyAgainstNone a b ∨ LosesEmpty (a' :: as) bs
  | _, _ => False

def Canonical : Prop :=
  ∀ text, message.get "content" ≠ some (.array [textBlock text])

theorem canonicalize_ne (items : List (Value N)) (text : String) :
    canonicalizeContentShape (.array items) (some "content") ≠ .array [textBlock text] := by
  unfold canonicalizeContentShape
  rw [if_neg (not_not.mpr rfl)]
  match items with
  | [] => nofun
  | [block] =>
    cases htext : plainText block with
    | none =>
      simp only [htext, Option.map_none, Option.getD_none]
      intro heq
      cases heq
      cases htext.symm.trans (plainText_eq_some.mpr rfl)
    | some text => simp [htext]
  | _ :: _ :: _ => nofun

theorem canonical_sanitize (message : Value N) :
    Canonical (sanitizeValueWithParent false (some "messages") message) := by
  intro text hcont
  by_cases hobject : message.IsObject
  · rw [get_sanitize hobject, if_neg (by decide)] at hcont
    obtain ⟨value, -, hvalue⟩ := Option.map_eq_some_iff.mp hcont
    cases value with
    | array items =>
      rw [sanitizeValueWithParent] at hvalue
      exact canonicalize_ne _ text hvalue
    | _ => cases hvalue
  · obtain ⟨keys, field, hkeys, -⟩ := Value.get_isSome hcont
    cases message with
    | object keys field => exact hobject ⟨keys, field, rfl⟩
    | _ => cases hkeys

theorem canonical_sanitizeThrough {message : Value N} {items : List (Value N)}
    (h : message.get "content" = some (.array items)) (contentIndex : ℕ) :
    Canonical (sanitizeMessageThroughCacheMarker message contentIndex) := by
  intro text hcont
  rw [get_sanitizeThrough (Value.isObject_of_get h), if_neg (by decide), h, Option.map_some,
    if_pos rfl, sanitizeArrayThroughCacheMarker, Option.some.injEq] at hcont
  exact canonicalize_ne _ text hcont

theorem cleanItems_of_forall {items : List (Value N)} (h : ∀ item ∈ items, Clean none item) :
    CleanItems items := by
  induction items with
  | nil => trivial
  | cons item items ih =>
    rw [CleanItems]
    exact ⟨h item mem_cons_self, ih fun x hx => h x (mem_cons_of_mem _ hx)⟩

section Cuts

variable {body : Value N} {before : List (Value N)} {message marker : Value N}
  {items : List (Value N)}

theorem Cut.clean (h : Cut body before message items marker) :
    CleanItems (prefixMessages body) := by
  apply cleanItems_of_forall
  intro item hitem
  rw [h.prefixMessages_eq, mem_append, mem_map, mem_singleton] at hitem
  rcases hitem with ⟨value, -, rfl⟩ | rfl
  · exact (clean_sanitize false (some "messages") value).weaken
  · exact clean_sanitizeThrough _

theorem Cut.canonical (h : Cut body before message items marker) :
    ∀ item ∈ prefixMessages body, Canonical item := by
  intro item hitem
  obtain ⟨rest, hcont, -⟩ := h.content
  rw [h.prefixMessages_eq, mem_append, mem_map, mem_singleton] at hitem
  rcases hitem with ⟨value, -, rfl⟩ | rfl
  · exact canonical_sanitize value
  · exact canonical_sanitizeThrough hcont _

theorem Cut.blocks_last (h : Cut body before message items marker) :
    ∀ last ∈ (prefixMessages body).getLast?, blocks last ≠ [] := by
  intro last hlast hblocks
  obtain ⟨rest, hcont, -⟩ := h.content
  rw [h.prefixMessages_eq, List.getLast?_concat, Option.mem_some_iff] at hlast
  have hents := entries_sanitizeThrough hcont items.length
  rw [hlast, entries, hblocks] at hents
  simpa using congrArg List.length hents

end Cuts

theorem content_cases (message : Value N) :
    (∃ items, message.get "content" = some (.array items) ∧ blocks message = items ∧
      otherFields message = message.without "content") ∨
    (∃ text, message.get "content" = some (.string text) ∧ blocks message = [textBlock text] ∧
      otherFields message = message.without "content") ∨
    (blocks message = [] ∧ otherFields message = message) := by
  cases hcont : message.get "content" with
  | none =>
    right; right
    simp only [blocks, otherFields, hcont, and_self]
  | some value =>
    cases value with
    | array items =>
      left
      simp only [blocks, otherFields, hcont]
      exact ⟨items, rfl, rfl, trivial⟩
    | string text =>
      right; left
      simp only [blocks, otherFields, hcont]
      exact ⟨text, rfl, rfl, trivial⟩
    | _ =>
      right; right
      simp only [blocks, otherFields, hcont, and_self]

variable {b : Value N}

theorem eq_of_without {v : Value N} (ha : a.get "content" = some v) (hb : b.get "content" = some v)
    (h : a.without "content" = b.without "content") : a = b := by
  refine Value.ext_get (Value.isObject_of_get ha) (Value.isObject_of_get hb) fun key => ?_
  by_cases hkey : key = "content"
  · rw [hkey, ha, hb]
  · have hget := congrArg (Value.get · key) h
    simp only [Value.get_without, if_neg hkey] at hget
    exact hget

theorem get_of_without (h : a.without "content" = b) : b.get "content" = none := by
  rw [← h, Value.get_without, if_pos rfl]

theorem entries_inj :
    entries a = entries b ↔ otherFields a = otherFields b ∧ blocks a = blocks b := by
  rw [entries, entries, List.cons.injEq, Entry.message.injEq,
    List.map_inj_right fun _ _ => Entry.block.inj]

/-- Two messages of snapshots with the same entries are the same, but for empty contents. -/
theorem eq_of_entries (ha : Canonical a) (hb : Canonical b) (h : entries a = entries b) :
    a = b ∨ EmptyAgainstNone a b := by
  obtain ⟨hfields, hblocks⟩ := entries_inj.mp h
  rcases content_cases a with ⟨as, hca, hba, hfa⟩ | ⟨s, hca, hba, hfa⟩ | ⟨hba, hfa⟩ <;>
    rcases content_cases b with ⟨bs, hcb, hbb, hfb⟩ | ⟨t, hcb, hbb, hfb⟩ | ⟨hbb, hfb⟩ <;>
    rw [hba, hbb] at hblocks <;> rw [hfa, hfb] at hfields
  · subst hblocks
    exact Or.inl (eq_of_without hca hcb hfields)
  · rw [hblocks] at hca
    exact absurd hca (ha t)
  · rw [hblocks] at hca
    exact Or.inr (Or.inl ⟨hca, get_of_without hfields⟩)
  · rw [← hblocks] at hcb
    exact absurd hcb (hb s)
  · have htext : textBlock s = (textBlock t : Value N) := (List.cons.inj hblocks).1
    rw [← plainText_eq_some] at htext
    cases (plainText_eq_some.mpr rfl).symm.trans htext
    exact Or.inl (eq_of_without hca hcb hfields)
  · cases hblocks
  · rw [← hblocks] at hcb
    exact Or.inr (Or.inr ⟨get_of_without hfields.symm, hcb⟩)
  · cases hblocks
  · exact Or.inl hfields

section Last

variable [DecidableEq N]

theorem EmptyAgainstNone.not_grown {a b : Value N} (h : EmptyAgainstNone a b) :
    ¬ Grown false a b := by
  intro hgrown
  rcases hgrown.eq with rfl | ⟨_, rfl, -⟩ | ⟨keys, f, rfl⟩
  · rcases h with ⟨hsome, hnone⟩ | ⟨hnone, hsome⟩ <;> cases hsome.symm.trans hnone
  · cases hgrown with
    | same => rcases h with ⟨hsome, -⟩ | ⟨-, hsome⟩ <;> cases hsome
  · cases b with
    | object keys' g =>
      obtain ⟨rfl, hkeys⟩ := grown_object_iff.mp hgrown
      rcases h with ⟨hsome, hnone⟩ | ⟨hnone, hsome⟩
      · obtain ⟨w, hw, -⟩ := hkeys "content" _ hsome
        cases hw.symm.trans hnone
      · obtain ⟨_, _, ⟨⟩, hmem⟩ := Value.get_isSome hsome
        cases (Value.get_object hmem).symm.trans hnone
    | _ => exact absurd hgrown.kind (by simp [Value.kind])

theorem grown_iff_not_text {a b : Value N} (ha : Canonical a) (hne : blocks a ≠ [])
    (hfields : otherFields a = otherFields b) (hblocks : blocks a <+: blocks b) :
    Grown false a b ↔ ¬ (IsText a ∧ IsList b) := by
  rcases content_cases a with ⟨as, hca, hba, hfa⟩ | ⟨s, hca, hba, hfa⟩ | ⟨hba, -⟩
  · rcases content_cases b with ⟨bs, hcb, hbb, hfb⟩ | ⟨t, hcb, hbb, hfb⟩ | ⟨hbb, -⟩
    · rw [hba, hbb] at hblocks
      rw [hfa, hfb] at hfields
      refine iff_of_true ?_ fun h => ?_
      · obtain ⟨keys, f, rfl, hkey⟩ := Value.get_isSome hca
        obtain ⟨keys', g, rfl, hkey'⟩ := Value.get_isSome hcb
        have hget : ∀ key, key ≠ "content" →
            (Value.object keys f).get key = (Value.object keys' g).get key := by
          intro key hkey
          have hget := congrArg (Value.get · key) hfields
          simp only [Value.get_without, if_neg hkey] at hget
          exact hget
        have hkeys : keys = keys' := by
          ext key
          by_cases hcont : key = "content"
          · rw [hcont]
            exact iff_of_true hkey hkey'
          · have hkeyget := hget key hcont
            simp only [Value.get] at hkeyget
            split_ifs at hkeyget <;> simp_all
        refine grown_object_iff.mpr ⟨hkeys, fun key v hv => ?_⟩
        by_cases hcont : key = "content"
        · subst hcont
          cases hca.symm.trans hv
          refine ⟨_, hcb, ?_⟩
          have hgrows : grows "content" (Value.object keys f) (Value.object keys' g) = true := by
            simp [grows, hget "role" (by decide)]
          rw [hgrows, grown_array_iff]
          refine ⟨hblocks.length_le, fun i x y hx hy => ?_⟩
          have hxy : bs[i]? = some x := by
            obtain ⟨rest, rfl⟩ := hblocks
            exact (List.getElem?_append_left (List.getElem?_eq_some_iff.mp hx).1).trans hx
          cases hxy.symm.trans hy
          exact .same _ x
        · exact ⟨v, (hget key hcont).symm.trans hv, .same _ v⟩
      · obtain ⟨text, htext⟩ := h.1
        cases hca.symm.trans htext
    · rw [hba, hbb] at hblocks
      rw [hba] at hne
      have heq : as = [textBlock t] := by
        rcases as with _ | ⟨x, _ | ⟨y, as⟩⟩
        · exact absurd rfl hne
        · rw [(cons_prefix_cons.mp hblocks).1]
        · have hlen := hblocks.length_le
          simp only [length_cons, length_nil] at hlen
          omega
      rw [heq] at hca
      exact absurd hca (ha t)
    · rw [hbb, prefix_nil] at hblocks
      exact absurd hblocks hne
  · rcases content_cases b with ⟨bs, hcb, hbb, hfb⟩ | ⟨t, hcb, hbb, hfb⟩ | ⟨hbb, -⟩
    · refine iff_of_false (fun h => ?_) fun h => h ⟨⟨s, hca⟩, bs, hcb⟩
      obtain ⟨keys, f, rfl, -⟩ := Value.get_isSome hca
      obtain ⟨keys', g, rfl, -⟩ := Value.get_isSome hcb
      obtain ⟨w, hw, hgrown⟩ := (grown_object_iff.mp h).2 "content" _ hca
      cases hcb.symm.trans hw
      exact absurd hgrown.kind (by simp [Value.kind])
    · rw [hba, hbb, cons_prefix_cons] at hblocks
      rw [hfa, hfb] at hfields
      have htext := plainText_eq_some.mpr hblocks.1
      cases (plainText_eq_some.mpr rfl).symm.trans htext
      cases eq_of_without hca hcb hfields
      refine iff_of_true (.same _ a) fun h => ?_
      obtain ⟨items, hitems⟩ := h.2
      cases hca.symm.trans hitems
    · rw [hbb, prefix_nil] at hblocks
      exact absurd hblocks hne
  · exact absurd hba hne

end Last

theorem Appends.continues {as bs : List (Value N)} (h : Appends as bs) : Continues as bs := by
  fun_induction Appends as bs with
  | case1 bs => cases bs <;> trivial
  | case2 a as => exact h.elim
  | case3 a b bs => exact h
  | case4 a a' as b bs ih => exact ⟨h.1 ▸ rfl, ih h.2⟩

section Agree

variable [DecidableEq N]

variable {as bs : List (Value N)}

theorem grownItems_iff (ha : ∀ a ∈ as, Canonical a)
    (hb : ∀ b ∈ bs, Canonical b) (hlast : ∀ last ∈ as.getLast?, blocks last ≠ [])
    (h : Continues as bs) :
    GrownItems as bs ↔ ¬ TextAgainstList as bs ∧ ¬ LosesEmpty as bs := by
  fun_induction Continues as bs with
  | case1 bs => exact iff_of_true ⟨Nat.zero_le _, nofun⟩ ⟨by cases bs <;> exact id, by
      cases bs <;> exact id⟩
  | case2 a as => exact h.elim
  | case3 a b bs =>
    rw [grownItems_cons, grown_iff_not_text (ha a mem_cons_self) (hlast a rfl) h.1 h.2]
    have hnil : GrownItems ([] : List (Value N)) bs := ⟨Nat.zero_le _, nofun⟩
    simp only [hnil, and_true, TextAgainstList, LosesEmpty, not_false_eq_true]
  | case4 a a' as b bs ih =>
    have hrest := ih (fun x hx => ha x (mem_cons_of_mem _ hx))
      (fun x hx => hb x (mem_cons_of_mem _ hx)) (fun last h => hlast last h) h.2
    rw [grownItems_cons, hrest, TextAgainstList, LosesEmpty, not_or]
    · rcases eq_of_entries (ha a mem_cons_self) (hb b mem_cons_self) h.1 with
        rfl | hempty
      · have hnone : ¬ EmptyAgainstNone a a := fun h => h.not_grown (.same false a)
        have hgrown : Grown false a a := .same false a
        tauto
      · have hgrown := hempty.not_grown
        tauto
    · exact nofun

theorem appends_of_grown (ha : ∀ a ∈ as, Canonical a)
    (hb : ∀ b ∈ bs, Canonical b) (hgrown : GrownItems as bs) (h : Continues as bs) :
    Appends as bs := by
  fun_induction Continues as bs with
  | case1 bs => cases bs <;> trivial
  | case2 a as => exact h.elim
  | case3 a b bs => exact h
  | case4 a a' as b bs ih =>
    obtain ⟨hab, hrest⟩ := grownItems_cons.mp hgrown
    refine ⟨?_, ih (fun x hx => ha x (mem_cons_of_mem _ hx))
      (fun x hx => hb x (mem_cons_of_mem _ hx)) hrest h.2⟩
    apply (eq_of_entries (ha a mem_cons_self) (hb b mem_cons_self) h.1).resolve_right
    exact fun hempty => hempty.not_grown hab

/-- The guard passes exactly the requests that keep the cached sequence, unless lists have grown
elsewhere than at its end, or the sequence is kept but ends in a lone text that is now in a list,
or has an empty content that is now absent or the other way round. -/
theorem compatible_iff_prefix {b₁ b₂ : Value N} (h₁ : Marked b₁) (h₂ : Marked b₂)
    (hrest : SameRest b₁ b₂) :
    (cachePrefixCompatible (bodyForCacheGuard b₁) (bodyForCacheGuard b₂) true = true ↔
        flatPrefix b₁ <+: flatPrefix b₂) ↔
      (GrownItems (prefixMessages b₁) (prefixMessages b₂) →
        Appends (prefixMessages b₁) (prefixMessages b₂)) ∧
      ¬ (Continues (prefixMessages b₁) (prefixMessages b₂) ∧
        (TextAgainstList (prefixMessages b₁) (prefixMessages b₂) ∨
          LosesEmpty (prefixMessages b₁) (prefixMessages b₂))) := by
  obtain ⟨before₁, message₁, items₁, marker₁, c₁⟩ := exists_cut h₁
  obtain ⟨before₂, message₂, items₂, marker₂, c₂⟩ := exists_cut h₂
  rw [c₁.compatible_iff c₂ hrest, items_iff_grown _ _ c₁.clean c₂.clean, c₁.flatPrefix_eq,
    c₂.flatPrefix_eq, flatPrefix_iff_continues]
  have hstops := grownItems_iff c₁.canonical c₂.canonical c₁.blocks_last
  have hends := appends_of_grown c₁.canonical c₂.canonical
  constructor
  · intro hiff
    refine ⟨fun hgrown => hends hgrown (hiff.mp hgrown), fun ⟨hcontinues, hstop⟩ => ?_⟩
    obtain ⟨htext, hempty⟩ := (hstops hcontinues).mp (hiff.mpr hcontinues)
    exact hstop.elim htext hempty
  · rintro ⟨hgrown, hstop⟩
    constructor
    · exact fun h => (hgrown h).continues
    · intro hcontinues
      apply (hstops hcontinues).mpr
      exact not_or.mp fun h => hstop ⟨hcontinues, h⟩

end Agree

def textOf (text : String) : Value ℕ := textBlock text

def markedText (text : String) : Value ℕ :=
  .ofFields [("type", .string "text"), ("text", .string text),
    ("cache_control", .ofFields [("type", .string "ephemeral")])]

def userMessage (blocks : List (Value ℕ)) : Value ℕ :=
  .ofFields [("role", .string "user"), ("content", .array blocks)]

def request (messages : List (Value ℕ)) : Value ℕ := .ofFields [("messages", .array messages)]

theorem sameRest_request (messages messages' : List (Value ℕ)) :
    SameRest (request messages) (request messages') := by
  intro key hkey _
  have hnone : ∀ messages, (request messages).get key = none := fun messages =>
    Value.get_eq_none (by simp [hkey])
  rw [hnone, hnone]

instance (body : Value ℕ) : Decidable (Marked body) :=
  inferInstanceAs (Decidable (∃ message ∈ body.messages, ∃ block ∈ blocks message,
    hasMarker block = true))

/-- A block added after more than one keeps the sequence, and is let pass. -/
theorem compatible_iff_prefix_pair :
    let pair := request [userMessage [textOf "a", markedText "b"]]
    let triple := request [userMessage [textOf "a", textOf "b", markedText "c"]]
    cachePrefixCompatible (bodyForCacheGuard pair) (bodyForCacheGuard triple) true = true ↔
      flatPrefix pair <+: flatPrefix triple := by
  have hpair : prefixMessages (request [userMessage [textOf "a", markedText "b"]]) =
      [userMessage [textOf "a", textOf "b"]] := by decide
  have htriple : prefixMessages (request [userMessage [textOf "a", textOf "b", markedText "c"]]) =
      [userMessage [textOf "a", textOf "b", textOf "c"]] := by decide
  refine Iff.mpr ( compatible_iff_prefix (by decide) (by decide)
    (sameRest_request _ _)) ⟨fun _ => ?_, fun h => ?_⟩
  · rw [hpair, htriple]
    exact ⟨by decide, by decide⟩
  · rw [hpair, htriple] at h
    rcases h.2 with ⟨⟨text, htext⟩, -⟩ | hempty
    · cases htext
    · exact hempty

/-- A block added to an earlier message passes though the sequence has changed before its end; a
block added after a lone text block is stopped though the sequence goes on. -/
theorem compatible_not_prefix :
    let two := request [userMessage [textOf "a", textOf "b"], userMessage [markedText "c"]]
    let three := request [userMessage [textOf "a", textOf "b", textOf "d"],
      userMessage [markedText "c"]]
    let lone := request [userMessage [markedText "a"]]
    let pair := request [userMessage [textOf "a", markedText "b"]]
    (Marked two ∧ Marked three ∧ SameRest two three ∧
      cachePrefixCompatible (bodyForCacheGuard two) (bodyForCacheGuard three) true = true ∧
      ¬ flatPrefix two <+: flatPrefix three) ∧
    Marked lone ∧ Marked pair ∧ SameRest lone pair ∧
      cachePrefixCompatible (bodyForCacheGuard lone) (bodyForCacheGuard pair) true = false ∧
      flatPrefix lone <+: flatPrefix pair :=
  ⟨⟨by decide, by decide, sameRest_request _ _, by decide,
    by decide⟩, by decide, by decide, sameRest_request _ _,
    by decide, by decide⟩

end CacheGuard
