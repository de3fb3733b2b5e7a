import RefactEngine.ModelSwitch

/-! # Renamed tool ids

Which call a result answers survives the change of model. A call without an id is the exception: its
new id goes to every message that answers no call.
-/
namespace ToolIdRenaming

open JsonValues ModelSwitch List

variable {C F : Type}

inductive Slot where
  | call (id : String)
  | answer (id : String)
  deriving DecidableEq

namespace Slot

def id : Slot → String
  | .call id => id
  | .answer id => id

def isCall : Slot → Bool
  | .call _ => true
  | .answer _ => false

def Given : Slot → Prop
  | .call _ => True
  | .answer id => id ≠ ""

def rename (idMapping : IdMapping) : Slot → Slot
  | .call id => .call (ModelSwitch.rename idMapping id)
  | .answer id => .answer (ModelSwitch.rename idMapping id)

theorem isCall_rename (idMapping : IdMapping) (slot : Slot) :
    (slot.rename idMapping).isCall = slot.isCall := by
  cases slot <;> rfl

theorem id_rename (idMapping : IdMapping) (slot : Slot) :
    (slot.rename idMapping).id = ModelSwitch.rename idMapping slot.id := by
  cases slot <;> rfl

end Slot

def fieldSlots (fields : Fields C F) : List Slot :=
  fields.callIds.map Slot.call ++ [Slot.answer fields.toolCallId]

/-- The ids at every depth; those of UI-only messages are left out unless `all`. -/
def slots (all : Bool) (msgs : List (ChatMessage C F)) : List Slot :=
  (entries all 0 msgs).flatMap fun e => fieldSlots e.2

/-- What a message says: its depth and role, its content and the names of its calls. -/
structure Outline (C : Type) where
  depth : ℕ
  role : String
  content : C
  callNames : List String

def outlineOf (entry : ℕ × Fields C F) : Outline C where
  depth := entry.1
  role := entry.2.role
  content := entry.2.content
  callNames := (entry.2.toolCalls.getD []).map ChatToolCall.name

structure Sanitized (before after : List (ChatMessage C F)) : Prop where
  outline : (entries true 0 after).map outlineOf = (entries false 0 before).map outlineOf
  kinds : (slots true after).map Slot.isCall = (slots false before).map Slot.isCall
  valid : ∀ slot ∈ slots true after, slot.Given → isValidToolId slot.id = true
  pattern : ∀ p ∈ (slots false before).zip (slots true after),
    ∀ q ∈ (slots false before).zip (slots true after), p.1.Given → q.1.Given →
      (p.2.id = q.2.id ↔ p.1.id = q.1.id)
  kept : ∀ p ∈ (slots false before).zip (slots true after),
    isValidToolId p.1.id = true → p.2.id = p.1.id
  answers : ∀ p ∈ (slots false before).zip (slots true after), p.1.Given → p.2.Given
  unanswered : ∀ p ∈ (slots false before).zip (slots true after), ¬ p.1.Given → ¬ p.2.Given

/-- The ids that one run generates are distinct, and none stands in the history already. -/
structure FreshIds (uuids : ℕ → Uuid) (msgs : List (ChatMessage C F)) : Prop where
  distinct : ∀ i < (collectModelSwitchIds uuids [] msgs).length,
    ∀ j < (collectModelSwitchIds uuids [] msgs).length,
      generateValidToolId (uuids i) = generateValidToolId (uuids j) → i = j
  fresh : ∀ i < (collectModelSwitchIds uuids [] msgs).length,
    generateValidToolId (uuids i) ∉ idsOf msgs

section Renaming

variable {uuids : ℕ → Uuid} {seen : List String} {idMapping : IdMapping} {id : String}
  (issued : Issued uuids seen idMapping)

include issued

theorem rename_valid (hvalid : isValidToolId id = true) : ModelSwitch.rename idMapping id = id := by
  have hnone : idMapping.lookup id = none := by
    by_contra hsome
    have hkey := (issued.keys id).mp (Option.isSome_iff_ne_none.mpr hsome)
    simp [hvalid] at hkey
  rw [ModelSwitch.rename, hnone]
  rfl

theorem rename_invalid (hid : id ∈ seen) (hvalid : isValidToolId id = false) :
    ∃ i v, idMapping[i]? = some (id, v) ∧
      ModelSwitch.rename idMapping id = generateValidToolId (uuids i) := by
  obtain ⟨value, hvalue⟩ := Option.isSome_iff_exists.mp ((issued.keys id).mpr ⟨hid, hvalid⟩)
  obtain ⟨before, after, heq, -⟩ := lookup_eq_some_iff.mp hvalue
  have hat : idMapping[before.length]? = some (id, value) := by
    rw [heq]
    simp
  refine ⟨before.length, value, hat, ?_⟩
  rw [ModelSwitch.rename, hvalue]
  exact issued.values _ _ hat

theorem rename_is_valid (hid : id ∈ seen) :
    isValidToolId (ModelSwitch.rename idMapping id) = true := by
  by_cases hvalid : isValidToolId id = true
  · rw [rename_valid issued hvalid]
    exact hvalid
  · obtain ⟨i, v, -, heq⟩ := rename_invalid issued hid (by simpa using hvalid)
    rw [heq]
    exact generateValidToolId_valid _

theorem rename_injective
    (distinct : ∀ i < idMapping.length, ∀ j < idMapping.length,
      generateValidToolId (uuids i) = generateValidToolId (uuids j) → i = j)
    (fresh : ∀ i < idMapping.length, generateValidToolId (uuids i) ∉ seen) {a b : String}
    (ha : a ∈ seen) (hb : b ∈ seen)
    (h : ModelSwitch.rename idMapping a = ModelSwitch.rename idMapping b) : a = b := by
  have bound : ∀ {i : ℕ} {e : String × String}, idMapping[i]? = some e → i < idMapping.length :=
    fun hat => (List.getElem?_eq_some_iff.mp hat).1
  by_cases hva : isValidToolId a = true <;> by_cases hvb : isValidToolId b = true
  · rwa [rename_valid issued hva, rename_valid issued hvb] at h
  · obtain ⟨j, v, hat, heq⟩ := rename_invalid issued hb (by simpa using hvb)
    rw [rename_valid issued hva, heq] at h
    exact absurd (h ▸ ha) (fresh j (bound hat))
  · obtain ⟨i, v, hat, heq⟩ := rename_invalid issued ha (by simpa using hva)
    rw [rename_valid issued hvb, heq] at h
    exact absurd (h ▸ hb) (fresh i (bound hat))
  · obtain ⟨i, v, hi, heqi⟩ := rename_invalid issued ha (by simpa using hva)
    obtain ⟨j, w, hj, heqj⟩ := rename_invalid issued hb (by simpa using hvb)
    rw [heqi, heqj] at h
    obtain rfl := distinct i (bound hi) j (bound hj) h
    rw [hi] at hj
    exact congrArg Prod.fst (Option.some.inj hj)

theorem rename_empty : ModelSwitch.rename idMapping "" = "" ↔ "" ∉ seen := by
  constructor
  · intro h hmem
    have hvalid := rename_is_valid issued hmem
    rw [h, not_valid_empty] at hvalid
    exact absurd hvalid Bool.false_ne_true
  · intro hmem
    have hnone : idMapping.lookup "" = none := by
      by_contra hsome
      exact hmem ((issued.keys "").mp (Option.isSome_iff_ne_none.mpr hsome)).1
    rw [ModelSwitch.rename, hnone]
    rfl

end Renaming

theorem fieldSlots_sanitize (idMapping : IdMapping) (fields : Fields C F) :
    fieldSlots (sanitizeFields idMapping fields) =
      (fieldSlots fields).map (Slot.rename idMapping) := by
  have hcalls : (sanitizeFields idMapping fields).callIds =
      fields.callIds.map (ModelSwitch.rename idMapping) := by
    unfold Fields.callIds sanitizeFields
    cases fields.toolCalls with
    | none => rfl
    | some calls =>
      simp only [Option.map_some, Option.getD_some, map_map]
      rfl
  rw [fieldSlots, fieldSlots, hcalls, map_append, map_map, map_map,
    map_singleton]
  rfl

theorem slots_sanitize (idMapping : IdMapping) (msgs : List (ChatMessage C F)) :
    slots true (sanitizeModelSwitchWithIds idMapping msgs) =
      (slots false msgs).map (Slot.rename idMapping) := by
  rw [slots, slots, entries_sanitize, flatMap_map, map_flatMap]
  simp only [fieldSlots_sanitize]

theorem outlineOf_sanitize (idMapping : IdMapping) (depth : ℕ) (fields : Fields C F) :
    outlineOf (depth, sanitizeFields idMapping fields) = outlineOf (depth, fields) := by
  have hnames : ((sanitizeFields idMapping fields).toolCalls.getD []).map ChatToolCall.name =
      (fields.toolCalls.getD []).map ChatToolCall.name := by
    unfold sanitizeFields
    cases fields.toolCalls with
    | none => rfl
    | some calls =>
      simp only [Option.map_some, Option.getD_some, map_map]
      rfl
  rw [outlineOf, outlineOf, hnames]
  rfl

theorem outline_sanitize (idMapping : IdMapping) (msgs : List (ChatMessage C F)) :
    (entries true 0 (sanitizeModelSwitchWithIds idMapping msgs)).map outlineOf =
      (entries false 0 msgs).map outlineOf := by
  rw [entries_sanitize, map_map]
  exact map_congr_left fun e _ => outlineOf_sanitize idMapping e.1 e.2

theorem slots_subset (msgs : List (ChatMessage C F)) : slots false msgs ⊆ slots true msgs := by
  intro slot hslot
  obtain ⟨e, he, hslot⟩ := mem_flatMap.mp hslot
  exact mem_flatMap.mpr ⟨e, (entries_sublist 0 msgs).subset he, hslot⟩

theorem id_mem_idsOf {msgs : List (ChatMessage C F)} {slot : Slot} (hslot : slot ∈ slots true msgs)
    (given : slot.Given) : slot.id ∈ idsOf msgs := by
  obtain ⟨e, he, hslot⟩ := mem_flatMap.mp hslot
  refine mem_flatMap.mpr ⟨e, he, ?_⟩
  rw [Fields.ids, mem_append]
  rcases mem_append.mp hslot with hcall | hans
  · obtain ⟨id, hid, rfl⟩ := mem_map.mp hcall
    exact .inl hid
  · rw [mem_singleton] at hans
    subst hans
    right
    rw [if_neg given]
    exact mem_singleton_self _

theorem empty_mem_idsOf (msgs : List (ChatMessage C F)) :
    "" ∈ idsOf msgs ↔ Slot.call "" ∈ slots true msgs := by
  constructor
  · intro h
    obtain ⟨e, he, hid⟩ := mem_flatMap.mp h
    refine mem_flatMap.mpr ⟨e, he, mem_append_left _ ?_⟩
    rw [Fields.ids, mem_append] at hid
    rcases hid with hid | hid
    · exact mem_map_of_mem hid
    · by_cases hempty : e.2.toolCallId = ""
      · simp [hempty] at hid
      · rw [if_neg hempty, mem_singleton] at hid
        exact absurd hid.symm hempty
  · intro h
    exact id_mem_idsOf h trivial

theorem mem_zip_map {α β : Type*} {f : α → β} {l : List α} {p : α × β} :
    p ∈ l.zip (l.map f) ↔ p.1 ∈ l ∧ p.2 = f p.1 := by
  induction l with
  | nil => simp
  | cons a l ih =>
    rw [map_cons, zip_cons_cons, mem_cons, mem_cons, ih]
    constructor
    · rintro (rfl | h)
      · exact ⟨.inl rfl, rfl⟩
      · exact ⟨.inr h.1, h.2⟩
    · rintro ⟨hp | hp, h⟩
      · exact .inl (Prod.ext hp (hp ▸ h))
      · exact .inr ⟨hp, h⟩

def NoEmptyCall (msgs : List (ChatMessage C F)) : Prop :=
  Slot.call "" ∉ slots true msgs ∨ Slot.answer "" ∉ slots false msgs

instance (msgs : List (ChatMessage C F)) : Decidable (NoEmptyCall msgs) :=
  inferInstanceAs (Decidable (_ ∨ _))

theorem given_iff (slot : Slot) : ¬ slot.Given ↔ slot = .answer "" := by
  cases slot with
  | call id => simp [Slot.Given]
  | answer id => simp [Slot.Given]

section Slots

variable {uuids : ℕ → Uuid} {msgs : List (ChatMessage C F)} {slot : Slot}

theorem slot_valid (hslot : slot ∈ slots false msgs) (given : slot.Given) :
    isValidToolId (slot.rename (collectModelSwitchIds uuids [] msgs)).id = true := by
  rw [Slot.id_rename]
  exact rename_is_valid (issued_collect uuids msgs) (id_mem_idsOf (slots_subset msgs hslot) given)

theorem slot_given (hslot : slot ∈ slots false msgs) (given : slot.Given) :
    (slot.rename (collectModelSwitchIds uuids [] msgs)).Given := by
  have hvalid : isValidToolId (slot.rename (collectModelSwitchIds uuids [] msgs)).id = true :=
    slot_valid hslot given
  by_contra hnot
  rw [(given_iff _).mp hnot] at hvalid
  exact absurd hvalid (by decide)

theorem slot_unanswered (hcondition : NoEmptyCall msgs) (hslot : slot ∈ slots false msgs)
    (hgiven : ¬ slot.Given) : slot.rename (collectModelSwitchIds uuids [] msgs) = slot := by
  obtain rfl := (given_iff slot).mp hgiven
  rcases hcondition with hcall | hans
  · have hnot := mt (empty_mem_idsOf msgs).mp hcall
    exact congrArg Slot.answer ((rename_empty (issued_collect uuids msgs)).mpr hnot)
  · exact absurd hslot hans

theorem not_unanswered (hcall : Slot.call "" ∈ slots true msgs) :
    (Slot.answer "").rename (collectModelSwitchIds uuids [] msgs) ≠ .answer "" := by
  intro h
  have hnot := (rename_empty (issued_collect uuids msgs)).mp (congrArg Slot.id h)
  exact hnot ((empty_mem_idsOf msgs).mpr hcall)

end Slots

theorem sanitized_of_noEmptyCall {uuids : ℕ → Uuid} {msgs : List (ChatMessage C F)}
    (freshIds : FreshIds uuids msgs) (hcondition : NoEmptyCall msgs) :
    Sanitized msgs (sanitizeMessagesForModelSwitch uuids msgs) := by
  have hslots := slots_sanitize (collectModelSwitchIds uuids [] msgs) msgs
  unfold sanitizeMessagesForModelSwitch
  refine ⟨outline_sanitize _ msgs, ?_, ?_, ?_, ?_, ?_, ?_⟩ <;> rw [hslots]
  · rw [map_map]
    exact map_congr_left fun slot _ => Slot.isCall_rename _ slot
  · intro slot hslot hgiven
    obtain ⟨old, hold, rfl⟩ := mem_map.mp hslot
    by_cases hold' : old.Given
    · exact slot_valid hold hold'
    · rw [slot_unanswered hcondition hold hold'] at hgiven
      exact absurd hgiven hold'
  · intro p hp q hq hpg hqg
    obtain ⟨hp, hp2⟩ := mem_zip_map.mp hp
    obtain ⟨hq, hq2⟩ := mem_zip_map.mp hq
    rw [hp2, hq2, Slot.id_rename, Slot.id_rename]
    constructor
    · exact rename_injective (issued_collect uuids msgs) freshIds.distinct freshIds.fresh
        (id_mem_idsOf (slots_subset msgs hp) hpg) (id_mem_idsOf (slots_subset msgs hq) hqg)
    · intro h
      rw [h]
  · intro p hp hpv
    obtain ⟨-, hp2⟩ := mem_zip_map.mp hp
    rw [hp2, Slot.id_rename]
    exact rename_valid (issued_collect uuids msgs) hpv
  · intro p hp hpg
    obtain ⟨hp, hp2⟩ := mem_zip_map.mp hp
    rw [hp2]
    exact slot_given hp hpg
  · intro p hp hpg
    obtain ⟨hp, hp2⟩ := mem_zip_map.mp hp
    rw [hp2, slot_unanswered hcondition hp hpg]
    exact hpg

/-- Ids are renamed consistently unless an empty call id renames the answers to no call. -/
theorem model_switch_renames_ids_iff {uuids : ℕ → Uuid} {msgs : List (ChatMessage C F)}
    (freshIds : FreshIds uuids msgs) :
    Sanitized msgs (sanitizeMessagesForModelSwitch uuids msgs) ↔ NoEmptyCall msgs := by
  constructor
  · intro sanitized
    by_contra hboth
    rw [NoEmptyCall, not_or, not_not, not_not] at hboth
    obtain ⟨hcall, hanswer⟩ := hboth
    have hpair : (Slot.answer "", Slot.rename (collectModelSwitchIds uuids [] msgs) (.answer "")) ∈
        (slots false msgs).zip (slots true (sanitizeMessagesForModelSwitch uuids msgs)) := by
      rw [sanitizeMessagesForModelSwitch, slots_sanitize]
      exact mem_zip_map.mpr ⟨hanswer, rfl⟩
    have hempty := sanitized.unanswered _ hpair ((given_iff _).mpr rfl)
    exact not_unanswered hcall ((given_iff _).mp hempty)
  · exact sanitized_of_noEmptyCall freshIds

def plainMessage (role : String) (callIds : List String) (toolCallId : String) :
    ChatMessage String Empty :=
  .plain
    { role := role
      content := "text"
      finishReason := none
      reasoningContent := none
      toolCalls := some (callIds.map fun id => ⟨id, "cat", "", "function"⟩)
      toolCallId := toolCallId
      usage := none
      thinkingBlocks := none
      serverContentBlocks := []
      extra := [] } none

def reportMessage (messages : List (ChatMessage String Empty)) : ChatMessage String Empty :=
  .history
    { (plainMessage compressionReportRole [] "").fields with toolCalls := none }
    (.obj [("kind", .str "reconstructed_history"), ("schema_version", .nat 1)]) messages

/-- A UUID of version 4 has its version and its variant in two digits. -/
def lowestUuid : ℕ → Uuid := fun _ i => if i = 12 then 4 else if i = 16 then 8 else 0

def nestedCall : List (ChatMessage String Empty) :=
  [reportMessage [plainMessage "assistant" ["cat:0"] ""], plainMessage "tool" [] "cat:0"]

theorem nested_call_renamed :
    FreshIds lowestUuid nestedCall ∧
      Sanitized nestedCall (sanitizeMessagesForModelSwitch lowestUuid nestedCall) := by
  have freshIds : FreshIds lowestUuid nestedCall := ⟨by decide, by decide⟩
  exact ⟨freshIds, (model_switch_renames_ids_iff freshIds).mpr (by decide)⟩

def emptyCall : List (ChatMessage String Empty) :=
  [plainMessage "user" [] "", plainMessage "assistant" [""] ""]

theorem empty_call_renames_question :
    FreshIds lowestUuid emptyCall ∧
      ¬ Sanitized emptyCall (sanitizeMessagesForModelSwitch lowestUuid emptyCall) := by
  refine ⟨⟨by decide, by decide⟩, fun sanitized => ?_⟩
  have hpair : (Slot.answer "", Slot.answer "call_000000000000400080000000") ∈
      (slots false emptyCall).zip
        (slots true (sanitizeMessagesForModelSwitch lowestUuid emptyCall)) := by
    decide
  exact sanitized.unanswered _ hpair ((given_iff _).mpr rfl) (by simp [Slot.Given])

end ToolIdRenaming
