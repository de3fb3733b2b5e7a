import Mathlib.Data.List.Zip
import RefactEngine.JsonValues

/-! # Messages for another model

Before a history goes to another model, tool ids that its provider may refuse are replaced. One map
is filled by a scan of the history and of the histories inside its reconstruction reports, and then
applied to all of them. The messages of a report are read from JSON and written back; that nothing
else changes on this way is taken for granted.
-/
namespace ModelSwitch

open JsonValues List

structure ChatToolCall where
  id : String
  name : String
  arguments : String
  toolType : String

structure Fields (C F : Type) where
  role : String
  content : C
  finishReason : Option String
  reasoningContent : Option String
  toolCalls : Option (List ChatToolCall)
  toolCallId : String
  usage : Option (Json F)
  thinkingBlocks : Option (List (Json F))
  serverContentBlocks : List (Json F)
  extra : List (String × Json F)

/-- A message and what its `extra` holds under "compression_report": nothing or a value without
readable messages, or a value with messages in its payload. -/
inductive ChatMessage (C F : Type) where
  | plain (fields : Fields C F) (report : Option (Json F))
  | history (fields : Fields C F) (metadata : Json F) (messages : List (ChatMessage C F))

variable {C F : Type}

def ChatMessage.fields : ChatMessage C F → Fields C F
  | .plain fields _ => fields
  | .history fields _ _ => fields

def compressionReportRole : String := "compression_report"

def isUiOnlyMessage (msg : ChatMessage C F) : Bool :=
  (msg.fields.extra.lookup "_ui_only").bind Json.asBool = some true

/-- The report of a message whose nested messages are executable context. -/
def isReconstruction (fields : Fields C F) (metadata : Json F) : Bool :=
  fields.role = compressionReportRole &&
    ((metadata.get "kind").bind Json.asStr = some "reconstructed_history" &&
      (metadata.get "schema_version").bind Json.asU64 = some 1)

def transformReportPayload (transform : List (ChatMessage C F) → List (ChatMessage C F)) :
    ChatMessage C F → ChatMessage C F
  | .plain fields report => .plain fields report
  | .history fields metadata messages =>
    .history fields metadata
      (if isReconstruction fields metadata then transform messages else messages)

def preserveExtraKey (extra : List (String × Json F)) (key : String) : List (String × Json F) :=
  ((extra.lookup key).map fun value => (key, value)).toList

def preserveAssistantCompressionExtra (extra : List (String × Json F)) : List (String × Json F) :=
  if ((extra.lookup "compression").bind (·.get "kind")).bind Json.asStr =
      some "llm_segment_summary" then
    preserveExtraKey extra "compression"
  else []

def preserveHiddenRoleExtra (fields : Fields C F) : List (String × Json F) :=
  let extra :=
    if fields.role = "plan" then preserveExtraKey fields.extra "plan"
    else if fields.role = "goal" then preserveExtraKey fields.extra "goal"
    else if fields.role = "event" then preserveExtraKey fields.extra "event"
    else if fields.role = compressionReportRole then []
    else if fields.role = "assistant" then preserveAssistantCompressionExtra fields.extra
    else []
  extra ++ preserveExtraKey fields.extra "privacy" ++
    preserveExtraKey fields.extra "launch_context_source"

/-- Keeps the report of a message of its role only. -/
def withHiddenRoleExtra : ChatMessage C F → ChatMessage C F
  | .plain fields report =>
    .plain { fields with extra := preserveHiddenRoleExtra fields }
      (if fields.role = compressionReportRole then report else none)
  | .history fields metadata messages =>
    if fields.role = compressionReportRole then
      .history { fields with extra := preserveHiddenRoleExtra fields } metadata messages
    else .plain { fields with extra := preserveHiddenRoleExtra fields } none

def isToolIdChar (c : Char) : Bool := c.isAlphanum || c = '_' || c = '-'

def isValidToolId (id : String) : Bool := !id.toList.isEmpty && id.toList.all isToolIdChar

abbrev Uuid := Fin 32 → Fin 16

def Uuid.digit (uuid : Uuid) (i : Fin 32) : Char := Nat.digitChar (uuid i)

def Uuid.text (uuid : Uuid) : List Char :=
  let digits := (List.finRange 32).map uuid.digit
  digits.take 8 ++ '-' :: (digits.drop 8).take 4 ++ '-' :: (digits.drop 12).take 4 ++
    '-' :: (digits.drop 16).take 4 ++ '-' :: digits.drop 20

def generateValidToolId (uuid : Uuid) : String :=
  "call_" ++ String.ofList ((uuid.text.filter (· ≠ '-')).take 24)

abbrev IdMapping := List (String × String)

def Fields.callIds (fields : Fields C F) : List String :=
  (fields.toolCalls.getD []).map ChatToolCall.id

/-- The ids of the calls, and the id of the call that is answered if there is one. -/
def Fields.ids (fields : Fields C F) : List String :=
  fields.callIds ++ if fields.toolCallId = "" then [] else [fields.toolCallId]

def register (uuids : ℕ → Uuid) (idMapping : IdMapping) (id : String) : IdMapping :=
  if isValidToolId id then idMapping
  else match idMapping.lookup id with
    | some _ => idMapping
    | none => idMapping ++ [(id, generateValidToolId (uuids idMapping.length))]

mutual

def collectFrom (uuids : ℕ → Uuid) (idMapping : IdMapping) : ChatMessage C F → IdMapping
  | .plain fields _ => fields.ids.foldl (register uuids) idMapping
  | .history fields metadata messages =>
    fields.ids.foldl (register uuids)
      (if isReconstruction fields metadata then collectModelSwitchIds uuids idMapping messages
      else idMapping)

def collectModelSwitchIds (uuids : ℕ → Uuid) (idMapping : IdMapping) :
    List (ChatMessage C F) → IdMapping
  | [] => idMapping
  | msg :: msgs => collectModelSwitchIds uuids (collectFrom uuids idMapping msg) msgs

end

def rename (idMapping : IdMapping) (id : String) : String := (idMapping.lookup id).getD id

def sanitizeFields (idMapping : IdMapping) (fields : Fields C F) : Fields C F :=
  { fields with
    thinkingBlocks := none
    serverContentBlocks := []
    usage := none
    extra := preserveHiddenRoleExtra fields
    finishReason := none
    reasoningContent := none
    toolCalls := fields.toolCalls.map fun calls =>
      calls.map fun tc => { tc with id := rename idMapping tc.id }
    toolCallId := rename idMapping fields.toolCallId }

mutual

def sanitizeMessage (idMapping : IdMapping) : ChatMessage C F → ChatMessage C F
  | .plain fields report =>
    .plain (sanitizeFields idMapping fields)
      (if fields.role = compressionReportRole then report else none)
  | .history fields metadata messages =>
    if fields.role = compressionReportRole then
      .history (sanitizeFields idMapping fields) metadata
        (if isReconstruction fields metadata then sanitizeModelSwitchWithIds idMapping messages
        else messages)
    else .plain (sanitizeFields idMapping fields) none

def sanitizeModelSwitchWithIds (idMapping : IdMapping) :
    List (ChatMessage C F) → List (ChatMessage C F)
  | [] => []
  | msg :: msgs =>
    if isUiOnlyMessage msg then sanitizeModelSwitchWithIds idMapping msgs
    else sanitizeMessage idMapping msg :: sanitizeModelSwitchWithIds idMapping msgs

end

def sanitizeMessagesForModelSwitch (uuids : ℕ → Uuid) (msgs : List (ChatMessage C F)) :
    List (ChatMessage C F) :=
  sanitizeModelSwitchWithIds (collectModelSwitchIds uuids [] msgs) msgs

theorem sanitizeMessage_eq (idMapping : IdMapping) (msg : ChatMessage C F) :
    sanitizeMessage idMapping msg =
      match withHiddenRoleExtra
        (transformReportPayload (sanitizeModelSwitchWithIds idMapping) msg) with
      | .plain fields report =>
        .plain { sanitizeFields idMapping fields with extra := fields.extra } report
      | .history fields metadata messages =>
        .history { sanitizeFields idMapping fields with extra := fields.extra } metadata
          messages := by
  cases msg with
  | plain fields report => rw [sanitizeMessage, transformReportPayload, withHiddenRoleExtra]; rfl
  | history fields metadata messages =>
    rw [sanitizeMessage, transformReportPayload, withHiddenRoleExtra]
    split_ifs <;> rfl

mutual

/-- The message and the messages in its report, each with its depth; UI-only ones are left out
unless `all`. -/
def entriesOf (all : Bool) (depth : ℕ) : ChatMessage C F → List (ℕ × Fields C F)
  | .plain fields _ => [(depth, fields)]
  | .history fields metadata messages =>
    (if isReconstruction fields metadata then entries all (depth + 1) messages else []) ++
      [(depth, fields)]

def entries (all : Bool) (depth : ℕ) : List (ChatMessage C F) → List (ℕ × Fields C F)
  | [] => []
  | msg :: msgs =>
    (if !all && isUiOnlyMessage msg then [] else entriesOf all depth msg) ++ entries all depth msgs

end

mutual

theorem entriesOf_sublist (depth : ℕ) :
    ∀ msg : ChatMessage C F, (entriesOf false depth msg).Sublist (entriesOf true depth msg)
  | .plain _ _ => List.Sublist.refl _
  | .history fields metadata messages => by
    rw [entriesOf, entriesOf]
    by_cases h : isReconstruction fields metadata = true
    · rw [if_pos h, if_pos h]
      exact (entries_sublist (depth + 1) messages).append_right _
    · rw [if_neg h, if_neg h]

theorem entries_sublist (depth : ℕ) :
    ∀ msgs : List (ChatMessage C F), (entries false depth msgs).Sublist (entries true depth msgs)
  | [] => List.Sublist.refl _
  | msg :: msgs => by
    have hall : entries true depth (msg :: msgs) =
        entriesOf true depth msg ++ entries true depth msgs := rfl
    rw [hall, entries]
    refine List.Sublist.append ?_ (entries_sublist depth msgs)
    by_cases h : isUiOnlyMessage msg = true
    · rw [if_pos (by simp [h])]
      exact nil_sublist _
    · rw [if_neg (by simp [h])]
      exact entriesOf_sublist depth msg

end

mutual

theorem collectFrom_eq (uuids : ℕ → Uuid) (depth : ℕ) (idMapping : IdMapping) :
    ∀ msg : ChatMessage C F, collectFrom uuids idMapping msg =
      ((entriesOf true depth msg).flatMap fun e => e.2.ids).foldl (register uuids) idMapping
  | .plain fields _ => by rw [collectFrom, entriesOf, List.flatMap_singleton]
  | .history fields metadata messages => by
    rw [collectFrom, entriesOf, flatMap_append, List.flatMap_singleton, foldl_append]
    split_ifs
    · rw [collectModelSwitchIds_eq uuids (depth + 1) idMapping messages]
    · rfl

theorem collectModelSwitchIds_eq (uuids : ℕ → Uuid) (depth : ℕ) (idMapping : IdMapping) :
    ∀ msgs : List (ChatMessage C F), collectModelSwitchIds uuids idMapping msgs =
      ((entries true depth msgs).flatMap fun e => e.2.ids).foldl (register uuids) idMapping
  | [] => rfl
  | msg :: msgs => by
    rw [collectModelSwitchIds, entries, collectModelSwitchIds_eq uuids depth _ msgs,
      collectFrom_eq uuids depth idMapping msg, if_neg (by simp), flatMap_append,
      foldl_append]

end

theorem role_of_isReconstruction {fields : Fields C F} {metadata : Json F}
    (h : isReconstruction fields metadata = true) : fields.role = compressionReportRole := by
  rw [isReconstruction, Bool.and_eq_true, decide_eq_true_eq] at h
  exact h.1

mutual

theorem entriesOf_sanitize (idMapping : IdMapping) (depth : ℕ) :
    ∀ msg : ChatMessage C F, entriesOf true depth (sanitizeMessage idMapping msg) =
      (entriesOf false depth msg).map fun e => (e.1, sanitizeFields idMapping e.2)
  | .plain fields report => by
    rw [sanitizeMessage_eq, transformReportPayload, withHiddenRoleExtra, entriesOf, entriesOf]
    rfl
  | .history fields metadata messages => by
    rw [sanitizeMessage_eq, transformReportPayload, withHiddenRoleExtra, entriesOf, map_append]
    by_cases hrec : isReconstruction fields metadata = true
    · rw [if_pos (role_of_isReconstruction hrec), if_pos hrec, if_pos hrec, entriesOf]
      show (if isReconstruction fields metadata then entries true (depth + 1) _ else []) ++ [_] = _
      rw [if_pos hrec, entries_sanitize idMapping (depth + 1) messages]
      rfl
    · rw [if_neg hrec, if_neg hrec]
      split_ifs
      · rw [entriesOf]
        show (if isReconstruction fields metadata then _ else []) ++ [_] = _
        rw [if_neg hrec]
        rfl
      · rw [entriesOf]
        rfl

theorem entries_sanitize (idMapping : IdMapping) (depth : ℕ) :
    ∀ msgs : List (ChatMessage C F), entries true depth (sanitizeModelSwitchWithIds idMapping msgs) =
      (entries false depth msgs).map fun e => (e.1, sanitizeFields idMapping e.2)
  | [] => rfl
  | msg :: msgs => by
    rw [sanitizeModelSwitchWithIds, entries]
    by_cases hui : isUiOnlyMessage msg = true
    · rw [if_pos hui, if_pos (by simp [hui]), nil_append, entries_sanitize idMapping depth msgs]
    · rw [if_neg hui, if_neg (by simp [hui]), entries, if_neg (by simp), map_append,
        entriesOf_sanitize idMapping depth msg, entries_sanitize idMapping depth msgs]

end

structure Issued (uuids : ℕ → Uuid) (seen : List String) (idMapping : IdMapping) : Prop where
  keys : ∀ id, (idMapping.lookup id).isSome ↔ id ∈ seen ∧ isValidToolId id = false
  values : ∀ i e, idMapping[i]? = some e → e.2 = generateValidToolId (uuids i)

theorem issued_nil (uuids : ℕ → Uuid) : Issued uuids [] [] where
  keys id := by simp
  values i e h := by simp at h

variable {uuids : ℕ → Uuid}

theorem issued_register {seen : List String} {idMapping : IdMapping}
    (issued : Issued uuids seen idMapping) (id : String) :
    Issued uuids (seen ++ [id]) (register uuids idMapping id) := by
  by_cases hvalid : isValidToolId id = true
  · rw [register, if_pos hvalid]
    refine ⟨fun other => ?_, issued.values⟩
    rw [issued.keys other, mem_append, mem_singleton]
    have : other = id → isValidToolId other = true := fun h => h ▸ hvalid
    grind
  rw [register, if_neg hvalid]
  cases hlook : idMapping.lookup id with
  | some value =>
    refine ⟨fun other => ?_, issued.values⟩
    have hmem : id ∈ seen := ((issued.keys id).mp (by rw [hlook]; rfl)).1
    rw [issued.keys other, mem_append, mem_singleton]
    grind
  | none =>
    refine ⟨fun other => ?_, fun i e he => ?_⟩
    · rw [lookup_append, mem_append, mem_singleton]
      by_cases heq : other = id
      · subst heq
        simp [hlook, hvalid]
      · have : (other == id) = false := by simpa using heq
        simp [lookup_cons, this, heq, issued.keys other]
    · by_cases hi : i < idMapping.length
      · rw [List.getElem?_append_left hi] at he
        exact issued.values i e he
      · have hlen : i < (idMapping ++ [(id, generateValidToolId
          (uuids idMapping.length))]).length := (List.getElem?_eq_some_iff.mp he).1
        rw [length_append, length_singleton] at hlen
        obtain rfl : i = idMapping.length := by omega
        rw [List.getElem?_concat_length] at he
        rw [← Option.some.inj he]

theorem issued_foldl (ids : List String) :
    ∀ {seen : List String} {idMapping : IdMapping}, Issued uuids seen idMapping →
      Issued uuids (seen ++ ids) (ids.foldl (register uuids) idMapping) := by
  induction ids with
  | nil => intro seen idMapping issued; rwa [append_nil]
  | cons id ids ih =>
    intro seen idMapping issued
    rw [foldl_cons, append_cons]
    exact ih (issued_register issued id)

/-- Every id of the history, that of a message that is only shown too. -/
def idsOf (msgs : List (ChatMessage C F)) : List String :=
  (entries true 0 msgs).flatMap fun e => e.2.ids

theorem issued_collect (uuids : ℕ → Uuid) (msgs : List (ChatMessage C F)) :
    Issued uuids (idsOf msgs) (collectModelSwitchIds uuids [] msgs) := by
  rw [collectModelSwitchIds_eq uuids 0]
  exact issued_foldl _ (issued_nil uuids)

theorem not_valid_empty : isValidToolId "" = false := by decide

theorem digit_valid (uuid : Uuid) (i : Fin 32) :
    (uuid.digit i).isAlphanum = true := by
  have h : ∀ d : Fin 16, (Nat.digitChar d).isAlphanum = true := by decide
  exact h (uuid i)

theorem mem_text {uuid : Uuid} {c : Char} (h : c ∈ uuid.text) (hdash : c ≠ '-') :
    c.isAlphanum = true := by
  have hmem : c ∈ (List.finRange 32).map uuid.digit := by
    simp only [Uuid.text, mem_append, mem_cons, hdash, false_or] at h
    rcases h with (((h | h) | h) | h) | h
    · exact mem_of_mem_take h
    · exact mem_of_mem_drop (mem_of_mem_take h)
    · exact mem_of_mem_drop (mem_of_mem_take h)
    · exact mem_of_mem_drop (mem_of_mem_take h)
    · exact mem_of_mem_drop h
  obtain ⟨i, -, rfl⟩ := mem_map.mp hmem
  exact digit_valid uuid i

theorem call_valid : "call_".toList.all isToolIdChar = true := by decide

theorem generateValidToolId_valid (uuid : Uuid) :
    isValidToolId (generateValidToolId uuid) = true := by
  have htext : (generateValidToolId uuid).toList =
      "call_".toList ++ (uuid.text.filter (· ≠ '-')).take 24 := by
    rw [generateValidToolId, String.toList_append]
    exact congrArg _ String.toList_ofList
  rw [isValidToolId, htext, all_append, call_valid, Bool.true_and]
  have hsome : ("call_".toList ++
      (uuid.text.filter (· ≠ '-')).take 24).isEmpty = false := rfl
  rw [hsome, Bool.not_false, Bool.true_and]
  refine all_eq_true.mpr fun c hc => ?_
  have hfilt := mem_filter.mp (mem_of_mem_take hc)
  rw [isToolIdChar, mem_text hfilt.1 (by simpa using hfilt.2)]
  rfl

end ModelSwitch
