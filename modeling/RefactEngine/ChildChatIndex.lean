import RefactEngine.AgentRegistry

/-! # The index of child chats

Which agent runs a chat is read from an index beside the records. An insertion takes the chat of the
record it replaces out of the index and puts the chat of the new record in.
-/
namespace AgentRegistry

open AgentDeliveries

namespace AgentRecords

variable (records : AgentRecords)

def findAgentIdByChildChatId (chatId : String) : Option String :=
  records.byChild.lookup chatId

def childChatStatus (chatId : String) :
    Option (String × BgAgentStatus × ℕ) :=
  match records.byChild.lookup chatId with
  | none => none
  | some agentId =>
    (records.get agentId).map fun record => (agentId, record.status, record.runGeneration)

/-- The chats as the records have them; of two agents with one chat, the later one stays. -/
def tryChildChatIndex : AList fun _ : String => String :=
  (records.values.filterMap fun record =>
    record.childChatId.map fun chatId => (chatId, record.agentId)).foldl
      (fun index entry => index.insert entry.1 entry.2) ∅

end AgentRecords

def validateParentRunIndexed (g : Registry) (chatId : String) (parent : Option ParentRun) :
    Option (Except String Unit) :=
  match g.records.byChild.lookup chatId, parent with
  | none, none => some (.ok ())
  | some agentId, some parent =>
    if agentId ≠ parent.agentId then some (.error "parent agent run identity changed")
    else
      (g.records.get agentId).map fun record =>
        if record.runGeneration ≠ parent.generation ∨
            (record.terminal ∧ record.status ≠ .completed) ∨ parent.abortFlag ∈ g.aborted ∨
            g.records.cancelledSubtrees.lookup agentId = some parent.generation then
          .error "parent agent run changed or was cancelled"
        else .ok ()
  | _, _ => some (.error "parent agent run identity changed")

def parentRunIndexed (g : Registry) (chatId : String) :
    Option (Except String (Option ParentRun)) :=
  match g.records.byChild.lookup chatId with
  | none => some (.ok none)
  | some agentId =>
    match g.records.get agentId with
    | none => none
    | some record =>
      if record.terminal then some (.error "parent agent run has stopped")
      else
        match g.runtime.lookup agentId with
        | none => some (.error "parent agent run unavailable")
        | some runtime =>
          let parent : ParentRun := ⟨agentId, record.runGeneration, runtime.abortFlag⟩
          (validateParentRunIndexed g chatId (some parent)).map (·.map fun _ => some parent)

def noRecords (cancelledSubtrees : AList fun _ : String => ℕ) : AgentRecords :=
  ⟨∅, ∅, cancelledSubtrees⟩

def insertAll (records : AgentRecords) (inserts : List (String × BackgroundAgent)) :
    AgentRecords :=
  inserts.foldl (fun records entry => records.insert entry.1 entry.2) records

def Runs (records : AgentRecords) (agentId chatId : String) : Prop :=
  ∃ record, records.get agentId = some record ∧ record.childChatId = some chatId

structure IndexAgrees (records : AgentRecords) : Prop where
  entry_iff : ∀ chatId,
    (records.byChild.lookup chatId).isSome ↔ ∃ agentId, Runs records agentId chatId
  names : ∀ chatId agentId, records.byChild.lookup chatId = some agentId →
    Runs records agentId chatId
  status : ∀ chatId, (records.childChatStatus chatId).map (·.1) =
    records.findAgentIdByChildChatId chatId
  scan : ∀ chatId, (records.findAgentIdByChildChatId chatId).isSome =
    (records.tryChildChatIndex.lookup chatId).isSome
  parent : ∀ g : Registry, g.records = records → ∀ chatId,
    parentRunIndexed g chatId = some (parentRun g chatId)
  validated : ∀ g : Registry, g.records = records → ∀ chatId parent,
    validateParentRunIndexed g chatId parent = some (validateParentRun g chatId parent)

def LeavesAlone (records : AgentRecords) (agentId : String) (record : BackgroundAgent) : Prop :=
  ∀ chatId, Runs records agentId chatId → record.childChatId ≠ some chatId →
    ∀ other, Runs records other chatId → other = agentId

def Named (records : AgentRecords) : Prop :=
  ∀ chatId agentId, records.byChild.lookup chatId = some agentId → Runs records agentId chatId

def Listed (records : AgentRecords) : Prop :=
  ∀ agentId chatId, Runs records agentId chatId → (records.byChild.lookup chatId).isSome

variable {records : AgentRecords} {chatId agentId : String}

theorem runs_insert {other : String} {record : BackgroundAgent} :
    Runs (records.insert agentId record) other chatId ↔
      if other = agentId then record.childChatId = some chatId else Runs records other chatId := by
  unfold Runs
  rw [AgentRecords.insert, AgentRecords.get, AList.lookup_insert_if]
  split_ifs with h
  · simp
  · rfl

variable {byChild : AList fun _ : String => String} {child : Option String}

theorem lookup_unbind : (AgentRecords.unbind byChild child).lookup chatId =
      if child = some chatId then none else byChild.lookup chatId := by
  cases child with
  | none => simp [AgentRecords.unbind]
  | some c =>
    rw [AgentRecords.unbind, AList.lookup_erase_if]
    simp only [Option.some.injEq, eq_comm]

theorem lookup_bind : (AgentRecords.bind byChild agentId child).lookup chatId =
      if child = some chatId then some agentId else byChild.lookup chatId := by
  cases child with
  | none => simp [AgentRecords.bind]
  | some c =>
    rw [AgentRecords.bind, AList.lookup_insert_if]
    simp only [Option.some.injEq, eq_comm]

theorem lookup_insert_records (agentId : String) (record : BackgroundAgent) (chatId : String) :
    (records.insert agentId record).byChild.lookup chatId =
      if record.childChatId = some chatId then some agentId
      else if (records.get agentId).bind (·.childChatId) = some chatId then none
      else records.byChild.lookup chatId := by
  rw [AgentRecords.insert, lookup_bind, lookup_unbind]

theorem bound_iff :
    (records.get agentId).bind (·.childChatId) = some chatId ↔ Runs records agentId chatId := by
  rw [Option.bind_eq_some_iff]
  rfl

theorem named_insert (h : Named records) (agentId : String) (record : BackgroundAgent) :
    Named (records.insert agentId record) := by
  intro chatId other hl
  rw [lookup_insert_records] at hl
  apply runs_insert.mpr
  split_ifs at hl with hnew hold
  · obtain rfl := Option.some.inj hl
    rw [if_pos rfl]
    exact hnew
  · have hruns := h chatId other hl
    have hother : other ≠ agentId := by
      rintro rfl
      exact hold (bound_iff.mpr hruns)
    rw [if_neg hother]
    exact hruns

theorem listed_insert_iff (h : Listed records) (agentId : String) (record : BackgroundAgent) :
    Listed (records.insert agentId record) ↔ LeavesAlone records agentId record := by
  constructor
  · intro hlisted chatId hold hnew other hruns
    by_contra hother
    have hstays : Runs (records.insert agentId record) other chatId := by
      rw [runs_insert, if_neg hother]
      exact hruns
    have hentry := hlisted other chatId hstays
    rw [lookup_insert_records, if_neg hnew, if_pos (bound_iff.mpr hold)] at hentry
    cases hentry
  · intro halone other chatId hruns
    rw [runs_insert] at hruns
    rw [lookup_insert_records]
    by_cases hnew : record.childChatId = some chatId
    · rw [if_pos hnew]
      rfl
    rw [if_neg hnew]
    have hother : other ≠ agentId := by
      rintro rfl
      rw [if_pos rfl] at hruns
      exact hnew hruns
    rw [if_neg hother] at hruns
    by_cases hold : Runs records agentId chatId
    · exact absurd (halone chatId hold hnew other hruns) hother
    · rw [if_neg (fun hbound => hold (bound_iff.mp hbound))]
      exact h other chatId hruns

theorem isSome_lookup_collect (entries : List (String × String)) (chatId : String) :
    ∀ index : AList fun _ : String => String,
      ((entries.foldl (fun index entry => index.insert entry.1 entry.2) index).lookup
        chatId).isSome ↔ (index.lookup chatId).isSome ∨ ∃ entry ∈ entries, entry.1 = chatId := by
  induction entries with
  | nil => simp
  | cons entry entries ih =>
    intro index
    rw [List.foldl_cons, ih, AList.lookup_insert_if]
    simp only [List.exists_mem_cons_iff]
    split_ifs with h
    · simp [h]
    · simp [Ne.symm h]

theorem scan_iff : (records.tryChildChatIndex.lookup chatId).isSome ↔
    ∃ agentId, Runs records agentId chatId := by
  rw [AgentRecords.tryChildChatIndex, isSome_lookup_collect]
  simp only [AList.lookup_empty, Option.isSome_none, Bool.false_eq_true, false_or,
    List.mem_filterMap, AgentRecords.values, List.mem_map]
  constructor
  · rintro ⟨entry, ⟨record, ⟨⟨agentId, r⟩, hmem, rfl⟩, hentry⟩, rfl⟩
    obtain ⟨chatId, hchild, rfl⟩ := Option.map_eq_some_iff.mp hentry
    exact ⟨agentId, r, AList.mem_entries_iff.mp hmem, hchild⟩
  · rintro ⟨agentId, record, hget, hchild⟩
    refine ⟨(chatId, record.agentId), ⟨record, ⟨⟨agentId, record⟩, ?_, rfl⟩, ?_⟩, rfl⟩
    · exact AList.mem_entries_iff.mpr hget
    · rw [hchild]
      rfl

theorem Named.validated {g : Registry} (h : Named g.records) (chatId : String)
    (parent : Option ParentRun) :
    validateParentRunIndexed g chatId parent = some (validateParentRun g chatId parent) := by
  unfold validateParentRunIndexed validateParentRun
  cases hl : g.records.byChild.lookup chatId with
  | none => cases parent <;> rfl
  | some agentId =>
    obtain ⟨record, hget, -⟩ := h chatId agentId hl
    cases parent with
    | none => rfl
    | some parent =>
      simp only [hget, Option.map_some]
      split_ifs <;> rfl

theorem Named.parent {g : Registry} (h : Named g.records) (chatId : String) :
    parentRunIndexed g chatId = some (parentRun g chatId) := by
  unfold parentRunIndexed parentRun
  cases hl : g.records.byChild.lookup chatId with
  | none => rfl
  | some agentId =>
    obtain ⟨record, hget, -⟩ := h chatId agentId hl
    simp only [hget]
    by_cases hstopped : record.terminal = true
    · rw [if_pos hstopped, if_pos hstopped]
    rw [if_neg hstopped, if_neg hstopped]
    cases g.runtime.lookup agentId with
    | none => rfl
    | some runtime => simp only [h.validated, Option.map_some]

theorem indexAgrees_iff (h : Named records) : IndexAgrees records ↔ Listed records := by
  constructor
  · intro hagrees agentId chatId hruns
    exact (hagrees.entry_iff chatId).mpr ⟨agentId, hruns⟩
  intro hlisted
  have hentry : ∀ chatId, (records.byChild.lookup chatId).isSome ↔
      ∃ agentId, Runs records agentId chatId := by
    intro chatId
    constructor
    · intro hsome
      obtain ⟨agentId, hl⟩ := Option.isSome_iff_exists.mp hsome
      exact ⟨agentId, h chatId agentId hl⟩
    · rintro ⟨agentId, hruns⟩
      exact hlisted agentId chatId hruns
  refine ⟨hentry, h, fun chatId => ?_, fun chatId => ?_, ?_, ?_⟩
  · unfold AgentRecords.childChatStatus AgentRecords.findAgentIdByChildChatId
    cases hl : records.byChild.lookup chatId with
    | none => rfl
    | some agentId =>
      obtain ⟨record, hget, -⟩ := h chatId agentId hl
      simp only [hget, Option.map_some]
  · apply Bool.eq_iff_iff.mpr
    exact (hentry chatId).trans scan_iff.symm
  · rintro g rfl chatId
    exact h.parent chatId
  · rintro g rfl chatId parent
    exact h.validated chatId parent

theorem insertAll_concat (records : AgentRecords) (inserts : List (String × BackgroundAgent))
    (agentId : String) (record : BackgroundAgent) :
    insertAll records (inserts ++ [(agentId, record)]) =
      (insertAll records inserts).insert agentId record := List.foldl_concat ..

theorem named_insertAll (cancelledSubtrees : AList fun _ : String => ℕ)
    (inserts : List (String × BackgroundAgent)) :
    Named (insertAll (noRecords cancelledSubtrees) inserts) := by
  induction inserts using List.reverseRecOn with
  | nil => exact fun chatId agentId hl => by cases hl
  | append_singleton inserts entry ih =>
    rw [insertAll_concat]
    exact named_insert ih entry.1 entry.2

/-- The index agrees with the records in every state of a run exactly when no insertion takes a chat
from an agent while another one runs it too. -/
theorem index_agrees_iff (cancelledSubtrees : AList fun _ : String => ℕ)
    (inserts : List (String × BackgroundAgent)) :
    (∀ before, before <+: inserts →
      IndexAgrees (insertAll (noRecords cancelledSubtrees) before)) ↔
    ∀ before agentId record, before ++ [(agentId, record)] <+: inserts →
      LeavesAlone (insertAll (noRecords cancelledSubtrees) before) agentId record := by
  have hnamed := named_insertAll cancelledSubtrees
  constructor
  · intro hall before agentId record hprefix
    have hbefore := hall before ((List.prefix_append _ _).trans hprefix)
    have hafter := hall _ hprefix
    rw [indexAgrees_iff (hnamed _)] at hbefore hafter
    rw [insertAll_concat] at hafter
    exact (listed_insert_iff hbefore agentId record).mp hafter
  · intro halone before
    induction before using List.reverseRecOn with
    | nil =>
      intro _
      apply (indexAgrees_iff (hnamed [])).mpr
      rintro agentId chatId ⟨record, hget, -⟩
      cases hget
    | append_singleton before entry ih =>
      intro hprefix
      have hbefore := ih ((List.prefix_append _ _).trans hprefix)
      rw [indexAgrees_iff (hnamed _)] at hbefore ⊢
      rw [insertAll_concat]
      exact (listed_insert_iff hbefore entry.1 entry.2).mpr
        (halone before entry.1 entry.2 hprefix)

def runningIn (agentId chatId : String) : BackgroundAgent :=
  { newRecord ⟨"root", none, none⟩ agentId 0 with childChatId := some chatId }

/-- A and B are bound to one chat, and B is bound to another one: the chat has no entry although A
still runs it. -/
theorem shared_chat_lost : ¬ IndexAgrees (insertAll (noRecords ∅)
    [("A", runningIn "A" "c"), ("B", runningIn "B" "c"), ("B", runningIn "B" "d")]) := by
  intro hagrees
  have hentry := (hagrees.entry_iff "c").mpr
    ⟨"A", runningIn "A" "c", by decide, by decide⟩
  revert hentry
  decide

end AgentRegistry
