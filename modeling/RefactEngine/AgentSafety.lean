import RefactEngine.AgentMoves

/-! # What every run of the agent registry keeps

The invariant of agents and waiting tasks holds of a registry that was just loaded and after every
step. The agents below one that is cancelled are found each once, whatever the chats look like.
-/
namespace AgentRegistry

open AgentDeliveries QuestionRegistry

variable (records : AgentRecords)

def KeyedRecords : Prop :=
  ∀ agentId r, records.get agentId = some r → r.agentId = agentId

def LaunchedFrom (above below : BackgroundAgent) : Prop :=
  above.childChatId = some below.parentChatId ∧ records.get below.agentId = some below

def Below : BackgroundAgent → BackgroundAgent → Prop :=
  Relation.ReflTransGen (LaunchedFrom records)

variable {records : AgentRecords} {agentId : String}

theorem mem_values_of_get {r : BackgroundAgent} (hget : records.get agentId = some r) :
    r ∈ records.values :=
  mem_values_iff.mpr ⟨agentId, hget⟩

theorem get_of_mem_values (hkeyed : KeyedRecords records) {r : BackgroundAgent}
    (hmem : r ∈ records.values) : records.get r.agentId = some r := by
  obtain ⟨agentId, hget⟩ := mem_values_iff.mp hmem
  rw [hkeyed agentId r hget]
  exact hget

theorem mem_childrenOf (hkeyed : KeyedRecords records) {above below : BackgroundAgent} :
    below ∈ childrenOf records above ↔ LaunchedFrom records above below := by
  rw [childrenOf, LaunchedFrom]
  cases above.childChatId with
  | none => exact ⟨fun h => absurd h List.not_mem_nil, nofun⟩
  | some chatId =>
    simp only
    rw [List.mem_insertionSort, List.mem_filter, decide_eq_true_eq, Option.some.injEq]
    constructor
    · rintro ⟨hmem, hchat⟩
      exact ⟨hchat.symm, get_of_mem_values hkeyed hmem⟩
    · rintro ⟨hchat, hget⟩
      exact ⟨mem_values_of_get hget, hchat.symm⟩

theorem nodup_values (hkeyed : KeyedRecords records) :
    (records.values.map BackgroundAgent.agentId).Nodup := by
  have hkeys : records.values.map BackgroundAgent.agentId = records.byId.keys := by
    rw [AgentRecords.values, List.map_map, AList.keys, List.keys]
    apply List.map_congr_left
    intro entry hentry
    exact hkeyed entry.1 entry.2 (AList.mem_entries_iff.mp hentry)
  rw [hkeys]
  exact records.byId.keys_nodup

theorem keyed_childrenOf (hkeyed : KeyedRecords records) :
    BreadthFirst.Keyed BackgroundAgent.agentId (childrenOf records) records.values where
  nodes_nodup := nodup_values hkeyed
  children_nodup := by
    intro above
    rw [childrenOf]
    cases above.childChatId with
    | none => exact List.nodup_nil
    | some chatId =>
      simp only
      have hperm := (List.perm_insertionSort
        (fun a b : BackgroundAgent => a.agentId ≤ b.agentId)
        (records.values.filter fun child => child.parentChatId = chatId)).map
          BackgroundAgent.agentId
      rw [hperm.nodup_iff]
      exact (nodup_values hkeyed).sublist (List.filter_sublist.map _)
  children_mem := fun above below hbelow =>
    mem_values_of_get ((mem_childrenOf hkeyed).mp hbelow).2

variable {root : BackgroundAgent}

theorem selectAgents_spec (hkeyed : KeyedRecords records)
    (hroot : records.get root.agentId = some root) (subtree : Bool) :
    ∃ selected, selectAgents records root subtree = some selected ∧
      (selected.map BackgroundAgent.agentId).Nodup ∧
      (∀ r ∈ selected, records.get r.agentId = some r) ∧
      (subtree = true → ∀ r, Below records root r → r ∈ selected) := by
  cases subtree with
  | false =>
    refine ⟨[root], rfl, List.nodup_singleton _, ?_, nofun⟩
    intro r hr
    rw [List.mem_singleton.mp hr]
    exact hroot
  | true =>
    obtain ⟨selected, hwalk, hnodup, hmem, hbelow⟩ :=
      BreadthFirst.walk_root (keyed_childrenOf hkeyed) (mem_values_of_get hroot)
    refine ⟨selected, hwalk, hnodup, fun r hr => get_of_mem_values hkeyed (hmem r hr),
      fun _ r hr => hbelow r ?_⟩
    exact Relation.ReflTransGen.mono (fun a b hab => (mem_childrenOf hkeyed).mpr hab) _ _ hr

theorem scopedRecord_ok {parentChatId : String}
    (h : scopedRecord records parentChatId agentId = .ok root) :
    records.get agentId = some root ∧ root.parentChatId = parentChatId := by
  rw [scopedRecord] at h
  split at h
  · cases h
  · rename_i r hr
    cases h
    obtain ⟨hget, hchat⟩ := Option.filter_eq_some_iff.mp hr
    exact ⟨hget, of_decide_eq_true hchat⟩

theorem cancelSubtree_ok {cfg : RegistrySettings} {now : ℤ} {g g' : Registry}
    {parentChatId : String} {subtree : Bool} {reason : Option String}
    {stopped : List BackgroundAgent}
    (h : cancelSubtree cfg now g parentChatId agentId subtree reason = .ok (g', stopped)) :
    ∃ root selected, g.records.get agentId = some root ∧
      selectAgents g.records root subtree = some selected ∧
      g' = (cancelAll cfg now subtree reason g selected).1 := by
  rw [cancelSubtree] at h
  split at h
  · cases h
  · rename_i root hroot
    split at h
    · cases h
    · rename_i selected hselected
      refine ⟨root, selected, (scopedRecord_ok hroot).1, hselected, ?_⟩
      exact congrArg Prod.fst (Except.ok.inj h).symm

def TaskInv (aborted : List Handle) (view : String → View) : Task → Prop
  | .creating agentId handle => Accounted aborted (view agentId) 1 handle
  | .reopening agentId handle previous updated =>
    Accounted aborted (view agentId) updated.runGeneration handle ∧
      Reopening (view agentId) agentId handle previous updated
  | .writing | .retiring _ _ | .closing _ _ | .saving _ _ _ => True

structure Inv (s : System) : Prop where
  agents : ∀ agentId, AgentInv s.registry.aborted agentId (s.view agentId)
  tasks : ∀ ticket task, s.tasks.lookup ticket = some task →
    TaskInv s.registry.aborted s.view task
  tickets : ∀ ticket task, s.tasks.lookup ticket = some task → ticket < s.nextTicket

theorem Inv.keyed {s : System} (h : Inv s) : KeyedRecords s.registry.records :=
  fun agentId r hget => (h.agents agentId).keyed r hget

def Event.reopens (agentId : String) : Event → Prop
  | .parent (.reopen reopened _ _ _ _) => reopened = agentId
  | _ => False

/-- The record of the run whose saved payload an event notes. -/
def System.savedRecord (s : System) : Event → Option BackgroundAgent
  | .resume ticket (.ok ()) =>
    match s.tasks.lookup ticket with
    | some (.saving (record :: _) _ _) => some record
    | _ => none
  | _ => none

def System.permit (s : System) (event : Event) (agentId : String) : Permit where
  reopens := event.reopens agentId
  saves r := ∃ record, s.savedRecord event = some record ∧ record.agentId = agentId ∧
    r.runGeneration = record.runGeneration

/-- What a step does: its agents move, its tasks were there or are new and sound. -/
structure Steps (cfg : RegistrySettings) (permits : String → Permit) (s s' : System) : Prop where
  moves : Moves cfg permits s.registry s.runs s'.registry s'.runs
  tickets : s.nextTicket ≤ s'.nextTicket
  tasks : ∀ ticket task, s'.tasks.lookup ticket = some task →
    s.tasks.lookup ticket = some task ∨ ticket = s.nextTicket ∧ ticket < s'.nextTicket ∧
      TaskInv s'.registry.aborted s'.view task

theorem TaskInv.moves {cfg : RegistrySettings} {permits : String → Permit} {s s' : System}
    (hm : Moves cfg permits s.registry s.runs s'.registry s'.runs) {task : Task}
    (h : TaskInv s.registry.aborted s.view task) :
    TaskInv s'.registry.aborted s'.view task := by
  cases task with
  | writing | retiring | closing | saving => trivial
  | creating agentId handle => exact (hm.agents agentId).accounted hm.aborted h
  | reopening agentId handle previous updated =>
    obtain ⟨haccounted, hreopening⟩ := h
    refine ⟨(hm.agents agentId).accounted hm.aborted haccounted, { hreopening with
      published := ?_ }⟩
    exact (hm.agents agentId).published hreopening.queued hreopening.published

theorem Inv.steps {cfg : RegistrySettings} {permits : String → Permit} {s s' : System}
    (h : Inv s) (hs : Steps cfg permits s s') : Inv s' where
  agents agentId := (hs.moves.agents agentId).inv hs.moves.aborted (h.agents agentId)
  tasks ticket task htask := by
    rcases hs.tasks ticket task htask with hold | ⟨-, -, hnew⟩
    · exact (h.tasks ticket task hold).moves hs.moves
    · exact hnew
  tickets ticket task htask := by
    rcases hs.tasks ticket task htask with hold | ⟨-, hlt, -⟩
    · exact lt_of_lt_of_le (h.tickets ticket task hold) hs.tickets
    · exact hlt

section Steps

variable {cfg : RegistrySettings} {permits : String → Permit} {s : System}

theorem steps_withRegistry {g : Registry} (hm : Moves cfg permits s.registry s.runs g s.runs) :
    Steps cfg permits s (s.withRegistry g) :=
  ⟨hm, le_rfl, fun _ _ h => Or.inl h⟩

theorem steps_refl (cfg : RegistrySettings) (permits : String → Permit) (s : System) :
    Steps cfg permits s s :=
  steps_withRegistry (.refl cfg permits s.registry s.runs)

theorem Steps.await {t : System} (hs : Steps cfg permits s t)
    (htasks : t.tasks = s.tasks) (htickets : t.nextTicket = s.nextTicket) {task : Task}
    (h : TaskInv t.registry.aborted t.view task) : Steps cfg permits s (t.await task).1 := by
  refine ⟨hs.moves, ?_, fun ticket other hother => ?_⟩
  · rw [← htickets]
    exact Nat.le_succ _
  · change (t.tasks.insert t.nextTicket task).lookup ticket = some other at hother
    rw [AList.lookup_insert_if] at hother
    split_ifs at hother with hnew
    · cases hother
      refine Or.inr ⟨hnew.trans htickets, ?_, h⟩
      rw [hnew]
      exact Nat.lt_succ_self _
    · rw [htasks] at hother
      exact Or.inl hother

theorem steps_afterWrite {result : Registry × Written} {task : BackgroundAgent → Task}
    (hm : Moves cfg permits s.registry s.runs result.1 s.runs)
    (htask : ∀ record aborted view, TaskInv aborted view (task record)) :
    Steps cfg permits s (s.afterWrite result task).1 := by
  rw [System.afterWrite]
  cases result.2 with
  | refused error => exact steps_withRegistry hm
  | unchanged record => exact steps_withRegistry hm
  | written record => exact (steps_withRegistry hm).await rfl rfl (htask _ _ _)

theorem moves_runnerWrite (now : ℤ) (agentId : String) (generation : ℕ) (call : RunnerCall) :
    Moves cfg permits s.registry s.runs
      (runnerWrite cfg now s.registry agentId generation call).1 s.runs := by
  cases call with
  | updateProgress progress stepCount =>
    exact moves_updateRecordIfNotTerminal (fun _ => rfl) (fun _ h => h) (fun _ => rfl)
      fun _ => rfl
  | updateActivity progress stepCount currentTool =>
    exact moves_updateRecordIfNotTerminal (fun _ => rfl) (fun _ h => h) (fun _ => rfl)
      fun _ => rfl
  | markRunning childChatId =>
    exact moves_updateRecordIfNotTerminal (fun _ => rfl) (fun _ _ => rfl) (fun _ => rfl)
      fun _ => rfl
  | markCompleted completion payload =>
    exact moves_markTerminal (ends_completed cfg agentId now completion)
  | markFailed error payload => exact moves_markTerminal (ends_failed cfg agentId now error)
  | markInterrupted reason => exact moves_markTerminal (ends_interrupted now reason)
  | acknowledgeDelivery id => exact moves_acknowledgeDelivery id
  | setCompletionMessageId messageId =>
    exact moves_setCompletionMessageIdForRun (some generation) messageId

theorem moves_cancelSubtree (h : Inv s) {now : ℤ} {parentChatId agentId : String}
    {subtree : Bool} {reason : Option String} {g' : Registry} {stopped : List BackgroundAgent}
    (hok : cancelSubtree cfg now s.registry parentChatId agentId subtree reason =
      .ok (g', stopped)) : Moves cfg permits s.registry s.runs g' s.runs := by
  obtain ⟨root, selected, hroot, hselected, rfl⟩ := cancelSubtree_ok hok
  have hkeyed := h.keyed
  have hroot' : s.registry.records.get root.agentId = some root := by
    rw [hkeyed agentId root hroot]
    exact hroot
  obtain ⟨selected', hselected', hnodup, hcur, -⟩ :=
    selectAgents_spec hkeyed hroot' subtree
  rw [hselected] at hselected'
  cases hselected'
  exact (cancelAll_spec cfg permits now subtree reason s.runs selected s.registry hnodup
    hcur).1

theorem steps_parentStep (h : Inv s) (now : ℤ) (call : ParentCall) :
    Steps cfg (s.permit (.parent call)) s (parentStep cfg now s call).1 := by
  cases call with
  | create request agentId parent =>
    rw [parentStep]
    split
    · exact steps_refl cfg _ s
    · rename_i record g hok
      obtain ⟨hm, hview⟩ := moves_createWithId cfg
        (s.permit (.parent (.create request agentId parent))) s.runs hok
      refine Steps.await (t := { s with
        registry := g, runs := s.runs.insert agentId s.registry.nextHandle })
        ⟨hm, le_rfl, fun _ _ h => Or.inl h⟩ rfl rfl ?_
      refine Or.inr ⟨newRecord request agentId now, ?_, Or.inr ⟨rfl, fun _ => ?_⟩⟩
      · exact congrArg View.record hview
      · exact congrArg View.run hview
  | reopen agentId parentChatId expected requireCap parent =>
    rw [parentStep]
    split
    · exact steps_refl cfg _ s
    · rename_i previous updated g hok
      obtain ⟨hm, hview⟩ := moves_reopenForParentRun
        (s.permit (.parent (.reopen agentId parentChatId expected requireCap parent))) s.runs
        rfl hok
      obtain ⟨-, hget, hdone, -, hupdated, -⟩ := reopenForParentRun_ok hok
      obtain ⟨hid, hqueued, hgen, hseq⟩ := reopened_facts cfg now previous
      rw [← hupdated] at hid hqueued hgen hseq
      have hkeyed := h.keyed agentId previous hget
      refine Steps.await (t := { s with
        registry := g, runs := s.runs.insert agentId s.registry.nextHandle })
        ⟨hm, le_rfl, fun _ _ h => Or.inl h⟩ rfl rfl ⟨?_, ?_⟩
      · refine Or.inr ⟨updated, ?_, Or.inr ⟨rfl, fun _ => ?_⟩⟩
        · exact congrArg View.record hview
        · exact congrArg View.run hview
      · refine ⟨⟨updated, congrArg View.record hview, le_rfl, fun _ => ⟨rfl, ?_⟩⟩, hdone,
          hkeyed, hgen.symm, hqueued, hid.trans hkeyed⟩
        exact congrArg View.run hview
  | cancelSubtree parentChatId agentId subtree reason =>
    rw [parentStep]
    split
    · exact steps_refl cfg _ s
    · rename_i g stopped hok
      exact (steps_withRegistry (moves_cancelSubtree h hok)).await rfl rfl trivial
  | close parentChatId agentId expected reason =>
    exact steps_afterWrite (moves_markClosed _ _ _) fun _ _ _ => trivial
  | rollbackUnacceptedResume previous queued abort configAbsent =>
    rw [parentStep]
    split
    · exact steps_refl cfg _ s
    · rename_i record g hok
      exact (steps_withRegistry (moves_rollbackUnacceptedResume h.agents hok)).await rfl rfl
        trivial
  | markCancelled agentId reason payload =>
    refine steps_afterWrite (moves_markTerminal fun r => ?_) fun _ _ _ => trivial
    exact ⟨rfl, rfl, rfl, rfl⟩
  | markWaitingForApproval agentId =>
    refine steps_afterWrite ?_ fun _ _ _ => trivial
    exact moves_updateRecordIfNotTerminal (fun _ => rfl) (fun _ _ => rfl) (fun _ => rfl)
      fun _ => rfl

theorem steps_finish (now : ℤ) (disk : Except String Unit) {task : Task}
    (htask : TaskInv s.registry.aborted s.view task)
    (hsaves : ∀ record rest stopped failure, task = .saving (record :: rest) stopped failure →
      disk = .ok () → ∀ r : BackgroundAgent, r.runGeneration = record.runGeneration →
        (permits record.agentId).saves r) :
    Steps cfg permits s (finish cfg now s disk task).1 := by
  cases task with
  | writing => exact steps_refl cfg permits s
  | retiring agentId generation =>
    cases disk with
    | error error => exact steps_refl cfg permits s
    | ok _ => exact steps_withRegistry (moves_retireRuntime generation)
  | closing agentId generation => exact steps_withRegistry (moves_retireRuntime generation)
  | creating agentId handle =>
    cases disk with
    | error error => exact steps_withRegistry (moves_createUnsaved handle error)
    | ok _ => exact steps_refl cfg permits s
  | reopening agentId handle previous updated =>
    cases disk with
    | error error => exact steps_withRegistry (moves_reopenUnsaved htask.2)
    | ok _ => exact steps_refl cfg permits s
  | saving unsaved stopped failure =>
    cases unsaved with
    | nil => exact steps_withRegistry (moves_removeCancelled stopped)
    | cons record rest =>
      cases disk with
      | error error => exact (steps_refl cfg permits s).await rfl rfl trivial
      | ok _ =>
        have hm : Moves cfg permits s.registry s.runs (setPayloadPath cfg s.registry record)
            s.runs := moves_setPayloadPath fun r _ hr =>
          hsaves record rest stopped failure rfl rfl r hr
        exact (steps_withRegistry hm).await rfl rfl trivial

variable (cfg) in
theorem steps_step (h : Inv s) (now : ℤ) (event : Event) :
    Steps cfg (s.permit event) s (step cfg now s event).1 := by
  cases event with
  | runner agentId generation call =>
    refine steps_afterWrite (moves_runnerWrite now agentId generation call) fun record _ _ => ?_
    cases call <;> trivial
  | parent call => exact steps_parentStep h now call
  | resume ticket disk =>
    rw [step]
    cases hlook : s.tasks.lookup ticket with
    | none => exact steps_refl cfg _ s
    | some task =>
      have hfinish : Steps cfg (s.permit (.resume ticket disk))
          { s with tasks := s.tasks.erase ticket }
          (finish cfg now { s with tasks := s.tasks.erase ticket } disk task).1 := by
        refine steps_finish now disk (h.tasks ticket task hlook) ?_
        rintro record rest stopped failure rfl rfl r hr
        refine ⟨record, ?_, rfl, hr⟩
        rw [System.savedRecord, hlook]
      refine ⟨hfinish.moves, hfinish.tickets, fun other task' htask' => ?_⟩
      rcases hfinish.tasks other task' htask' with hold | hnew
      · change (s.tasks.erase ticket).lookup other = some task' at hold
        rw [AList.lookup_erase_if] at hold
        split_ifs at hold
        exact Or.inl hold
      · exact Or.inr hnew
  | questions entries => exact steps_withRegistry ⟨fun _ hx => hx, fun _ => .same _⟩

theorem Inv.step (h : Inv s) (cfg : RegistrySettings) (now : ℤ) (event : Event) :
    Inv (step cfg now s event).1 :=
  h.steps (steps_step cfg h now event)

theorem Inv.run (cfg : RegistrySettings) (moments : List Moment) :
    ∀ {s : System}, Inv s → Inv (run cfg s moments) := by
  induction moments with
  | nil => exact fun h => h
  | cons moment rest ih => exact fun h => ih (h.step cfg moment.now moment.event)

end Steps

section Loading

variable (cfg : RegistrySettings) (now : ℤ)

theorem reconcileInterrupted_terminal (record : BackgroundAgent) :
    (reconcileInterrupted now record).terminal = true := by
  rw [reconcileInterrupted]
  split_ifs with h
  · exact h
  · rfl

structure Loaded (g : Registry) : Prop where
  records : ∀ agentId r, g.records.get agentId = some r → r.agentId = agentId ∧ r.terminal = true
  runtime : ∀ agentId, g.runtime.lookup agentId = none
  fence : ∀ agentId, g.records.cancelledSubtrees.lookup agentId = none

theorem Loaded.settleLoaded {g : Registry} (h : Loaded g) {record : BackgroundAgent}
    (hdone : record.terminal = true) : Loaded (settleLoaded cfg now g record) where
  records agentId r hget := by
    rw [AgentRegistry.settleLoaded, get_insert] at hget
    split_ifs at hget with hid
    · cases hget
      exact ⟨hid.symm, hdone⟩
    · exact h.records agentId r hget
  runtime := h.runtime
  fence := h.fence

theorem Loaded.foldl (records : List BackgroundAgent)
    (hdone : ∀ record ∈ records, record.terminal = true) :
    ∀ {g : Registry}, Loaded g → Loaded (records.foldl (AgentRegistry.settleLoaded cfg now) g) := by
  induction records with
  | nil => exact fun h => h
  | cons record rest ih =>
    intro g h
    apply ih fun other hother => hdone other (List.mem_cons_of_mem _ hother)
    exact h.settleLoaded cfg now (hdone record List.mem_cons_self)

variable (limits : QuestionLimits) (stored : List BackgroundAgent)

theorem loaded_load : Loaded (load cfg now limits stored) := by
  apply Loaded.foldl
  · intro record hrec
    obtain ⟨original, -, rfl⟩ := List.mem_map.mp hrec
    exact reconcileInterrupted_terminal now _
  · refine ⟨fun agentId r hget => ?_, fun agentId => AList.lookup_empty agentId,
      fun agentId => AList.lookup_empty agentId⟩
    cases (AList.lookup_empty agentId).symm.trans hget

theorem inv_start : Inv (start cfg now limits stored) where
  agents agentId := by
    have hloaded := loaded_load cfg now limits stored
    refine ⟨fun r hr => (hloaded.records agentId r hr).1, fun r hr hlive => ?_, fun x hx => ?_,
      fun x hx => ?_⟩
    · rw [(hloaded.records agentId r hr).2] at hlive
      cases hlive
    · change ((load cfg now limits stored).runtime.lookup agentId).map (·.abortFlag) = some x at hx
      rw [hloaded.runtime agentId] at hx
      cases hx
    · cases (hloaded.fence agentId).symm.trans hx
  tasks ticket task htask := by cases (AList.lookup_empty ticket).symm.trans htask
  tickets ticket task htask := by cases (AList.lookup_empty ticket).symm.trans htask

theorem inv_run (moments : List Moment) : Inv (run cfg (start cfg now limits stored) moments) :=
  Inv.run cfg moments (inv_start cfg now limits stored)

end Loading

def sampleSettings : RegistrySettings :=
  ⟨⟨600, 8, 8, 4, 4096⟩, 4, fun _ => 1, fun _ => none, id, fun _ => ""⟩

def sampleStart : System := start sampleSettings 0 ⟨8, 60, 60⟩ []

def done (ticket : ℕ) : Moment := ⟨0, .resume ticket (.ok ())⟩

end AgentRegistry
