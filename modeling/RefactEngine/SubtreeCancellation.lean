import RefactEngine.AgentSafety

/-! # Cancelling a subtree is final

A cancel stops every agent below the root through the chats that agents are bound to at that time.
The generation it notes for each of them refuses, in whatever order operations run afterwards, all
launches in the name of a cancelled run; launches of stopped runs that still wait for the disk fail.
-/
namespace AgentRegistry

open AgentDeliveries QuestionRegistry

variable {cfg : RegistrySettings} {now : ℤ}

variable (cfg) in
theorem fence_run (agentId : String) (moments : List Moment) : ∀ {s : System}, Inv s →
    ∀ generation, (s.view agentId).fence = some generation →
      ∃ later, ((run cfg s moments).view agentId).fence = some later ∧ generation ≤ later := by
  induction moments with
  | nil => exact fun _ generation hf => ⟨generation, hf, le_rfl⟩
  | cons moment rest ih =>
    intro s h generation hf
    have hm := (steps_step cfg h moment.now moment.event).moves.agents agentId
    obtain ⟨next, hnext, hle⟩ := hm.fence_le (h.agents agentId) hf
    obtain ⟨later, hlater, hle'⟩ := ih (h.step cfg moment.now moment.event) next hnext
    exact ⟨later, hlater, hle.trans hle'⟩

variable (cfg) in
theorem aborted_run (moments : List Moment) : ∀ {s : System}, Inv s →
    s.registry.aborted ⊆ (run cfg s moments).registry.aborted := by
  induction moments with
  | nil => exact fun _ _ hx => hx
  | cons moment rest ih =>
    intro s h x hx
    apply ih (h.step cfg moment.now moment.event)
    exact (steps_step cfg h moment.now moment.event).moves.aborted hx

theorem task_run (ticket : ℕ) (moments : List Moment) : ∀ {s : System}, Inv s →
    ticket < s.nextTicket → ∀ task, (run cfg s moments).tasks.lookup ticket = some task →
      s.tasks.lookup ticket = some task := by
  induction moments with
  | nil => exact fun _ _ _ h => h
  | cons moment rest ih =>
    intro s h hlt task htask
    have hsteps := steps_step cfg h moment.now moment.event
    have hnext := ih (h.step cfg moment.now moment.event)
      (lt_of_lt_of_le hlt hsteps.tickets) task htask
    rcases hsteps.tasks ticket task hnext with hold | ⟨hnew, -⟩
    · exact hold
    · omega

/-- In whose name a call launches a run. -/
def ParentCall.launcher : ParentCall → Option ParentRun
  | .create _ _ parent => parent
  | .reopen _ _ _ _ parent => parent
  | _ => none

variable {agentId : String} {s : System} {generation : ℕ}

theorem validateParentRun_cancelled (h : Inv s) {later : ℕ}
    (hfence : (s.view agentId).fence = some later) (hle : generation ≤ later) (chatId : String)
    (handle : Handle) :
    ∃ error, validateParentRun s.registry chatId (some ⟨agentId, generation, handle⟩) =
      .error error := by
  obtain ⟨r, hget, hle', -⟩ := (h.agents agentId).fenced later hfence
  unfold validateParentRun
  cases s.registry.records.byChild.lookup chatId with
  | none => exact ⟨_, rfl⟩
  | some bound =>
    simp only
    split_ifs with hother
    · exact ⟨_, rfl⟩
    · rw [not_not] at hother
      have hget' : s.registry.records.get bound = some r := by
        rw [hother]
        exact hget
      rw [hget']
      simp only
      split_ifs with hstopped
      · exact ⟨_, rfl⟩
      · simp only [not_or, not_not] at hstopped
        obtain ⟨hgen, -, -, hfenced⟩ := hstopped
        have hlater : later = generation := by omega
        rw [hother] at hfenced
        exact absurd (hlater ▸ hfence) hfenced

variable {handle : Handle}

theorem launch_refused (h : Inv s) {later : ℕ} (hfence : (s.view agentId).fence = some later)
    (hle : generation ≤ later) {call : ParentCall}
    (hcall : call.launcher = some ⟨agentId, generation, handle⟩) :
    ∃ error, step cfg now s (.parent call) = (s, some (.error error)) := by
  cases call with
  | create request child parent =>
    cases hcall
    obtain ⟨error, href⟩ :=
      validateParentRun_cancelled h hfence hle request.parentChatId handle
    rw [step, parentStep, createWithId]
    split_ifs
    · exact ⟨_, rfl⟩
    · refine ⟨error, ?_⟩
      have hchat : (newRecord request child now).parentChatId = request.parentChatId := rfl
      rw [hchat, href]
  | reopen child parentChatId expected requireCap parent =>
    cases hcall
    obtain ⟨error, href⟩ := validateParentRun_cancelled h hfence hle parentChatId handle
    refine ⟨error, ?_⟩
    rw [step, parentStep, reopenForParentRun, href]
  | _ => cases hcall

def Task.launches (agentId : String) (generation : ℕ) (handle : Handle) : Task → Prop
  | .creating created own => created = agentId ∧ generation = 1 ∧ own = handle
  | .reopening reopened own _ updated =>
    reopened = agentId ∧ generation = updated.runGeneration ∧ own = handle
  | _ => False

theorem TaskInv.accounted {aborted : List Handle} {view : String → View} {task : Task}
    (h : TaskInv aborted view task) (hl : task.launches agentId generation handle) :
    Accounted aborted (view agentId) generation handle := by
  cases task with
  | creating created own =>
    obtain ⟨rfl, rfl, rfl⟩ := hl
    exact h
  | reopening reopened own previous updated =>
    obtain ⟨rfl, rfl, rfl⟩ := hl
    exact h.1
  | _ => exact hl.elim

variable (cfg) (now) in
theorem finish_stopped {task : Task} (hl : task.launches agentId generation handle)
    (hset : handle ∈ s.registry.aborted) (disk : Except String Unit) :
    ∃ error, (finish cfg now s disk task).2 = some (.error error) := by
  cases task with
  | creating created own =>
    obtain ⟨rfl, rfl, rfl⟩ := hl
    cases disk with
    | error error => exact ⟨error, rfl⟩
    | ok _ =>
      refine ⟨"launch cancelled during registry insertion", ?_⟩
      rw [finish, createSaved, if_pos hset]
  | reopening reopened own previous updated =>
    obtain ⟨rfl, rfl, rfl⟩ := hl
    cases disk with
    | error error => exact ⟨error, rfl⟩
    | ok _ =>
      refine ⟨"agent changed while reopening", ?_⟩
      rw [finish, reopenSaved, if_pos (Or.inl hset)]
  | _ => exact hl.elim

variable {root : BackgroundAgent}

theorem below_get (h : Inv s) {r : BackgroundAgent} (hget : s.get agentId = some root)
    (hr : Below s.registry.records root r) : s.get r.agentId = some r := by
  cases hr with
  | refl =>
    rw [h.keyed agentId root hget]
    exact hget
  | tail _ hlast => exact hlast.2

variable (cfg) (now) in
theorem cancel_step (h : Inv s) {parentChatId : String} (hget : s.get agentId = some root)
    (hparent : root.parentChatId = parentChatId) (reason : Option String) :
    ∃ selected, selectAgents s.registry.records root true = some selected ∧
      (selected.map BackgroundAgent.agentId).Nodup ∧
      (∀ r, Below s.registry.records root r → r ∈ selected) ∧
      ∃ stopped, step cfg now s (.parent (.cancelSubtree parentChatId agentId true reason)) =
        (s.withRegistry (cancelAll cfg now true reason s.registry selected).1).await
          (.saving stopped stopped none) ∧
      ∀ record ∈ selected,
        (∃ r', (cancelAll cfg now true reason s.registry selected).1.records.get record.agentId =
            some r' ∧ r'.terminal = true ∧ r'.runGeneration = record.runGeneration) ∧
          (cancelAll cfg now true reason s.registry selected).1.records.cancelledSubtrees.lookup
            record.agentId = some record.runGeneration ∧
          (record.terminal = false → ∃ handle, s.runs.lookup record.agentId = some handle ∧
            handle ∈ (cancelAll cfg now true reason s.registry selected).1.aborted) := by
  have hkeyed := h.keyed
  have hid : root.agentId = agentId := hkeyed agentId root hget
  have hroot : s.registry.records.get root.agentId = some root := by
    rw [hid]
    exact hget
  obtain ⟨selected, hselected, hnodup, hcur, hbelow⟩ := selectAgents_spec hkeyed hroot true
  refine ⟨selected, hselected, hnodup, hbelow rfl,
    (cancelAll cfg now true reason s.registry selected).2, ?_, fun record hrec => ?_⟩
  · have hscoped : scopedRecord s.registry.records parentChatId agentId = .ok root := by
      rw [scopedRecord, show s.registry.records.get agentId = some root from hget,
        Option.filter_some, if_pos (decide_eq_true hparent)]
    rw [step, parentStep, cancelSubtree, hscoped]
    simp only [hselected]
  · obtain ⟨hmoves, -, hall⟩ := cancelAll_spec cfg (s.permit (.questions ∅)) now true reason s.runs selected
      s.registry hnodup hcur
    obtain ⟨hended, hfence, hset⟩ := hall record hrec
    refine ⟨hended, hfence rfl, fun hlive => ?_⟩
    obtain ⟨handle, hrun, hx | hruntime⟩ :=
      (h.agents record.agentId).handled record (hcur record hrec) hlive
    · exact ⟨handle, hrun, hmoves.aborted hx⟩
    · exact ⟨handle, hrun, hset hlive handle hruntime⟩

structure StaysCancelled (cfg : RegistrySettings) (cancelled : System) (r : BackgroundAgent)
    (later : System) : Prop where
  refused : ∀ now handle call, ParentCall.launcher call = some ⟨r.agentId, r.runGeneration, handle⟩ →
    ∃ error, step cfg now later (.parent call) = (later, some (.error error))
  failed : r.terminal = false → ∀ ticket task handle,
    cancelled.tasks.lookup ticket = some task → task.launches r.agentId r.runGeneration handle →
      ∀ now disk answer, (step cfg now later (.resume ticket disk)).2 = some answer →
        ∃ error, answer = .error error
  reopened : ∀ now event ended live, later.get r.agentId = some ended → ended.terminal = true →
    (step cfg now later event).1.get r.agentId = some live → live.terminal = false →
      Event.reopens r.agentId event

/-- An agent that has ended is live again only by a call that reopens it. -/
theorem reopens_of_live (h : Inv s) {event : Event} {ended live : BackgroundAgent}
    (hended : s.get agentId = some ended) (hdone : ended.terminal = true)
    (hlive : (step cfg now s event).1.get agentId = some live) (hnot : live.terminal = false) :
    event.reopens agentId := by
  have hm := (steps_step cfg h now event).moves.agents agentId
  have hv : (s.view agentId).record = some ended := hended
  have hv' : ((step cfg now s event).1.view agentId).record = some live := hlive
  rw [System.view] at hv hv'
  generalize viewOf s.registry s.runs agentId = v at hm hv
  generalize viewOf (step cfg now s event).1.registry (step cfg now s event).1.runs agentId = v'
    at hm hv'
  cases hm with
  | reopened hpermit _ _ _ _ _ => exact hpermit
  | same | retired _ | fenced _ | dropped _ =>
    cases hv.symm.trans hv'
    rw [hdone] at hnot
    cases hnot
  | updated _ hstat _ _ _ =>
    cases hv
    cases hv'
    rw [hstat, hdone] at hnot
    cases hnot
  | saved _ hstat =>
    cases hv'
    rw [BackgroundAgent.terminal, hstat] at hnot
    cases hnot
  | finished _ hwas _ _ _ _ _ | withdrawn _ hwas _ _ _ _ _ =>
    cases hv
    rw [hdone] at hwas
    cases hwas
  | created _ => cases hv

/-- In every run, a cancel finds each agent below the root once and stops it, and no order of
operations afterwards launches a run for it again except in the name of a later run. -/
theorem cancelled_subtree_final (cfg : RegistrySettings) (loadedAt now : ℤ)
    (limits : QuestionLimits) (stored : List BackgroundAgent) (before : List Moment)
    (parentChatId agentId : String) (reason : Option String) (root : BackgroundAgent)
    (hget : (run cfg (start cfg loadedAt limits stored) before).get agentId = some root)
    (hparent : root.parentChatId = parentChatId) :
    let s := run cfg (start cfg loadedAt limits stored) before
    let cancelled :=
      (step cfg now s (.parent (.cancelSubtree parentChatId agentId true reason))).1
    (∃ selected, selectAgents s.registry.records root true = some selected ∧
      (selected.map BackgroundAgent.agentId).Nodup ∧
      ∀ r, Below s.registry.records root r → r ∈ selected) ∧
    ∀ r, Below s.registry.records root r →
      (∃ r', cancelled.get r.agentId = some r' ∧ r'.terminal = true) ∧
      (r.terminal = false → ∃ handle, s.runs.lookup r.agentId = some handle ∧
        handle ∈ cancelled.registry.aborted ∧
        ∀ runtime, s.registry.runtime.lookup r.agentId = some runtime →
          runtime.abortFlag = handle) ∧
      ∀ after, StaysCancelled cfg cancelled r (run cfg cancelled after) := by
  intro s cancelled
  have h : Inv s := inv_run cfg loadedAt limits stored before
  have hc : Inv cancelled := h.step cfg now _
  obtain ⟨selected, hselected, hnodup, hbelow, stopped, hstep, hall⟩ :=
    cancel_step cfg now h hget hparent reason
  refine ⟨⟨selected, hselected, hnodup, hbelow⟩, fun r hr => ?_⟩
  have hcancelled : cancelled = ((s.withRegistry (cancelAll cfg now true reason s.registry
      selected).1).await (.saving stopped stopped none)).1 := congrArg Prod.fst hstep
  obtain ⟨⟨r', hr', hdone, -⟩, hfence, hset⟩ := hall r (hbelow r hr)
  have hflag : r.terminal = false → ∃ handle, s.runs.lookup r.agentId = some handle ∧
      handle ∈ cancelled.registry.aborted := by
    rw [hcancelled]
    exact hset
  refine ⟨⟨r', ?_, hdone⟩, fun hlive => ?_, fun after => ?_⟩
  · rw [hcancelled]
    exact hr'
  · obtain ⟨handle, hrun, hin⟩ := hflag hlive
    refine ⟨handle, hrun, hin, fun runtime hruntime => ?_⟩
    have howned := (h.agents r.agentId).owned runtime.abortFlag (by
      rw [System.view, viewOf, hruntime]
      rfl)
    exact Option.some.inj (howned.symm.trans hrun)
  · have hl : Inv (run cfg cancelled after) := hc.run cfg after
    have hfenced : (cancelled.view r.agentId).fence = some r.runGeneration := by
      rw [hcancelled]
      exact hfence
    constructor
    · intro now' handle call hcall
      obtain ⟨later, hlater, hle⟩ := fence_run cfg r.agentId after hc _ hfenced
      exact launch_refused hl hlater hle hcall
    · intro hlive ticket task handle htask hlaunch now' disk answer hanswer
      obtain ⟨flag, hrun, hin⟩ := hflag hlive
      -- the launch was in flight before the cancel: its run is the one that was stopped
      have htask' : s.tasks.lookup ticket = some task := by
        rw [hcancelled] at htask
        change (s.tasks.insert s.nextTicket (.saving stopped stopped none)).lookup ticket =
          some task at htask
        rw [AList.lookup_insert_if] at htask
        split_ifs at htask with hnew
        · cases htask
          exact hlaunch.elim
        · exact htask
      have hhandle : handle ∈ cancelled.registry.aborted := by
        rcases (h.tasks ticket task htask').accounted hlaunch with hx | ⟨r₀, hr₀, hcase⟩
        · exact (steps_step cfg h now _).moves.aborted hx
        · have hsame : some r₀ = some r := hr₀.symm.trans (below_get h hget hr)
          cases hsame
          rcases hcase with hlt | ⟨-, hpublished⟩
          · exact absurd hlt (lt_irrefl _)
          · cases (hpublished hlive).symm.trans hrun
            exact hin
      rw [step] at hanswer
      cases hlookup : (run cfg cancelled after).tasks.lookup ticket with
      | none =>
        rw [hlookup] at hanswer
        cases hanswer
      | some task' =>
        have hold := task_run ticket after hc (hc.tickets ticket task htask) task' hlookup
        cases htask.symm.trans hold
        rw [hlookup] at hanswer
        have hin' := aborted_run cfg after hc hhandle
        obtain ⟨error, herror⟩ := finish_stopped cfg now'
          (s := { run cfg cancelled after with
            tasks := (run cfg cancelled after).tasks.erase ticket }) hlaunch hin' disk
        exact ⟨error, Option.some.inj (hanswer.symm.trans herror)⟩
    · intro now' event ended live hended hdone' hlive' hnot
      exact reopens_of_live hl hended hdone' hlive' hnot

def launchBelow : List Moment :=
  [⟨0, .parent (.create ⟨"root", none, none⟩ "A" none)⟩, done 0,
    ⟨0, .runner "A" 1 (.markRunning "c1")⟩, done 1,
    ⟨0, .parent (.create ⟨"c1", none, none⟩ "B" (some ⟨"A", 1, 0⟩))⟩]

def runningA : BackgroundAgent :=
  { newRecord ⟨"root", none, none⟩ "A" 0 with
    status := .running
    childChatId := some "c1"
    startedAt := some 0
    changeSeq := 2 }

/-- The launch of B still waits for the disk when A is cancelled. -/
theorem cancelled_subtree_final_launch :
    let cancelled := (step sampleSettings 0 (run sampleSettings sampleStart launchBelow)
      (.parent (.cancelSubtree "root" "A" true none))).1
    (∃ r, cancelled.get "B" = some r ∧ r.terminal = true) ∧
      ∀ after disk now answer,
        (step sampleSettings now (run sampleSettings cancelled after) (.resume 2 disk)).2 =
          some answer → ∃ error, answer = .error error := by
  intro cancelled
  obtain ⟨-, hall⟩ := cancelled_subtree_final sampleSettings 0 0 ⟨8, 60, 60⟩ [] launchBelow
    "root" "A" none runningA (by decide) rfl
  obtain ⟨hended, -, hstays⟩ := hall (newRecord ⟨"c1", none, none⟩ "B" 0)
    (Relation.ReflTransGen.single ⟨rfl, by decide⟩)
  refine ⟨hended, fun after disk now answer hanswer => ?_⟩
  exact (hstays after).failed rfl 2 (.creating "B" 1) 1 (by decide) ⟨rfl, rfl, rfl⟩ now disk
    answer hanswer

def rebindA : List Moment := [done 2, ⟨0, .runner "A" 1 (.markRunning "c2")⟩, done 3]

/-- A is bound to another chat and cancelled: the agent that it launched before lives on. -/
theorem rebound_child_survives :
    let launched := run sampleSettings sampleStart (launchBelow ++ [done 2])
    let cancelled := run sampleSettings sampleStart (launchBelow ++ rebindA ++
      [⟨0, .parent (.cancelSubtree "root" "A" true none)⟩, done 4])
    (launched.get "A").bind (·.childChatId) = some "c1" ∧
      (launched.get "B").map (·.parentChatId) = some "c1" ∧
      (step sampleSettings 0 cancelled (.resume 5 (.ok ()))).2 matches some (.ok ()) ∧
      (cancelled.get "A").map (·.status) = some .cancelled ∧
      (cancelled.get "B").map (·.status) = some .queued := by
  decide

end AgentRegistry
