import RefactEngine.AgentRegistry

/-! # Runs of the agent registry

Operations of parents and runners in any order: what an operation does under one lock is one step,
and an operation that waits for the disk is a task that a later step resumes with the outcome. A
runner that was stopped may still call. For each agent the system also notes the abort flag that
was last published, which is not stored.
-/
namespace AgentRegistry

open AgentDeliveries QuestionRegistry

/-- What the runner of a generation calls. The outcome of saving a payload comes with the call. -/
inductive RunnerCall where
  | updateProgress (progress : String) (stepCount : ℕ)
  | updateActivity (progress : Option String) (stepCount : Option ℕ)
      (currentTool : Option (Option String))
  | markRunning (childChatId : String)
  | markCompleted (completion : AgentCompletion) (payload : Except String Unit)
  | markFailed (error : String) (payload : Except String Unit)
  | markInterrupted (reason : String)
  | acknowledgeDelivery (id : Text)
  | setCompletionMessageId (messageId : String)

inductive ParentCall where
  | create (request : CreateAgentRequest) (agentId : String) (parent : Option ParentRun)
  | reopen (agentId parentChatId : String) (expectedChangeSeq : ℕ) (requireCap : Bool)
      (parent : Option ParentRun)
  | cancelSubtree (parentChatId agentId : String) (subtree : Bool) (reason : Option String)
  | close (parentChatId agentId : String) (expectedRunGeneration : Option ℕ)
      (reason : Option String)
  | rollbackUnacceptedResume (previous queued : BackgroundAgent) (abort : Handle)
      (configAbsent : Bool)
  | markCancelled (agentId : String) (reason : Option String) (payload : Except String Unit)
  | markWaitingForApproval (agentId : String)

inductive Task where
  | writing
  | retiring (agentId : String) (generation : ℕ)
  | closing (agentId : String) (generation : ℕ)
  | creating (agentId : String) (handle : Handle)
  | reopening (agentId : String) (handle : Handle) (previous updated : BackgroundAgent)
  | saving (unsaved stopped : List BackgroundAgent) (failure : Option String)
  deriving DecidableEq

/-- `questions` is any change that others make to the shared question service. A debounced write
that is only scheduled is one that succeeds. -/
inductive Event where
  | runner (agentId : String) (generation : ℕ) (call : RunnerCall)
  | parent (call : ParentCall)
  | resume (ticket : ℕ) (disk : Except String Unit)
  | questions (entries : Entries)

structure Moment where
  now : ℤ
  event : Event

structure System where
  registry : Registry
  tasks : AList fun _ : ℕ => Task
  nextTicket : ℕ
  runs : AList fun _ : String => Handle

abbrev Answer := Option (Except String Unit)

namespace System

def get (s : System) (agentId : String) : Option BackgroundAgent :=
  s.registry.records.get agentId

variable (s : System)

def withRegistry (g : Registry) : System := { s with registry := g }

def await (task : Task) : System × Answer :=
  ({ s with
    tasks := s.tasks.insert s.nextTicket task
    nextTicket := s.nextTicket + 1 }, none)

def afterWrite (result : Registry × Written) (task : BackgroundAgent → Task) :
    System × Answer :=
  match result.2 with
  | .refused error => (s.withRegistry result.1, some (.error error))
  | .unchanged _ => (s.withRegistry result.1, some (.ok ()))
  | .written record => (s.withRegistry result.1).await (task record)

def launch (agentId : String) (g : Registry) (task : Task) : System × Answer :=
  await { s with registry := g, runs := s.runs.insert agentId s.registry.nextHandle } task

end System

section Steps

variable (cfg : RegistrySettings) (now : ℤ)

def runnerWrite (g : Registry) (agentId : String) (generation : ℕ) :
    RunnerCall → Registry × Written
  | .updateProgress progress stepCount => updateProgress cfg g agentId now progress stepCount
  | .updateActivity progress stepCount currentTool =>
    updateActivity cfg g agentId now progress stepCount currentTool
  | .markRunning childChatId => markRunning g agentId now childChatId
  | .markCompleted completion payload => markCompleted cfg g agentId now completion payload
  | .markFailed error payload => markFailed cfg g agentId now error payload
  | .markInterrupted reason => markInterrupted cfg g agentId now reason
  | .acknowledgeDelivery id => acknowledgeDelivery cfg g agentId now id
  | .setCompletionMessageId messageId =>
    setCompletionMessageIdForRun g agentId now (some generation) messageId

def RunnerCall.task (agentId : String) (record : BackgroundAgent) : RunnerCall → Task
  | .markCompleted _ _ | .markFailed _ _ | .markInterrupted _ =>
    .retiring agentId record.runGeneration
  | .updateProgress _ _ | .updateActivity _ _ _ | .markRunning _ | .acknowledgeDelivery _
  | .setCompletionMessageId _ => .writing

def parentStep (s : System) : ParentCall → System × Answer
  | .create request agentId parent =>
    match createWithId s.registry now request agentId parent with
    | .error error => (s, some (.error error))
    | .ok (_, g) => s.launch agentId g (.creating agentId s.registry.nextHandle)
  | .reopen agentId parentChatId expectedChangeSeq requireCap parent =>
    match reopenForParentRun cfg s.registry now agentId parentChatId expectedChangeSeq requireCap
        parent with
    | .error error => (s, some (.error error))
    | .ok (previous, updated, g) =>
      s.launch agentId g (.reopening agentId s.registry.nextHandle previous updated)
  | .cancelSubtree parentChatId agentId subtree reason =>
    match cancelSubtree cfg now s.registry parentChatId agentId subtree reason with
    | .error error => (s, some (.error error))
    | .ok (g, stopped) => (s.withRegistry g).await (.saving stopped stopped none)
  | .close parentChatId agentId expectedRunGeneration reason =>
    s.afterWrite (markClosed cfg s.registry agentId now (some parentChatId)
      expectedRunGeneration reason) fun record => .closing agentId record.runGeneration
  | .rollbackUnacceptedResume previous queued abort configAbsent =>
    match rollbackUnacceptedResume s.registry now previous queued abort configAbsent with
    | none => (s, some (.ok ()))
    | some (_, g) => (s.withRegistry g).await .writing
  | .markCancelled agentId reason payload =>
    s.afterWrite (markCancelled cfg s.registry agentId now reason payload)
      fun record => .retiring agentId record.runGeneration
  | .markWaitingForApproval agentId =>
    s.afterWrite (markWaitingForApproval s.registry agentId now) fun _ => .writing

def outcomeOf (failure : Option String) (disk : Except String Unit) : Except String Unit :=
  match failure with
  | some error => .error error
  | none => disk

def finish (s : System) (disk : Except String Unit) : Task → System × Answer
  | .writing => (s, some disk)
  | .retiring agentId generation =>
    match disk with
    | .error error => (s, some (.error error))
    | .ok () => (s.withRegistry (retireRuntime s.registry agentId generation), some (.ok ()))
  | .closing agentId generation =>
    (s.withRegistry (retireRuntime s.registry agentId generation), some disk)
  | .creating agentId handle =>
    match disk with
    | .error error =>
      (s.withRegistry (createUnsaved cfg s.registry now agentId handle error),
        some (.error error))
    | .ok () => (s, some (createSaved s.registry handle))
  | .reopening agentId handle previous updated =>
    match disk with
    | .error error =>
      (s.withRegistry (reopenUnsaved s.registry now agentId handle previous updated),
        some (.error error))
    | .ok () => (s, some (reopenSaved s.registry agentId handle))
  | .saving (record :: rest) stopped failure =>
    match disk with
    | .error error => s.await (.saving rest stopped (failure.orElse fun _ => some error))
    | .ok () =>
      (s.withRegistry (setPayloadPath cfg s.registry record)).await (.saving rest stopped failure)
  | .saving [] stopped failure =>
    (s.withRegistry (removeCancelled s.registry stopped), some (outcomeOf failure disk))

def step (s : System) : Event → System × Answer
  | .runner agentId generation call =>
    s.afterWrite (runnerWrite cfg now s.registry agentId generation call)
      fun record => call.task agentId record
  | .parent call => parentStep cfg now s call
  | .resume ticket disk =>
    match s.tasks.lookup ticket with
    | none => (s, none)
    | some task => finish cfg now { s with tasks := s.tasks.erase ticket } disk task
  | .questions entries => (s.withRegistry { s.registry with questions := entries }, none)

end Steps

def start (cfg : RegistrySettings) (now : ℤ) (limits : QuestionLimits)
    (stored : List BackgroundAgent) : System :=
  ⟨load cfg now limits stored, ∅, 0, ∅⟩

def run (cfg : RegistrySettings) (s : System) (moments : List Moment) : System :=
  moments.foldl (fun s moment => (step cfg moment.now s moment.event).1) s

/-- One agent: its record, its runner's flag, the flag that was last published, and the generation
at which its subtree was last cancelled. -/
@[ext] structure View where
  record : Option BackgroundAgent
  runtime : Option Handle
  run : Option Handle
  fence : Option ℕ

def viewOf (g : Registry) (runs : AList fun _ : String => Handle) (agentId : String) : View :=
  ⟨g.records.get agentId, (g.runtime.lookup agentId).map (·.abortFlag), runs.lookup agentId,
    g.records.cancelledSubtrees.lookup agentId⟩

def System.view (s : System) (agentId : String) : View := viewOf s.registry s.runs agentId

/-- What only some events may do to an agent: start its next run, or note a saved payload. -/
structure Permit where
  reopens : Prop
  saves : BackgroundAgent → Prop

inductive AgentMove (cfg : RegistrySettings) (agentId : String) (permit : Permit)
    (aborted : List Handle) : View → View → Prop where
  | same (v : View) : AgentMove cfg agentId permit aborted v v
  | updated {r r' : BackgroundAgent} {runtime handle : Option Handle} {fence : Option ℕ}
      (hid : r'.agentId = r.agentId) (hstatus : r'.terminal = r.terminal)
      (hkept : r.terminal = true → r'.status = r.status)
      (hgeneration : r'.runGeneration = r.runGeneration) (hseq : r.changeSeq < r'.changeSeq) :
      AgentMove cfg agentId permit aborted ⟨some r, runtime, handle, fence⟩
        ⟨some r', runtime, handle, fence⟩
  | saved {r : BackgroundAgent} {runtime handle : Option Handle} {fence : Option ℕ}
      (hpermit : permit.saves r) (hstatus : r.status = .cancelled) :
      AgentMove cfg agentId permit aborted ⟨some r, runtime, handle, fence⟩
        ⟨some { r with resultPayloadPath := some (cfg.resultPath agentId) }, runtime, handle,
          fence⟩
  | finished {r r' : BackgroundAgent} {runtime runtime' handle : Option Handle}
      {fence fence' : Option ℕ} (hid : r'.agentId = r.agentId) (hlive : r.terminal = false)
      (hdone : r'.terminal = true) (hgeneration : r'.runGeneration = r.runGeneration)
      (hseq : r.changeSeq < r'.changeSeq) (hruntime : runtime' = runtime ∨ runtime' = none)
      (hfence : fence' = fence ∨ fence' = some r.runGeneration) :
      AgentMove cfg agentId permit aborted ⟨some r, runtime, handle, fence⟩
        ⟨some r', runtime', handle, fence'⟩
  | retired {r : BackgroundAgent} {runtime handle : Option Handle} {fence : Option ℕ}
      (hdone : r.terminal = true) :
      AgentMove cfg agentId permit aborted ⟨some r, runtime, handle, fence⟩
        ⟨some r, none, handle, fence⟩
  | fenced {r : BackgroundAgent} {runtime handle : Option Handle} {fence : Option ℕ}
      (hdone : r.terminal = true) :
      AgentMove cfg agentId permit aborted ⟨some r, runtime, handle, fence⟩
        ⟨some r, runtime, handle, some r.runGeneration⟩
  | dropped {record : Option BackgroundAgent} {handle : Option Handle} {fence : Option ℕ}
      {h : Handle} (hset : h ∈ aborted) :
      AgentMove cfg agentId permit aborted ⟨record, some h, handle, fence⟩
        ⟨record, none, handle, fence⟩
  | withdrawn {r r' : BackgroundAgent} {runtime runtime' handle : Option Handle}
      {fence : Option ℕ} (hid : r'.agentId = r.agentId) (hlive : r.terminal = false)
      (hdone : r'.terminal = true) (hgeneration : r'.runGeneration + 1 = r.runGeneration)
      (hseq : r.changeSeq < r'.changeSeq) (hruntime : runtime' = runtime ∨ runtime' = none)
      (hset : ∀ h, handle = some h → h ∈ aborted) :
      AgentMove cfg agentId permit aborted ⟨some r, runtime, handle, fence⟩
        ⟨some r', runtime', handle, fence⟩
  | created {r : BackgroundAgent} {runtime handle : Option Handle} {fence : Option ℕ}
      {h : Handle} (hid : r.agentId = agentId) :
      AgentMove cfg agentId permit aborted ⟨none, runtime, handle, fence⟩
        ⟨some r, some h, some h, fence⟩
  | reopened {r r' : BackgroundAgent} {handle : Option Handle} {fence : Option ℕ} {h : Handle}
      (hpermit : permit.reopens) (hid : r'.agentId = r.agentId) (hdone : r.terminal = true)
      (hqueued : r'.status = .queued) (hgeneration : r'.runGeneration = r.runGeneration + 1)
      (hseq : r.changeSeq < r'.changeSeq) :
      AgentMove cfg agentId permit aborted ⟨some r, none, handle, fence⟩
        ⟨some r', some h, some h, fence⟩

structure AgentInv (aborted : List Handle) (agentId : String) (v : View) : Prop where
  keyed : ∀ r, v.record = some r → r.agentId = agentId
  handled : ∀ r, v.record = some r → r.terminal = false →
    ∃ h, v.run = some h ∧ (h ∈ aborted ∨ v.runtime = some h)
  owned : ∀ h, v.runtime = some h → v.run = some h
  fenced : ∀ generation, v.fence = some generation → ∃ r, v.record = some r ∧
    generation ≤ r.runGeneration ∧ (generation = r.runGeneration → r.terminal = true)

/-- A launched run was told to stop, or its agent has moved on, or it has the published flag
while it is live. -/
def Accounted (aborted : List Handle) (v : View) (generation : ℕ) (handle : Handle) : Prop :=
  handle ∈ aborted ∨ ∃ r, v.record = some r ∧ (generation < r.runGeneration ∨
    r.runGeneration = generation ∧ (r.terminal = false → v.run = some handle))

/-- A reopened record has changed since, or is the one that was published. -/
def Published (v : View) (handle : Handle) (updated : BackgroundAgent) : Prop :=
  ∃ r, v.record = some r ∧ updated.changeSeq ≤ r.changeSeq ∧
    (r.changeSeq = updated.changeSeq → r = updated ∧ v.run = some handle)

namespace AgentMove

variable {cfg : RegistrySettings} {agentId : String} {permit : Permit}
  {aborted aborted' : List Handle} {v v' : View}

theorem inv (hm : AgentMove cfg agentId permit aborted' v v') (hsub : aborted ⊆ aborted')
    (h : AgentInv aborted agentId v) : AgentInv aborted' agentId v' := by
  cases hm with
  | same =>
    refine ⟨h.keyed, fun r hr hlive => ?_, h.owned, h.fenced⟩
    obtain ⟨handle, hrun, hset | hruntime⟩ := h.handled r hr hlive
    · exact ⟨handle, hrun, Or.inl (hsub hset)⟩
    · exact ⟨handle, hrun, Or.inr hruntime⟩
  | @updated r r' runtime handle fence hid hstat hkept hgen hseq =>
    refine ⟨?_, ?_, h.owned, ?_⟩
    · rintro _ ⟨⟩
      exact hid.trans (h.keyed r rfl)
    · rintro _ ⟨⟩ hlive
      obtain ⟨x, hrun, hset | hruntime⟩ := h.handled r rfl (hstat ▸ hlive)
      · exact ⟨x, hrun, Or.inl (hsub hset)⟩
      · exact ⟨x, hrun, Or.inr hruntime⟩
    · intro c hc
      obtain ⟨_, ⟨⟩, hle, hdone⟩ := h.fenced c hc
      refine ⟨r', rfl, hgen ▸ hle, fun heq => ?_⟩
      rw [hstat]
      exact hdone (heq.trans hgen)
  | @saved r runtime handle fence hpermit hstat =>
    refine ⟨?_, ?_, h.owned, ?_⟩
    · rintro _ ⟨⟩
      exact h.keyed r rfl
    · rintro _ ⟨⟩ hlive
      rw [BackgroundAgent.terminal, hstat] at hlive
      cases hlive
    · intro c hc
      obtain ⟨_, ⟨⟩, hle, hdone⟩ := h.fenced c hc
      exact ⟨_, rfl, hle, hdone⟩
  | @finished r r' runtime runtime' handle fence fence' hid hlive hdone hgen hseq hruntime
      hfence =>
    refine ⟨?_, ?_, ?_, ?_⟩
    · rintro _ ⟨⟩
      exact hid.trans (h.keyed r rfl)
    · rintro _ ⟨⟩ hlive'
      rw [hdone] at hlive'
      cases hlive'
    · intro x hx
      rcases hruntime with rfl | rfl
      · exact h.owned x hx
      · cases hx
    · rintro c hc
      refine ⟨r', rfl, ?_, fun _ => hdone⟩
      rcases hfence with rfl | rfl
      · obtain ⟨_, ⟨⟩, hle, -⟩ := h.fenced c hc
        omega
      · cases hc
        omega
  | retired hdone =>
    refine ⟨h.keyed, fun r hr hlive => ?_, nofun, h.fenced⟩
    cases hr
    rw [hdone] at hlive
    cases hlive
  | fenced hdone =>
    refine ⟨h.keyed, fun r hr hlive => ?_, h.owned, ?_⟩
    · cases hr
      rw [hdone] at hlive
      cases hlive
    · rintro c ⟨⟩
      exact ⟨_, rfl, le_rfl, fun _ => hdone⟩
  | @dropped record handle fence dropped hset =>
    refine ⟨h.keyed, fun r hr hlive => ?_, nofun, h.fenced⟩
    obtain ⟨x, hrun, hx | hruntime⟩ := h.handled r hr hlive
    · exact ⟨x, hrun, Or.inl (hsub hx)⟩
    · cases hruntime
      exact ⟨dropped, hrun, Or.inl hset⟩
  | @withdrawn r r' runtime runtime' handle fence hid hlive hdone hgen hseq hruntime hset =>
    refine ⟨?_, ?_, ?_, ?_⟩
    · rintro _ ⟨⟩
      exact hid.trans (h.keyed r rfl)
    · rintro _ ⟨⟩ hlive'
      rw [hdone] at hlive'
      cases hlive'
    · intro x hx
      rcases hruntime with rfl | rfl
      · exact h.owned x hx
      · cases hx
    · intro c hc
      obtain ⟨_, ⟨⟩, hle, hdone'⟩ := h.fenced c hc
      refine ⟨r', rfl, ?_, fun _ => hdone⟩
      have hne : c ≠ r.runGeneration := by
        intro heq
        rw [hdone' heq] at hlive
        cases hlive
      omega
  | created hid =>
    refine ⟨?_, ?_, fun x hx => hx, ?_⟩
    · rintro _ ⟨⟩
      exact hid
    · rintro _ ⟨⟩ -
      exact ⟨_, rfl, Or.inr rfl⟩
    · intro c hc
      obtain ⟨_, ⟨⟩, -⟩ := h.fenced c hc
  | @reopened r r' handle fence x hpermit hid hdone hqueued hgen hseq =>
    refine ⟨?_, ?_, fun y hy => hy, ?_⟩
    · rintro _ ⟨⟩
      exact hid.trans (h.keyed r rfl)
    · rintro _ ⟨⟩ -
      exact ⟨_, rfl, Or.inr rfl⟩
    · intro c hc
      obtain ⟨_, ⟨⟩, hle, -⟩ := h.fenced c hc
      refine ⟨r', rfl, ?_, fun heq => ?_⟩
      · omega
      · omega

theorem fence_le (hm : AgentMove cfg agentId permit aborted' v v')
    (h : AgentInv aborted agentId v) {generation : ℕ} (hf : v.fence = some generation) :
    ∃ later, v'.fence = some later ∧ generation ≤ later := by
  obtain ⟨r, hr, hle, -⟩ := h.fenced generation hf
  cases hm with
  | finished _ _ _ _ _ _ hfence =>
    cases hr
    rcases hfence with rfl | rfl
    · exact ⟨generation, hf, le_rfl⟩
    · exact ⟨_, rfl, hle⟩
  | fenced _ =>
    cases hr
    exact ⟨_, rfl, hle⟩
  | _ => exact ⟨generation, hf, le_rfl⟩

theorem accounted (hm : AgentMove cfg agentId permit aborted' v v') (hsub : aborted ⊆ aborted')
    {generation : ℕ} {handle : Handle} (h : Accounted aborted v generation handle) :
    Accounted aborted' v' generation handle := by
  rcases h with hset | ⟨r, hr, hcase⟩
  · exact Or.inl (hsub hset)
  · cases hm with
    | same | retired _ | fenced _ | dropped _ => exact Or.inr ⟨r, hr, hcase⟩
    | updated _ hstat _ hgen _ =>
      cases hr
      refine Or.inr ⟨_, rfl, ?_⟩
      rw [hgen, hstat]
      exact hcase
    | saved _ _ =>
      cases hr
      exact Or.inr ⟨_, rfl, hcase⟩
    | finished _ _ hdone hgen _ _ _ =>
      cases hr
      refine Or.inr ⟨_, rfl, ?_⟩
      rw [hgen, hdone]
      rcases hcase with hlt | ⟨heq, -⟩
      · exact Or.inl hlt
      · exact Or.inr ⟨heq, nofun⟩
    | withdrawn _ hlive hdone hgen _ _ hset =>
      cases hr
      rcases hcase with hlt | ⟨heq, hrun⟩
      · refine Or.inr ⟨_, rfl, ?_⟩
        rw [hdone]
        rcases Nat.lt_or_ge generation _ with hlt' | hge
        · exact Or.inl hlt'
        · exact Or.inr ⟨by omega, nofun⟩
      · exact Or.inl (hset handle (hrun hlive))
    | created _ => cases hr
    | reopened _ _ hdone _ hgen _ =>
      cases hr
      refine Or.inr ⟨_, rfl, Or.inl ?_⟩
      rcases hcase with hlt | ⟨heq, -⟩ <;> omega

theorem published (hm : AgentMove cfg agentId permit aborted' v v') {handle : Handle}
    {updated : BackgroundAgent} (hqueued : updated.status = .queued)
    (h : Published v handle updated) : Published v' handle updated := by
  obtain ⟨r, hr, hle, hsame⟩ := h
  cases hm with
  | same | retired _ | fenced _ | dropped _ => exact ⟨r, hr, hle, hsame⟩
  | updated _ _ _ _ hseq =>
    cases hr
    exact ⟨_, rfl, by omega, fun heq => by omega⟩
  | saved _ hstat =>
    cases hr
    refine ⟨_, rfl, hle, fun heq => ?_⟩
    -- the published record is queued, and only a cancelled one is given a path
    rw [(hsame heq).1, hqueued] at hstat
    cases hstat
  | finished _ _ _ _ hseq _ _ =>
    cases hr
    exact ⟨_, rfl, by omega, fun heq => by omega⟩
  | withdrawn _ _ _ _ hseq _ _ =>
    cases hr
    exact ⟨_, rfl, by omega, fun heq => by omega⟩
  | created _ => cases hr
  | reopened _ _ _ _ _ hseq =>
    cases hr
    exact ⟨_, rfl, by omega, fun heq => by omega⟩

end AgentMove

end AgentRegistry
