import RefactEngine.AgentSafety

/-! # Calls of runners whose run is over

A runner that was stopped may call when its agent is already at a later generation. Which of these
calls say something about the later run, what a terminal record can still become, and which changes
are counted: step by step, in every run.
-/
namespace AgentRegistry

open AgentDeliveries QuestionRegistry

structure Spoken where
  status : BgAgentStatus
  resultSummary : Option String
  error : Option String
  resultPayloadPath : Option String
  editedFiles : List String
  completionMessageId : Option String

def BackgroundAgent.spoken (r : BackgroundAgent) : Spoken :=
  ⟨r.status, r.resultSummary, r.error, r.resultPayloadPath, r.editedFiles, r.completionMessageId⟩

/-- A call by the runner of an earlier generation leaves what the record says; a terminal status
stays or gives way to the next generation; every change is counted. -/
structure Keeps (cfg : RegistrySettings) (s : System) (moment : Moment) : Prop where
  silent : ∀ agentId generation call, moment.event = .runner agentId generation call →
    ∀ r r', s.get agentId = some r → generation < r.runGeneration →
      (step cfg moment.now s moment.event).1.get agentId = some r' → r'.spoken = r.spoken
  ended : ∀ agentId r r', s.get agentId = some r →
    (step cfg moment.now s moment.event).1.get agentId = some r' → r.terminal = true →
      r'.status = r.status ∨ moment.event.reopens agentId ∧ r'.status = .queued ∧
        r'.runGeneration = r.runGeneration + 1
  counted : ∀ agentId r r', s.get agentId = some r →
    (step cfg moment.now s moment.event).1.get agentId = some r' →
      r' = r ∨ r.changeSeq < r'.changeSeq

def RunnerCall.speaks (r : BackgroundAgent) : RunnerCall → Prop
  | .markRunning _ => r.status ≠ .running ∨ r.error ≠ none
  | .markCompleted _ payload | .markFailed _ payload => payload = .ok ()
  | .markInterrupted _ => True
  | .updateProgress _ _ | .updateActivity _ _ _ | .acknowledgeDelivery _
  | .setCompletionMessageId _ => False

/-- No such call comes from an earlier generation, and a path that a cancel notes is noted
already. -/
structure Meets (cfg : RegistrySettings) (s : System) (moment : Moment) : Prop where
  calls : ∀ agentId generation call, moment.event = .runner agentId generation call →
    ∀ r, s.get agentId = some r → generation < r.runGeneration → r.terminal = false →
      ¬ call.speaks r
  saves : ∀ record, s.savedRecord moment.event = some record →
    ∀ r, s.get record.agentId = some r → r.runGeneration = record.runGeneration →
      r.status = .cancelled → r.resultPayloadPath = some (cfg.resultPath record.agentId)

section Calls

variable {cfg : RegistrySettings} {now : ℤ} {s : System} {agentId : String} {generation : ℕ}
  {r r' : BackgroundAgent}

theorem get_afterWrite (result : Registry × Written) (task : BackgroundAgent → Task) :
    (s.afterWrite result task).1.get agentId = result.1.records.get agentId := by
  rw [System.afterWrite]
  cases result.2 <;> rfl

theorem get_store_self (agentId : String) (g : Registry) (r : BackgroundAgent) :
    (g.store agentId r).records.get agentId = some r := by
  rw [Registry.store, get_insert, if_pos rfl]

variable {g : Registry}

theorem updateRecordIfNotTerminal_live (hget : g.records.get agentId = some r)
    (hlive : r.terminal = false) (update : BackgroundAgent → BackgroundAgent) :
    (updateRecordIfNotTerminal g agentId now update).1.records.get agentId =
      some ((update r).touch now) := by
  rw [updateRecordIfNotTerminal, hget]
  simp only [hlive, Bool.false_eq_true, if_false]
  exact get_store_self agentId g _

theorem markTerminal_unsaved (error : String) (outcome : BackgroundAgent → BackgroundAgent) :
    (markTerminal cfg g agentId now (.error error) outcome).1 = g := by
  rw [markTerminal]
  cases g.records.get agentId with
  | none => rfl
  | some r =>
    simp only
    split_ifs
    · rfl
    · rfl

variable (cfg) (now) in
/-- A live record whose run is marked as over is terminal. -/
theorem markTerminal_live (hget : g.records.get agentId = some r) (hlive : r.terminal = false)
    {outcome : BackgroundAgent → BackgroundAgent} (h : (outcome r).terminal = true) :
    ∃ r', (markTerminal cfg g agentId now (.ok ()) outcome).1.records.get agentId = some r' ∧
      r'.terminal = true := by
  rw [markTerminal, hget]
  simp only [hlive, Bool.false_eq_true, if_false]
  exact ⟨_, get_store_self _ _ _, h⟩

theorem setCompletionMessageIdForRun_late (hget : g.records.get agentId = some r)
    (hlate : generation < r.runGeneration) (messageId : String) :
    (setCompletionMessageIdForRun g agentId now (some generation) messageId).1 = g := by
  have hne : decide (generation ≠ r.runGeneration) = true := decide_eq_true (by omega)
  rw [setCompletionMessageIdForRun, hget]
  simp only [Option.any_some, hne, Bool.or_true, if_true]

theorem spoken_of_eq (hget : s.get agentId = some r) (hsame : g = s.registry)
    (hget' : g.records.get agentId = some r') : r'.spoken = r.spoken := by
  rw [hsame] at hget'
  rw [Option.some.inj (hget'.symm.trans hget)]

theorem runnerWrite_silent {call : RunnerCall} (hget : s.get agentId = some r)
    (hlate : generation < r.runGeneration) (hquiet : r.terminal = false → ¬ call.speaks r)
    (hget' : (runnerWrite cfg now s.registry agentId generation call).1.records.get agentId =
      some r') : r'.spoken = r.spoken := by
  have hupd : ∀ update : BackgroundAgent → BackgroundAgent,
      (r.terminal = false → (update r).spoken = r.spoken) →
      (updateRecordIfNotTerminal s.registry agentId now update).1.records.get agentId = some r' →
        r'.spoken = r.spoken := by
    intro update hspoken h
    cases hdone : r.terminal with
    | true => 
      refine spoken_of_eq hget ?_ h
      rw [updateRecordIfNotTerminal, show s.registry.records.get agentId = _ from hget]
      simp only [hdone, if_true]
    | false =>
      rw [updateRecordIfNotTerminal_live hget hdone] at h
      cases h
      exact hspoken hdone
  have hmark : ∀ payload outcome, (r.terminal = false → payload ≠ .ok ()) →
      (markTerminal cfg s.registry agentId now payload outcome).1.records.get agentId = some r' →
        r'.spoken = r.spoken := by
    intro payload outcome hunsaved h
    cases hdone : r.terminal with
    | true => 
      refine spoken_of_eq hget ?_ h
      rw [markTerminal, show s.registry.records.get agentId = _ from hget]
      simp only [hdone, if_true]
    | false =>
      cases payload with
      | error error => exact spoken_of_eq hget (markTerminal_unsaved error outcome) h
      | ok _ => exact absurd rfl (hunsaved hdone)
  cases call with
  | updateProgress progress stepCount => exact hupd _ (fun _ => rfl) hget'
  | updateActivity progress stepCount currentTool => exact hupd _ (fun _ => rfl) hget'
  | markRunning childChatId =>
    refine hupd _ (fun hlive => ?_) hget'
    have h := hquiet hlive
    simp only [RunnerCall.speaks, not_or, not_not] at h
    rw [BackgroundAgent.spoken, BackgroundAgent.spoken, h.1, h.2]
  | markCompleted completion payload => exact hmark payload _ hquiet hget'
  | markFailed error payload => exact hmark payload _ hquiet hget'
  | markInterrupted reason =>
    exact hmark (.ok ()) _ (fun hlive => absurd trivial (hquiet hlive)) hget'
  | acknowledgeDelivery id =>
    rw [runnerWrite, acknowledgeDelivery, updateRecord, show s.registry.records.get agentId =
      some r from hget] at hget'
    cases (get_store_self agentId s.registry _).symm.trans hget'
    rfl
  | setCompletionMessageId messageId =>
    exact spoken_of_eq hget (setCompletionMessageIdForRun_late hget hlate messageId) hget'

variable (cfg) (now) (generation) in
theorem runnerWrite_speaks {call : RunnerCall} (hget : s.get agentId = some r)
    (hlive : r.terminal = false) (hspeaks : call.speaks r) :
    ∃ r', (runnerWrite cfg now s.registry agentId generation call).1.records.get agentId =
      some r' ∧ r'.spoken ≠ r.spoken := by
  have hended : ∀ r' : BackgroundAgent, r'.terminal = true → r'.spoken ≠ r.spoken := by
    intro r' hdone hsame
    have hstat : r'.status = r.status := congrArg Spoken.status hsame
    rw [BackgroundAgent.terminal, hstat] at hdone
    rw [BackgroundAgent.terminal, hdone] at hlive
    cases hlive
  cases call with
  | updateProgress | updateActivity | acknowledgeDelivery | setCompletionMessageId =>
    exact hspeaks.elim
  | markRunning childChatId =>
    refine ⟨_, updateRecordIfNotTerminal_live hget hlive _, fun hsame => ?_⟩
    rcases hspeaks with hstat | herror
    · exact hstat (congrArg Spoken.status hsame).symm
    · exact herror (congrArg Spoken.error hsame).symm
  | markCompleted completion payload =>
    cases hspeaks
    obtain ⟨r', hget', hdone⟩ := markTerminal_live cfg now hget hlive
      (ends_completed cfg agentId now completion r).done
    exact ⟨r', hget', hended r' hdone⟩
  | markFailed error payload =>
    cases hspeaks
    obtain ⟨r', hget', hdone⟩ := markTerminal_live cfg now hget hlive
      (ends_failed cfg agentId now error r).done
    exact ⟨r', hget', hended r' hdone⟩
  | markInterrupted reason =>
    obtain ⟨r', hget', hdone⟩ := markTerminal_live cfg now hget hlive
      (ends_interrupted now reason r).done
    exact ⟨r', hget', hended r' hdone⟩

end Calls

section Steps

variable {cfg : RegistrySettings} {s : System} {moment : Moment}

/-- What a move makes of a record: it is counted unless a payload path is noted, and a terminal
status stays unless the run is reopened. -/
theorem AgentMove.records {agentId : String} {permit : Permit} {aborted : List Handle}
    {v v' : View} (hm : AgentMove cfg agentId permit aborted v v') {r r' : BackgroundAgent}
    (hr : v.record = some r) (hr' : v'.record = some r') :
    (r.terminal = true → r'.status = r.status ∨ permit.reopens ∧ r'.status = .queued ∧
      r'.runGeneration = r.runGeneration + 1) ∧
    (r' = r ∨ r.changeSeq < r'.changeSeq ∨ permit.saves r ∧ r.status = .cancelled ∧
      r' = { r with resultPayloadPath := some (cfg.resultPath agentId) }) := by
  cases hm with
  | same | retired _ | fenced _ | dropped _ =>
    cases hr.symm.trans hr'
    exact ⟨fun _ => Or.inl rfl, Or.inl rfl⟩
  | updated _ _ hkept _ hseq =>
    cases hr
    cases hr'
    exact ⟨fun hdone => Or.inl (hkept hdone), Or.inr (Or.inl hseq)⟩
  | saved hpermit hstat =>
    cases hr
    cases hr'
    exact ⟨fun _ => Or.inl rfl, Or.inr (Or.inr ⟨hpermit, hstat, rfl⟩)⟩
  | finished _ hlive _ _ hseq _ _ | withdrawn _ hlive _ _ hseq _ _ =>
    cases hr
    cases hr'
    refine ⟨fun hdone => ?_, Or.inr (Or.inl hseq)⟩
    rw [hlive] at hdone
    cases hdone
  | created _ => cases hr
  | reopened hpermit _ _ hqueued hgen hseq =>
    cases hr
    cases hr'
    exact ⟨fun _ => Or.inr ⟨hpermit, hqueued, hgen⟩, Or.inr (Or.inl hseq)⟩

variable (cfg) in
/-- The path that a step notes is the only change that is not counted. -/
theorem saved_step {record r : BackgroundAgent} (hsaved : s.savedRecord moment.event = some record)
    (hget : s.get record.agentId = some r) (hgen : r.runGeneration = record.runGeneration)
    (hstat : r.status = .cancelled) :
    (step cfg moment.now s moment.event).1.get record.agentId =
      some { r with resultPayloadPath := some (cfg.resultPath record.agentId) } := by
  obtain ⟨now, event⟩ := moment
  simp only at hsaved ⊢
  cases event with
  | runner | parent | questions => cases hsaved
  | resume ticket disk =>
    cases disk with
    | error error => cases hsaved
    | ok _ =>
      rw [System.savedRecord] at hsaved
      rw [step]
      cases hlook : s.tasks.lookup ticket with
      | none =>
        rw [hlook] at hsaved
        cases hsaved
      | some task =>
        rw [hlook] at hsaved
        cases task with
        | saving unsaved stopped failure =>
          cases unsaved with
          | nil => cases hsaved
          | cons first rest =>
            cases hsaved
            have hrun : isCancelledRun s.registry record = true := by
              rw [isCancelledRun, show s.registry.records.get record.agentId = some r from hget,
                Option.any_some, decide_eq_true hgen, decide_eq_true hstat, Bool.true_and]
            have hpath : (setPayloadPath cfg s.registry record).records.get record.agentId =
                some { r with resultPayloadPath := some (cfg.resultPath record.agentId) } := by
              rw [setPayloadPath, if_pos hrun, get_modify, if_pos rfl,
                show s.registry.records.get record.agentId = some r from hget, Option.map_some]
            exact hpath
        | _ => cases hsaved

theorem keeps_iff (h : Inv s) (cfg : RegistrySettings) (moment : Moment) :
    Keeps cfg s moment ↔ Meets cfg s moment := by
  have hmoves := (steps_step cfg h moment.now moment.event).moves.agents
  constructor
  · intro hkeeps
    constructor
    · intro agentId generation call hevent r hget hlate hlive hspeaks
      obtain ⟨r', hget', hne⟩ := runnerWrite_speaks cfg moment.now generation
        hget hlive hspeaks
      apply hne
      apply hkeeps.silent agentId generation call hevent r r' hget hlate
      rw [hevent, step, get_afterWrite]
      exact hget'
    · intro record hsaved r hget hgen hstat
      have hget' := saved_step cfg hsaved hget hgen hstat
      rcases hkeeps.counted record.agentId r _ hget hget' with hsame | hlt
      · exact (congrArg BackgroundAgent.resultPayloadPath hsame).symm
      · exact absurd hlt (lt_irrefl _)
  · intro hmeets
    constructor
    · intro agentId generation call hevent r r' hget hlate hget'
      rw [hevent, step, get_afterWrite] at hget'
      exact runnerWrite_silent hget hlate
        (hmeets.calls agentId generation call hevent r hget hlate) hget'
    · intro agentId r r' hget hget'
      exact ((hmoves agentId).records hget hget').1
    · intro agentId r r' hget hget'
      rcases ((hmoves agentId).records hget hget').2 with
        hsame | hlt | ⟨⟨record, hsaved, rfl, hgen⟩, hstat, hpath⟩
      · exact Or.inl hsame
      · exact Or.inr hlt
      · have hnoted := hmeets.saves record hsaved r hget hgen hstat
        rw [← hnoted] at hpath
        exact Or.inl hpath

end Steps

def trace (cfg : RegistrySettings) : System → List Moment → List (System × Moment)
  | _, [] => []
  | s, moment :: rest =>
    (s, moment) :: trace cfg (step cfg moment.now s moment.event).1 rest

theorem inv_trace (cfg : RegistrySettings) (moments : List Moment) : ∀ {s : System}, Inv s →
    ∀ p ∈ trace cfg s moments, Inv p.1 := by
  induction moments with
  | nil => exact fun _ _ h => absurd h List.not_mem_nil
  | cons moment rest ih =>
    intro s h p hp
    rcases List.mem_cons.mp hp with rfl | hp
    · exact h
    · exact ih (h.step cfg moment.now moment.event) p hp

/-- A run keeps the promise in all its steps exactly if no late call speaks in it and every path
that a cancel notes was noted before. -/
theorem late_calls_silent_iff (cfg : RegistrySettings) (loadedAt : ℤ) (limits : QuestionLimits)
    (stored : List BackgroundAgent) (moments : List Moment) :
    (∀ p ∈ trace cfg (start cfg loadedAt limits stored) moments, Keeps cfg p.1 p.2) ↔
      ∀ p ∈ trace cfg (start cfg loadedAt limits stored) moments, Meets cfg p.1 p.2 := by
  have hinv := inv_trace cfg moments (inv_start cfg loadedAt limits stored)
  constructor
  · intro h p hp
    exact (keeps_iff (hinv p hp) cfg p.2).mp (h p hp)
  · intro h p hp
    exact (keeps_iff (hinv p hp) cfg p.2).mpr (h p hp)

def cancelledRun : List Moment :=
  [⟨0, .parent (.create ⟨"root", none, none⟩ "A" none)⟩, done 0,
    ⟨0, .runner "A" 1 (.markRunning "c1")⟩, done 1,
    ⟨0, .parent (.cancelSubtree "root" "A" false none)⟩]

def reopenedRun : List Moment :=
  cancelledRun ++ [done 2, done 3, ⟨0, .parent (.reopen "A" "root" 3 false none)⟩, done 4]

/-- The runner of the first generation completes the second; and the path that a cancel notes is
not counted. -/
theorem late_completion_speaks :
    let reopened := run sampleSettings sampleStart reopenedRun
    let late := (step sampleSettings 0 reopened
      (.runner "A" 1 (.markCompleted ⟨"late", [], none, none, none, none, none⟩ (.ok ())))).1
    let cancelled := run sampleSettings sampleStart cancelledRun
    let noted := (step sampleSettings 0 cancelled (.resume 2 (.ok ()))).1
    (reopened.get "A").map (fun r => (r.runGeneration, r.status, r.resultSummary)) =
        some (2, .queued, none) ∧
      (late.get "A").map (fun r => (r.runGeneration, r.status, r.resultSummary)) =
        some (2, .completed, some "late") ∧
      (cancelled.get "A").map (fun r => (r.changeSeq, r.resultPayloadPath)) = some (3, none) ∧
      (noted.get "A").map (fun r => (r.changeSeq, r.resultPayloadPath)) = some (3, some "A") := by
  decide

end AgentRegistry
