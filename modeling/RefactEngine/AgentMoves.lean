import RefactEngine.AgentRuns

/-! # What the operations of the agent registry change

Everything an operation does under one lock moves each agent in one of the listed ways. From this
every run keeps the invariant of the agents and of the tasks that wait for the disk.
-/
namespace AgentRegistry

open AgentDeliveries QuestionRegistry List

theorem AgentMove.mono {cfg : RegistrySettings} {agentId : String} {permit : Permit}
    {aborted aborted' : List Handle} {v v' : View}
    (hm : AgentMove cfg agentId permit aborted v v') (hsub : aborted ⊆ aborted') :
    AgentMove cfg agentId permit aborted' v v' := by
  cases hm with
  | same => exact .same _
  | updated hid hstat hkept hgen hseq =>
    exact .updated hid hstat hkept hgen hseq
  | saved hpermit hstat => exact .saved hpermit hstat
  | finished hid hlive hdone hgen hseq hrun hfence =>
    exact .finished hid hlive hdone hgen hseq hrun hfence
  | retired hdone => exact .retired hdone
  | fenced hdone => exact .fenced hdone
  | dropped hset => exact .dropped (hsub hset)
  | withdrawn hid hlive hdone hgen hseq hrun hset =>
    exact .withdrawn hid hlive hdone hgen hseq hrun fun h hh => hsub (hset h hh)
  | created hid => exact .created hid
  | reopened hpermit hid hdone hqueued hgen hseq =>
    exact .reopened hpermit hid hdone hqueued hgen hseq

structure Moves (cfg : RegistrySettings) (permits : String → Permit)
    (g : Registry) (runs : AList fun _ : String => Handle)
    (g' : Registry) (runs' : AList fun _ : String => Handle) : Prop where
  aborted : g.aborted ⊆ g'.aborted
  agents : ∀ agentId, AgentMove cfg agentId (permits agentId) g'.aborted
    (viewOf g runs agentId) (viewOf g' runs' agentId)

section Views

variable {g : Registry} {runs : AList fun _ : String => Handle} {agentId : String}
  {r : BackgroundAgent}

theorem viewOf_record (hget : g.records.get agentId = some r) :
    viewOf g runs agentId = ⟨some r, (g.runtime.lookup agentId).map (·.abortFlag),
      runs.lookup agentId, g.records.cancelledSubtrees.lookup agentId⟩ := by
  rw [viewOf, hget]

theorem viewOf_store (g : Registry) (runs : AList fun _ : String => Handle)
    (agentId other : String) (r : BackgroundAgent) :
    viewOf (g.store agentId r) runs other =
      if other = agentId then { viewOf g runs other with record := some r }
      else viewOf g runs other := by
  rw [viewOf, viewOf, Registry.store, get_insert]
  split_ifs
  · rfl
  · rfl

theorem viewOf_modify (g : Registry) (runs : AList fun _ : String => Handle)
    (agentId other : String) (f : BackgroundAgent → BackgroundAgent) :
    viewOf { g with records := g.records.modify agentId f } runs other =
      if other = agentId then
        { viewOf g runs other with record := (g.records.get other).map f }
      else viewOf g runs other := by
  rw [viewOf, viewOf, get_modify]
  split_ifs
  · rfl
  · rfl

theorem viewOf_removeRuntime (g : Registry) (runs : AList fun _ : String => Handle)
    (agentId other : String) :
    viewOf (g.removeRuntime agentId) runs other =
      if other = agentId then { viewOf g runs other with runtime := none }
      else viewOf g runs other := by
  rw [viewOf, viewOf, Registry.removeRuntime, AList.lookup_erase_if]
  split_ifs
  · rfl
  · rfl

@[simp] theorem viewOf_setAbort (g : Registry) (runs : AList fun _ : String => Handle)
    (handle : Handle) (other : String) :
    viewOf (g.setAbort handle) runs other = viewOf g runs other := rfl

theorem abortRuntime_eq (g : Registry) (agentId : String) :
    g.abortRuntime agentId = g ∨ ∃ handle, g.abortRuntime agentId = g.setAbort handle := by
  rw [Registry.abortRuntime]
  cases g.runtime.lookup agentId with
  | none => exact Or.inl rfl
  | some runtime => exact Or.inr ⟨_, rfl⟩

@[simp] theorem viewOf_abortRuntime (g : Registry) (runs : AList fun _ : String => Handle)
    (agentId other : String) :
    viewOf (g.abortRuntime agentId) runs other = viewOf g runs other := by
  rcases abortRuntime_eq g agentId with h | ⟨handle, h⟩ <;> rw [h]
  rfl

theorem aborted_abortRuntime (g : Registry) (agentId : String) :
    g.aborted ⊆ (g.abortRuntime agentId).aborted := by
  rcases abortRuntime_eq g agentId with h | ⟨handle, h⟩ <;> rw [h]
  · exact fun _ hx => hx
  · exact fun _ hx => mem_cons_of_mem _ hx

/-- The runner that is removed has the flag; the agent is otherwise as it was. -/
theorem viewOf_removeOwnRuntime (g : Registry) (runs : AList fun _ : String => Handle)
    (agentId other : String) (handle : Handle) :
    viewOf (g.removeOwnRuntime agentId handle) runs other = viewOf g runs other ∨
      other = agentId ∧ (viewOf g runs other).runtime = some handle ∧
        viewOf (g.removeOwnRuntime agentId handle) runs other =
          { viewOf g runs other with runtime := none } := by
  rw [Registry.removeOwnRuntime]
  split_ifs with hown
  · rw [viewOf_removeRuntime]
    split_ifs with hid
    · subst hid
      obtain ⟨runtime, hrun, hflag⟩ := (Option.any_eq_true _ _).mp hown
      refine Or.inr ⟨rfl, ?_, rfl⟩
      rw [viewOf, hrun, Option.map_some, of_decide_eq_true hflag]
    · exact Or.inl rfl
  · exact Or.inl rfl

end Views

section Sections

variable {cfg : RegistrySettings} {permits : String → Permit} {g : Registry}
  {runs : AList fun _ : String => Handle} {agentId : String} {now : ℤ}

theorem Moves.refl (cfg : RegistrySettings) (permits : String → Permit) (g : Registry)
    (runs : AList fun _ : String => Handle) : Moves cfg permits g runs g runs :=
  ⟨fun _ h => h, fun _ => .same _⟩

variable {g' : Registry}

theorem Moves.single {runs' : AList fun _ : String => Handle} (agentId : String)
    (haborted : g.aborted ⊆ g'.aborted)
    (hmove : AgentMove cfg agentId (permits agentId) g'.aborted (viewOf g runs agentId)
      (viewOf g' runs' agentId))
    (hothers : ∀ other, other ≠ agentId → viewOf g' runs' other = viewOf g runs other) :
    Moves cfg permits g runs g' runs' := by
  refine ⟨haborted, fun other => ?_⟩
  by_cases hid : other = agentId
  · rw [hid]
    exact hmove
  · rw [hothers other hid]
    exact .same _

theorem Moves.flags {g'' : Registry} {runs' : AList fun _ : String => Handle}
    (h : Moves cfg permits g runs g' runs') (haborted : g'.aborted ⊆ g''.aborted)
    (hview : ∀ other, viewOf g'' runs' other = viewOf g' runs' other) :
    Moves cfg permits g runs g'' runs' := by
  refine ⟨fun _ hx => haborted (h.aborted hx), fun other => ?_⟩
  rw [hview other]
  exact (h.agents other).mono haborted

variable {r' : BackgroundAgent}

theorem moves_store {r : BackgroundAgent} (hget : g.records.get agentId = some r)
    (hid : r'.agentId = r.agentId) (hstat : r'.terminal = r.terminal)
    (hkept : r.terminal = true → r'.status = r.status)
    (hgen : r'.runGeneration = r.runGeneration) (hseq : r.changeSeq < r'.changeSeq) :
    Moves cfg permits g runs (g.store agentId r') runs := by
  refine Moves.single agentId (fun _ hx => hx) ?_ ?_
  · rw [viewOf_store, if_pos rfl, viewOf_record hget]
    exact .updated hid hstat hkept hgen hseq
  · intro other hne
    rw [viewOf_store, if_neg hne]

theorem moves_updateRecordIfNotTerminal {update : BackgroundAgent → BackgroundAgent}
    (hid : ∀ r, (update r).agentId = r.agentId)
    (hlive : ∀ r : BackgroundAgent, r.terminal = false → (update r).terminal = false)
    (hgen : ∀ r, (update r).runGeneration = r.runGeneration)
    (hseq : ∀ r, (update r).changeSeq = r.changeSeq) :
    Moves cfg permits g runs (updateRecordIfNotTerminal g agentId now update).1 runs := by
  rw [updateRecordIfNotTerminal]
  cases hget : g.records.get agentId with
  | none => exact .refl cfg permits g runs
  | some r =>
    simp only
    split_ifs with hdone
    · exact .refl cfg permits g runs
    · rw [Bool.not_eq_true] at hdone
      apply moves_store hget
      · exact hid r
      · exact (hlive r hdone).trans hdone.symm
      · intro h
        rw [hdone] at h
        cases h
      · exact hgen r
      · rw [touch_changeSeq, hseq]
        exact Nat.lt_succ_self _

theorem moves_acknowledgeDelivery (id : Text) :
    Moves cfg permits g runs (acknowledgeDelivery cfg g agentId now id).1 runs := by
  rw [acknowledgeDelivery, updateRecord]
  cases hget : g.records.get agentId with
  | none => exact .refl cfg permits g runs
  | some r => exact moves_store hget rfl rfl (fun _ => rfl) rfl (Nat.lt_succ_self _)

theorem moves_setCompletionMessageIdForRun (runGeneration : Option ℕ) (messageId : String) :
    Moves cfg permits g runs
      (setCompletionMessageIdForRun g agentId now runGeneration messageId).1 runs := by
  rw [setCompletionMessageIdForRun]
  cases hget : g.records.get agentId with
  | none => exact .refl cfg permits g runs
  | some r =>
    simp only
    split_ifs
    · exact .refl cfg permits g runs
    · exact .refl cfg permits g runs
    · exact .refl cfg permits g runs
    · exact .refl cfg permits g runs
    · exact moves_store hget rfl rfl (fun _ => rfl) rfl (Nat.lt_succ_self _)

structure Ends (r r' : BackgroundAgent) (seq : ℕ) : Prop where
  id : r'.agentId = r.agentId
  done : r'.terminal = true
  generation : r'.runGeneration = r.runGeneration
  seq : r'.changeSeq = seq

theorem Ends.settled {r : BackgroundAgent} (h : Ends r r' r.changeSeq) (cfg : RegistrySettings)
    (questions : Entries) (now : ℤ) :
    Ends r ((settleTerminalRecord cfg questions now r').2.touch now) (r.changeSeq + 1) :=
  ⟨h.id, h.done, h.generation, congrArg (· + 1) h.seq⟩

theorem ends_completed (cfg : RegistrySettings) (agentId : String) (now : ℤ)
    (completion : AgentCompletion) (r : BackgroundAgent) :
    Ends r (completed cfg agentId now completion r) r.changeSeq :=
  ⟨rfl, rfl, rfl, rfl⟩

theorem ends_failed (cfg : RegistrySettings) (agentId : String) (now : ℤ) (error : String)
    (r : BackgroundAgent) : Ends r (failed cfg agentId now error r) r.changeSeq :=
  ⟨rfl, rfl, rfl, rfl⟩

theorem ends_cancelled (now : ℤ) (reason : Option String) (r : BackgroundAgent) :
    Ends r (cancelled now reason r) r.changeSeq :=
  ⟨rfl, rfl, rfl, rfl⟩

theorem ends_interrupted (now : ℤ) (reason : String) (r : BackgroundAgent) :
    Ends r (interrupted now reason r) r.changeSeq :=
  ⟨rfl, rfl, rfl, rfl⟩

theorem ends_closed (now : ℤ) (reason : Option String) (r : BackgroundAgent) :
    Ends r (closed now reason r) r.changeSeq :=
  ⟨rfl, rfl, rfl, rfl⟩

theorem ends_launchFailed (now : ℤ) (error : String) (r : BackgroundAgent) :
    Ends r (launchFailed now error r) r.changeSeq :=
  ⟨rfl, rfl, rfl, rfl⟩

theorem viewOf_storeSettled (cfg : RegistrySettings) (g : Registry)
    (runs : AList fun _ : String => Handle) (agentId other : String) (r : BackgroundAgent)
    (now : ℤ) :
    viewOf (g.storeSettled cfg agentId r now).1 runs other =
      if other = agentId then
        { viewOf g runs other with
          record := some ((settleTerminalRecord cfg g.questions now r).2.touch now) }
      else viewOf g runs other := by
  rw [Registry.storeSettled, viewOf_store]
  rfl

theorem moves_storeSettled {r : BackgroundAgent} (hget : g.records.get agentId = some r)
    (hlive : r.terminal = false) (h : Ends r r' r.changeSeq) :
    Moves cfg permits g runs (g.storeSettled cfg agentId r' now).1 runs := by
  refine Moves.single agentId (fun _ hx => hx) ?_ ?_
  · rw [viewOf_storeSettled, if_pos rfl, viewOf_record hget]
    have hset := h.settled cfg g.questions now
    exact .finished hset.id hlive hset.done hset.generation
      (hset.seq ▸ Nat.lt_succ_self _) (Or.inl rfl) (Or.inl rfl)
  · intro other hne
    rw [viewOf_storeSettled, if_neg hne]

theorem moves_markTerminal {payload : Except String Unit}
    {outcome : BackgroundAgent → BackgroundAgent} (h : ∀ r, Ends r (outcome r) r.changeSeq) :
    Moves cfg permits g runs (markTerminal cfg g agentId now payload outcome).1 runs := by
  rw [markTerminal]
  cases hget : g.records.get agentId with
  | none => exact .refl cfg permits g runs
  | some r =>
    simp only
    split_ifs with hdone
    · exact .refl cfg permits g runs
    · cases payload with
      | error error => exact .refl cfg permits g runs
      | ok _ =>
        rw [Bool.not_eq_true] at hdone
        exact moves_storeSettled hget hdone (h r)

theorem moves_markClosed (parentChatId : Option String) (expected : Option ℕ)
    (reason : Option String) :
    Moves cfg permits g runs
      (markClosed cfg g agentId now parentChatId expected reason).1 runs := by
  rw [markClosed]
  cases hget : (g.records.get agentId).filter fun record =>
      parentChatId.all fun parent => record.parentChatId = parent with
  | none => exact .refl cfg permits g runs
  | some r =>
    simp only
    split_ifs with _ _ hdone
    · exact .refl cfg permits g runs
    · exact .refl cfg permits g runs
    · exact .refl cfg permits g runs
    · rw [Bool.not_eq_true] at hdone
      have hr := (Option.filter_eq_some_iff.mp hget).1
      apply (moves_storeSettled hr hdone (ends_closed now reason r)).flags
      · exact aborted_abortRuntime _ _
      · exact viewOf_abortRuntime _ _ _

theorem moves_removeRuntime {r : BackgroundAgent} (hget : g.records.get agentId = some r)
    (hdone : r.terminal = true) : Moves cfg permits g runs (g.removeRuntime agentId) runs := by
  refine Moves.single agentId (fun _ hx => hx) ?_ ?_
  · rw [viewOf_removeRuntime, if_pos rfl, viewOf_record hget]
    exact .retired hdone
  · intro other hne
    rw [viewOf_removeRuntime, if_neg hne]

theorem moves_retireRuntime (generation : ℕ) :
    Moves cfg permits g runs (retireRuntime g agentId generation) runs := by
  rw [retireRuntime]
  cases hget : g.records.get agentId with
  | none => exact .refl cfg permits g runs
  | some r =>
    simp only
    split_ifs with hother
    · exact .refl cfg permits g runs
    · simp only [not_or, not_not] at hother
      have hremove : Moves cfg permits g runs (g.removeRuntime agentId) runs :=
        moves_removeRuntime hget hother.2
      cases g.runtime.lookup agentId with
      | none => exact .refl cfg permits g runs
      | some runtime =>
        simp only
        split_ifs
        · exact hremove.flags (fun _ hx => mem_cons_of_mem _ hx) fun _ => rfl
        · exact hremove

theorem viewOf_publish (g : Registry) (runs : AList fun _ : String => Handle)
    (agentId other : String) (r : BackgroundAgent) :
    viewOf (publish g agentId r) (runs.insert agentId g.nextHandle) other =
      if other = agentId then
        { viewOf g runs other with
          record := some r, runtime := some g.nextHandle, run := some g.nextHandle }
      else viewOf g runs other := by
  rw [viewOf, viewOf, publish, Registry.store, get_insert, AList.lookup_insert_if,
    AList.lookup_insert_if]
  split_ifs
  · rfl
  · rfl

variable {parent : Option ParentRun}

variable (cfg) (permits) (runs) in
theorem moves_createWithId {request : CreateAgentRequest} {record : BackgroundAgent}
    (h : createWithId g now request agentId parent = .ok (record, g')) :
    Moves cfg permits g runs g' (runs.insert agentId g.nextHandle) ∧
      viewOf g' (runs.insert agentId g.nextHandle) agentId =
        ⟨some (newRecord request agentId now), some g.nextHandle, some g.nextHandle,
          g.records.cancelledSubtrees.lookup agentId⟩ := by
  rw [createWithId] at h
  split_ifs at h with hknown
  split at h
  · cases h
  · cases h
    have hnone : g.records.get agentId = none :=
      Option.not_isSome_iff_eq_none.mp hknown
    have hview := viewOf_publish g runs agentId agentId (newRecord request agentId now)
    rw [if_pos rfl] at hview
    refine ⟨Moves.single agentId (fun _ hx => hx) ?_ fun other hne => ?_, hview⟩
    · rw [hview, viewOf, hnone]
      exact .created rfl
    · rw [viewOf_publish, if_neg hne]

theorem reopened_facts (cfg : RegistrySettings) (now : ℤ) (previous : BackgroundAgent) :
    (reopened cfg now previous).agentId = previous.agentId ∧
      (reopened cfg now previous).status = .queued ∧
      (reopened cfg now previous).runGeneration = previous.runGeneration + 1 ∧
      (reopened cfg now previous).changeSeq = previous.changeSeq + 1 :=
  ⟨rfl, rfl, rfl, rfl⟩

variable {previous updated : BackgroundAgent}

theorem reopenForParentRun_ok {parentChatId : String} {expected : ℕ} {requireCap : Bool}
    (h : reopenForParentRun cfg g now agentId parentChatId expected requireCap parent =
      .ok (previous, updated, g')) :
    validateParentRun g parentChatId parent = .ok () ∧
      g.records.get agentId = some previous ∧ previous.terminal = true ∧
      g.runtime.lookup agentId = none ∧ updated = reopened cfg now previous ∧
      g' = publish g agentId updated := by
  rw [reopenForParentRun] at h
  split at h
  · cases h
  · rename_i hvalid
    split at h
    · cases h
    · rename_i r hget
      simp only at h
      split_ifs at h with _ _ _ hdone hrun
      cases h
      exact ⟨hvalid, hget, hdone, Option.not_isSome_iff_eq_none.mp hrun, rfl, rfl⟩

variable (permits) (runs) in
theorem moves_reopenForParentRun {parentChatId : String} {expected : ℕ} {requireCap : Bool}
    (hpermit : (permits agentId).reopens)
    (h : reopenForParentRun cfg g now agentId parentChatId expected requireCap parent =
      .ok (previous, updated, g')) :
    Moves cfg permits g runs g' (runs.insert agentId g.nextHandle) ∧
      viewOf g' (runs.insert agentId g.nextHandle) agentId =
        ⟨some updated, some g.nextHandle, some g.nextHandle,
          g.records.cancelledSubtrees.lookup agentId⟩ := by
  obtain ⟨-, hget, hdone, hrun, rfl, rfl⟩ := reopenForParentRun_ok h
  obtain ⟨hid, hqueued, hgen, hseq⟩ := reopened_facts cfg now previous
  have hview := viewOf_publish g runs agentId agentId (reopened cfg now previous)
  rw [if_pos rfl] at hview
  refine ⟨Moves.single agentId (fun _ hx => hx) ?_ fun other hne => ?_, hview⟩
  · rw [hview, viewOf, hget, hrun]
    exact .reopened hpermit hid hdone hqueued hgen (by omega)
  · rw [viewOf_publish, if_neg hne]

theorem aborted_removeOwnRuntime (g : Registry) (agentId : String) (handle : Handle) :
    (g.removeOwnRuntime agentId handle).aborted = g.aborted := by
  rw [Registry.removeOwnRuntime]
  split_ifs
  · rfl
  · rfl

theorem records_removeOwnRuntime (g : Registry) (agentId : String) (handle : Handle) :
    (g.removeOwnRuntime agentId handle).records = g.records := by
  rw [Registry.removeOwnRuntime]
  split_ifs
  · rfl
  · rfl

theorem moves_dropRuntime (agentId : String) (handle : Handle) :
    Moves cfg permits g runs ((g.setAbort handle).removeOwnRuntime agentId handle) runs := by
  refine ⟨fun x hx => ?_, fun other => ?_⟩
  · rw [aborted_removeOwnRuntime]
    exact mem_cons_of_mem _ hx
  · rcases viewOf_removeOwnRuntime (g.setAbort handle) runs agentId other handle with
      hsame | ⟨-, hrun, hgone⟩
    · rw [hsame]
      exact .same _
    · rw [hgone]
      rw [viewOf_setAbort] at hrun ⊢
      have hview : viewOf g runs other = ⟨(viewOf g runs other).record, some handle,
          (viewOf g runs other).run, (viewOf g runs other).fence⟩ := by
        rw [← hrun]
      rw [hview]
      apply AgentMove.dropped
      rw [aborted_removeOwnRuntime]
      exact mem_cons_self

theorem moves_dropRuntime_store (handle : Handle) {r : BackgroundAgent} (r' : BackgroundAgent)
    (hget : g.records.get agentId = some r) (g' : Registry)
    (haborted : g'.aborted = handle :: g.aborted)
    (hview : ∀ other, viewOf g' runs other =
      if other = agentId then
        { viewOf ((g.setAbort handle).removeOwnRuntime agentId handle) runs other with
          record := some r' }
      else viewOf ((g.setAbort handle).removeOwnRuntime agentId handle) runs other)
    (hmove : ∀ runtime', runtime' = (g.runtime.lookup agentId).map (·.abortFlag) ∨
        runtime' = none → AgentMove cfg agentId (permits agentId) (handle :: g.aborted)
      ⟨some r, (g.runtime.lookup agentId).map (·.abortFlag), runs.lookup agentId,
        g.records.cancelledSubtrees.lookup agentId⟩
      ⟨some r', runtime', runs.lookup agentId,
        g.records.cancelledSubtrees.lookup agentId⟩) :
    Moves cfg permits g runs g' runs := by
  refine Moves.single agentId ?_ ?_ ?_
  · rw [haborted]
    exact fun x hx => mem_cons_of_mem _ hx
  · rw [hview, if_pos rfl, viewOf_record hget, haborted]
    rcases viewOf_removeOwnRuntime (g.setAbort handle) runs agentId agentId handle with
      hsame | ⟨-, -, hgone⟩
    · rw [hsame]
      exact hmove _ (Or.inl rfl)
    · rw [hgone]
      exact hmove _ (Or.inr rfl)
  · intro other hne
    rw [hview, if_neg hne]
    rcases viewOf_removeOwnRuntime (g.setAbort handle) runs agentId other handle with
      hsame | ⟨hid, -, -⟩
    · rw [hsame]
      rfl
    · exact absurd hid hne

theorem moves_createUnsaved (handle : Handle) (error : String) :
    Moves cfg permits g runs (createUnsaved cfg g now agentId handle error) runs := by
  have hdrop : Moves cfg permits g runs
      ((g.setAbort handle).removeOwnRuntime agentId handle) runs := moves_dropRuntime agentId handle
  rw [createUnsaved]
  simp only [records_removeOwnRuntime]
  cases hget' : (g.setAbort handle).records.get agentId with
  | none => exact hdrop
  | some r =>
    have hget : g.records.get agentId = some r := hget'
    simp only
    split_ifs with hfirst
    · obtain ⟨-, hlive⟩ := hfirst
      rw [Bool.not_eq_true] at hlive
      refine moves_dropRuntime_store handle ((settleTerminalRecord cfg
        ((g.setAbort handle).removeOwnRuntime agentId handle).questions now
        (launchFailed now error r)).2.touch now) hget _ ?_ ?_ ?_
      · exact aborted_removeOwnRuntime _ _ _
      · intro other
        have hview := viewOf_modify ((g.setAbort handle).removeOwnRuntime agentId handle) runs
          agentId other fun _ => (settleTerminalRecord cfg
            ((g.setAbort handle).removeOwnRuntime agentId handle).questions now
            (launchFailed now error r)).2.touch now
        rw [records_removeOwnRuntime] at hview
        refine Eq.trans ?_ (hview.trans ?_)
        · rfl
        · split_ifs with hid
          · rw [hid, hget']
            rfl
          · rfl
      · intro runtime' hrun
        have hset := (ends_launchFailed now error r).settled cfg
          ((g.setAbort handle).removeOwnRuntime agentId handle).questions now
        exact .finished hset.id hlive hset.done hset.generation
          (hset.seq ▸ Nat.lt_succ_self _) hrun (Or.inl rfl)
    · exact hdrop

structure Reopening (v : View) (agentId : String) (handle : Handle)
    (previous updated : BackgroundAgent) : Prop where
  published : Published v handle updated
  previousDone : previous.terminal = true
  previousId : previous.agentId = agentId
  generation : previous.runGeneration + 1 = updated.runGeneration
  queued : updated.status = .queued
  updatedId : updated.agentId = agentId

theorem moves_reopenUnsaved {handle : Handle}
    (h : Reopening (viewOf g runs agentId) agentId handle previous updated) :
    Moves cfg permits g runs (reopenUnsaved g now agentId handle previous updated) runs := by
  rw [reopenUnsaved]
  simp only [records_removeOwnRuntime]
  split_ifs with hsame
  · obtain ⟨r, hget, hle, hpublished⟩ := h.published
    have hseq : r.changeSeq = updated.changeSeq := by
      have hget' : (g.setAbort handle).records.get agentId = some r := hget
      rw [hget', Option.any_some] at hsame
      exact of_decide_eq_true hsame
    obtain ⟨rfl, hrun⟩ := hpublished hseq
    have hlive : r.terminal = false := by
      rw [BackgroundAgent.terminal, h.queued]
      rfl
    refine moves_dropRuntime_store handle (restored now previous r.changeSeq) hget _ ?_ ?_ ?_
    · exact aborted_removeOwnRuntime _ _ _
    · intro other
      exact viewOf_store _ _ _ _ _
    · intro runtime' hruntime
      refine .withdrawn (h.previousId.trans h.updatedId.symm) hlive h.previousDone h.generation ?_
        hruntime fun x hx => ?_
      · exact Nat.lt_succ_self _
      · have hx' : runs.lookup agentId = some handle := hrun
        rw [hx'] at hx
        cases hx
        exact mem_cons_self
  · exact moves_dropRuntime agentId handle

theorem moves_rollbackUnacceptedResume {queued record : BackgroundAgent} {abort : Handle}
    {configAbsent : Bool} (hinv : ∀ agentId, AgentInv g.aborted agentId (viewOf g runs agentId))
    (h : rollbackUnacceptedResume g now previous queued abort configAbsent = some (record, g')) :
    Moves cfg permits g runs g' runs := by
  rw [rollbackUnacceptedResume] at h
  split_ifs at h with _ hguard
  simp only [not_or, not_not, ne_eq] at hguard
  obtain ⟨hgen, hid, -, hdone, hcur, hrun, -⟩ := hguard
  cases h
  obtain ⟨r, hget, hr⟩ : ∃ r, g.records.get queued.agentId = some r ∧
      r.runGeneration = queued.runGeneration ∧ r.changeSeq = queued.changeSeq ∧
        r.status = .queued := by
    cases hget : g.records.get queued.agentId with
    | none => rw [hget] at hcur; exact absurd rfl hcur
    | some r =>
      rw [hget] at hcur
      simp only [Option.all_some, decide_eq_true_eq, not_or, not_not] at hcur
      exact ⟨r, rfl, hcur⟩
  obtain ⟨hrgen, hrseq, hrqueued⟩ := hr
  obtain ⟨runtime, hlook, hflag⟩ : ∃ runtime, g.runtime.lookup queued.agentId = some runtime ∧
      runtime.abortFlag = abort := by
    cases hlook : g.runtime.lookup queued.agentId with
    | none => rw [hlook] at hrun; exact absurd rfl hrun
    | some runtime =>
      rw [hlook] at hrun
      simp only [Option.all_some, decide_eq_true_eq, not_not] at hrun
      exact ⟨runtime, rfl, hrun⟩
  have hlive : r.terminal = false := by
    rw [BackgroundAgent.terminal, hrqueued]
    rfl
  have hagent := hinv queued.agentId
  have howned : runs.lookup queued.agentId = some abort := by
    apply hagent.owned
    rw [viewOf, hlook, Option.map_some, hflag]
  have hkeyed : r.agentId = queued.agentId := hagent.keyed r hget
  refine Moves.single queued.agentId ?_ ?_ ?_
  · exact fun x hx => mem_cons_of_mem _ hx
  · rw [viewOf_store, restored_agentId, if_pos hid.symm, viewOf_removeRuntime, if_pos rfl,
      viewOf_setAbort, viewOf_record hget]
    refine .withdrawn (hid.trans hkeyed.symm) hlive hdone (hgen.trans hrgen.symm) ?_
      (Or.inr rfl) fun x hx => ?_
    · rw [restored_changeSeq, hrseq]
      exact Nat.lt_succ_self _
    · rw [howned] at hx
      cases hx
      exact mem_cons_self
  · intro other hne
    rw [viewOf_store, restored_agentId, hid, if_neg hne, viewOf_removeRuntime, if_neg hne]
    rfl

variable {subtree : Bool} {reason : Option String}

variable (subtree) in
theorem viewOf_markSubtree (g : Registry) (runs : AList fun _ : String => Handle)
    (record : BackgroundAgent) (other : String) :
    viewOf (markSubtree subtree g record) runs other =
      if subtree = true ∧ other = record.agentId then
        { viewOf g runs other with fence := some record.runGeneration }
      else viewOf g runs other := by
  cases subtree with
  | false => rfl
  | true =>
    simp only [markSubtree, if_true, viewOf, AList.lookup_insert_if, true_and]
    split_ifs
    · rfl
    · rfl

theorem aborted_markSubtree (g : Registry) (record : BackgroundAgent) :
    (markSubtree subtree g record).aborted = g.aborted := by
  cases subtree <;> rfl

theorem runtime_markSubtree (g : Registry) (record : BackgroundAgent) :
    (markSubtree subtree g record).runtime = g.runtime := by
  cases subtree <;> rfl

theorem runtime_abortRuntime (g : Registry) (agentId : String) :
    (g.abortRuntime agentId).runtime = g.runtime := by
  rcases abortRuntime_eq g agentId with h | ⟨handle, h⟩ <;> rw [h]
  rfl

theorem cancelOne_spec (cfg : RegistrySettings) (permits : String → Permit) (now : ℤ)
    (subtree : Bool) (reason : Option String) (g : Registry)
    (runs : AList fun _ : String => Handle) {record : BackgroundAgent}
    (hget : g.records.get record.agentId = some record) :
    let g' := (cancelOne cfg now subtree reason g record).1
    Moves cfg permits g runs g' runs ∧ g'.runtime = g.runtime ∧
      (∀ other, other ≠ record.agentId → viewOf g' runs other = viewOf g runs other) ∧
      (∃ r', g'.records.get record.agentId = some r' ∧ r'.terminal = true ∧
        r'.runGeneration = record.runGeneration) ∧
      (subtree = true →
        g'.records.cancelledSubtrees.lookup record.agentId = some record.runGeneration) ∧
      (record.terminal = false → ∀ handle,
        (viewOf g runs record.agentId).runtime = some handle → handle ∈ g'.aborted) := by
  have hmark := viewOf_markSubtree subtree g runs record
  have hrec : (markSubtree subtree g record).records.get record.agentId = some record :=
    by cases subtree <;> exact hget
  intro g'
  simp only [g', cancelOne]
  split_ifs with hdone
  · refine ⟨Moves.single record.agentId ?_ ?_ ?_, runtime_markSubtree g record, ?_, ?_, ?_, ?_⟩
    · rw [aborted_markSubtree]
      exact fun _ hx => hx
    · rw [hmark, viewOf_record hget]
      split_ifs
      · exact .fenced hdone
      · exact .same _
    · intro other hne
      rw [hmark, if_neg fun h => hne h.2]
    · intro other hne
      rw [hmark, if_neg fun h => hne h.2]
    · exact ⟨record, hrec, hdone, rfl⟩
    · intro hsubtree
      have hview := congrArg View.fence (hmark record.agentId)
      rw [if_pos ⟨hsubtree, rfl⟩] at hview
      exact hview
    · intro hlive
      rw [hdone] at hlive
      cases hlive
  · rw [Bool.not_eq_true] at hdone
    have hsettled := (ends_cancelled now reason record).settled cfg
      ((markSubtree subtree g record).abortRuntime record.agentId).questions now
    have hother : ∀ other, viewOf
        (((markSubtree subtree g record).abortRuntime record.agentId).storeSettled cfg
          record.agentId (cancelled now reason record) now).1 runs other =
        if other = record.agentId then
          { viewOf (markSubtree subtree g record) runs other with
            record := some ((settleTerminalRecord cfg
              ((markSubtree subtree g record).abortRuntime record.agentId).questions now
              (cancelled now reason record)).2.touch now) }
        else viewOf (markSubtree subtree g record) runs other := by
      intro other
      rw [viewOf_storeSettled, viewOf_abortRuntime]
    have hset : ∀ handle, (viewOf g runs record.agentId).runtime = some handle →
        handle ∈ ((markSubtree subtree g record).abortRuntime record.agentId).aborted := by
      intro handle hrun
      rw [viewOf] at hrun
      obtain ⟨runtime, hlook, rfl⟩ := Option.map_eq_some_iff.mp hrun
      rw [Registry.abortRuntime, runtime_markSubtree, hlook]
      exact mem_cons_self
    have hsub : g.aborted ⊆
        ((markSubtree subtree g record).abortRuntime record.agentId).aborted := by
      have h := aborted_abortRuntime (markSubtree subtree g record) record.agentId
      rw [aborted_markSubtree] at h
      exact h
    refine ⟨Moves.single record.agentId hsub ?_ ?_, ?_, ?_, ?_, ?_, fun _ => hset⟩
    · rw [hother, if_pos rfl, hmark, viewOf_record hget]
      split_ifs
      · exact .finished hsettled.id hdone hsettled.done hsettled.generation
          (hsettled.seq ▸ Nat.lt_succ_self _) (Or.inl rfl) (Or.inr rfl)
      · exact .finished hsettled.id hdone hsettled.done hsettled.generation
          (hsettled.seq ▸ Nat.lt_succ_self _) (Or.inl rfl) (Or.inl rfl)
    · intro other hne
      rw [hother, if_neg hne, hmark, if_neg fun h => hne h.2]
    · exact (runtime_abortRuntime _ _).trans (runtime_markSubtree g record)
    · intro other hne
      rw [hother, if_neg hne, hmark, if_neg fun h => hne h.2]
    · have hview := congrArg View.record (hother record.agentId)
      rw [if_pos rfl] at hview
      exact ⟨_, hview, hsettled.done, hsettled.generation⟩
    · intro hsubtree
      have hview := congrArg View.fence (hother record.agentId)
      rw [if_pos rfl, hmark, if_pos ⟨hsubtree, rfl⟩] at hview
      exact hview

theorem cancelAll_cons (cfg : RegistrySettings) (now : ℤ) (subtree : Bool)
    (reason : Option String) (g : Registry) (record : BackgroundAgent)
    (rest : List BackgroundAgent) :
    (cancelAll cfg now subtree reason g (record :: rest)).1 =
      (cancelAll cfg now subtree reason (cancelOne cfg now subtree reason g record).1 rest).1 :=
  rfl

theorem cancelAll_spec (cfg : RegistrySettings) (permits : String → Permit) (now : ℤ)
    (subtree : Bool) (reason : Option String) (runs : AList fun _ : String => Handle)
    (selected : List BackgroundAgent) :
    ∀ g : Registry, (selected.map BackgroundAgent.agentId).Nodup →
      (∀ record ∈ selected, g.records.get record.agentId = some record) →
      let g' := (cancelAll cfg now subtree reason g selected).1
      Moves cfg permits g runs g' runs ∧
        (∀ other, other ∉ selected.map BackgroundAgent.agentId →
          viewOf g' runs other = viewOf g runs other) ∧
        ∀ record ∈ selected,
          (∃ r', g'.records.get record.agentId = some r' ∧ r'.terminal = true ∧
            r'.runGeneration = record.runGeneration) ∧
          (subtree = true →
            g'.records.cancelledSubtrees.lookup record.agentId = some record.runGeneration) ∧
          (record.terminal = false → ∀ handle,
            (viewOf g runs record.agentId).runtime = some handle → handle ∈ g'.aborted) := by
  induction selected with
  | nil =>
    intro g _ _
    exact ⟨.refl cfg permits g runs, fun _ _ => rfl, fun _ h => absurd h not_mem_nil⟩
  | cons record rest ih =>
    intro g hnodup hcur
    rw [cancelAll_cons]
    rw [map_cons, nodup_cons] at hnodup
    obtain ⟨hmove, -, hothers, hended, hfence, hset⟩ := cancelOne_spec cfg permits now subtree
      reason g runs (hcur record mem_cons_self)
    have hne : ∀ other ∈ rest, other.agentId ≠ record.agentId := fun other hother heq =>
      hnodup.1 (heq ▸ mem_map_of_mem hother)
    have hget : ∀ other, other ≠ record.agentId →
        (cancelOne cfg now subtree reason g record).1.records.get other =
          g.records.get other := fun other hother =>
      congrArg View.record (hothers other hother)
    obtain ⟨hmoves, hsame, hrest⟩ := ih (cancelOne cfg now subtree reason g record).1 hnodup.2
      fun other hother => (hget _ (hne other hother)).trans
        (hcur other (mem_cons_of_mem _ hother))
    have hfirst := hsame record.agentId hnodup.1
    refine ⟨⟨fun x hx => hmoves.aborted (hmove.aborted hx), fun other => ?_⟩, ?_, ?_⟩
    · -- either the first agent moves, or the others do
      by_cases hid : other = record.agentId
      · rw [hid]
        rw [hfirst]
        exact (hmove.agents record.agentId).mono hmoves.aborted
      · rw [← hothers other hid]
        exact hmoves.agents other
    · intro other hother
      rw [map_cons, mem_cons, not_or] at hother
      exact (hsame other hother.2).trans (hothers other hother.1)
    · intro other hother
      rcases mem_cons.mp hother with rfl | hother
      · obtain ⟨r', hr', hdone⟩ := hended
        refine ⟨⟨r', (congrArg View.record hfirst).trans hr', hdone⟩, fun hsubtree => ?_,
          fun hlive handle hhandle => hmoves.aborted (hset hlive handle hhandle)⟩
        exact (congrArg View.fence hfirst).trans (hfence hsubtree)
      · obtain ⟨hended', hfence', hset'⟩ := hrest other hother
        refine ⟨hended', hfence', fun hlive handle hhandle => hset' hlive handle ?_⟩
        rw [hothers other.agentId (hne other hother)]
        exact hhandle

theorem moves_setPayloadPath {record : BackgroundAgent}
    (hpermit : ∀ r, g.records.get record.agentId = some r →
      r.runGeneration = record.runGeneration → (permits record.agentId).saves r) :
    Moves cfg permits g runs (setPayloadPath cfg g record) runs := by
  rw [setPayloadPath, isCancelledRun]
  split_ifs with hcanc
  · obtain ⟨r, hget, hr⟩ := (Option.any_eq_true _ _).mp hcanc
    rw [Bool.and_eq_true, decide_eq_true_eq, decide_eq_true_eq] at hr
    refine Moves.single record.agentId (fun _ hx => hx) ?_ ?_
    · rw [viewOf_modify, if_pos rfl, viewOf_record hget, hget]
      exact .saved (hpermit r hget hr.1) hr.2
    · intro other hne
      rw [viewOf_modify, if_neg hne]
  · exact .refl cfg permits g runs

variable (stopped : List BackgroundAgent)

theorem records_removeCancelled : ∀ g : Registry, (removeCancelled g stopped).records = g.records ∧
      (removeCancelled g stopped).aborted = g.aborted := by
  induction stopped with
  | nil => exact fun g => ⟨rfl, rfl⟩
  | cons record rest ih =>
    intro g
    rw [removeCancelled, foldl_cons, ← removeCancelled]
    obtain ⟨hrecs, haborted⟩ := ih
      (if isCancelledRun g record then g.removeRuntime record.agentId else g)
    rw [hrecs, haborted]
    split_ifs
    · exact ⟨rfl, rfl⟩
    · exact ⟨rfl, rfl⟩

theorem viewOf_removeCancelled (runs : AList fun _ : String => Handle)
    (stopped : List BackgroundAgent) (other : String) :
    ∀ g : Registry, viewOf (removeCancelled g stopped) runs other = viewOf g runs other ∨
      (∃ r, g.records.get other = some r ∧ r.terminal = true) ∧
        viewOf (removeCancelled g stopped) runs other =
          { viewOf g runs other with runtime := none } := by
  induction stopped with
  | nil => exact fun g => Or.inl rfl
  | cons record rest ih =>
    intro g
    rw [removeCancelled, foldl_cons, ← removeCancelled]
    have hrest := ih (if isCancelledRun g record then g.removeRuntime record.agentId else g)
    split_ifs at hrest ⊢ with hcanc
    · rw [viewOf_removeRuntime] at hrest
      split_ifs at hrest with hid
      · obtain ⟨r, hget, hr⟩ := (Option.any_eq_true _ _).mp hcanc
        rw [Bool.and_eq_true, decide_eq_true_eq, decide_eq_true_eq] at hr
        have hdone : r.terminal = true := by
          rw [BackgroundAgent.terminal, hr.2]
          rfl
        rcases hrest with hsame | ⟨-, hgone⟩
        · exact Or.inr ⟨⟨r, hid ▸ hget, hdone⟩, hsame⟩
        · exact Or.inr ⟨⟨r, hid ▸ hget, hdone⟩, hgone⟩
      · exact hrest
    · exact hrest

theorem moves_removeCancelled : Moves cfg permits g runs (removeCancelled g stopped) runs := by
  refine ⟨?_, fun other => ?_⟩
  · rw [(records_removeCancelled stopped g).2]
    exact fun _ hx => hx
  · rcases viewOf_removeCancelled runs stopped other g with hsame | ⟨⟨r, hget, hdone⟩, hgone⟩
    · rw [hsame]
      exact .same _
    · rw [hgone, viewOf_record hget]
      exact .retired hdone

end Sections

end AgentRegistry
