import RefactEngine.ApprovalRegistry
import Mathlib.Data.List.Induction

/-! # Authority and at-most-once use of approvals

A log holds the calls of a run with their replies, the latest first. An id may be registered
again after its entry was purged, so the results speak of the part of the log since the last
successful registration of the id.
-/
namespace ApprovalRegistry

open List

variable {Value : Type}

structure Event (Value : Type) where
  call : Call Value
  reply : Reply Value

def Event.registered (ev : Event Value) : Option (PendingApproval Value) :=
  match ev.call.op, ev.reply with
  | .register pending, .done (.ok _) => some pending
  | _, _ => none

variable (id : String)

def Event.registers (ev : Event Value) : Bool :=
  match ev.registered with
  | none => false
  | some pending => pending.id = id

def Event.Approves (parent : String) (generation : ℕ) (id : String) (ev : Event Value) : Prop :=
  (∃ reason, ev.call.op = .decideWithReason parent generation id true reason) ∧
    ∃ decision, ev.reply = .decided (.ok decision)

def Event.Consumes (ev : Event Value) : Prop :=
  (∃ toolCallId args, ev.call.op = .consume id toolCallId args) ∧
    ∃ pending, ev.reply = .found (.ok pending)

def Event.Grants (parent : String) (generation : ℕ) (id wrapper : String) (ev : Event Value) :
    Prop :=
  ev.call.op = .grantUserOnce parent id generation wrapper ∧ ev.reply = .done (.ok ())

def Event.UsesOnce (ev : Event Value) : Prop :=
  (∃ parent generation wrapper, ev.call.op = .consumeUserOnce parent id generation wrapper) ∧
    ev.reply = .done (.ok ())

abbrev Log (Value : Type) := List (Event Value)

def sinceRegistration (log : Log Value) : Log Value :=
  log.takeWhile fun ev => !ev.registers id

def lastRegistration (log : Log Value) : Option (PendingApproval Value) :=
  (log.find? (Event.registers id)).bind Event.registered

def Quiet (ev : Event Value) (id : String) : Prop :=
  ¬ ev.Consumes id ∧ ¬ ev.UsesOnce id

inductive Change (ev : Event Value) (id : String) (e : Entry Value) : Entry Value → Prop where
  | noted (reason : Option String) : Quiet ev id → Change ev id e { e with denialReason := reason }
  | decided (decision : ApprovalDecision) (reason : Option String) : Quiet ev id →
      e.decision = none → decision ≠ .expired →
      (decision = .approved → ev.Approves e.pending.parentChatId e.pending.runGeneration id) →
      Change ev id e
        { e with decision := some decision, denialReason := reason, userOnce := none }
  | granted (wrapper : String) : Quiet ev id → e.decision = none → e.userOnce = none →
      ev.Grants e.pending.parentChatId e.pending.runGeneration id wrapper →
      Change ev id e { e with userOnce := some ⟨e.pending, wrapper, false⟩ }
  | usedOnce (grant : UserOnceGrant Value) : ¬ ev.Consumes id → e.userOnce = some grant →
      Change ev id e { e with userOnce := some { grant with consumed := true } }
  | consumed : ¬ ev.UsesOnce id → Change ev id e { e with consumed := true }

theorem Change.same {ev : Event Value} {id : String} {e : Entry Value} (h : Quiet ev id) :
    Change ev id e e :=
  .noted e.denialReason h

theorem Change.pending {ev : Event Value} {id : String} {e e' : Entry Value}
    (h : Change ev id e e') : e'.pending = e.pending := by
  cases h <;> rfl

theorem Change.decision {ev : Event Value} {id : String} {e e' : Entry Value}
    (h : Change ev id e e') : e.decision = none ∨ e'.decision = e.decision := by
  cases h with
  | decided decision reason hq hnone => exact .inl hnone
  | _ => exact .inr rfl

theorem quiet_of_op {ev : Event Value} {id : String}
    (hc : ∀ toolCallId args, ev.call.op ≠ .consume id toolCallId args)
    (hu : ∀ parent generation wrapper,
      ev.call.op ≠ .consumeUserOnce parent id generation wrapper) : Quiet ev id := by
  constructor
  · rintro ⟨⟨toolCallId, args, hop⟩, -⟩
    exact hc toolCallId args hop
  · rintro ⟨⟨parent, generation, wrapper, hop⟩, -⟩
    exact hu parent generation wrapper hop

variable {s : Registry Value}

theorem onEntry_lookup {α : Type} {id k : String} {e' : Entry Value}
    {f : Entry Value → Entry Value × Except ApprovalError α}
    (h : (onEntry s id f).1.lookup k = some e') : (k ≠ id ∧ s.lookup k = some e') ∨
      (k = id ∧ ∃ e, s.lookup id = some e ∧ e' = (f e).1 ∧ (onEntry s id f).2 = (f e).2) := by
  unfold onEntry at h ⊢
  cases hs : s.lookup id with
  | none =>
    simp only [hs] at h
    left
    refine ⟨?_, h⟩
    rintro rfl
    rw [hs] at h
    cases h
  | some e =>
    simp only [hs, AList.lookup_insert_if] at h ⊢
    by_cases hk : k = id
    · rw [if_pos hk] at h
      exact .inr ⟨hk, e, rfl, (Option.some.inj h).symm, rfl⟩
    · rw [if_neg hk] at h
      exact .inl ⟨hk, h⟩

theorem checkUserOnceEntry_ok {e : Entry Value} {parent : String} {generation : ℕ}
    (h : checkUserOnceEntry e parent generation = .ok ()) :
    e.pending.parentChatId = parent ∧ e.pending.runGeneration = generation ∧
      e.decision = none := by
  unfold checkUserOnceEntry at h
  split at h
  · cases h
  · split at h
    · cases h
    · rename_i hparent hgen
      split at h
      · cases h
      · cases h
      · rename_i hnone
        exact ⟨not_not.mp hparent, not_not.mp hgen, hnone⟩

section Entries

variable {ev : Event Value} {id : String} {e : Entry Value} {parent : String} {generation : ℕ}

theorem decideEntry_change {approve : Bool} {reason : Option String}
    (hop : ev.call.op = .decideWithReason parent generation id approve reason)
    (hreply : ev.reply = .decided (decideEntry parent generation approve reason e).2) :
    Change ev id e (decideEntry parent generation approve reason e).1 := by
  have hquiet : Quiet ev id := quiet_of_op (by simp [hop]) (by simp [hop])
  unfold decideEntry at hreply ⊢
  split
  · exact .same hquiet
  · rename_i hparent
    split
    · exact .same hquiet
    · rename_i hgen
      split
      · exact .same hquiet
      · rename_i hexp
        rw [if_neg hparent, if_neg hgen, if_neg hexp] at hreply
        simp only at hreply ⊢
        split
        · split
          · split
            · exact .noted reason hquiet
            · exact .same hquiet
          · split
            · exact .noted reason hquiet
            · exact .same hquiet
        · rename_i hnone
          simp only [hnone] at hreply
          refine .decided _ _ hquiet hnone ?_ fun happrove => ?_
          · cases approve <;> simp
          · have htrue : approve = true := by
              cases approve
              · cases happrove
              · rfl
            subst htrue
            rw [not_not.mp hparent, not_not.mp hgen]
            exact ⟨⟨reason, hop⟩, _, hreply⟩

theorem cancelEntry_change (hop : ev.call.op = .cancel parent generation id) :
    Change ev id e (cancelEntry parent generation e).1 := by
  have hquiet : Quiet ev id := quiet_of_op (by simp [hop]) (by simp [hop])
  unfold cancelEntry
  split
  · exact .same hquiet
  · split
    · exact .same hquiet
    · split
      · exact .same hquiet
      · rename_i hnone
        exact .decided _ _ hquiet (by simpa using hnone) (by simp) (by simp)

variable [BEq Value] {wrapper : String}

theorem grantUserOnceEntry_change (hop : ev.call.op = .grantUserOnce parent id generation wrapper)
    (hreply : ev.reply = .done (grantUserOnceEntry parent generation wrapper e).2) :
    Change ev id e (grantUserOnceEntry parent generation wrapper e).1 := by
  have hquiet : Quiet ev id := quiet_of_op (by simp [hop]) (by simp [hop])
  unfold grantUserOnceEntry at hreply ⊢
  cases hcheck : checkUserOnceEntry e parent generation with
  | error err => exact .same hquiet
  | ok u =>
    obtain ⟨rfl, rfl, hnone⟩ := checkUserOnceEntry_ok hcheck
    simp only [hcheck] at hreply ⊢
    by_cases hw : wrapper = ""
    · rw [if_pos hw]
      exact .same hquiet
    · rw [if_neg hw] at hreply ⊢
      cases hg : e.userOnce with
      | some grant =>
        simp only
        split
        · exact .same hquiet
        · split <;> exact .same hquiet
      | none =>
        simp only [hg] at hreply
        exact .granted wrapper hquiet hnone hg ⟨hop, hreply⟩

theorem consumeUserOnceEntry_ok (h : (consumeUserOnceEntry parent generation wrapper e).2 =
      .ok ()) :
    e.pending.parentChatId = parent ∧ e.pending.runGeneration = generation ∧
      e.decision = none ∧ ∃ grant, e.userOnce = some grant ∧ grant.wrapperToolCallId = wrapper ∧
        grant.consumed = false := by
  unfold consumeUserOnceEntry at h
  split at h
  · cases h
  · rename_i hcheck
    obtain ⟨hparent, hgen, hnone⟩ := checkUserOnceEntry_ok hcheck
    split at h
    · cases h
    · rename_i grant hgrant
      split at h
      · cases h
      · rename_i hbind
        split at h
        · cases h
        · rename_i hfresh
          rw [not_or, not_not] at hbind
          exact ⟨hparent, hgen, hnone, grant, hgrant, hbind.2, by simpa using hfresh⟩

theorem consumeUserOnceEntry_change
    (hop : ev.call.op = .consumeUserOnce parent id generation wrapper)
    (hreply : ev.reply = .done (consumeUserOnceEntry parent generation wrapper e).2) :
    Change ev id e (consumeUserOnceEntry parent generation wrapper e).1 := by
  have hno : ¬ ev.Consumes id := by
    rintro ⟨⟨toolCallId, args, hop'⟩, -⟩
    simp [hop] at hop'
  have hfail : ∀ err, (consumeUserOnceEntry parent generation wrapper e).2 = .error err →
      Quiet ev id := by
    intro err herr
    refine ⟨hno, fun huse => ?_⟩
    have hok := huse.2
    rw [hreply, herr] at hok
    cases hok
  unfold consumeUserOnceEntry at hfail ⊢
  split
  · rename_i err hcheck
    exact .same (hfail err (by rw [hcheck]))
  · rename_i hcheck
    simp only [hcheck] at hfail
    split
    · rename_i hgrant
      exact .same (hfail .notApproved (by rw [hgrant]))
    · rename_i grant hgrant
      simp only [hgrant] at hfail
      split
      · rename_i hbind
        exact .same (hfail .bindingMismatch (by rw [if_pos hbind]))
      · rename_i hbind
        split
        · rename_i hused
          exact .same (hfail .consumed (by rw [if_neg hbind, if_pos hused]))
        · exact .usedOnce grant hno hgrant

variable {toolCallId : String} {args : Value}

theorem consumeEntry_ok {pending : PendingApproval Value}
    (h : (consumeEntry toolCallId args e).2 = .ok pending) :
    pending = e.pending ∧ e.decision = some .approved ∧ e.pending.toolCallId = toolCallId ∧
      (e.pending.args == args) = true ∧ e.consumed = false := by
  unfold consumeEntry at h
  split at h
  · rename_i hd
    split at h
    · cases h
    · rename_i hbind
      split at h
      · cases h
      · rename_i hfresh
        rw [not_or, not_not] at hbind
        exact ⟨(Except.ok.inj h).symm, hd, hbind.1, by simpa [bne] using hbind.2,
          by simpa using hfresh⟩
  all_goals cases h

theorem consumeEntry_change (hop : ev.call.op = .consume id toolCallId args)
    (hreply : ev.reply = .found (consumeEntry toolCallId args e).2) :
    Change ev id e (consumeEntry toolCallId args e).1 := by
  have hno : ¬ ev.UsesOnce id := by
    rintro ⟨⟨parent, generation, wrapper, hop'⟩, -⟩
    simp [hop] at hop'
  have hfail : ∀ err, (consumeEntry toolCallId args e).2 = .error err → Quiet ev id := by
    intro err herr
    refine ⟨fun huse => ?_, hno⟩
    obtain ⟨-, pending, hok⟩ := huse
    rw [hreply, herr] at hok
    cases hok
  unfold consumeEntry at hfail ⊢
  split
  · rename_i hd
    simp only [hd] at hfail
    split
    · rename_i hbind
      exact .same (hfail .bindingMismatch (by rw [if_pos hbind]))
    · rename_i hbind
      split
      · rename_i hused
        exact .same (hfail .consumed (by rw [if_neg hbind, if_pos hused]))
      · exact .consumed hno
  · rename_i hd
    exact .same (hfail .expired (by rw [hd]))
  · rename_i hd
    exact .same (hfail .notApproved (by rw [hd]))
  · rename_i hd
    exact .same (hfail .notApproved (by rw [hd]))
  · rename_i hd
    exact .same (hfail .notApproved (by rw [hd]))

end Entries

def freshEntry (pending : PendingApproval Value) : Entry Value := ⟨pending, none, none, none, false⟩

theorem register_cases (capacity : ℕ) (s : Registry Value) (pending : PendingApproval Value)
    (now : ℕ) :
    ((register capacity s pending now).1 = expireLocked capacity s now ∧
      ∃ err, (register capacity s pending now).2 = .error err) ∨
    ((register capacity s pending now).1 =
        (expireLocked capacity s now).insert pending.id (freshEntry pending) ∧
      (register capacity s pending now).2 = .ok () ∧
      ∀ k e, (expireLocked capacity s now).lookup k = some e → SameCall e.pending pending →
        e.pending.expiresAt ≤ now) := by
  unfold register
  simp only
  split
  · exact .inl ⟨rfl, _, rfl⟩
  · rename_i hfree
    split
    · exact .inl ⟨rfl, _, rfl⟩
    · split
      · exact .inl ⟨rfl, _, rfl⟩
      · refine .inr ⟨rfl, rfl, fun k e hk hsame => ?_⟩
        by_contra hlive
        apply hfree
        right
        refine (AList.any_values_iff (fun e : Entry Value =>
          decide (SameCall e.pending pending ∧ now < e.pending.expiresAt)) _).mpr ⟨k, e, hk, ?_⟩
        exact decide_eq_true ⟨hsame, not_le.mp hlive⟩

variable [BEq Value]

def occurrence (s : Registry Value) (call : Call Value) : Event Value :=
  ⟨call, (perform s call).2⟩

variable {call : Call Value}

theorem perform_lookup {id : String} {e' : Entry Value} (h : (perform s call).1.lookup id =
      some e') :
    (∃ pending, (occurrence s call).registered = some pending ∧ pending.id = id ∧
      e' = freshEntry pending) ∨
    ((occurrence s call).registers id = false ∧
      ∃ e, (expireLocked call.capacity s call.now).lookup id = some e ∧
        Change (occurrence s call) id e e') := by
  obtain ⟨capacity, now, op⟩ := call
  cases op with
  | register pending =>
    have hquiet : Quiet (occurrence s ⟨capacity, now, .register pending⟩) id :=
      quiet_of_op (by simp [occurrence]) (by simp [occurrence])
    rcases register_cases capacity s pending now with ⟨hs, err, herr⟩ | ⟨hs, hok, -⟩
    · refine .inr ⟨?_, e', ?_, .same hquiet⟩
      · simp [Event.registers, Event.registered, occurrence, perform, Reply.of, herr]
      · rw [← hs]
        exact h
    · have hreg : (occurrence s ⟨capacity, now, .register pending⟩).registered = some pending := by
        simp [Event.registered, occurrence, perform, Reply.of, hok]
      simp only [perform, Reply.of, hs, AList.lookup_insert_if] at h
      by_cases hid : id = pending.id
      · rw [if_pos hid] at h
        exact .inl ⟨pending, hreg, hid.symm, (Option.some.inj h).symm⟩
      · rw [if_neg hid] at h
        refine .inr ⟨?_, e', h, .same hquiet⟩
        simp [Event.registers, hreg, Ne.symm hid]
  | grantUserOnce parent target generation wrapper =>
    right
    refine ⟨rfl, ?_⟩
    rcases onEntry_lookup h with ⟨hne, hs⟩ | ⟨rfl, e, hs, rfl, hreply⟩
    · exact ⟨e', hs, .same (quiet_of_op (by simp [occurrence]) (by simp [occurrence]))⟩
    · exact ⟨e, hs, grantUserOnceEntry_change rfl (congrArg Reply.done hreply)⟩
  | consumeUserOnce parent target generation wrapper =>
    right
    refine ⟨rfl, ?_⟩
    rcases onEntry_lookup h with ⟨hne, hs⟩ | ⟨rfl, e, hs, rfl, hreply⟩
    · exact ⟨e', hs, .same (quiet_of_op (by simp [occurrence])
        (by simp [occurrence, Ne.symm hne]))⟩
    · exact ⟨e, hs, consumeUserOnceEntry_change rfl (congrArg Reply.done hreply)⟩
  | decideWithReason parent generation target approve reason =>
    right
    refine ⟨rfl, ?_⟩
    rcases onEntry_lookup h with ⟨hne, hs⟩ | ⟨rfl, e, hs, rfl, hreply⟩
    · exact ⟨e', hs, .same (quiet_of_op (by simp [occurrence]) (by simp [occurrence]))⟩
    · exact ⟨e, hs, decideEntry_change rfl (congrArg Reply.decided hreply)⟩
  | cancel parent generation target =>
    right
    refine ⟨rfl, ?_⟩
    rcases onEntry_lookup h with ⟨hne, hs⟩ | ⟨rfl, e, hs, rfl, hreply⟩
    · exact ⟨e', hs, .same (quiet_of_op (by simp [occurrence]) (by simp [occurrence]))⟩
    · exact ⟨e, hs, cancelEntry_change rfl⟩
  | consume target toolCallId args =>
    right
    refine ⟨rfl, ?_⟩
    rcases onEntry_lookup h with ⟨hne, hs⟩ | ⟨rfl, e, hs, rfl, hreply⟩
    · exact ⟨e', hs, .same (quiet_of_op (by simp [occurrence, Ne.symm hne])
        (by simp [occurrence]))⟩
    · exact ⟨e, hs, consumeEntry_change rfl (congrArg Reply.found hreply)⟩
  | get parent target =>
    refine .inr ⟨rfl, e', ?_, .same (quiet_of_op (by simp [occurrence]) (by simp [occurrence]))⟩
    simp only [perform, Reply.of, get] at h
    split at h
    · exact h
    · split at h <;> exact h
  | waitNow target =>
    refine .inr ⟨rfl, e', ?_, .same (quiet_of_op (by simp [occurrence]) (by simp [occurrence]))⟩
    simp only [perform, Reply.of, waitNow] at h
    split at h
    · exact h
    · split at h <;> exact h
  | _ => exact .inr ⟨rfl, e', h, .same (quiet_of_op (by simp [occurrence]) (by simp [occurrence]))⟩

variable {now : ℕ}

omit [BEq Value] in
theorem expireLocked_lookup {capacity : ℕ} {id : String} {e : Entry Value}
    (h : (expireLocked capacity s now).lookup id = some e) :
    ∃ e₀, s.lookup id = some e₀ ∧ e = e₀.expire now := by
  have hmarked : ∀ k, (s.mapValues fun _ entry => entry.expire now).lookup k =
      (s.lookup k).map fun entry => entry.expire now := fun k => AList.lookup_mapValues _ _ k
  have hone : (s.lookup id).map (fun entry => entry.expire now) = some e := by
    unfold expireLocked at h
    simp only at h
    split at h
    · rw [AList.lookup_eraseAll] at h
      split at h
      · cases h
      · rw [← hmarked]
        exact h
    · rw [← hmarked]
      exact h
  obtain ⟨e₀, hs, rfl⟩ := Option.map_eq_some_iff.mp hone
  exact ⟨e₀, hs, rfl⟩

omit [BEq Value] in
theorem Entry.expire_cases (e : Entry Value) (now : ℕ) :
    (now < e.pending.expiresAt ∧ e.expire now = e) ∨
      (e.pending.expiresAt ≤ now ∧ (e.expire now).decision = some .expired ∧
        (e.expire now).userOnce = none ∧ (e.expire now).pending = e.pending ∧
        (e.expire now).consumed = e.consumed) := by
  unfold Entry.expire
  split
  · rename_i hexp
    exact .inr ⟨hexp, rfl, rfl, rfl, rfl⟩
  · rename_i hlive
    exact .inl ⟨not_le.mp hlive, rfl⟩

omit [BEq Value] in
theorem Entry.expire_pending (e : Entry Value) (now : ℕ) :
    (e.expire now).pending = e.pending := by
  rcases e.expire_cases now with ⟨-, heq⟩ | ⟨-, -, -, hpend, -⟩
  · rw [heq]
  · exact hpend

/-- What must have happened since the registration of an entry, and what has not. -/
structure Traced (log : Log Value) (id : String) (e : Entry Value) : Prop where
  registered : lastRegistration id log = some e.pending
  approved : e.decision = some .approved → ∃ ev ∈ sinceRegistration id log,
    ev.Approves e.pending.parentChatId e.pending.runGeneration id
  unconsumed : e.consumed = false → ∀ ev ∈ sinceRegistration id log, ¬ ev.Consumes id
  granted : ∀ grant, e.userOnce = some grant → ∃ ev ∈ sinceRegistration id log,
    ev.Grants e.pending.parentChatId e.pending.runGeneration id grant.wrapperToolCallId
  unused : e.decision = none → (∀ grant, e.userOnce = some grant → grant.consumed = false) →
    ∀ ev ∈ sinceRegistration id log, ¬ ev.UsesOnce id

section Tracing

variable {log : Log Value} {id : String} {e e' : Entry Value} {ev : Event Value}

omit [BEq Value] in
theorem sinceRegistration_cons (h : ev.registers id = false) :
    sinceRegistration id (ev :: log) = ev :: sinceRegistration id log := by
  rw [sinceRegistration, takeWhile_cons_of_pos (by simp [h]), ← sinceRegistration]

omit [BEq Value] in
theorem lastRegistration_cons (h : ev.registers id = false) :
    lastRegistration id (ev :: log) = lastRegistration id log := by
  rw [lastRegistration, List.find?_cons_of_neg (by simp [h]), ← lastRegistration]

omit [BEq Value] in
theorem Traced.expire (h : Traced log id e) (now : ℕ) : Traced log id (e.expire now) := by
  rcases e.expire_cases now with ⟨-, heq⟩ | ⟨-, hdec, hgrant, hpend, hconsumed⟩
  · rw [heq]
    exact h
  · constructor
    · rw [hpend]
      exact h.registered
    · intro happ
      rw [hdec] at happ
      cases happ
    · rw [hconsumed]
      exact h.unconsumed
    · intro grant hg
      rw [hgrant] at hg
      cases hg
    · intro hnone
      rw [hdec] at hnone
      cases hnone

omit [BEq Value] in
theorem Traced.fresh {pending : PendingApproval Value} (h : ev.registered = some pending)
    (hid : pending.id = id) : Traced (ev :: log) id (freshEntry pending) := by
  have hreg : ev.registers id = true := by simp [Event.registers, h, hid]
  have hsince : sinceRegistration id (ev :: log) = [] := by simp [sinceRegistration, hreg]
  constructor
  · rw [lastRegistration, List.find?_cons_of_pos hreg]
    exact h
  · intro happ
    cases happ
  · rw [hsince]
    exact fun _ ev hev => absurd hev not_mem_nil
  · intro grant hg
    cases hg
  · rw [hsince]
    exact fun _ _ ev hev => absurd hev not_mem_nil

omit [BEq Value] in
theorem Traced.change (h : Traced log id e) (hreg : ev.registers id = false)
    (hchange : Change ev id e e') : Traced (ev :: log) id e' := by
  have hlast : lastRegistration id (ev :: log) = some e.pending :=
    (lastRegistration_cons hreg).trans h.registered
  constructor
  · rw [hchange.pending]
    exact hlast
  · rw [sinceRegistration_cons hreg, hchange.pending]
    intro happ
    cases hchange with
    | decided decision reason hquiet hnone hne hby =>
      exact ⟨ev, mem_cons_self, hby (Option.some.inj happ)⟩
    | _ =>
      obtain ⟨old, hold, hby⟩ := h.approved happ
      exact ⟨old, mem_cons_of_mem _ hold, hby⟩
  · rw [sinceRegistration_cons hreg]
    intro hfresh old hold
    cases hchange with
    | consumed hno => cases hfresh
    | usedOnce grant hno hgrant =>
      rcases mem_cons.mp hold with rfl | hold
      · exact hno
      · exact h.unconsumed hfresh old hold
    | noted reason hquiet | decided decision reason hquiet | granted wrapper hquiet =>
      rcases mem_cons.mp hold with rfl | hold
      · exact hquiet.1
      · exact h.unconsumed hfresh old hold
  · rw [sinceRegistration_cons hreg, hchange.pending]
    intro grant hg
    cases hchange with
    | decided decision reason hquiet => cases hg
    | granted wrapper hquiet hnone hempty hby =>
      cases hg
      exact ⟨ev, mem_cons_self, hby⟩
    | usedOnce old hno hold =>
      cases hg
      obtain ⟨maker, hin, hby⟩ := h.granted old hold
      exact ⟨maker, mem_cons_of_mem _ hin, hby⟩
    | noted reason hquiet | consumed hno =>
      obtain ⟨maker, hin, hby⟩ := h.granted grant hg
      exact ⟨maker, mem_cons_of_mem _ hin, hby⟩
  · rw [sinceRegistration_cons hreg]
    intro hnone hfresh old hold
    cases hchange with
    | decided decision reason hquiet => cases hnone
    | usedOnce grant hno hgrant => exact absurd (hfresh _ rfl) (by simp)
    | granted wrapper hquiet hundecided hempty hby =>
      rcases mem_cons.mp hold with rfl | hold
      · exact hquiet.2
      · exact h.unused hundecided (by simp [hempty]) old hold
    | noted reason hquiet =>
      rcases mem_cons.mp hold with rfl | hold
      · exact hquiet.2
      · exact h.unused hnone hfresh old hold
    | consumed hno =>
      rcases mem_cons.mp hold with rfl | hold
      · exact hno
      · exact h.unused hnone hfresh old hold

end Tracing

def run (calls : List (Call Value)) : Registry Value × Log Value :=
  calls.foldl (fun w call => ((perform w.1 call).1, occurrence w.1 call :: w.2)) (∅, [])

variable (calls : List (Call Value))

theorem run_concat (call : Call Value) : run (calls ++ [call]) =
      ((perform (run calls).1 call).1, occurrence (run calls).1 call :: (run calls).2) := by
  rw [run, foldl_concat, ← run]

theorem run_traced : ∀ id e, (run calls).1.lookup id = some e → Traced (run calls).2 id e := by
  induction calls using List.reverseRecOn with
  | nil =>
    intro id e h
    cases h
  | append_singleton calls call ih =>
    rw [run_concat]
    intro id e' h
    rcases perform_lookup h with ⟨pending, hreg, hid, rfl⟩ | ⟨hreg, e, he, hchange⟩
    · exact .fresh hreg hid
    · obtain ⟨e₀, hs, rfl⟩ := expireLocked_lookup he
      exact ((ih id e₀ hs).expire call.now).change hreg hchange

def Exclusive (now : ℕ) (s : Registry Value) : Prop :=
  ∀ id₁ id₂ e₁ e₂, s.lookup id₁ = some e₁ → s.lookup id₂ = some e₂ →
    SameCall e₁.pending e₂.pending → now < e₁.pending.expiresAt → now < e₂.pending.expiresAt →
    id₁ = id₂

omit [BEq Value] in
theorem SameCall.symm {a b : PendingApproval Value} (h : SameCall a b) : SameCall b a :=
  ⟨h.1.symm, h.2.1.symm, h.2.2.1.symm, h.2.2.2.symm⟩

omit [BEq Value] in
theorem Exclusive.mono {now' : ℕ} {s' : Registry Value} (h : Exclusive now s) (hnow : now ≤ now')
    (hfrom : ∀ id e', s'.lookup id = some e' → ∃ e, s.lookup id = some e ∧ e'.pending = e.pending) :
    Exclusive now' s' := by
  intro id₁ id₂ e₁ e₂ h₁ h₂ hsame hlive₁ hlive₂
  obtain ⟨o₁, ho₁, hp₁⟩ := hfrom id₁ e₁ h₁
  obtain ⟨o₂, ho₂, hp₂⟩ := hfrom id₂ e₂ h₂
  rw [hp₁] at hlive₁ hsame
  rw [hp₂] at hlive₂ hsame
  exact h id₁ id₂ o₁ o₂ ho₁ ho₂ hsame (hnow.trans_lt hlive₁) (hnow.trans_lt hlive₂)

omit [BEq Value] in
theorem Exclusive.expireLocked {now' : ℕ} (h : Exclusive now s) (hnow : now ≤ now') (capacity : ℕ) :
    Exclusive now' (expireLocked capacity s now') := by
  apply h.mono hnow
  intro id e he
  obtain ⟨e₀, hs, rfl⟩ := expireLocked_lookup he
  exact ⟨e₀, hs, e₀.expire_pending now'⟩

theorem Exclusive.perform (h : Exclusive now s) (hnow : now ≤ call.now) :
    Exclusive call.now (perform s call).1 := by
  have hpass := h.expireLocked hnow call.capacity
  obtain ⟨capacity, now', op⟩ := call
  by_cases hop : ∃ pending, op = .register pending ∧
      (register capacity s pending now').2 = .ok ()
  · obtain ⟨pending, rfl, hok⟩ := hop
    rcases register_cases capacity s pending now' with ⟨-, err, herr⟩ | ⟨hs, -, hrival⟩
    · rw [herr] at hok
      cases hok
    · simp only [ApprovalRegistry.perform, Reply.of, hs]
      intro id₁ id₂ e₁ e₂ h₁ h₂ hsame hlive₁ hlive₂
      rw [AList.lookup_insert_if] at h₁ h₂
      split at h₁ <;> split at h₂
      · rename_i hid₁ hid₂
        rw [hid₁, hid₂]
      · cases h₁
        exact absurd (hrival id₂ e₂ h₂ hsame.symm) (not_le.mpr hlive₂)
      · cases h₂
        exact absurd (hrival id₁ e₁ h₁ hsame) (not_le.mpr hlive₁)
      · exact hpass id₁ id₂ e₁ e₂ h₁ h₂ hsame hlive₁ hlive₂
  · apply hpass.mono le_rfl
    intro id e' he'
    rcases perform_lookup he' with ⟨pending, hreg, -, -⟩ | ⟨-, e, he, hchange⟩
    · cases op with
      | register pending' =>
        rcases register_cases capacity s pending' now' with ⟨-, err, herr⟩ | ⟨-, hok, -⟩
        · simp [occurrence, Event.registered, ApprovalRegistry.perform, Reply.of, herr] at hreg
        · exact absurd ⟨pending', rfl, hok⟩ hop
      | _ => cases hreg
    · exact ⟨e, he, hchange.pending⟩

theorem run_exclusive {calls : List (Call Value)}
    (hordered : calls.Pairwise fun a b => a.now ≤ b.now) (hnow : ∀ call ∈ calls, call.now ≤ now) :
    Exclusive now (run calls).1 := by
  induction calls using List.reverseRecOn generalizing now with
  | nil =>
    intro id₁ id₂ e₁ e₂ h₁
    cases h₁
  | append_singleton calls call ih =>
    obtain ⟨hcalls, -, hlast⟩ := pairwise_append.mp hordered
    rw [run_concat]
    have hbef := ih hcalls fun c hc => hlast c hc call mem_cons_self
    exact (hbef.perform le_rfl).mono (hnow call (by simp)) fun id e he => ⟨e, he, rfl⟩

variable {decision : ApprovalDecision}

theorem perform_decision {id : String} {e e' : Entry Value} (hs : s.lookup id = some e)
    (hdec : e.decision = some decision) (hreg : (occurrence s call).registers id = false)
    (h : (perform s call).1.lookup id = some e') :
    e'.decision = some decision ∨ e'.decision = some .expired := by
  rcases perform_lookup h with ⟨pending, hnew, hid, -⟩ | ⟨-, x, hx, hchange⟩
  · simp [Event.registers, hnew, hid] at hreg
  · obtain ⟨e₀, hs₀, rfl⟩ := expireLocked_lookup hx
    obtain rfl : e = e₀ := Option.some.inj (hs.symm.trans hs₀)
    rcases e.expire_cases call.now with ⟨-, heq⟩ | ⟨-, hexp, -⟩
    · rw [heq] at hchange
      rcases hchange.decision with hnone | hsame
      · rw [hnone] at hdec
        cases hdec
      · exact .inl (hsame.trans hdec)
    · rcases hchange.decision with hnone | hsame
      · rw [hnone] at hexp
        cases hexp
      · exact .inr (hsame.trans hexp)

theorem perform_lookup_old {id : String} {e' : Entry Value}
    (hreg : (occurrence s call).registers id = false) (h : (perform s call).1.lookup id = some e') :
    ∃ e, s.lookup id = some e := by
  rcases perform_lookup h with ⟨pending, hnew, hid, -⟩ | ⟨-, x, hx, -⟩
  · simp [Event.registers, hnew, hid] at hreg
  · obtain ⟨e₀, hs₀, -⟩ := expireLocked_lookup hx
    exact ⟨e₀, hs₀⟩

theorem run_decision {before middle : List (Call Value)} {id : String} {e e' : Entry Value}
    (hs : (run before).1.lookup id = some e) (hdec : e.decision = some decision)
    (hreg : ∀ ev ∈ (run (before ++ middle)).2.take middle.length, ev.registers id = false)
    (h : (run (before ++ middle)).1.lookup id = some e') :
    e'.decision = some decision ∨ e'.decision = some .expired := by
  induction middle using List.reverseRecOn generalizing e' with
  | nil =>
    rw [append_nil] at h
    obtain rfl : e = e' := Option.some.inj (hs.symm.trans h)
    exact .inl hdec
  | append_singleton middle call ih =>
    rw [← append_assoc, run_concat] at h
    rw [← append_assoc, run_concat, length_append, length_singleton,
      take_succ_cons] at hreg
    have hnew := hreg _ mem_cons_self
    obtain ⟨x, hx⟩ := perform_lookup_old hnew h
    rcases ih (fun ev hev => hreg ev (mem_cons_of_mem _ hev)) hx with hd | hd
    · exact perform_decision hx hd hnew h
    · exact .inr (or_self_iff.mp (perform_decision hx hd hnew h))

omit [BEq Value] in
theorem onEntry_ok {α : Type} {id : String} {f : Entry Value → Entry Value × Except ApprovalError α}
    {a : α} (h : (onEntry s id f).2 = .ok a) : ∃ e, s.lookup id = some e ∧ (f e).2 = .ok a := by
  unfold onEntry at h
  cases hs : s.lookup id with
  | none =>
    simp only [hs] at h
    cases h
  | some e =>
    simp only [hs] at h
    exact ⟨e, rfl, h⟩

omit [BEq Value] in
theorem expireLocked_live {capacity : ℕ} {id : String} {e : Entry Value}
    (h : (expireLocked capacity s now).lookup id = some e) (hlive : e.decision ≠ some .expired) :
    s.lookup id = some e ∧ now < e.pending.expiresAt := by
  obtain ⟨e₀, hs, rfl⟩ := expireLocked_lookup h
  rcases e₀.expire_cases now with ⟨hnow, heq⟩ | ⟨-, hexp, -⟩
  · rw [heq]
    exact ⟨hs, hnow⟩
  · exact absurd hexp hlive

theorem consume_found {id toolCallId : String} {args : Value} {pending : PendingApproval Value}
    (hop : call.op = .consume id toolCallId args) (h : (perform s call).2 = .found (.ok pending)) :
    ∃ e, s.lookup id = some e ∧ call.now < e.pending.expiresAt ∧ pending = e.pending ∧
      e.decision = some .approved ∧ e.pending.toolCallId = toolCallId ∧
      (e.pending.args == args) = true ∧ e.consumed = false := by
  simp only [perform, hop, Reply.of, Reply.found.injEq] at h
  obtain ⟨e, he, hok⟩ := onEntry_ok h
  obtain ⟨hpend, hdec, htool, hargs, hfresh⟩ := consumeEntry_ok hok
  obtain ⟨hs, hnow⟩ := expireLocked_live he (by simp [hdec])
  exact ⟨e, hs, hnow, hpend, hdec, htool, hargs, hfresh⟩

theorem consumeUserOnce_done {parent id : String} {generation : ℕ} {wrapper : String}
    (hop : call.op = .consumeUserOnce parent id generation wrapper)
    (h : (perform s call).2 = .done (.ok ())) :
    ∃ e grant, s.lookup id = some e ∧ call.now < e.pending.expiresAt ∧ e.decision = none ∧
      e.pending.parentChatId = parent ∧ e.pending.runGeneration = generation ∧
      e.userOnce = some grant ∧ grant.wrapperToolCallId = wrapper ∧ grant.consumed = false := by
  simp only [perform, hop, Reply.of, Reply.done.injEq] at h
  obtain ⟨e, he, hok⟩ := onEntry_ok h
  obtain ⟨hparent, hgen, hnone, grant, hgrant, hwrapper, hfresh⟩ := consumeUserOnceEntry_ok hok
  obtain ⟨hs, hnow⟩ := expireLocked_live he (by simp [hnone])
  exact ⟨e, grant, hs, hnow, hnone, hparent, hgen, hgrant, hwrapper, hfresh⟩

structure Authority (calls : List (Call Value)) : Prop where
  /-- Since the last registration of the id no earlier `consume` of it has succeeded. -/
  consume_once : ∀ before call after id, calls = before ++ call :: after →
    (occurrence (run before).1 call).Consumes id →
    ∀ ev ∈ sinceRegistration id (run before).2, ¬ ev.Consumes id
  /-- A `consume` succeeds for the registered request only, before it expires, and after the
  registered parent has approved it for the registered generation. -/
  consume_bound : ∀ before call after id toolCallId args pending, calls = before ++ call :: after →
    call.op = .consume id toolCallId args →
    (perform (run before).1 call).2 = .found (.ok pending) →
    lastRegistration id (run before).2 = some pending ∧
      (∃ ev ∈ sinceRegistration id (run before).2,
        ev.Approves pending.parentChatId pending.runGeneration id) ∧
      pending.toolCallId = toolCallId ∧ (pending.args == args) = true ∧
      call.now < pending.expiresAt
  /-- While the id is not registered anew a decision stays, or becomes the expired one. -/
  decision_final : ∀ before middle after id e e' decision, calls = before ++ middle ++ after →
    (run before).1.lookup id = some e → e.decision = some decision →
    (∀ ev ∈ (run (before ++ middle)).2.take middle.length, ev.registers id = false) →
    (run (before ++ middle)).1.lookup id = some e' →
    e'.decision = some decision ∨ e'.decision = some .expired
  use_once : ∀ before call after id, calls = before ++ call :: after →
    (occurrence (run before).1 call).UsesOnce id →
    ∀ ev ∈ sinceRegistration id (run before).2, ¬ ev.UsesOnce id
  /-- A one-time grant is used by the wrapper it was made for only, while the request is
  undecided and has not expired. -/
  use_bound : ∀ before call after parent id generation wrapper, calls = before ++ call :: after →
    call.op = .consumeUserOnce parent id generation wrapper →
    (perform (run before).1 call).2 = .done (.ok ()) →
    ∃ e, (run before).1.lookup id = some e ∧ lastRegistration id (run before).2 = some e.pending ∧
      e.pending.parentChatId = parent ∧ e.pending.runGeneration = generation ∧
      e.decision = none ∧ call.now < e.pending.expiresAt ∧
      ∃ ev ∈ sinceRegistration id (run before).2, ev.Grants parent generation id wrapper
  exclusive : ∀ before after now, calls = before ++ after →
    (∀ call ∈ before, call.now ≤ now) → Exclusive now (run before).1

/-- Approvals are used at most once, with the authority of the registered parent, in every
sequence of calls whose clock does not go back. -/
theorem approval_authority (calls : List (Call Value))
    (hordered : calls.Pairwise fun a b => a.now ≤ b.now) : Authority calls := by
  constructor
  · rintro before call after id - ⟨⟨toolCallId, args, hop⟩, pending, hreply⟩
    obtain ⟨e, hs, -, -, -, -, -, hfresh⟩ := consume_found hop hreply
    exact (run_traced before id e hs).unconsumed hfresh
  · intro before call after id toolCallId args pending _ hop hreply
    obtain ⟨e, hs, hnow, rfl, hdecision, htool, hargs, -⟩ := consume_found hop hreply
    have htraced := run_traced before id e hs
    exact ⟨htraced.registered, htraced.approved hdecision, htool, hargs, hnow⟩
  · intro before middle after id e e' decision _ hs hdecision hreg h
    exact run_decision hs hdecision hreg h
  · rintro before call after id - ⟨⟨parent, generation, wrapper, hop⟩, hreply⟩
    obtain ⟨e, grant, hs, -, hnone, -, -, hgrant, -, hfresh⟩ := consumeUserOnce_done hop hreply
    refine (run_traced before id e hs).unused hnone fun g hg => ?_
    obtain rfl : grant = g := Option.some.inj (hgrant.symm.trans hg)
    exact hfresh
  · intro before call after parent id generation wrapper _ hop hreply
    obtain ⟨e, grant, hs, hnow, hnone, rfl, rfl, hgrant, rfl, -⟩ := consumeUserOnce_done hop hreply
    have htraced := run_traced before id e hs
    exact ⟨e, hs, htraced.registered, rfl, rfl, hnone, hnow, htraced.granted grant hgrant⟩
  · rintro before after now rfl hnow
    exact run_exclusive (pairwise_append.mp hordered).1 hnow

def shellRequest : PendingApproval ℕ where
  id := "approval-1"
  childWorkId := "child"
  parentChatId := "parent"
  runGeneration := 3
  toolCallId := "call-1"
  toolName := "shell"
  args := 7
  digest := none
  createdAt := 0
  expiresAt := 100
  execution := none

def approvedCalls : List (Call ℕ) :=
  [⟨4, 0, .register shellRequest⟩, ⟨4, 10, .decide "parent" 3 "approval-1" true⟩,
    ⟨4, 20, .consume "approval-1" "call-1" 7⟩]

theorem approved_call_consumed :
    approvedCalls.Pairwise (fun a b => a.now ≤ b.now) ∧
    ∃ ev ∈ sinceRegistration "approval-1" (run (approvedCalls.take 2)).2,
      ev.Approves "parent" 3 "approval-1" := by
  have hordered : approvedCalls.Pairwise fun a b => a.now ≤ b.now := by
    simp [approvedCalls]
  have hreply : (perform (run (approvedCalls.take 2)).1
      ⟨4, 20, .consume "approval-1" "call-1" 7⟩).2 = .found (.ok shellRequest) := by
    decide
  exact ⟨hordered, ((approval_authority approvedCalls hordered).consume_bound _ _ [] _ _ _ _ rfl
    rfl hreply).2.1⟩

end ApprovalRegistry
