import RefactEngine.OutboxMirror

/-! # Crashes while a chat is delivered to

The rows of the outbox and the saved trajectory are durable, the session is not. A delivery is lost
if its row is settled and nothing of it has been saved.
-/
namespace ChatDelivery

open SessionDeliveries
open AgentDeliveries (DeliveryOutcome)
open DeliveryOutbox (DeliveryState DeliveryStatus OutboxTable stateForStatus)

structure Durable where
  table : OutboxTable
  messages : List ChatMessage
  pending : List PendingDelivery
  keyed : Keyed table

/-- Where a delivery comes to its end: at a crash, at a save that fails, or when all is done. -/
inductive Stop where
  | accepted
  | enqueued
  | recorded
  | saveFailed
  | saved
  deriving DecidableEq

namespace Durable

variable (outbox : Outbox) (nowMs : ℕ) (durable : Durable)

def accept (delivery : PendingDelivery) : Durable :=
  { durable with
    table := outbox.acceptForDispatch nowMs durable.table delivery
    keyed := durable.keyed.accept outbox nowMs delivery }

def recordStatus (deliveryId : String) (status : DeliveryStatus) : Durable :=
  { durable with
    table := outbox.recordStatus nowMs durable.table deliveryId status
    keyed := durable.keyed.record outbox nowMs deliveryId status }

def saveTrajectory (session : ChatSession) : Durable :=
  { durable with
    messages := session.messages
    pending := session.pendingDeliveriesForSnapshot }

def Holds (deliveryId : String) : Prop :=
  deliveryId ∈ stampsOf durable.messages ∨ ∃ d ∈ durable.pending, d.id = deliveryId

end Durable

def deliverUntil (cfg : Settings) (outbox : Outbox) (nowMs : ℕ) (session : ChatSession)
    (durable : Durable) (request : Request) (stop : Stop) :
    Durable × Option (Except String DeliveryOutcome) :=
  let accepted := durable.accept outbox nowMs request.delivery
  let result := receive cfg outbox nowMs session request
  let recorded := accepted.recordStatus outbox nowMs request.delivery.id
    (statusAfter result.1 request.delivery.id result.2)
  match stop with
  | .accepted => (accepted, none)
  | .enqueued => (accepted, some result.2)
  | .recorded => (recorded, some result.2)
  | .saveFailed => (recorded, some result.2)
  | .saved =>
    match result.2 with
    | .error _ => (recorded, some result.2)
    | .ok _ => (recorded.saveTrajectory result.1, some result.2)

def Refused : Option (Except String DeliveryOutcome) → Prop
  | some (.ok .delivered) => False
  | some (.ok .queued) => False
  | _ => True

def Failure (state : DeliveryState) : Prop :=
  state.isTerminal = true ∧ state ≠ .delivered ∧ state ≠ .consumed

/-- The trajectory holds the delivery, or recovery comes upon its row, or the row says that it has
been refused. -/
def Survives (outbox : Outbox) (durable : Durable)
    (answer : Option (Except String DeliveryOutcome)) (deliveryId : String) : Prop :=
  durable.Holds deliveryId ∨ ∃ state, outbox.stateOf durable.table deliveryId = some state ∧
    (state.isTerminal = false ∨ Failure state ∧ Refused answer)

/-- What the session reports has not been recorded as delivered before it is saved. If the row was
settled already, then as a failure, and the delivery has not been taken since. -/
def RowSafe (held : Option DeliveryState) (reception : Reception) (status : DeliveryStatus)
    (stop : Stop) : Prop :=
  ((held.getD .pending).isTerminal = false →
    stop = .accepted ∨ stop = .enqueued ∨ reception = .refused ∨ status ≠ .delivered) ∧
  ∀ state, held = some state → state.isTerminal = true →
    Failure state ∧ (stop = .accepted ∨ reception.enters = false)

def Safe (cfg : Settings) (outbox : Outbox) (nowMs : ℕ) (session : ChatSession)
    (durable : Durable) (request : Request) (stop : Stop) : Prop :=
  let reception := reception cfg nowMs session request
  let status := reception.status (session.deliveryStatus request.delivery.id)
  (if stop = .saved ∧ reception ≠ .refused then status = .delivered ∨ status = .pending
    else durable.Holds request.delivery.id) ∨
  RowSafe (outbox.stateOf durable.table request.delivery.id) reception status stop

def rowAt (held : Option DeliveryState) (reported : DeliveryStatus) : Stop → DeliveryState
  | .accepted => dispatched held
  | .enqueued => dispatched held
  | _ => told (dispatched held) reported

def answerAt (answer : Except String DeliveryOutcome) :
    Stop → Option (Except String DeliveryOutcome)
  | .accepted => none
  | _ => some answer

variable {answer : Except String DeliveryOutcome}

theorem refused_iff {reception : Reception} (h : reception.Answers answer) :
    Refused (some answer) ↔ reception.enters = false := by
  cases reception
  · obtain ⟨error, rfl⟩ := h
    exact ⟨fun _ => rfl, fun _ => trivial⟩
  all_goals
    obtain rfl : answer = .ok _ := h
    simp [Refused, Reception.enters]

theorem rowAt_settled {state : DeliveryState} (h : state.isTerminal = true)
    (reported : DeliveryStatus) (stop : Stop) : rowAt (some state) reported stop = state := by
  have hdispatched : dispatched (some state) = state := by
    rw [dispatched, settle, Option.getD_some, if_pos h]
  cases stop
  all_goals
    unfold rowAt
    first | exact hdispatched | exact told_settled h reported

theorem rowSafe_settled {state : DeliveryState} (h : state.isTerminal = true)
    {reception : Reception} (hanswers : reception.Answers answer) (reported status : DeliveryStatus)
    (stop : Stop) : ((rowAt (some state) reported stop).isTerminal = false ∨
      Failure (rowAt (some state) reported stop) ∧ Refused (answerAt answer stop)) ↔
      RowSafe (some state) reception status stop := by
  have hrefused : Refused (answerAt answer stop) ↔ stop = .accepted ∨ reception.enters = false := by
    cases stop
    · exact ⟨fun _ => Or.inl rfl, fun _ => trivial⟩
    all_goals
      rw [or_iff_right (by decide)]
      exact refused_iff hanswers
  rw [rowAt_settled h, h, hrefused, or_iff_right Bool.false_ne_true.symm]
  constructor
  · rintro hsafe
    refine ⟨fun hopen => absurd (h.symm.trans hopen) Bool.false_ne_true.symm, ?_⟩
    rintro other hother -
    obtain rfl := Option.some.inj hother
    exact hsafe
  · exact fun hsafe => hsafe.2 state rfl h

theorem rowSafe_open {held : Option DeliveryState} (h : (held.getD .pending).isTerminal = false)
    {reception : Reception} (hanswers : reception.Answers answer) {status : DeliveryStatus}
    (hconsumed : status ≠ .consumed)
    (hlands : reception.enters = true → status = .delivered ∨ status = .pending) (stop : Stop) :
    ((rowAt held (if reception = .refused then .failed else status) stop).isTerminal = false ∨
      Failure (rowAt held (if reception = .refused then .failed else status) stop) ∧
        Refused (answerAt answer stop)) ↔ RowSafe held reception status stop := by
  have hdispatched : dispatched held = .inFlight := by
    rw [dispatched, settle, h]
    rfl
  have hsafe : RowSafe held reception status stop ↔
      stop = .accepted ∨ stop = .enqueued ∨ reception = .refused ∨ status ≠ .delivered := by
    refine ⟨fun hrow => hrow.1 h, fun hrow => ⟨fun _ => hrow, ?_⟩⟩
    rintro state rfl hterminal
    exact absurd (hterminal.symm.trans h) Bool.false_ne_true.symm
  rw [hsafe]
  have hrecorded : ((told .inFlight (if reception = .refused then .failed else status)).isTerminal =
      false ∨ Failure (told .inFlight (if reception = .refused then .failed else status)) ∧
        Refused (some answer)) ↔ reception = .refused ∨ status ≠ .delivered := by
    rw [refused_iff hanswers]
    by_cases hrefused : reception = .refused
    · rw [if_pos hrefused]
      subst hrefused
      have hfailed : Failure .failed := ⟨rfl, by decide, by decide⟩
      exact ⟨fun _ => Or.inl rfl, fun _ => Or.inr ⟨hfailed, rfl⟩⟩
    · rw [if_neg hrefused, or_iff_right hrefused]
      cases henters : reception.enters with
      | true =>
        rcases hlands henters with rfl | rfl
        · simp [told, settle, stateForStatus, DeliveryState.isTerminal, Failure]
        · simp [told, settle, stateForStatus, DeliveryState.isTerminal]
      | false =>
        cases status <;> first
          | exact absurd rfl hconsumed
          | simp [told, settle, stateForStatus, DeliveryState.isTerminal, Failure]
  have hlate : stop ≠ .accepted → stop ≠ .enqueued →
      (stop = .accepted ∨ stop = .enqueued ∨ reception = .refused ∨ status ≠ .delivered ↔
        reception = .refused ∨ status ≠ .delivered) :=
    fun haccepted henqueued => (or_iff_right haccepted).trans (or_iff_right henqueued)
  cases stop
  all_goals
    unfold rowAt answerAt
    rw [hdispatched]
  · exact ⟨fun _ => Or.inl rfl, fun _ => Or.inl rfl⟩
  · exact ⟨fun _ => Or.inr (Or.inl rfl), fun _ => Or.inl rfl⟩
  all_goals exact hrecorded.trans (hlate (fun h => by cases h) fun h => by cases h).symm

theorem holds_saved {session : ChatSession} (ht : Tidy session) (durable : Durable) (id : String) :
    (durable.saveTrajectory session).Holds id ↔
      session.deliveryStatus id = .delivered ∨ session.deliveryStatus id = .pending := by
  have hsnapshot : session.pendingDeliveriesForSnapshot = session.pendingDeliveries := by
    have hrunner : session.runnerPendingDeliveries = [] := ht.sound.noRunner
    rw [ChatSession.pendingDeliveriesForSnapshot, hrunner, List.append_nil]
    exact firstOfEach_of_nodup ht.sound.nodup
  have hstamped : id ∈ session.deliveredDeliveryIds ↔ id ∈ stampsOf session.messages :=
    ht.sound.stamped id
  show id ∈ stampsOf session.messages ∨ (∃ d ∈ session.pendingDeliveriesForSnapshot, d.id = id) ↔ _
  rw [hsnapshot, ← hstamped]
  constructor
  · rintro (hdelivered | ⟨d, hd, rfl⟩)
    · exact Or.inl (delivered_of_mem hdelivered)
    · exact Or.inr (pending_of_mem ht.sound hd)
  · rintro (hdelivered | hpending)
    · exact Or.inl (ht.records.mem_of_delivered hdelivered)
    · exact Or.inr (ht.records.mem_of_pending hpending)

section Reachable

variable {cfg : Settings} (hnew : ∀ used, cfg.newId used ∉ used)
  (hretention : 1 ≤ cfg.deliveryStatusRetention) {session : ChatSession}

theorem recorded_restored (cfg : Settings) (nowMs : ℕ) (hr : Recorded session)
    (deliveries : List PendingDelivery) (seen : List String) :
    Recorded (deliveries.foldl (ChatSession.restoreDelivery cfg nowMs) (session, seen)).1 := by
  induction deliveries generalizing session seen with
  | nil => exact hr
  | cons d deliveries ih =>
    rw [List.foldl_cons, ChatSession.restoreDelivery]
    dsimp only
    split_ifs
    · exact ih hr seen
    · exact ih (hr.recordDropped cfg _ (by decide)) _
    · have hsuperseded : DeliveryStatus.superseded ∈ droppedStatuses := by decide
      have hkept := hr.dropPending cfg
        (d.ensureRestoredTtlSecs nowMs cfg.deliveryDefaultTtlSecs).supersedes hsuperseded
      apply ih
      exact hkept

theorem recorded_merged (cfg : Settings) (hr : Recorded session)
    {records : List DeliveryStatusRecord} (hrecords : ∀ r ∈ records, r.status ∈ droppedStatuses) :
    Recorded (session.mergeDroppedDeliveries cfg records) := by
  obtain ⟨merged, heq, hmerged⟩ := mergeDropped_eq cfg session records
  rw [heq]
  intro r hmem
  exact (hmerged r hmem).elim (hr r) (hrecords r)

theorem recorded_restarted (cfg : Settings) (nowMs : ℕ) (fresh : ChatSession) {saved : ChatSession}
    (hr : Recorded saved) (mergeFirst : Bool) :
    Recorded (ChatSession.restarted cfg nowMs fresh saved mergeFirst) := by
  have hopened : Recorded (fresh.reopened saved) := List.forall_mem_nil _
  unfold ChatSession.restarted ChatSession.restorePendingDeliveries
  dsimp only
  split_ifs
  · apply recorded_restored
    exact recorded_merged cfg hopened hr
  · apply recorded_merged cfg _ hr
    apply recorded_restored
    exact hopened

include hnew hretention in
theorem recorded_step {h : History} (hi : Inv h) (hr : Recorded h.session) (nowMs : ℕ)
    (op : Op) : Recorded (h.step cfg nowMs op).session := by
  have ht : Tidy h.session := ⟨hi.sound, hr⟩
  cases op with
  | enqueue d => exact (received_enqueue hnew hretention ht nowMs d).tidy.records
  | queuePostTool d => exact (received_enqueue hnew hretention ht nowMs _).tidy.records
  | drain => exact (ht.drain hnew nowMs).tidy.records
  | update deliveryId push cancel => exact (ht.updated cfg deliveryId push cancel).tidy.records
  | dropSealed id =>
    exact (received_sealed hretention ht { goalDelivery id .append with id := id }).tidy.records
  | restart fresh mergeFirst => exact recorded_restarted cfg nowMs fresh hr mergeFirst
  | other next => exact hr

include hnew hretention in
theorem tidy_run (session : ChatSession) (ops : List (ℕ × Op)) :
    Tidy (History.run cfg session ops).session := by
  have hfold : ∀ h : History, Inv h → Recorded h.session →
      Recorded (ops.foldl (fun h op => h.step cfg op.1 op.2) h).session := by
    induction ops with
    | nil => exact fun h _ hr => hr
    | cons op ops ih =>
      intro h hi hr
      exact ih _ (hi.step hnew op.1 op.2) (recorded_step hnew hretention hi hr op.1 op.2)
  exact ⟨(Inv.run hnew session ops).sound,
    hfold _ (Inv.start session) (List.forall_mem_nil _)⟩

theorem stateOf_deliverUntil (outbox : Outbox) (nowMs : ℕ) (session : ChatSession)
    (durable : Durable) (request : Request) (stop : Stop) :
    outbox.stateOf (deliverUntil cfg outbox nowMs session durable request stop).1.table
        request.delivery.id =
      some (rowAt (outbox.stateOf durable.table request.delivery.id)
        (statusAfter (receive cfg outbox nowMs session request).1 request.delivery.id
          (receive cfg outbox nowMs session request).2) stop) := by
  have haccepted := stateOf_accept outbox nowMs durable.keyed request.delivery request.delivery.id
  rw [if_pos rfl] at haccepted
  have hrecorded := stateOf_record outbox nowMs (durable.keyed.accept outbox nowMs request.delivery)
    request.delivery.id request.delivery.id
    (statusAfter (receive cfg outbox nowMs session request).1 request.delivery.id
      (receive cfg outbox nowMs session request).2)
  rw [if_pos rfl, haccepted, Option.map_some] at hrecorded
  unfold deliverUntil
  cases stop with
  | accepted => exact haccepted
  | enqueued => exact haccepted
  | recorded => exact hrecorded
  | saveFailed => exact hrecorded
  | saved =>
    dsimp only
    split <;> exact hrecorded

theorem answer_deliverUntil (outbox : Outbox) (nowMs : ℕ) (session : ChatSession)
    (durable : Durable) (request : Request) (stop : Stop) :
    (deliverUntil cfg outbox nowMs session durable request stop).2 =
      answerAt (receive cfg outbox nowMs session request).2 stop := by
  unfold deliverUntil
  cases stop with
  | saved =>
    dsimp only
    split <;> rfl
  | _ => rfl

theorem Reception.Answers.isError {reception : Reception}
    {answer : Except String DeliveryOutcome} (h : reception.Answers answer) :
    reception = .refused ↔ ∃ error, answer = .error error := by
  cases reception
  · exact ⟨fun _ => h, fun _ => rfl⟩
  all_goals
    obtain rfl : answer = .ok _ := h
    exact ⟨nofun, nofun⟩

include hnew hretention in
theorem holds_deliverUntil (outbox : Outbox) (nowMs : ℕ) (ht : Tidy session) (durable : Durable)
    (request : Request) (stop : Stop) :
    (deliverUntil cfg outbox nowMs session durable request stop).1.Holds request.delivery.id ↔
      if stop = .saved ∧ reception cfg nowMs session request ≠ .refused then
        (reception cfg nowMs session request).status (session.deliveryStatus request.delivery.id) =
            .delivered ∨
          (reception cfg nowMs session request).status
            (session.deliveryStatus request.delivery.id) = .pending
      else durable.Holds request.delivery.id := by
  have hreceived := received hnew hretention outbox ht nowMs request
  have herror := hreceived.answers.isError
  unfold deliverUntil
  generalize receive cfg outbox nowMs session request = result at hreceived herror ⊢
  obtain ⟨session', answer⟩ := result
  cases stop with
  | saved =>
    cases answer with
    | error error =>
      rw [if_neg fun h => h.2 (herror.mpr ⟨error, rfl⟩)]
      exact Iff.rfl
    | ok outcome =>
      have hne : reception cfg nowMs session request ≠ .refused := by
        intro hrefused
        obtain ⟨error, heq⟩ := herror.mp hrefused
        cases heq
      rw [if_pos ⟨rfl, hne⟩, ← hreceived.own]
      exact holds_saved hreceived.tidy _ _
  | _ =>
    rw [if_neg fun h => nomatch h.1]
    exact Iff.rfl

include hnew hretention in
/-- From every session that can be reached, whatever has been saved, a delivery survives the end it
comes to if and only if it is safe. -/
theorem survives_iff_safe (session : ChatSession) (ops : List (ℕ × Op)) (outbox : Outbox)
    (nowMs : ℕ) (durable : Durable) (request : Request) (stop : Stop) :
    Survives outbox
        (deliverUntil cfg outbox nowMs (History.run cfg session ops).session durable request stop).1
        (deliverUntil cfg outbox nowMs (History.run cfg session ops).session durable request stop).2
        request.delivery.id ↔
      Safe cfg outbox nowMs (History.run cfg session ops).session durable request stop := by
  have ht := tidy_run hnew hretention session ops
  generalize (History.run cfg session ops).session = reached at ht ⊢
  have hreceived := received hnew hretention outbox ht nowMs request
  have hstatus := statusAfter_received hreceived
  have hconsumed : (reception cfg nowMs reached request).status
      (reached.deliveryStatus request.delivery.id) ≠ .consumed := by
    rw [← hreceived.own]
    intro hstatus
    rcases hreceived.tidy.records.cases request.delivery.id with ⟨-, h⟩ | ⟨-, h⟩ | h | h
    all_goals
      rw [hstatus] at h
      revert h
      decide
  have hlands : (reception cfg nowMs reached request).enters = true →
      (reception cfg nowMs reached request).status (reached.deliveryStatus request.delivery.id) =
          .delivered ∨ (reception cfg nowMs reached request).status
            (reached.deliveryStatus request.delivery.id) = .pending := by
    cases reception cfg nowMs reached request <;> simp [Reception.enters, Reception.status]
  unfold Survives Safe
  rw [holds_deliverUntil hnew hretention outbox nowMs ht, answer_deliverUntil,
    stateOf_deliverUntil, hstatus]
  simp only [Option.some.injEq, exists_eq_left']
  apply or_congr Iff.rfl
  cases hterminal :
    ((outbox.stateOf durable.table request.delivery.id).getD .pending).isTerminal with
  | false => exact rowSafe_open hterminal hreceived.answers hconsumed hlands stop
  | true =>
    cases hheld : outbox.stateOf durable.table request.delivery.id with
    | none =>
      rw [hheld] at hterminal
      cases hterminal
    | some state =>
      rw [hheld] at hterminal
      exact rowSafe_settled hterminal hreceived.answers _ _ stop

end Reachable

def Durable.empty : Durable where
  table := ∅
  messages := []
  pending := []
  keyed key record hrecord := by cases hrecord

def goalRequest (id : String) : Request := ⟨goalDelivery id .append, false, none⟩

def idle : ChatSession := { answering with draft := false, state := .idle, turnDepth := 0 }

/-- What has to wait is in the outbox if the session is lost. -/
theorem waiting_survives : Survives someOutbox
    (deliverUntil defaults someOutbox 1 (History.run defaults answering []).session .empty
      (goalRequest "first") .recorded).1 (some (.ok .queued)) "first" := by
  have hsafe : Safe defaults someOutbox 1 (History.run defaults answering []).session .empty
      (goalRequest "first") .recorded := by
    right
    refine ⟨fun _ => Or.inr (Or.inr (Or.inr (by decide))), fun state hstate => ?_⟩
    cases hstate
  exact (survives_iff_safe longerId_notMem (by decide) answering [] someOutbox 1 .empty
    (goalRequest "first") .recorded).mpr hsafe

/-- What lands is recorded as delivered before it is saved. -/
theorem survives_notAlways : ¬ ∀ (cfg : Settings) (session : ChatSession) (ops : List (ℕ × Op))
    (outbox : Outbox) (nowMs : ℕ) (durable : Durable) (request : Request) (stop : Stop),
      (∀ used, cfg.newId used ∉ used) → 1 ≤ cfg.deliveryStatusRetention →
        Survives outbox
          (deliverUntil cfg outbox nowMs (History.run cfg session ops).session durable request
            stop).1
          (deliverUntil cfg outbox nowMs (History.run cfg session ops).session durable request
            stop).2 request.delivery.id := by
  intro h
  rcases h defaults idle [] someOutbox 1 .empty (goalRequest "first") .recorded longerId_notMem
    (by decide) with (hstamps | ⟨d, hd, -⟩) | ⟨state, hstate, hsurvives⟩
  · cases hstamps
  · cases hd
  · have hdelivered : someOutbox.stateOf (deliverUntil defaults someOutbox 1
        (History.run defaults idle []).session .empty (goalRequest "first") .recorded).1.table
          "first" = some .delivered := by decide
    obtain rfl := Option.some.inj (hdelivered.symm.trans hstate)
    rcases hsurvives with hopen | ⟨⟨-, hfailure, -⟩, -⟩
    · cases hopen
    · exact hfailure rfl

end ChatDelivery
