import RefactEngine.DeliveryStatuses

/-! # Delivering to a chat

A delivery is written to the outbox, handed to the session, and then the row is told what the
session reports. Here the calls to the outbox succeed and each runs by itself.
-/
namespace ChatDelivery

open SessionDeliveries
open AgentDeliveries (DeliveryOutcome PushMode retained)
open DeliveryOutbox (DeliveryState DeliveryStatus DeliveryOutboxRecord OutboxTable acceptedRecord
  getOutboxMessage putOutboxMessage skipsTransition stateForStatus transitioned)
open WorkIdentity (ProjectKey)

structure Outbox where
  project : ProjectKey
  chatId : String
  encode : PendingDelivery → String

namespace Outbox

variable (outbox : Outbox) (nowMs : ℕ)

variable (table : OutboxTable)

def persistAccepted (delivery : PendingDelivery) : OutboxTable :=
  match getOutboxMessage table outbox.project delivery.id with
  | some _ => table
  | none =>
    putOutboxMessage table (acceptedRecord outbox.project outbox.chatId
      ⟨delivery.id, outbox.encode delivery⟩ nowMs)

variable (deliveryId : String)

def transition (state : DeliveryState)
    (bumpAttempts : Bool) : OutboxTable :=
  match getOutboxMessage table outbox.project deliveryId with
  | none => table
  | some record =>
    if skipsTransition record state then table
    else putOutboxMessage table (transitioned record state bumpAttempts nowMs)

def markDispatched : OutboxTable :=
  outbox.transition nowMs table deliveryId .inFlight true

def acceptForDispatch (delivery : PendingDelivery) : OutboxTable :=
  outbox.markDispatched nowMs (outbox.persistAccepted nowMs table delivery) delivery.id

def recordStatus (status : DeliveryStatus) :
    OutboxTable :=
  match stateForStatus status with
  | some state => outbox.transition nowMs table deliveryId state false
  | none => table

end Outbox

/-- `sealed` tells whether the chat is sealed, and `guard` why the reply of a planner is refused. -/
structure Request where
  delivery : PendingDelivery
  sealed : Bool
  guard : Option String

section Calls

variable (cfg : Settings) (outbox : Outbox) (nowMs : ℕ)

variable (session : ChatSession)

def entryError (delivery : PendingDelivery) : Option String :=
  if delivery.messages.isEmpty then some "delivery must contain at least one message"
  else
    match delivery.threadPatch.bind ChatSession.patchError with
    | some error => some error
    | none => if session.closed then some ("chat '" ++ outbox.chatId ++ "' is closed") else none

def receive (request : Request) :
    ChatSession × Except String DeliveryOutcome :=
  match request.guard with
  | some error => (session, .error error)
  | none =>
    if session.closed then (session, .error ("chat '" ++ outbox.chatId ++ "' is closed"))
    else if request.delivery.wake && request.sealed then
      let dropped := session.dropSealedDelivery cfg request.delivery.id
      (dropped.1, .ok dropped.2)
    else
      let result := session.enqueueDelivery cfg nowMs request.delivery
      (result.1, result.2.2)

def statusAfter (deliveryId : String)
    (answer : Except String DeliveryOutcome) : DeliveryStatus :=
  match answer with
  | .error _ => .failed
  | .ok _ => session.deliveryStatus deliveryId

def deliverToChat (table : OutboxTable) (request : Request) :
    ChatSession × OutboxTable × Except String DeliveryOutcome :=
  match entryError outbox session request.delivery with
  | some error => (session, table, .error error)
  | none =>
    let accepted := outbox.acceptForDispatch nowMs table request.delivery
    let result := receive cfg outbox nowMs session request
    (result.1, outbox.recordStatus nowMs accepted request.delivery.id
      (statusAfter result.1 request.delivery.id result.2), result.2)

def drainPostToolSideEffects : ChatSession :=
  if session.draft || hasPendingToolResultWindow session.messages || session.compressing then
    session
  else
    session.postToolSideEffects.foldl (fun session message => session.addMessage cfg nowMs message)
      { session with postToolSideEffects := [] }

/-- The rows of all that was pending are told what the session reports, if anything has landed. -/
def drainDeliveriesAtBoundary (table : OutboxTable) :
    ChatSession × OutboxTable :=
  let session := drainPostToolSideEffects cfg nowMs session
  let tracked := session.pendingDeliveries.map PendingDelivery.id
  let drained := session.drainPendingDeliveries cfg nowMs
  if drained.2.isEmpty then (drained.1, table)
  else
    (drained.1, tracked.foldl (fun table id =>
      outbox.recordStatus nowMs table id (drained.1.deliveryStatus id)) table)

def updatePendingDeliveryInChat (table : OutboxTable)
    (deliveryId : String) (push : Option PushMode) (cancel : Bool) :
    ChatSession × OutboxTable × Except String Unit :=
  match session.updatePendingDelivery cfg deliveryId push cancel with
  | (session, .error error) => (session, table, .error error)
  | (session, .ok ready) =>
    if ready then
      let drained := drainDeliveriesAtBoundary cfg outbox nowMs session table
      (drained.1, drained.2, .ok ())
    else (session, table, .ok ())

end Calls

section Rows

def Keyed (table : OutboxTable) : Prop :=
  ∀ key record, table.lookup key = some record → key = (record.project, record.messageId)

variable (outbox : Outbox) (nowMs : ℕ)

def Outbox.row (table : OutboxTable) (id : String) : Option DeliveryOutboxRecord :=
  getOutboxMessage table outbox.project id

theorem lookup_put (table : OutboxTable) (record : DeliveryOutboxRecord)
    (key : ProjectKey × String) : (putOutboxMessage table record).lookup key =
      if key = (record.project, record.messageId) then
        some (match table.lookup (record.project, record.messageId) with
          | none => record
          | some held => { record with createdAtMs := held.createdAtMs })
      else table.lookup key := by
  unfold putOutboxMessage
  cases table.lookup (record.project, record.messageId) <;> dsimp only <;> split_ifs with hkey
  · rw [hkey, AList.lookup_insert]
  · rw [AList.lookup_insert_ne hkey]
  · rw [hkey, AList.lookup_insert]
  · rw [AList.lookup_insert_ne hkey]

variable {table : OutboxTable}

theorem Keyed.put (h : Keyed table) (record : DeliveryOutboxRecord) :
    Keyed (putOutboxMessage table record) := by
  intro key found hfound
  rw [lookup_put] at hfound
  split_ifs at hfound with hkey
  · rw [hkey]
    obtain rfl := Option.some.inj hfound
    split <;> rfl
  · exact h key found hfound

def moved (record : DeliveryOutboxRecord) (state : DeliveryState) (bumpAttempts : Bool) :
    DeliveryOutboxRecord :=
  if skipsTransition record state then record else transitioned record state bumpAttempts nowMs

theorem lookup_transition (h : Keyed table) (id : String) (state : DeliveryState)
    (bumpAttempts : Bool) (key : ProjectKey × String) :
    (outbox.transition nowMs table id state bumpAttempts).lookup key =
      if key = (outbox.project, id) then
        (table.lookup key).map fun record => moved nowMs record state bumpAttempts
      else table.lookup key := by
  unfold Outbox.transition getOutboxMessage
  cases hheld : table.lookup (outbox.project, id) with
  | none =>
    split_ifs with hkey
    · rw [hkey, hheld]
      rfl
    · rfl
  | some held =>
    have hplace := h _ _ hheld
    dsimp only
    split_ifs with hskip hkey hkey
    · rw [hkey, hheld, Option.map_some, moved, if_pos hskip]
    · rfl
    · have hkey' : key = (held.project, held.messageId) := hkey.trans hplace
      rw [lookup_put, transitioned, if_pos hkey', ← hplace, hkey, hheld, Option.map_some, moved,
        if_neg hskip]
      rfl
    · have hkey' : ¬ key = (held.project, held.messageId) := fun heq => hkey (heq.trans hplace.symm)
      rw [lookup_put, transitioned, if_neg hkey']

theorem Keyed.transition (h : Keyed table) (id : String) (state : DeliveryState)
    (bumpAttempts : Bool) : Keyed (outbox.transition nowMs table id state bumpAttempts) := by
  unfold Outbox.transition
  split
  · exact h
  · split_ifs
    · exact h
    · exact h.put _

def Outbox.stateOf (table : OutboxTable) (id : String) : Option DeliveryState :=
  (outbox.row table id).map DeliveryOutboxRecord.state

def settle (held : DeliveryState) (state : DeliveryState) : DeliveryState :=
  if held.isTerminal then held else state

theorem moved_state (record : DeliveryOutboxRecord) (state : DeliveryState) (bumpAttempts : Bool) :
    (moved nowMs record state bumpAttempts).state = settle record.state state := by
  unfold moved settle skipsTransition
  by_cases hterminal : record.state.isTerminal = true
  · rw [if_pos hterminal, hterminal, Bool.true_or, if_pos rfl]
  · rw [if_neg hterminal]
    rw [Bool.not_eq_true] at hterminal
    rw [hterminal, Bool.false_or]
    split_ifs with heq
    · exact of_decide_eq_true heq
    · rfl

theorem stateOf_transition (h : Keyed table) (id id' : String) (state : DeliveryState)
    (bumpAttempts : Bool) :
    outbox.stateOf (outbox.transition nowMs table id state bumpAttempts) id' =
      if id' = id then (outbox.stateOf table id').map (settle · state)
      else outbox.stateOf table id' := by
  unfold Outbox.stateOf Outbox.row getOutboxMessage
  rw [lookup_transition outbox nowMs h]
  by_cases hid : id' = id
  · rw [if_pos (hid ▸ rfl), if_pos hid, Option.map_map, Option.map_map]
    congr 1
    funext record
    exact moved_state nowMs record state bumpAttempts
  · rw [if_neg fun heq => hid (Prod.mk.inj heq).2, if_neg hid]

theorem Keyed.persist (h : Keyed table) (d : PendingDelivery) :
    Keyed (outbox.persistAccepted nowMs table d) := by
  unfold Outbox.persistAccepted
  split
  · exact h
  · exact h.put _

theorem stateOf_persist (table : OutboxTable) (d : PendingDelivery) (id : String) :
    outbox.stateOf (outbox.persistAccepted nowMs table d) id =
      if id = d.id then some ((outbox.stateOf table id).getD .pending)
      else outbox.stateOf table id := by
  unfold Outbox.persistAccepted Outbox.stateOf Outbox.row getOutboxMessage
  cases hheld : table.lookup (outbox.project, d.id) with
  | some held =>
    dsimp only
    split_ifs with hid
    · rw [hid, hheld]
      rfl
    · rfl
  | none =>
    dsimp only
    rw [lookup_put]
    simp only [acceptedRecord, Prod.mk.injEq, true_and]
    split_ifs with hid
    · rw [hid, hheld]
      rfl
    · rfl

def dispatched (held : Option DeliveryState) : DeliveryState :=
  settle (held.getD .pending) .inFlight

theorem stateOf_accept (h : Keyed table) (d : PendingDelivery) (id : String) :
    outbox.stateOf (outbox.acceptForDispatch nowMs table d) id =
      if id = d.id then some (dispatched (outbox.stateOf table id))
      else outbox.stateOf table id := by
  unfold Outbox.acceptForDispatch Outbox.markDispatched
  rw [stateOf_transition outbox nowMs (h.persist outbox nowMs d), stateOf_persist]
  split_ifs <;> rfl

theorem Keyed.accept (h : Keyed table) (d : PendingDelivery) :
    Keyed (outbox.acceptForDispatch nowMs table d) :=
  (h.persist outbox nowMs d).transition outbox nowMs _ _ _

def told (held : DeliveryState) (status : DeliveryStatus) : DeliveryState :=
  settle held ((stateForStatus status).getD held)

theorem told_told (held : DeliveryState) (status : DeliveryStatus) :
    told (told held status) status = told held status := by
  cases held <;> cases status <;> rfl

theorem stateOf_record (h : Keyed table) (id id' : String) (status : DeliveryStatus) :
    outbox.stateOf (outbox.recordStatus nowMs table id status) id' =
      if id' = id then (outbox.stateOf table id').map (told · status)
      else outbox.stateOf table id' := by
  unfold Outbox.recordStatus told
  cases stateForStatus status with
  | none =>
    have hsame : ∀ held : DeliveryState, settle held held = held := by
      intro held
      cases held <;> rfl
    dsimp only [Option.getD_none]
    simp only [hsame, Option.map_id', ite_self]
  | some state =>
    dsimp only [Option.getD_some]
    rw [stateOf_transition outbox nowMs h]

theorem Keyed.record (h : Keyed table) (id : String) (status : DeliveryStatus) :
    Keyed (outbox.recordStatus nowMs table id status) := by
  unfold Outbox.recordStatus
  split
  · exact h.transition outbox nowMs _ _ _
  · exact h

theorem Keyed.recordAll (h : Keyed table) (ids : List String) (status : String → DeliveryStatus) :
    Keyed (ids.foldl (fun table id => outbox.recordStatus nowMs table id (status id)) table) := by
  induction ids generalizing table with
  | nil => exact h
  | cons id ids ih => exact ih (h.record outbox nowMs id (status id))

theorem stateOf_recordAll (h : Keyed table) (ids : List String) (status : String → DeliveryStatus)
    (id : String) : outbox.stateOf (ids.foldl (fun table id =>
        outbox.recordStatus nowMs table id (status id)) table) id =
      if id ∈ ids then (outbox.stateOf table id).map (told · (status id))
      else outbox.stateOf table id := by
  induction ids generalizing table with
  | nil => rfl
  | cons first ids ih =>
    rw [List.foldl_cons, ih (h.record outbox nowMs first (status first)),
      stateOf_record outbox nowMs h]
    rcases eq_or_ne id first with rfl | hne
    · rw [if_pos rfl, if_pos List.mem_cons_self, Option.map_map]
      split_ifs
      · congr 1
        funext held
        exact told_told held (status id)
      · rfl
    · rw [if_neg hne]
      simp only [List.mem_cons, hne, false_or]

end Rows

inductive Reception where
  | refused
  | duplicate
  | sealed
  | expired
  | lands
  | queues
  deriving DecidableEq

def acceptance (cfg : Settings) (nowMs : ℕ) (session : ChatSession) (delivery : PendingDelivery) :
    Reception :=
  let delivery := delivery.ensureTtlSecs nowMs cfg.deliveryDefaultTtlSecs
  if delivery.isExpiredAt nowMs then .expired
  else
    let kept := session.pendingDeliveries.filter (!delivery.supersedes ·)
    let boundary := session.deliveryEnvelopeBoundaryOpen delivery
    if decide (delivery.push = .preempt) && boundary then .lands
    else if ChatSession.maxPendingDeliveries cfg ≤ kept.length then .refused
    else if boundary && !(session.waitDeliveryBoundary && !kept.isEmpty) then .lands
    else .queues

def reception (cfg : Settings) (nowMs : ℕ) (session : ChatSession) (request : Request) :
    Reception :=
  if request.guard.isSome || session.closed then .refused
  else if request.delivery.wake && request.sealed then
    if session.knowsDeliveryId request.delivery.id then .duplicate else .sealed
  else if (session.refusal request.delivery).isSome then .refused
  else if session.knowsDeliveryId request.delivery.id then .duplicate
  else acceptance cfg nowMs session request.delivery

def Reception.Answers (reception : Reception) (answer : Except String DeliveryOutcome) : Prop :=
  match reception with
  | .refused => ∃ error, answer = .error error
  | .duplicate => answer = .ok .duplicate
  | .sealed => answer = .ok .sealed
  | .expired => answer = .ok .expired
  | .lands => answer = .ok .delivered
  | .queues => answer = .ok .queued

def Reception.status (reception : Reception) (held : DeliveryStatus) : DeliveryStatus :=
  match reception with
  | .refused => held
  | .duplicate => held
  | .sealed => .sealed
  | .expired => .expired
  | .lands => .delivered
  | .queues => .pending

def Reception.enters (reception : Reception) : Bool :=
  reception = .lands || reception = .queues

structure Received (reception : Reception) (session session' : ChatSession) (d : PendingDelivery)
    (answer : Except String DeliveryOutcome) : Prop extends Keeps session session' where
  answers : reception.Answers answer
  own : session'.deliveryStatus d.id = reception.status (session.deliveryStatus d.id)
  others : ∀ id ∈ session.seenIds, id ≠ d.id → (reception.enters = true →
    ∀ e ∈ session.pendingDeliveries, e.id = id → d.supersedes e = false) →
      Steady session session' id

section Receiving

variable {cfg : Settings} (hnew : ∀ used, cfg.newId used ∉ used)
  (hretention : 1 ≤ cfg.deliveryStatusRetention) {session : ChatSession} {d : PendingDelivery}
  {answer : Except String DeliveryOutcome}

include hretention in
theorem received_dropped {reception : Reception} (ht : Tidy session)
    (hclear : session.ledger.Clear d.id) (hundelivered : d.id ∉ session.deliveredDeliveryIds)
    (hseen : d.id ∈ session.seenIds) {status : DeliveryStatus} (hstatus : status ∈ droppedStatuses)
    (hanswer : reception.Answers answer)
    (hreception : reception.status (session.deliveryStatus d.id) = status) :
    Received reception session (session.recordDroppedDelivery cfg d.id status) d answer := by
  have hsound := ht.sound.recordDropped cfg status hclear.1 hundelivered hseen
  have hrecorded := recordedBefore_recordDropped cfg hretention session d.id status
  have hown : (session.recordDroppedDelivery cfg d.id status).deliveryStatus d.id = _ :=
    deliveryStatus_of_record hundelivered hclear.1
  rw [hrecorded.lastRecord] at hown
  exact ⟨⟨⟨hsound, ht.records.recordDropped cfg d.id hstatus⟩, fun _ h => h, fun _ h => h⟩, hanswer,
    hown.trans hreception.symm, fun id _ hne _ => steady_recordDropped cfg ht.records hne status⟩

theorem received_same {reception : Reception} (ht : Tidy session)
    (hanswer : reception.Answers answer)
    (hreception : reception.status (session.deliveryStatus d.id) = session.deliveryStatus d.id) :
    Received reception session session d answer :=
  ⟨ht.keeps, hanswer, hreception.symm, fun _ _ _ _ => Or.inl rfl⟩

theorem keeps_supersede (cfg : Settings) (ht : Tidy session) (d : PendingDelivery) :
    Keeps session (session.supersedePending cfg d) := by
  have hstatus : DeliveryStatus.superseded ∈ droppedStatuses := by decide
  exact keeps_dropPending cfg ht _ hstatus

theorem steady_supersede (cfg : Settings) (ht : Tidy session) {id : String}
    (hkept : ∀ e ∈ session.pendingDeliveries, e.id = id → d.supersedes e = false) :
    Steady session (session.supersedePending cfg d) id := by
  have hstatus : DeliveryStatus.superseded ∈ droppedStatuses := by decide
  exact steady_dropPending cfg ht.records _ hstatus hkept

include hnew in
theorem received_lands (ht : Tidy session) (nowMs : ℕ) (hclear : session.ledger.Clear d.id)
    (hseen : d.id ∈ session.seenIds) (hfilled : d.messages ≠ []) :
    Received .lands session ((session.supersedePending cfg d).landDelivery cfg nowMs d) d
      (.ok .delivered) := by
  have hids : (session.supersedePending cfg d).seenIds = session.seenIds :=
    seen_dropPending cfg session _ _
  have hkeeps := keeps_supersede cfg ht d
  have hlanded := hkeeps.tidy.landed hnew nowMs (clear_dropPending cfg hclear _ _) (hids ▸ hseen)
    hfilled
  refine ⟨hkeeps.trans hlanded.toKeeps, rfl, hlanded.status, fun id hid hne hkept => ?_⟩
  have hsteady := steady_supersede cfg ht (hkept rfl)
  unfold Steady at hsteady ⊢
  rwa [hlanded.others id (hids ▸ hid) hne]

theorem received_queues (ht : Tidy session) (hclear : session.ledger.Clear d.id)
    (hundelivered : d.id ∉ session.deliveredDeliveryIds) (hseen : d.id ∈ session.seenIds)
    (hfilled : d.messages ≠ []) : Received .queues session ({ session.supersedePending cfg d with
      pendingDeliveries := (session.supersedePending cfg d).pendingDeliveries ++ [d]
      : ChatSession }.interruptWaitForDelivery) d (.ok .queued) := by
  obtain ⟨records, heq, -⟩ := dropPending_eq cfg session d.supersedes .superseded
  rw [← ChatSession.supersedePending] at heq
  have hids : (session.supersedePending cfg d).seenIds = session.seenIds := by rw [heq]
  have hdelivered : (session.supersedePending cfg d).deliveredDeliveryIds =
      session.deliveredDeliveryIds := by rw [heq]
  have hkeeps := keeps_supersede cfg ht d
  have hpushed := hkeeps.tidy.sound.push (clear_dropPending cfg hclear _ _)
    (hdelivered ▸ hundelivered) (hids ▸ hseen) hfilled
    fun e he => supersedes_supersedePending cfg he
  have hsteady : ∀ id ∈ session.seenIds, id ≠ d.id → (Reception.queues.enters = true →
      ∀ e ∈ session.pendingDeliveries, e.id = id → d.supersedes e = false) →
        Steady session (session.supersedePending cfg d) id :=
    fun id _ _ hkept => steady_supersede cfg ht (hkept rfl)
  generalize session.supersedePending cfg d = kept at hids hdelivered hkeeps hpushed hsteady ⊢
  have hwait := ledger_interruptWait
    { kept with pendingDeliveries := kept.pendingDeliveries ++ [d] }
  have heffects := sideEffects_interruptWait
    { kept with pendingDeliveries := kept.pendingDeliveries ++ [d] }
  generalize ({ kept with pendingDeliveries := kept.pendingDeliveries ++ [d]
    } : ChatSession).interruptWaitForDelivery = queued at hwait heffects ⊢
  have hdropped : queued.droppedDeliveries = kept.droppedDeliveries :=
    congrArg Ledger.dropped hwait
  have hseen' : queued.seenIds = kept.seenIds := congrArg Ledger.seen hwait
  have hsound := hwait ▸ hpushed
  have hmem : d ∈ queued.pendingDeliveries := by
    have hpending : queued.pendingDeliveries = kept.pendingDeliveries ++ [d] :=
      congrArg Ledger.pending hwait
    rw [hpending]
    exact List.mem_append_right _ (List.mem_singleton_self d)
  have hqueued : Keeps kept queued := by
    refine ⟨⟨hsound, fun r hr => hkeeps.tidy.records r (hdropped ▸ hr)⟩, ?_,
      fun _ hm => heffects ▸ hm⟩
    rw [hseen']
    exact fun _ h => h
  refine ⟨hkeeps.trans hqueued, rfl, pending_of_mem hsound hmem, fun id hid hne hkept => ?_⟩
  · have hsame : queued.deliveryStatus id = kept.deliveryStatus id := by
      rw [deliveryStatus_of_ledger hwait]
      apply deliveryStatus_queue kept
      simp only [List.mem_append, List.mem_singleton, or_and_right, exists_or, exists_eq_left,
        hne.symm, or_false]
    have hkept := hsteady id hid hne hkept
    unfold Steady at hkept ⊢
    rwa [hsame]

variable {session' : ChatSession}

theorem Received.retimed {reception : Reception} {d' : PendingDelivery} (h : Retimed d d')
    (hr : Received reception session session' d' answer) :
    Received reception session session' d answer := by
  have hid := h.id
  have hsupersedes : ∀ e, d'.supersedes e = d.supersedes e := by
    intro e
    rw [PendingDelivery.supersedes, PendingDelivery.supersedes, h.id, h.key]
  obtain ⟨hkeeps, hanswers, hown, hothers⟩ := hr
  rw [hid] at hown hothers
  simp only [hsupersedes] at hothers
  exact ⟨hkeeps, hanswers, hown, hothers⟩

include hnew hretention in
theorem received_accept (ht : Tidy session) (nowMs : ℕ) (hclear : session.ledger.Clear d.id)
    (hundelivered : d.id ∉ session.deliveredDeliveryIds) (hseen : d.id ∈ session.seenIds)
    (hfilled : d.messages ≠ []) :
    Received (acceptance cfg nowMs session d) session (session.acceptDelivery cfg nowMs d).1 d
      (session.acceptDelivery cfg nowMs d).2.2 := by
  have hretimed := retimed_ensureTtl d nowMs cfg.deliveryDefaultTtlSecs
  apply Received.retimed hretimed
  unfold acceptance ChatSession.acceptDelivery
  dsimp only
  generalize d.ensureTtlSecs nowMs cfg.deliveryDefaultTtlSecs = d' at hretimed ⊢
  rw [← hretimed.id] at hclear hundelivered hseen
  rw [← hretimed.messages] at hfilled
  have hnodup : (session.pendingDeliveries.map PendingDelivery.id).Nodup := ht.sound.nodup
  have henvelope := envelope_supersedePending cfg hnodup hclear.1
  have hkept : (session.supersedePending cfg d').pendingDeliveries =
      session.pendingDeliveries.filter (!d'.supersedes ·) := by
    obtain ⟨records, heq, -⟩ := dropPending_eq cfg session d'.supersedes .superseded
    rw [ChatSession.supersedePending, heq]
    exact filter_ids hnodup d'.supersedes
  have hwait : (session.supersedePending cfg d').waitDeliveryBoundary =
      session.waitDeliveryBoundary := by
    obtain ⟨records, heq, -⟩ := dropPending_eq cfg session d'.supersedes .superseded
    rw [ChatSession.supersedePending, heq]
  rw [henvelope, hkept, hwait, ← hkept]
  have hlands := received_lands hnew ht nowMs hclear hseen hfilled
  by_cases hexpired : d'.isExpiredAt nowMs = true
  · simp only [if_pos hexpired]
    exact received_dropped hretention ht hclear hundelivered hseen (by decide) rfl rfl
  · simp only [if_neg hexpired]
    by_cases hpreempt : (decide (d'.push = .preempt) &&
        session.deliveryEnvelopeBoundaryOpen d') = true
    · have hroom : ¬ (ChatSession.maxPendingDeliveries cfg ≤
          (session.supersedePending cfg d').pendingDeliveries.length ∧
            (decide (d'.push = .preempt) && session.deliveryEnvelopeBoundaryOpen d') = false) :=
        fun h => Bool.false_ne_true (h.2.symm.trans hpreempt)
      simp only [if_pos hpreempt, if_neg hroom]
      exact hlands
    · by_cases hfull : ChatSession.maxPendingDeliveries cfg ≤
          (session.supersedePending cfg d').pendingDeliveries.length
      · have hrefused := And.intro hfull (Bool.eq_false_iff.mpr hpreempt)
        simp only [if_neg hpreempt, if_pos hfull, if_pos hrefused]
        exact received_same ht ⟨_, rfl⟩ rfl
      · simp only [if_neg hpreempt, if_neg hfull, if_neg (fun h : _ ∧ _ => hfull h.1)]
        by_cases hopen : (session.deliveryEnvelopeBoundaryOpen d' &&
            !(session.waitDeliveryBoundary &&
              !(session.supersedePending cfg d').pendingDeliveries.isEmpty)) = true
        · have hpush : d'.push ≠ .preempt := by
            intro hpush
            apply hpreempt
            rw [Bool.and_eq_true]
            exact ⟨decide_eq_true hpush, (Bool.and_eq_true _ _ ▸ hopen).1⟩
          simp only [if_pos hopen]
          rwa [ChatSession.landDelivery, ChatSession.interruptedFor, if_neg hpush] at hlands
        · simp only [if_neg hopen]
          rw [← hwait]
          exact received_queues ht hclear hundelivered hseen hfilled

theorem Tidy.see (ht : Tidy session) (id : String) :
    Tidy { session with seenIds := id :: session.seenIds } :=
  ⟨ht.sound.see id, ht.records⟩

theorem Received.of_seen {reception : Reception} {id : String}
    (hr : Received reception { session with seenIds := id :: session.seenIds } session' d answer) :
    Received reception session session' d answer :=
  ⟨⟨hr.tidy, fun _ h => hr.seen (List.mem_cons_of_mem _ h), hr.effects⟩, hr.answers, hr.own,
    fun other hother => hr.others other (List.mem_cons_of_mem _ hother)⟩

include hretention in
theorem received_sealed (ht : Tidy session) (d : PendingDelivery) :
    Received (if session.knowsDeliveryId d.id then .duplicate else .sealed) session
      (session.dropSealedDelivery cfg d.id).1 d (.ok (session.dropSealedDelivery cfg d.id).2) := by
  unfold ChatSession.dropSealedDelivery
  split_ifs with hknown
  · exact received_same ht rfl rfl
  · rw [Bool.not_eq_true] at hknown
    obtain ⟨hclear, hundelivered⟩ := clear_of_unknown hknown
    have hstatus : DeliveryStatus.sealed ∈ droppedStatuses := by decide
    apply Received.of_seen
    exact received_dropped hretention (Tidy.see ht d.id) hclear hundelivered List.mem_cons_self
      hstatus rfl rfl

include hnew hretention in
theorem received_enqueue (ht : Tidy session) (nowMs : ℕ) (d : PendingDelivery) :
    Received (if (session.refusal d).isSome then .refused
        else if session.knowsDeliveryId d.id then .duplicate
        else acceptance cfg nowMs session d) session
      (session.enqueueDelivery cfg nowMs d).1 d (session.enqueueDelivery cfg nowMs d).2.2 := by
  unfold ChatSession.enqueueDelivery
  cases hrefusal : session.refusal d with
  | some error =>
    rw [if_pos (Option.isSome_some (a := error))]
    exact received_same ht ⟨error, rfl⟩ rfl
  | none =>
    dsimp only [Option.isSome_none]
    rw [if_neg Bool.false_ne_true]
    split_ifs with hknown
    · exact received_same ht rfl rfl
    · rw [Bool.not_eq_true] at hknown
      obtain ⟨hclear, hundelivered⟩ := clear_of_unknown hknown
      have haccept := received_accept hnew hretention (Tidy.see ht d.id) nowMs hclear hundelivered
        List.mem_cons_self (filled_of_refusal hrefusal)
      exact haccept.of_seen

include hnew hretention in
theorem received (outbox : Outbox) (ht : Tidy session) (nowMs : ℕ) (request : Request) :
    Received (reception cfg nowMs session request) session
      (receive cfg outbox nowMs session request).1 request.delivery
      (receive cfg outbox nowMs session request).2 := by
  unfold reception receive
  cases hguard : request.guard with
  | some error => exact received_same ht ⟨error, rfl⟩ rfl
  | none =>
    dsimp only
    rw [Option.isSome_none, Bool.false_or]
    by_cases hclosed : session.closed = true
    · simp only [if_pos hclosed]
      exact received_same ht ⟨_, rfl⟩ rfl
    · simp only [if_neg hclosed]
      by_cases hsealed : (request.delivery.wake && request.sealed) = true
      · simp only [if_pos hsealed]
        exact received_sealed hretention ht request.delivery
      · simp only [if_neg hsealed]
        exact received_enqueue hnew hretention ht nowMs request.delivery

end Receiving

end ChatDelivery
