import RefactEngine.SessionDeliveries

/-! # What session operations do to deliveries

An id is pending, delivered or dropped, and never two of these. Landings add notes to the queue,
events that have to wait themselves, but nothing else.
-/
namespace SessionDeliveries

open AgentDeliveries (PushMode DeliveryOutcome retained)
open List
open DeliveryOutbox (DeliveryStatus)

def stampsOf (messages : List ChatMessage) : List String := messages.filterMap ChatMessage.delivery

/-- What a session records of its deliveries. -/
structure Ledger where
  pending : List PendingDelivery
  dropped : List DeliveryStatusRecord
  delivered : Finset String
  stamps : List String
  seen : List String
  runner : List PendingDelivery

def ChatSession.ledger (session : ChatSession) : Ledger where
  pending := session.pendingDeliveries
  dropped := session.droppedDeliveries
  delivered := session.deliveredDeliveryIds
  stamps := stampsOf session.messages
  seen := session.seenIds
  runner := session.runnerPendingDeliveries

/-- A delivery is pending, landed or dropped, and only one of these. -/
structure Sound (l : Ledger) : Prop where
  nodup : (l.pending.map PendingDelivery.id).Nodup
  undelivered : ∀ d ∈ l.pending, d.id ∉ l.delivered
  undropped : ∀ d ∈ l.pending, ∀ r ∈ l.dropped, r.id ≠ d.id
  apart : ∀ r ∈ l.dropped, r.id ∉ l.delivered
  stamped : ∀ id, id ∈ l.delivered ↔ id ∈ l.stamps
  filled : ∀ d ∈ l.pending, d.messages ≠ []
  current : ∀ d ∈ l.pending, ∀ e ∈ l.pending, d.supersedes e = false
  seenPending : ∀ d ∈ l.pending, d.id ∈ l.seen
  seenDelivered : ∀ id ∈ l.delivered, id ∈ l.seen
  seenDropped : ∀ r ∈ l.dropped, r.id ∈ l.seen
  noRunner : l.runner = []

def Ledger.Clear (l : Ledger) (id : String) : Prop :=
  (∀ d ∈ l.pending, d.id ≠ id) ∧ ∀ r ∈ l.dropped, r.id ≠ id

theorem clear_of_unknown {session : ChatSession} {id : String}
    (hid : session.knowsDeliveryId id = false) :
    session.ledger.Clear id ∧ id ∉ session.deliveredDeliveryIds := by
  simp only [ChatSession.knowsDeliveryId, Bool.or_eq_false_iff, decide_eq_false_iff_not,
    any_eq_false, decide_eq_true_eq] at hid
  exact ⟨⟨hid.1.2, hid.1.1.2⟩, hid.1.1.1⟩

structure IsNote (d : PendingDelivery) : Prop where
  kinds : d.kinds = []
  key : d.supersedeKey = none
  filled : d.messages ≠ []
  light : d.push = .append ∧ d.threadPatch = none

/-- Steps that add notes of the engine to the queue and nothing else. -/
structure Noted (l l' : Ledger) : Prop where
  queued : ∃ notes, l'.pending = l.pending ++ notes ∧ (∀ d ∈ notes, IsNote d) ∧
    (notes.map PendingDelivery.id).Nodup ∧ ∀ d ∈ notes, d.id ∉ l.seen ∧ d.id ∈ l'.seen
  seen : ∀ id ∈ l.seen, id ∈ l'.seen
  stamps : l'.stamps = l.stamps
  delivered : l'.delivered = l.delivered
  dropped : l'.dropped = l.dropped
  runner : l'.runner = l.runner

theorem Noted.refl (l : Ledger) : Noted l l where
  queued := ⟨[], by simp⟩
  seen _ h := h
  stamps := rfl
  delivered := rfl
  dropped := rfl
  runner := rfl

theorem Noted.trans {l₁ l₂ l₃ : Ledger} (h : Noted l₁ l₂) (h' : Noted l₂ l₃) : Noted l₁ l₃ where
  queued := by
    obtain ⟨notes, hpend, hnotes, hnodup, hids⟩ := h.queued
    obtain ⟨notes', hpend', hnotes', hnodup', hids'⟩ := h'.queued
    refine ⟨notes ++ notes', ?_, ?_, ?_, ?_⟩
    · rw [hpend', hpend, append_assoc]
    · intro d hd
      exact (mem_append.mp hd).elim (hnotes d) (hnotes' d)
    · rw [map_append, nodup_append]
      refine ⟨hnodup, hnodup', ?_⟩
      rintro _ hid _ hid' rfl
      obtain ⟨d, hd, rfl⟩ := mem_map.mp hid
      obtain ⟨e, he, heq⟩ := mem_map.mp hid'
      apply (hids' e he).1
      rw [heq]
      exact (hids d hd).2
    · intro d hd
      rcases mem_append.mp hd with hd | hd
      · exact ⟨(hids d hd).1, h'.seen _ (hids d hd).2⟩
      · exact ⟨fun hseen => (hids' d hd).1 (h.seen _ hseen), (hids' d hd).2⟩
  seen _ hid := h'.seen _ (h.seen _ hid)
  stamps := h'.stamps.trans h.stamps
  delivered := h'.delivered.trans h.delivered
  dropped := h'.dropped.trans h.dropped
  runner := h'.runner.trans h.runner

theorem Sound.noted {l l' : Ledger} (h : Sound l) (hn : Noted l l') : Sound l' := by
  obtain ⟨notes, hpend, hnotes, hnodup, hids⟩ := hn.queued
  have hcases : ∀ d ∈ l'.pending, d ∈ l.pending ∨ d ∈ notes := fun d hd =>
    mem_append.mp (hpend ▸ hd)
  constructor
  · rw [hpend, map_append, nodup_append]
    refine ⟨h.nodup, hnodup, ?_⟩
    rintro _ hid _ hid' rfl
    obtain ⟨d, hd, rfl⟩ := mem_map.mp hid
    obtain ⟨e, he, heq⟩ := mem_map.mp hid'
    apply (hids e he).1
    rw [heq]
    exact h.seenPending d hd
  · intro d hd
    rw [hn.delivered]
    rcases hcases d hd with hd | hd
    · exact h.undelivered d hd
    · exact fun hin => (hids d hd).1 (h.seenDelivered _ hin)
  · intro d hd r hr
    rw [hn.dropped] at hr
    rcases hcases d hd with hd | hd
    · exact h.undropped d hd r hr
    · intro heq
      apply (hids d hd).1
      rw [← heq]
      exact h.seenDropped r hr
  · rw [hn.dropped, hn.delivered]
    exact h.apart
  · rw [hn.delivered, hn.stamps]
    exact h.stamped
  · intro d hd
    exact (hcases d hd).elim (h.filled d) fun hd => (hnotes d hd).filled
  · intro d hd e he
    rcases hcases d hd with hd | hd
    · rcases hcases e he with he | he
      · exact h.current d hd e he
      · cases hkey : d.supersedeKey with
        | none => simp [PendingDelivery.supersedes, hkey]
        | some key => simp [PendingDelivery.supersedes, hkey, (hnotes e he).key]
    · simp [PendingDelivery.supersedes, (hnotes d hd).key]
  · intro d hd
    exact (hcases d hd).elim (fun hd => hn.seen _ (h.seenPending d hd)) fun hd => (hids d hd).2
  · intro id hid
    rw [hn.delivered] at hid
    exact hn.seen _ (h.seenDelivered id hid)
  · intro r hr
    rw [hn.dropped] at hr
    exact hn.seen _ (h.seenDropped r hr)
  · exact hn.runner.trans h.noRunner

section Landing

variable {cfg : Settings} (hnew : ∀ used, cfg.newId used ∉ used) (messages : List ChatMessage)

theorem stampsOf_append (messages' : List ChatMessage) :
    stampsOf (messages ++ messages') = stampsOf messages ++ stampsOf messages' :=
  filterMap_append

theorem stampsOf_modify (index : ℕ) (f : ChatMessage → ChatMessage)
    (hf : ∀ message, (f message).delivery = message.delivery) :
    stampsOf (messages.modify index f) = stampsOf messages := by
  induction messages generalizing index with
  | nil => cases index <;> rfl
  | cons message messages ih =>
    cases index with
    | zero => simp only [modify_zero_cons, stampsOf, filterMap_cons, hf]
    | succ index =>
      simp only [stampsOf] at ih
      simp only [modify_succ_cons, stampsOf, filterMap_cons, ih]

theorem stampsOf_clearPending :
    stampsOf (clearPendingToolCallsForInterruption messages) = stampsOf messages := by
  unfold clearPendingToolCallsForInterruption
  split
  · rfl
  · apply stampsOf_modify
    intro message
    dsimp only
    split <;> rfl

theorem stampsOf_stampMessages (d : PendingDelivery) :
    stampsOf d.stampMessages = List.replicate d.messages.length d.id := by
  rw [stampsOf, PendingDelivery.stampMessages, filterMap_map]
  induction d.messages with
  | nil => rfl
  | cons message messages ih =>
    rw [filterMap_cons, ih, length_cons, replicate_succ]
    rfl

include hnew in
theorem noted_addMessage (nowMs : ℕ) (session : ChatSession) {message : ChatMessage}
    (hstamp : message.delivery = none) (hkind : controlKind message = none) :
    Noted session.ledger (session.addMessage cfg nowMs message).ledger := by
  unfold ChatSession.addMessage
  split_ifs
  · refine ⟨⟨_, rfl, ?_, ?_, ?_⟩, ?_, rfl, rfl, rfl, rfl⟩
    · intro d hd
      rw [mem_singleton.mp hd]
      exact ⟨by simp [PendingDelivery.kinds, hkind], rfl, nofun, rfl, rfl⟩
    · exact nodup_singleton _
    · intro d hd
      rw [mem_singleton.mp hd]
      exact ⟨hnew _, mem_cons_self⟩
    · exact fun id hid => mem_cons_of_mem _ hid
  · refine ⟨⟨[], by simp [ChatSession.ledger, ChatSession.addMessageAtBoundary]⟩, fun _ h => h, ?_,
      rfl, rfl, rfl⟩
    simp [ChatSession.ledger, ChatSession.addMessageAtBoundary, stampsOf, hstamp]

include hnew in
theorem noted_preemptForDelivery (nowMs : ℕ) (session : ChatSession) :
    Noted session.ledger (session.preemptForDelivery cfg nowMs).ledger := by
  unfold ChatSession.preemptForDelivery
  split_ifs
  · exact .refl _
  · have hcleared : Noted session.ledger { session with
        draft := false
        messages := clearPendingToolCallsForInterruption session.messages : ChatSession }.ledger :=
      ⟨⟨[], by simp [ChatSession.ledger]⟩, fun _ h => h, stampsOf_clearPending _, rfl, rfl, rfl⟩
    exact hcleared.trans (noted_addMessage hnew nowMs _ rfl rfl)

def ChatSession.stamped (session : ChatSession) (d : PendingDelivery) : ChatSession :=
  { session with
    messages := session.messages ++ d.stampMessages
    deliveredDeliveryIds := insert d.id session.deliveredDeliveryIds }

include hnew in
theorem appendDelivery_eq (nowMs : ℕ) (session : ChatSession) (d : PendingDelivery) :
    ∃ noted : ChatSession, Noted session.ledger noted.ledger ∧
      session.appendDelivery cfg nowMs d = noted.stamped d := by
  refine ⟨_, ?_, rfl⟩
  split
  · exact .refl _
  · dsimp only
    split_ifs
    · exact noted_addMessage hnew nowMs (session.applySetparamsPatch cfg _) rfl rfl
    · exact .refl _

include hnew in
theorem landDelivery_eq (nowMs : ℕ) (session : ChatSession) (d : PendingDelivery) :
    ∃ noted : ChatSession, Noted session.ledger noted.ledger ∧
      session.landDelivery cfg nowMs d = noted.stamped d := by
  unfold ChatSession.landDelivery ChatSession.interruptedFor
  split_ifs
  · obtain ⟨noted, hnoted, heq⟩ := appendDelivery_eq hnew nowMs
      (session.preemptForDelivery cfg nowMs) d
    exact ⟨noted, (noted_preemptForDelivery hnew nowMs session).trans hnoted, heq⟩
  · exact appendDelivery_eq hnew nowMs session d

theorem Sound.stamp {session : ChatSession} (h : Sound session.ledger) {d : PendingDelivery}
    (hclear : session.ledger.Clear d.id) (hseen : d.id ∈ session.seenIds)
    (hfilled : d.messages ≠ []) : Sound (session.stamped d).ledger where
  nodup := h.nodup
  undelivered e he := by
    show e.id ∉ insert d.id session.deliveredDeliveryIds
    rw [Finset.mem_insert, not_or]
    exact ⟨hclear.1 e he, h.undelivered e he⟩
  undropped := h.undropped
  apart r hr := by
    show r.id ∉ insert d.id session.deliveredDeliveryIds
    rw [Finset.mem_insert, not_or]
    exact ⟨hclear.2 r hr, h.apart r hr⟩
  stamped id := by
    show id ∈ insert d.id session.deliveredDeliveryIds ↔
      id ∈ stampsOf (session.messages ++ d.stampMessages)
    have hlen : d.messages.length ≠ 0 := by
      rw [ne_eq, length_eq_zero_iff]
      exact hfilled
    rw [Finset.mem_insert, stampsOf_append, mem_append, stampsOf_stampMessages,
      mem_replicate, or_comm]
    have hstamped : id ∈ session.deliveredDeliveryIds ↔ id ∈ stampsOf session.messages :=
      h.stamped id
    rw [hstamped]
    exact or_congr_right ⟨fun heq => ⟨hlen, heq⟩, And.right⟩
  filled := h.filled
  current := h.current
  seenPending := h.seenPending
  seenDelivered id hid := by
    have hid : id ∈ insert d.id session.deliveredDeliveryIds := hid
    rcases Finset.mem_insert.mp hid with rfl | hid
    · exact hseen
    · exact h.seenDelivered id hid
  seenDropped := h.seenDropped
  noRunner := h.noRunner

theorem Ledger.Clear.noted {l l' : Ledger} {id : String} (h : l.Clear id) (hseen : id ∈ l.seen)
    (hn : Noted l l') : l'.Clear id := by
  obtain ⟨notes, hpend, -, -, hids⟩ := hn.queued
  constructor
  · intro d hd
    rcases mem_append.mp (hpend ▸ hd) with hd | hd
    · exact h.1 d hd
    · rintro rfl
      exact (hids d hd).1 hseen
  · rw [hn.dropped]
    exact h.2

end Landing

section Queue

variable (cfg : Settings)

variable {session : ChatSession} {id : String}

theorem mem_recordDropped {status : DeliveryStatus} {r : DeliveryStatusRecord}
    (h : r ∈ (session.recordDroppedDelivery cfg id status).droppedDeliveries) :
    r ∈ session.droppedDeliveries ∨ r = ⟨id, status⟩ := by
  rcases mem_append.mp (mem_of_mem_drop h) with h | h
  · exact Or.inl (mem_filter.mp h).1
  · exact Or.inr (mem_singleton.mp h)

theorem Sound.recordDropped (h : Sound session.ledger) (status : DeliveryStatus)
    (hpend : ∀ d ∈ session.pendingDeliveries, d.id ≠ id)
    (hdeliv : id ∉ session.deliveredDeliveryIds) (hseen : id ∈ session.seenIds) :
    Sound (session.recordDroppedDelivery cfg id status).ledger where
  nodup := h.nodup
  undelivered := h.undelivered
  undropped d hd r hr := by
    rcases mem_recordDropped cfg hr with hr | rfl
    · exact h.undropped d hd r hr
    · exact (hpend d hd).symm
  apart r hr := by
    rcases mem_recordDropped cfg hr with hr | rfl
    · exact h.apart r hr
    · exact hdeliv
  stamped := h.stamped
  filled := h.filled
  current := h.current
  seenPending := h.seenPending
  seenDelivered := h.seenDelivered
  seenDropped r hr := by
    rcases mem_recordDropped cfg hr with hr | rfl
    · exact h.seenDropped r hr
    · exact hseen
  noRunner := h.noRunner

variable {pending : List PendingDelivery}

theorem Sound.sublist (h : Sound session.ledger) (hsub : pending.Sublist session.pendingDeliveries)
      :
    Sound { session with pendingDeliveries := pending : ChatSession }.ledger where
  nodup := h.nodup.sublist (hsub.map _)
  undelivered d hd := h.undelivered d (hsub.subset hd)
  undropped d hd := h.undropped d (hsub.subset hd)
  apart := h.apart
  stamped := h.stamped
  filled d hd := h.filled d (hsub.subset hd)
  current d hd e he := h.current d (hsub.subset hd) e (hsub.subset he)
  seenPending d hd := h.seenPending d (hsub.subset hd)
  seenDelivered := h.seenDelivered
  seenDropped := h.seenDropped
  noRunner := h.noRunner

structure Taken (session : ChatSession) (earlier : List PendingDelivery) (d : PendingDelivery)
    (later : List PendingDelivery) : Prop where
  mem : d ∈ session.pendingDeliveries
  sublist : (earlier ++ later).Sublist session.pendingDeliveries
  sound : Sound { session with pendingDeliveries := earlier ++ later : ChatSession }.ledger
  clear : Ledger.Clear { session with
    pendingDeliveries := earlier ++ later : ChatSession }.ledger d.id
  places : ∀ id, id ≠ d.id →
    ((∃ e ∈ earlier ++ later, e.id = id) ↔ ∃ e ∈ session.pendingDeliveries, e.id = id)

variable {d : PendingDelivery} {earlier later : List PendingDelivery}

theorem Sound.taken (h : Sound session.ledger)
    (hpend : session.pendingDeliveries = earlier ++ d :: later) :
    Taken session earlier d later := by
  have hmem : d ∈ session.pendingDeliveries := by
    rw [hpend]
    exact mem_append_right _ mem_cons_self
  have hsub : (earlier ++ later).Sublist session.pendingDeliveries := by
    rw [hpend]
    exact (List.Sublist.refl _).append (sublist_cons_self _ _)
  have hnodup : ((earlier ++ d :: later).map PendingDelivery.id).Nodup := hpend ▸ h.nodup
  rw [map_append, map_cons, nodup_middle, nodup_cons,
    ← map_append] at hnodup
  have hne : ∀ e ∈ earlier ++ later, e.id ≠ d.id := fun e he heq =>
    hnodup.1 (heq ▸ mem_map_of_mem he)
  refine ⟨hmem, hsub, h.sublist hsub, ⟨hne, h.undropped d hmem⟩, fun id hid => ⟨?_, ?_⟩⟩
  · rintro ⟨e, he, heq⟩
    exact ⟨e, hsub.subset he, heq⟩
  · rintro ⟨e, he, rfl⟩
    have hsplit : e ∈ earlier ∨ e = d ∨ e ∈ later := by
      rwa [hpend, mem_append, mem_cons] at he
    rcases hsplit with he | rfl | he
    · exact ⟨e, mem_append_left _ he, rfl⟩
    · exact absurd rfl hid
    · exact ⟨e, mem_append_right _ he, rfl⟩

theorem Sound.exchange (h : Sound session.ledger)
    (hids : pending.map PendingDelivery.id = session.pendingDeliveries.map PendingDelivery.id)
    (hsame : ∀ d ∈ pending, ∃ e ∈ session.pendingDeliveries, d.id = e.id ∧
      d.messages = e.messages ∧ d.supersedeKey = e.supersedeKey) :
    Sound { session with pendingDeliveries := pending : ChatSession }.ledger := by
  constructor
  · show (pending.map PendingDelivery.id).Nodup
    rw [hids]
    exact h.nodup
  · intro d hd
    obtain ⟨e, he, hid, -, -⟩ := hsame d hd
    rw [hid]
    exact h.undelivered e he
  · intro d hd
    obtain ⟨e, he, hid, -, -⟩ := hsame d hd
    rw [hid]
    exact h.undropped e he
  · exact h.apart
  · exact h.stamped
  · intro d hd
    obtain ⟨e, he, -, hmsgs, -⟩ := hsame d hd
    rw [hmsgs]
    exact h.filled e he
  · intro d hd d' hd'
    obtain ⟨e, he, hid, -, hkey⟩ := hsame d hd
    obtain ⟨e', he', hid', -, hkey'⟩ := hsame d' hd'
    have hcur := h.current e he e' he'
    rw [PendingDelivery.supersedes] at hcur ⊢
    rw [hid, hid', hkey, hkey']
    exact hcur
  · intro d hd
    obtain ⟨e, he, hid, -, -⟩ := hsame d hd
    rw [hid]
    exact h.seenPending e he
  · exact h.seenDelivered
  · exact h.seenDropped
  · exact h.noRunner

theorem Sound.reprioritise (h : Sound session.ledger)
    (hpend : session.pendingDeliveries = earlier ++ d :: later) (push : PushMode) :
    Sound { session with
      pendingDeliveries := earlier ++ { d with push := push } :: later : ChatSession }.ledger := by
  apply h.exchange
  · rw [hpend, map_append, map_cons, map_append, map_cons]
  · intro e he
    rw [hpend]
    rcases mem_append.mp he with he | he
    · exact ⟨e, mem_append_left _ he, rfl, rfl, rfl⟩
    · rcases mem_cons.mp he with rfl | he
      · exact ⟨d, mem_append_right _ mem_cons_self, rfl, rfl, rfl⟩
      · exact ⟨e, mem_append_right _ (mem_cons_of_mem _ he), rfl, rfl, rfl⟩

theorem recordAll_eq (session : ChatSession) (ids : List String) (status : DeliveryStatus) :
    ∃ records, session.recordDroppedDeliveries cfg ids status =
        { session with droppedDeliveries := records } ∧
      ∀ r ∈ records, r ∈ session.droppedDeliveries ∨ r.id ∈ ids := by
  induction ids generalizing session with
  | nil => exact ⟨_, rfl, fun _ hr => Or.inl hr⟩
  | cons id ids ih =>
    obtain ⟨records, heq, hrecs⟩ := ih (session.recordDroppedDelivery cfg id status)
    refine ⟨records, heq, fun r hr => ?_⟩
    rcases hrecs r hr with hr | hr
    · rcases mem_recordDropped cfg hr with hr | rfl
      · exact Or.inl hr
      · exact Or.inr mem_cons_self
    · exact Or.inr (mem_cons_of_mem _ hr)

theorem Sound.recordAll (h : Sound session.ledger) {ids : List String} (status : DeliveryStatus)
    (hpend : ∀ d ∈ session.pendingDeliveries, d.id ∉ ids)
    (hdeliv : ∀ id ∈ ids, id ∉ session.deliveredDeliveryIds)
    (hseen : ∀ id ∈ ids, id ∈ session.seenIds) :
    Sound (session.recordDroppedDeliveries cfg ids status).ledger := by
  induction ids generalizing session with
  | nil => exact h
  | cons id ids ih =>
    apply ih (h.recordDropped cfg status _ (hdeliv id mem_cons_self)
      (hseen id mem_cons_self))
    · exact fun d hd hin => hpend d hd (mem_cons_of_mem _ hin)
    · exact fun id hid => hdeliv id (mem_cons_of_mem _ hid)
    · exact fun id hid => hseen id (mem_cons_of_mem _ hid)
    · exact fun d hd heq => hpend d hd (heq ▸ mem_cons_self)

theorem dropPending_eq (session : ChatSession) (dropped : PendingDelivery → Bool)
    (status : DeliveryStatus) :
    ∃ records, session.dropPending cfg dropped status = { session with
        pendingDeliveries := session.pendingDeliveries.filter fun pending =>
          pending.id ∉ (session.pendingDeliveries.filter dropped).map PendingDelivery.id
        droppedDeliveries := records } ∧
      ∀ r ∈ records, r ∈ session.droppedDeliveries ∨
        r.id ∈ (session.pendingDeliveries.filter dropped).map PendingDelivery.id := by
  obtain ⟨records, heq, hrecs⟩ := recordAll_eq cfg { session with
    pendingDeliveries := session.pendingDeliveries.filter fun pending =>
      pending.id ∉ (session.pendingDeliveries.filter dropped).map PendingDelivery.id }
    ((session.pendingDeliveries.filter dropped).map PendingDelivery.id) status
  exact ⟨records, heq, hrecs⟩

theorem Sound.dropPending (h : Sound session.ledger) (dropped : PendingDelivery → Bool)
    (status : DeliveryStatus) : Sound (session.dropPending cfg dropped status).ledger := by
  have hids : ∀ id ∈ (session.pendingDeliveries.filter dropped).map PendingDelivery.id,
      ∃ d ∈ session.pendingDeliveries, d.id = id := by
    intro id hid
    obtain ⟨d, hd, rfl⟩ := mem_map.mp hid
    exact ⟨d, (mem_filter.mp hd).1, rfl⟩
  apply (h.sublist filter_sublist).recordAll
  · intro d hd
    simpa using (mem_filter.mp hd).2
  · intro id hid
    obtain ⟨d, hd, rfl⟩ := hids id hid
    exact h.undelivered d hd
  · intro id hid
    obtain ⟨d, hd, rfl⟩ := hids id hid
    exact h.seenPending d hd

theorem clear_dropPending (h : session.ledger.Clear id) (dropped : PendingDelivery → Bool)
    (status : DeliveryStatus) : (session.dropPending cfg dropped status).ledger.Clear id := by
  obtain ⟨records, heq, hrecs⟩ := dropPending_eq cfg session dropped status
  rw [heq]
  constructor
  · exact fun d hd => h.1 d (mem_filter.mp hd).1
  · intro r hr
    rcases hrecs r hr with hr | hr
    · exact h.2 r hr
    · obtain ⟨d, hd, heq⟩ := mem_map.mp hr
      rw [← heq]
      exact h.1 d (mem_filter.mp hd).1

theorem Sound.push (h : Sound session.ledger) (hclear : session.ledger.Clear d.id)
    (hdeliv : d.id ∉ session.deliveredDeliveryIds) (hseen : d.id ∈ session.seenIds)
    (hfilled : d.messages ≠ []) (hcur : ∀ e ∈ session.pendingDeliveries, d.supersedes e =
      false) :
    Sound { session with
      pendingDeliveries := session.pendingDeliveries ++ [d] : ChatSession }.ledger := by
  have hcases : ∀ e ∈ session.pendingDeliveries ++ [d], e ∈ session.pendingDeliveries ∨ e = d :=
    fun e he => (mem_append.mp he).imp_right mem_singleton.mp
  have hsymm : ∀ e : PendingDelivery, d.supersedes e = false → e.supersedes d = false := by
    intro e he
    simp only [PendingDelivery.supersedes, Bool.and_eq_false_iff, decide_eq_false_iff_not, ne_eq,
      not_not, Option.isSome_eq_false_iff, Option.isNone_iff_eq_none] at he ⊢
    rcases he with (he | he) | he
    · exact Or.inl (Or.inl he.symm)
    · rcases hkey : e.supersedeKey with _ | key
      · exact Or.inl (Or.inr rfl)
      · right
        rw [he]
        exact nofun
    · exact Or.inr fun heq => he heq.symm
  constructor
  · show ((session.pendingDeliveries ++ [d]).map PendingDelivery.id).Nodup
    rw [map_append, nodup_append]
    refine ⟨h.nodup, nodup_singleton _, ?_⟩
    rintro _ hid _ hid' rfl
    obtain ⟨e, he, rfl⟩ := mem_map.mp hid
    exact hclear.1 e he (mem_singleton.mp hid')
  · intro e he
    rcases hcases e he with he | rfl
    · exact h.undelivered e he
    · exact hdeliv
  · intro e he
    rcases hcases e he with he | rfl
    · exact h.undropped e he
    · exact hclear.2
  · exact h.apart
  · exact h.stamped
  · intro e he
    rcases hcases e he with he | rfl
    · exact h.filled e he
    · exact hfilled
  · intro e he e' he'
    rcases hcases e he with hold | rfl
    · rcases hcases e' he' with hold' | rfl
      · exact h.current e hold e' hold'
      · exact hsymm e (hcur e hold)
    · rcases hcases e' he' with hold' | rfl
      · exact hcur e' hold'
      · simp [PendingDelivery.supersedes]
  · intro e he
    rcases hcases e he with he | rfl
    · exact h.seenPending e he
    · exact hseen
  · exact h.seenDelivered
  · exact h.seenDropped
  · exact h.noRunner

theorem Sound.see (h : Sound session.ledger) (id : String) :
    Sound { session with seenIds := id :: session.seenIds : ChatSession }.ledger where
  nodup := h.nodup
  undelivered := h.undelivered
  undropped := h.undropped
  apart := h.apart
  stamped := h.stamped
  filled := h.filled
  current := h.current
  seenPending d hd := mem_cons_of_mem _ (h.seenPending d hd)
  seenDelivered id hid := mem_cons_of_mem _ (h.seenDelivered id hid)
  seenDropped r hr := mem_cons_of_mem _ (h.seenDropped r hr)
  noRunner := h.noRunner

theorem ledger_interruptWait (session : ChatSession) :
    session.interruptWaitForDelivery.ledger = session.ledger := by
  unfold ChatSession.interruptWaitForDelivery
  split_ifs <;> rfl

theorem supersedes_supersedePending {e : PendingDelivery}
    (he : e ∈ (session.supersedePending cfg d).pendingDeliveries) : d.supersedes e = false := by
  obtain ⟨records, heq, -⟩ := dropPending_eq cfg session d.supersedes .superseded
  rw [ChatSession.supersedePending, heq] at he
  obtain ⟨hmem, hkept⟩ := mem_filter.mp he
  rw [← Bool.not_eq_true]
  intro hsupersedes
  rw [decide_eq_true_eq] at hkept
  exact hkept (mem_map.mpr ⟨e, mem_filter.mpr ⟨hmem, hsupersedes⟩, rfl⟩)

end Queue

/-- The same delivery but for its times. -/
structure Retimed (d d' : PendingDelivery) : Prop where
  id : d'.id = d.id
  messages : d'.messages = d.messages
  key : d'.supersedeKey = d.supersedeKey
  push : d'.push = d.push

theorem Retimed.kinds {d d' : PendingDelivery} (h : Retimed d d') : d'.kinds = d.kinds := by
  rw [PendingDelivery.kinds, PendingDelivery.kinds, h.messages]

theorem retimed_ensureTtl (d : PendingDelivery) (nowMs ttlSecs : ℕ) :
    Retimed d (d.ensureTtlSecs nowMs ttlSecs) := by
  unfold PendingDelivery.ensureTtlSecs
  dsimp only
  split_ifs <;> constructor <;> rfl

theorem retimed_ensureRestoredTtl (d : PendingDelivery) (nowMs ttlSecs : ℕ) :
    Retimed d (d.ensureRestoredTtlSecs nowMs ttlSecs) := by
  unfold PendingDelivery.ensureRestoredTtlSecs
  dsimp only
  split_ifs
  · obtain ⟨hid, hmsgs, hkey, hpush⟩ := retimed_ensureTtl
      { d with expiresAtMs := some (AgentDeliveries.deadlineMs nowMs ttlSecs) } nowMs ttlSecs
    exact ⟨hid, hmsgs, hkey, hpush⟩
  · exact retimed_ensureTtl d nowMs ttlSecs

section Enqueue

variable (cfg : Settings) (nowMs : ℕ)

inductive AcceptCase (session : ChatSession) (d : PendingDelivery) :
    ChatSession × List Landing × Except String DeliveryOutcome → Prop where
  | expired : d.isExpiredAt nowMs = true →
      AcceptCase session d (session.recordDroppedDelivery cfg d.id .expired, [], .ok .expired)
  | full (error : String) : AcceptCase session d (session, [], .error error)
  | landed : (session.supersedePending cfg d).deliveryEnvelopeBoundaryOpen d = true →
      AcceptCase session d ((session.supersedePending cfg d).landDelivery cfg nowMs d,
        [(session.supersedePending cfg d).landing cfg nowMs d], .ok .delivered)
  | queued : AcceptCase session d ({ session.supersedePending cfg d with
      pendingDeliveries := (session.supersedePending cfg d).pendingDeliveries ++ [d]
      : ChatSession }.interruptWaitForDelivery, [], .ok .queued)

inductive EnqueueCase (session : ChatSession) (d : PendingDelivery) :
    ChatSession × List Landing × Except String DeliveryOutcome → Prop where
  | refused (error : String) : EnqueueCase session d (session, [], .error error)
  | duplicate : session.knowsDeliveryId d.id = true →
      EnqueueCase session d (session, [], .ok .duplicate)
  | accepted {d' : PendingDelivery}
      {r : ChatSession × List Landing × Except String DeliveryOutcome} :
      session.knowsDeliveryId d.id = false → d.messages ≠ [] → Retimed d d' →
      AcceptCase cfg nowMs { session with seenIds := d.id :: session.seenIds } d' r →
      EnqueueCase session d r

theorem filter_ids {pending : List PendingDelivery}
    (hnodup : (pending.map PendingDelivery.id).Nodup) (dropped : PendingDelivery → Bool) :
    (pending.filter fun e => e.id ∉ (pending.filter dropped).map PendingDelivery.id) =
      pending.filter fun e => !dropped e := by
  apply filter_congr
  intro e he
  rw [Bool.eq_iff_iff, decide_eq_true_eq, Bool.not_eq_true', ← Bool.not_eq_true]
  constructor
  · exact fun hkept hdrop => hkept (mem_map_of_mem (mem_filter.mpr ⟨he, hdrop⟩))
  · intro hkept hin
    obtain ⟨e', he', hid⟩ := mem_map.mp hin
    obtain ⟨hmem, hdrop⟩ := mem_filter.mp he'
    rw [inj_on_of_nodup_map hnodup hmem he hid] at hdrop
    exact hkept hdrop

variable {session : ChatSession} {d : PendingDelivery}

theorem controlsBefore_supersedePending
    (hnodup : (session.pendingDeliveries.map PendingDelivery.id).Nodup)
    (hfresh : ∀ e ∈ session.pendingDeliveries, e.id ≠ d.id) :
    (session.supersedePending cfg d).controlsBefore d = session.controlsBefore d := by
  obtain ⟨records, heq, -⟩ := dropPending_eq cfg session d.supersedes .superseded
  have hids : ∀ e ∈ session.pendingDeliveries, decide (e.id ≠ d.id) = true := fun e he =>
    decide_eq_true (hfresh e he)
  rw [filter_ids hnodup] at heq
  rw [ChatSession.supersedePending, heq]
  unfold ChatSession.controlsBefore
  dsimp only
  rw [takeWhile_eq_self_iff.mpr hids, takeWhile_eq_self_iff.mpr fun e he =>
    hids e (mem_filter.mp he).1, filter_filter]
  simp only [Bool.and_self]

theorem envelope_supersedePending
    (hnodup : (session.pendingDeliveries.map PendingDelivery.id).Nodup)
    (hfresh : ∀ e ∈ session.pendingDeliveries, e.id ≠ d.id) :
    (session.supersedePending cfg d).deliveryEnvelopeBoundaryOpen d =
      session.deliveryEnvelopeBoundaryOpen d := by
  obtain ⟨records, heq, -⟩ := dropPending_eq cfg session d.supersedes .superseded
  have hcontrols := controlsBefore_supersedePending cfg hnodup hfresh
  unfold ChatSession.deliveryEnvelopeBoundaryOpen
  rw [hcontrols, ChatSession.supersedePending, heq]
  rfl

theorem acceptDelivery_case (session : ChatSession)
    (hnodup : (session.pendingDeliveries.map PendingDelivery.id).Nodup)
    (hfresh : ∀ e ∈ session.pendingDeliveries, e.id ≠ d.id) :
    AcceptCase cfg nowMs session (d.ensureTtlSecs nowMs cfg.deliveryDefaultTtlSecs)
      (session.acceptDelivery cfg nowMs d) := by
  have hsame := retimed_ensureTtl d nowMs cfg.deliveryDefaultTtlSecs
  unfold ChatSession.acceptDelivery
  dsimp only
  generalize d.ensureTtlSecs nowMs cfg.deliveryDefaultTtlSecs = d' at hsame ⊢
  rw [← hsame.id] at hfresh
  have henvelope := envelope_supersedePending cfg hnodup hfresh
  split_ifs with hexp hfull hpreempt hopen
  · exact .expired hexp
  · exact .full _
  · rw [Bool.and_eq_true, ← henvelope] at hpreempt
    exact .landed hpreempt.2
  · rw [Bool.and_eq_true] at hopen
    -- what interrupts has been looked at already
    have hpush : d'.push ≠ .preempt := by
      intro hpush
      apply hpreempt
      rw [Bool.and_eq_true, ← henvelope]
      exact ⟨decide_eq_true hpush, hopen.1⟩
    have hland : AcceptCase cfg nowMs session d' _ := .landed hopen.1
    rw [ChatSession.landDelivery, ChatSession.landing, ChatSession.interruptedFor,
      if_neg hpush] at hland
    exact hland
  · exact .queued

theorem filled_of_refusal (h : session.refusal d = none) : d.messages ≠ [] := by
  intro hempty
  rw [ChatSession.refusal, hempty] at h
  split_ifs at h
  simp_all

theorem enqueueDelivery_case (hnodup : (session.pendingDeliveries.map PendingDelivery.id).Nodup)
    (d : PendingDelivery) :
    EnqueueCase cfg nowMs session d (session.enqueueDelivery cfg nowMs d) := by
  unfold ChatSession.enqueueDelivery
  split
  · exact .refused _
  · rename_i hrefusal
    split_ifs with hknown
    · exact .duplicate hknown
    · rw [Bool.not_eq_true] at hknown
      exact .accepted hknown (filled_of_refusal hrefusal)
        (retimed_ensureTtl d nowMs cfg.deliveryDefaultTtlSecs)
        (acceptDelivery_case cfg nowMs { session with seenIds := d.id :: session.seenIds } hnodup
          (clear_of_unknown hknown).1.1)

end Enqueue

section Drain

theorem splitFirst_some {α : Type*} {p : α → Bool} {l : List α} {split : List α × α × List α}
    (h : ChatSession.splitFirst p l = some split) :
    l = split.1 ++ split.2.1 :: split.2.2 ∧ p split.2.1 = true ∧ ∀ y ∈ split.1, p y = false := by
  induction l generalizing split with
  | nil => cases h
  | cons x xs ih =>
    rw [ChatSession.splitFirst] at h
    split_ifs at h with hx
    · cases h
      exact ⟨rfl, hx, nofun⟩
    · obtain ⟨rest, hrest, rfl⟩ := Option.map_eq_some_iff.mp h
      obtain ⟨hl, hp, hearly⟩ := ih hrest
      refine ⟨congrArg (x :: ·) hl, hp, fun y hy => ?_⟩
      rcases mem_cons.mp hy with rfl | hy
      · exact Bool.not_eq_true _ ▸ hx
      · exact hearly y hy

theorem splitFirst_none {α : Type*} {p : α → Bool} {l : List α}
    (h : ChatSession.splitFirst p l = none) : ∀ y ∈ l, p y = false := by
  induction l with
  | nil => nofun
  | cons x xs ih =>
    rw [ChatSession.splitFirst] at h
    split_ifs at h with hx
    intro y hy
    rcases mem_cons.mp hy with rfl | hy
    · exact Bool.not_eq_true _ ▸ hx
    · exact ih (Option.map_eq_none_iff.mp h) y hy

/-- The landings of a drain, in order, and the session after them. -/
inductive Drains (cfg : Settings) (nowMs : ℕ) :
    ChatSession → List Landing → ChatSession → Prop where
  | done (session : ChatSession) : Drains cfg nowMs session [] session
  | skip {session session' : ChatSession} {earlier later : List PendingDelivery}
      {d : PendingDelivery} {landed : List Landing} :
      session.pendingDeliveries = earlier ++ d :: later →
      d.id ∈ session.deliveredDeliveryIds →
      Drains cfg nowMs { session with pendingDeliveries := earlier ++ later } landed session' →
      Drains cfg nowMs session landed session'
  | land {session session' : ChatSession} {earlier later : List PendingDelivery}
      {d : PendingDelivery} {landed : List Landing} :
      session.pendingDeliveries = earlier ++ d :: later →
      session.deliveryEnvelopeBoundaryOpen d = true →
      d.id ∉ session.deliveredDeliveryIds →
      Drains cfg nowMs (({ session with
        pendingDeliveries := earlier ++ later } : ChatSession).landDelivery cfg nowMs d)
        landed session' →
      Drains cfg nowMs session
        (({ session with
          pendingDeliveries := earlier ++ later } : ChatSession).landing cfg nowMs d :: landed)
        session'

theorem drainLoop_drains (cfg : Settings) (nowMs fuel : ℕ) (session : ChatSession)
    (landed : List Landing) : ∃ more,
      (session.drainLoop cfg nowMs fuel landed).2 = landed ++ more ∧
      Drains cfg nowMs session more (session.drainLoop cfg nowMs fuel landed).1 := by
  induction fuel generalizing session landed with
  | zero => exact ⟨[], (append_nil _).symm, .done session⟩
  | succ fuel ih =>
    rw [ChatSession.drainLoop]
    cases hsplit : ChatSession.splitFirst session.deliveryEnvelopeBoundaryOpen
        session.pendingDeliveries with
    | none => exact ⟨[], (append_nil _).symm, .done session⟩
    | some split =>
      obtain ⟨earlier, d, later⟩ := split
      obtain ⟨hpend, hopen, -⟩ := splitFirst_some hsplit
      dsimp only
      split_ifs with hdeliv
      · obtain ⟨more, hlanded, hdrains⟩ := ih
          { session with pendingDeliveries := earlier ++ later } landed
        exact ⟨more, hlanded, .skip hpend hdeliv hdrains⟩
      · obtain ⟨more, hlanded, hdrains⟩ := ih
          (({ session with pendingDeliveries := earlier ++ later } : ChatSession).landDelivery cfg
            nowMs d) (landed ++ [_])
        refine ⟨_ :: more, ?_, .land hpend hopen hdeliv hdrains⟩
        rw [hlanded, append_assoc, singleton_append]

theorem weight_pos (d : PendingDelivery) : 0 < ChatSession.weight d := by
  unfold ChatSession.weight
  split_ifs <;> omega

theorem queueWeight_addMessage_le (cfg : Settings) (nowMs : ℕ) (session : ChatSession)
    (message : ChatMessage) :
    (session.addMessage cfg nowMs message).queueWeight ≤ session.queueWeight + 1 := by
  rw [ChatSession.addMessage]
  split_ifs
  · simp [ChatSession.queueWeight, ChatSession.weight]
  · exact Nat.le_succ _

theorem queueWeight_landDelivery_lt (cfg : Settings) (nowMs : ℕ) (session : ChatSession)
    (d : PendingDelivery) :
    (session.landDelivery cfg nowMs d).queueWeight < session.queueWeight + ChatSession.weight d := by
  have hpreempted : (session.preemptForDelivery cfg nowMs).queueWeight ≤ session.queueWeight + 1 := by
    rw [ChatSession.preemptForDelivery]
    split_ifs
    · exact Nat.le_succ _
    · exact queueWeight_addMessage_le cfg nowMs _ _
  rw [ChatSession.landDelivery, ChatSession.interruptedFor]
  generalize hbefore : (if d.push = .preempt then _ else _ : ChatSession) = before
  have happended : (before.appendDelivery cfg nowMs d).queueWeight ≤
      before.queueWeight + if d.threadPatch.isSome then 1 else 0 := by
    rw [ChatSession.appendDelivery]
    cases d.threadPatch with
    | none => exact le_refl _
    | some patch =>
      dsimp only
      rw [Option.isSome_some, if_pos rfl]
      split_ifs
      · exact queueWeight_addMessage_le cfg nowMs (before.applySetparamsPatch cfg patch) _
      · exact Nat.le_succ before.queueWeight
  refine happended.trans_lt ?_
  rw [ChatSession.weight, ← hbefore]
  by_cases hpush : d.push = .preempt
  · rw [if_pos hpush]
    split_ifs <;> simp_all <;> omega
  · rw [if_neg hpush]
    split_ifs <;> simp_all

/-- The fuel of a drain is enough: what it leaves in the queue may not land. -/
theorem drainLoop_exhausts (cfg : Settings) (nowMs fuel : ℕ) (session : ChatSession)
    (landed : List Landing) (hfuel : session.queueWeight ≤ fuel) :
    let drained := (session.drainLoop cfg nowMs fuel landed).1
    ∀ d ∈ drained.pendingDeliveries, drained.deliveryEnvelopeBoundaryOpen d = false := by
  induction fuel generalizing session landed with
  | zero =>
    intro drained d hd
    obtain ⟨before, after, hpend⟩ := append_of_mem hd
    have hpos := weight_pos d
    rw [ChatSession.queueWeight, show session.pendingDeliveries = _ from hpend] at hfuel
    simp only [map_append, map_cons, sum_append, sum_cons] at hfuel
    omega
  | succ fuel ih =>
    rw [ChatSession.drainLoop]
    cases hsplit : ChatSession.splitFirst session.deliveryEnvelopeBoundaryOpen
        session.pendingDeliveries with
    | none => exact splitFirst_none hsplit
    | some split =>
      obtain ⟨earlier, d, later⟩ := split
      obtain ⟨hpend, -, -⟩ := splitFirst_some hsplit
      set taken : ChatSession := { session with pendingDeliveries := earlier ++ later }
      have hweight : taken.queueWeight + ChatSession.weight d ≤ fuel + 1 := by
        refine le_trans (le_of_eq ?_) hfuel
        simp only [ChatSession.queueWeight, hpend, taken, map_append, map_cons, sum_append, sum_cons]
        omega
      dsimp only
      split_ifs
      · exact ih taken landed (Nat.le_of_lt_succ
          ((Nat.lt_add_of_pos_right (weight_pos d)).trans_le hweight))
      · exact ih _ _ (Nat.le_of_lt_succ
          ((queueWeight_landDelivery_lt cfg nowMs taken d).trans_le hweight))

theorem drainPendingDeliveries_drains (cfg : Settings) (nowMs : ℕ) (session : ChatSession) :
    ∃ drained : ChatSession,
      Drains cfg nowMs (session.expirePendingDeliveries cfg nowMs)
        (session.drainPendingDeliveries cfg nowMs).2 drained ∧
      ((session.drainPendingDeliveries cfg nowMs).1 = drained ∨
        (session.drainPendingDeliveries cfg nowMs).1 =
          { drained with waitDeliveryBoundary := false }) := by
  unfold ChatSession.drainPendingDeliveries
  split_ifs with hempty
  · rw [List.isEmpty_iff] at hempty
    have hexpire : session.expirePendingDeliveries cfg nowMs = session := by
      simp only [ChatSession.expirePendingDeliveries, ChatSession.dropPending, hempty,
        filter_nil, map_nil, ChatSession.recordDroppedDeliveries, foldl_nil]
      rw [← hempty]
    rw [hexpire]
    exact ⟨session, .done session, Or.inl rfl⟩
  · dsimp only
    generalize session.expirePendingDeliveries cfg nowMs = kept
    obtain ⟨more, hlanded, hdrains⟩ := drainLoop_drains cfg nowMs kept.queueWeight kept []
    generalize kept.drainLoop cfg nowMs kept.queueWeight [] = result at hlanded hdrains ⊢
    obtain ⟨drained, landed⟩ := result
    rw [nil_append] at hlanded
    subst hlanded
    refine ⟨drained, ?_, ?_⟩
    · split_ifs <;> exact hdrains
    · split_ifs
      · exact Or.inr rfl
      · exact Or.inl rfl

end Drain

end SessionDeliveries
