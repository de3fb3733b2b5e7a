import RefactEngine.DeliveryLandings
import Mathlib.Algebra.Order.BigOperators.Group.List

/-! # What a session reports of a delivery

Once a delivery is no longer pending its status stays, until its record is forgotten.
-/
namespace SessionDeliveries

open AgentDeliveries (PushMode DeliveryOutcome retained)
open List
open DeliveryOutbox (DeliveryStatus)

variable {session : ChatSession} {id : String} {session' : ChatSession}

theorem deliveryStatus_congr
    (hdeliv : id ∈ session'.deliveredDeliveryIds ↔ id ∈ session.deliveredDeliveryIds)
    (hpend : session'.pendingDeliveries.any (·.id = id) =
      session.pendingDeliveries.any (·.id = id))
    (hdrop : session'.droppedDeliveries = session.droppedDeliveries) :
    session'.deliveryStatus id = session.deliveryStatus id := by
  unfold ChatSession.deliveryStatus
  simp only [hdeliv, hpend, hdrop]

theorem deliveryStatus_of_ledger (h : session'.ledger = session.ledger) (id : String) :
    session'.deliveryStatus id = session.deliveryStatus id := by
  apply deliveryStatus_congr
  · exact iff_of_eq (congrArg (id ∈ ·) (congrArg Ledger.delivered h))
  · exact congrArg (List.any · _) (congrArg Ledger.pending h)
  · exact congrArg Ledger.dropped h

def droppedStatuses : List DeliveryStatus := [.expired, .superseded, .sealed, .failed]

def Recorded (session : ChatSession) : Prop :=
  ∀ r ∈ session.droppedDeliveries, r.status ∈ droppedStatuses

structure Tidy (session : ChatSession) : Prop where
  sound : Sound session.ledger
  records : Recorded session

structure Keeps (session session' : ChatSession) : Prop where
  tidy : Tidy session'
  seen : session.seenIds ⊆ session'.seenIds
  effects : session'.postToolSideEffects ⊆ session.postToolSideEffects

theorem Tidy.keeps (ht : Tidy session) : Keeps session session :=
  ⟨ht, fun _ h => h, fun _ h => h⟩

variable {s₁ s₂ s₃ : ChatSession}

theorem Keeps.trans (h : Keeps s₁ s₂) (h' : Keeps s₂ s₃) : Keeps s₁ s₃ :=
  ⟨h'.tidy, fun _ hid => h'.seen (h.seen hid), fun _ hm => h.effects (h'.effects hm)⟩

theorem pending_of_mem (h : Sound session.ledger) {d : PendingDelivery}
    (hd : d ∈ session.pendingDeliveries) : session.deliveryStatus d.id = .pending := by
  have hundel : d.id ∉ session.deliveredDeliveryIds := h.undelivered d hd
  unfold ChatSession.deliveryStatus
  rw [if_neg hundel, if_pos (any_eq_true.mpr ⟨d, hd, decide_eq_true rfl⟩)]

theorem delivered_of_mem (h : id ∈ session.deliveredDeliveryIds) :
    session.deliveryStatus id = .delivered := if_pos h

theorem Recorded.cases (hr : Recorded session) (id : String) :
    id ∈ session.deliveredDeliveryIds ∧ session.deliveryStatus id = .delivered ∨
      (∃ d ∈ session.pendingDeliveries, d.id = id) ∧ session.deliveryStatus id = .pending ∨
      session.deliveryStatus id ∈ droppedStatuses ∨ session.deliveryStatus id = .unknown := by
  unfold ChatSession.deliveryStatus
  split_ifs with hdeliv hpend
  · exact Or.inl ⟨hdeliv, rfl⟩
  · obtain ⟨d, hd, heq⟩ := any_eq_true.mp hpend
    exact Or.inr (Or.inl ⟨⟨d, hd, of_decide_eq_true heq⟩, rfl⟩)
  · right
    right
    cases hfind : session.droppedDeliveries.reverse.find? (·.id = id) with
    | none => exact Or.inr rfl
    | some r =>
      have hmem := mem_reverse.mp (List.mem_of_find?_eq_some hfind)
      exact Or.inl (hr r hmem)

theorem Recorded.mem_of_pending (hr : Recorded session) (h : session.deliveryStatus id = .pending) :
    ∃ d ∈ session.pendingDeliveries, d.id = id := by
  rcases hr.cases id with ⟨-, h'⟩ | ⟨hmem, -⟩ | h' | h'
  · rw [h] at h'
    cases h'
  · exact hmem
  · rw [h] at h'
    exact absurd h' (by decide)
  · rw [h] at h'
    cases h'

theorem Recorded.mem_of_delivered (hr : Recorded session)
    (h : session.deliveryStatus id = .delivered) : id ∈ session.deliveredDeliveryIds := by
  rcases hr.cases id with ⟨hmem, -⟩ | ⟨-, h'⟩ | h' | h'
  · exact hmem
  · rw [h] at h'
    cases h'
  · rw [h] at h'
    exact absurd h' (by decide)
  · rw [h] at h'
    cases h'

def Steady (session session' : ChatSession) (id : String) : Prop :=
  session'.deliveryStatus id = session.deliveryStatus id ∨
    session.deliveryStatus id ≠ .pending ∧ session'.deliveryStatus id = .unknown

theorem Steady.trans (h : Steady s₁ s₂ id) (h' : Steady s₂ s₃ id) : Steady s₁ s₃ id := by
  rcases h with heq | ⟨hpend, hunk⟩
  · rcases h' with heq' | ⟨hpend', hunk'⟩
    · exact Or.inl (heq'.trans heq)
    · exact Or.inr ⟨heq ▸ hpend', hunk'⟩
  · rcases h' with heq' | ⟨-, hunk'⟩
    · exact Or.inr ⟨hpend, heq'.trans hunk⟩
    · exact Or.inr ⟨hpend, hunk'⟩

section Records

variable (cfg : Settings)

theorem find?_take {α : Type*} (p : α → Bool) (n : ℕ) (l : List α) :
    (l.take n).find? p = l.find? p ∨ (l.take n).find? p = none := by
  cases hfind : (l.take n).find? p with
  | none => exact Or.inr rfl
  | some x =>
    left
    rw [← take_append_drop n l, List.find?_append, hfind]
    rfl

def lastRecord (records : List DeliveryStatusRecord) (id : String) : Option DeliveryStatusRecord :=
  records.reverse.find? (·.id = id)

variable {session : ChatSession} {id : String}

theorem deliveryStatus_of_record (hdeliv : id ∉ session.deliveredDeliveryIds)
    (hpend : ∀ d ∈ session.pendingDeliveries, d.id ≠ id) : session.deliveryStatus id =
      ((lastRecord session.droppedDeliveries id).map (·.status)).getD .unknown := by
  have hnone : ¬ session.pendingDeliveries.any (fun d => decide (d.id = id)) = true := by
    intro hany
    obtain ⟨d, hd, heq⟩ := any_eq_true.mp hany
    exact hpend d hd (of_decide_eq_true heq)
  unfold ChatSession.deliveryStatus
  rw [if_neg hdeliv, if_neg hnone]
  rfl

variable {other : String}

/-- A new record does not come before those of other ids, but an old one may be forgotten. -/
theorem lastRecord_recordDropped (session : ChatSession) (hne : id ≠ other)
    (status : DeliveryStatus) :
    lastRecord (session.recordDroppedDelivery cfg other status).droppedDeliveries id =
        lastRecord session.droppedDeliveries id ∨
      lastRecord (session.recordDroppedDelivery cfg other status).droppedDeliveries id = none := by
  have hfind : lastRecord (session.droppedDeliveries.filter
      (fun known : DeliveryStatusRecord => known.id ≠ other) ++ [⟨other, status⟩]) id =
        lastRecord session.droppedDeliveries id := by
    unfold lastRecord
    rw [reverse_append, reverse_singleton, singleton_append,
      List.find?_cons_of_neg (by simpa using hne.symm), ← filter_reverse, List.find?_filter]
    congr 1
    funext r
    by_cases hid : r.id = id
    · simp [hid, hne]
    · simp [hid]
  rw [← hfind]
  unfold lastRecord ChatSession.recordDroppedDelivery retained
  rw [reverse_drop]
  exact find?_take _ _ _

variable {status : DeliveryStatus}

theorem Recorded.recordDropped (hr : Recorded session) (id : String)
    (hstat : status ∈ droppedStatuses) :
    Recorded (session.recordDroppedDelivery cfg id status) := by
  intro r h
  rcases mem_recordDropped cfg h with h | rfl
  · exact hr r h
  · exact hstat

theorem Recorded.recordAll (hr : Recorded session) (ids : List String)
    (hstat : status ∈ droppedStatuses) :
    Recorded (session.recordDroppedDeliveries cfg ids status) := by
  induction ids generalizing session with
  | nil => exact hr
  | cons id ids ih => exact ih (hr.recordDropped cfg id hstat)

theorem steady_recordDropped (hr : Recorded session) (hne : id ≠ other) (status : DeliveryStatus) :
    Steady session (session.recordDroppedDelivery cfg other status) id := by
  by_cases hdeliv : id ∈ session.deliveredDeliveryIds
  · left
    rw [delivered_of_mem hdeliv]
    exact delivered_of_mem hdeliv
  · by_cases hpend : ∃ d ∈ session.pendingDeliveries, d.id = id
    · left
      obtain ⟨d, hd, rfl⟩ := hpend
      have hany : session.pendingDeliveries.any (fun e => decide (e.id = d.id)) = true :=
        any_eq_true.mpr ⟨d, hd, decide_eq_true rfl⟩
      have hbef : session.deliveryStatus d.id = .pending :=
        (if_neg hdeliv).trans (if_pos hany)
      rw [hbef]
      exact (if_neg hdeliv).trans (if_pos hany)
    · have hunpending : session.deliveryStatus id ≠ .pending :=
        fun h => hpend (hr.mem_of_pending h)
      simp only [not_exists, not_and] at hpend
      have hafter : (session.recordDroppedDelivery cfg other status).deliveryStatus id = _ :=
        deliveryStatus_of_record hdeliv hpend
      rcases lastRecord_recordDropped cfg session hne status with h | h
      · left
        rw [hafter, h, deliveryStatus_of_record hdeliv hpend]
      · right
        rw [hafter, h]
        exact ⟨hunpending, rfl⟩

def RecordedBefore (session : ChatSession) (id : String) (status : DeliveryStatus) (k : ℕ) : Prop :=
  ∃ front back, session.droppedDeliveries = front ++ ⟨id, status⟩ :: back ∧ back.length ≤ k ∧
    ∀ r ∈ back, r.id ≠ id

theorem RecordedBefore.lastRecord {k : ℕ} (h : RecordedBefore session id status k) :
    lastRecord session.droppedDeliveries id = some ⟨id, status⟩ := by
  obtain ⟨front, back, heq, -, hback⟩ := h
  have hnone : back.reverse.find? (fun r => decide (r.id = id)) = none := by
    rw [List.find?_eq_none]
    intro r hr hid
    exact hback r (mem_reverse.mp hr) (of_decide_eq_true hid)
  unfold SessionDeliveries.lastRecord
  rw [heq, reverse_append, reverse_cons, append_assoc, List.find?_append, hnone]
  simp

theorem recordedBefore_recordDropped (hret : 1 ≤ cfg.deliveryStatusRetention)
    (session : ChatSession) (id : String) (status : DeliveryStatus) :
    RecordedBefore (session.recordDroppedDelivery cfg id status) id status 0 := by
  unfold RecordedBefore ChatSession.recordDroppedDelivery retained
  dsimp only
  rw [drop_append_of_le_length (by simp; omega)]
  exact ⟨_, [], rfl, Nat.le_refl 0, forall_mem_nil _⟩

theorem RecordedBefore.recordDropped {k : ℕ} (h : RecordedBefore session id status k)
    (hne : id ≠ other) (hret : k + 2 ≤ cfg.deliveryStatusRetention) (status' :
      DeliveryStatus) :
    RecordedBefore (session.recordDroppedDelivery cfg other status') id status (k + 1) := by
  obtain ⟨front, back, heq, hlen, hback⟩ := h
  unfold RecordedBefore ChatSession.recordDroppedDelivery retained
  dsimp only
  have hshort := length_filter_le (fun known => decide (known.id ≠ other)) back
  rw [heq, filter_append, filter_cons_of_pos (by simpa using hne), append_assoc,
    drop_append_of_le_length (by
      simp only [length_append, length_cons, length_nil]
      omega)]
  refine ⟨_, back.filter (fun known => known.id ≠ other) ++ [⟨other, status'⟩], rfl, ?_, ?_⟩
  · rw [length_append, length_singleton]
    omega
  · intro r hr
    rcases mem_append.mp hr with hr | hr
    · exact hback r (mem_filter.mp hr).1
    · rw [mem_singleton.mp hr]
      exact hne.symm

theorem recordedBefore_recordAll (session : ChatSession) {ids : List String} (hid : id ∈ ids)
    (hret : ids.length ≤ cfg.deliveryStatusRetention) (status : DeliveryStatus) :
    ∃ k, RecordedBefore
      (session.recordDroppedDeliveries cfg ids status) id status k := by
  have hothers : ∀ (ids : List String) (session : ChatSession) (k : ℕ), id ∉ ids →
      RecordedBefore session id status k → k + 1 + ids.length ≤ cfg.deliveryStatusRetention →
        ∃ k', RecordedBefore (session.recordDroppedDeliveries cfg ids status) id status k' := by
    intro ids
    induction ids with
    | nil => exact fun session k _ h _ => ⟨k, h⟩
    | cons other ids ih =>
      intro session k hnotin h hlen
      rw [length_cons] at hlen
      rw [mem_cons, not_or] at hnotin
      exact ih _ (k + 1) hnotin.2 (h.recordDropped cfg hnotin.1 (by omega) status) (by omega)
  induction ids generalizing session with
  | nil => cases hid
  | cons first ids ih =>
    rw [length_cons] at hret
    by_cases hlater : id ∈ ids
    · exact ih _ hlater (by omega)
    · obtain rfl := (mem_cons.mp hid).resolve_right hlater
      exact hothers ids _ 0 hlater (recordedBefore_recordDropped cfg (by omega) session id status)
        (by omega)

theorem steady_recordAll (hr : Recorded session) {ids : List String} (hid : id ∉ ids)
    (hstat : status ∈ droppedStatuses) :
    Steady session (session.recordDroppedDeliveries cfg ids status) id := by
  induction ids generalizing session with
  | nil => exact Or.inl rfl
  | cons first ids ih =>
    rw [mem_cons, not_or] at hid
    exact (steady_recordDropped cfg hr hid.1 status).trans
      (ih (hr.recordDropped cfg first hstat) hid.2)

theorem deliveryStatus_queue (session : ChatSession) {pending : List PendingDelivery}
    (h : (∃ d ∈ pending, d.id = id) ↔ ∃ d ∈ session.pendingDeliveries, d.id = id) :
    ({ session with pendingDeliveries := pending } : ChatSession).deliveryStatus id =
      session.deliveryStatus id := by
  apply deliveryStatus_congr
  · exact Iff.rfl
  · rw [Bool.eq_iff_iff, any_eq_true, any_eq_true]
    simpa only [decide_eq_true_eq] using h
  · rfl

def ChatSession.without (session : ChatSession) (dropped : PendingDelivery → Bool) : ChatSession :=
  { session with
    pendingDeliveries := session.pendingDeliveries.filter fun pending =>
      pending.id ∉ (session.pendingDeliveries.filter dropped).map PendingDelivery.id }

theorem steady_dropPending (hr : Recorded session) (dropped : PendingDelivery → Bool)
    (hstat : status ∈ droppedStatuses)
    (hkept : ∀ d ∈ session.pendingDeliveries, d.id = id → dropped d = false) :
    Steady session (session.dropPending cfg dropped status) id := by
  have hid : id ∉ (session.pendingDeliveries.filter dropped).map PendingDelivery.id := by
    intro hin
    obtain ⟨d, hd, heq⟩ := mem_map.mp hin
    obtain ⟨hmem, hdrop⟩ := mem_filter.mp hd
    rw [hkept d hmem heq] at hdrop
    cases hdrop
  have hqueue : (session.without dropped).deliveryStatus id = session.deliveryStatus id := by
    apply deliveryStatus_queue
    constructor
    · rintro ⟨d, hd, heq⟩
      exact ⟨d, (mem_filter.mp hd).1, heq⟩
    · rintro ⟨d, hd, rfl⟩
      exact ⟨d, mem_filter.mpr ⟨hd, decide_eq_true hid⟩, rfl⟩
  have hrecd : Recorded (session.without dropped) := hr
  have hsteady : Steady (session.without dropped) (session.dropPending cfg dropped status) id :=
    steady_recordAll cfg hrecd hid hstat
  unfold Steady at hsteady ⊢
  rwa [hqueue] at hsteady

theorem status_dropPending (h : Sound session.ledger) (dropped : PendingDelivery → Bool)
    (status : DeliveryStatus)
    (hret : (session.pendingDeliveries.filter dropped).length ≤ cfg.deliveryStatusRetention)
    {d : PendingDelivery} (hd : d ∈ session.pendingDeliveries) (hdrop : dropped d = true) :
    (session.dropPending cfg dropped status).deliveryStatus d.id = status := by
  have hid : d.id ∈ (session.pendingDeliveries.filter dropped).map PendingDelivery.id :=
    mem_map.mpr ⟨d, mem_filter.mpr ⟨hd, hdrop⟩, rfl⟩
  obtain ⟨k, hrecd⟩ := recordedBefore_recordAll cfg (session.without dropped) hid
    (by rwa [length_map]) status
  obtain ⟨records, heq, -⟩ := dropPending_eq cfg session dropped status
  have hundel : d.id ∉ (session.dropPending cfg dropped status).deliveredDeliveryIds := by
    rw [heq]
    exact h.undelivered d hd
  have hunpending : ∀ e ∈ (session.dropPending cfg dropped status).pendingDeliveries,
      e.id ≠ d.id := by
    rw [heq]
    intro e he hsame
    have hkept := of_decide_eq_true (mem_filter.mp he).2
    exact hkept (hsame ▸ hid)
  have hlast : lastRecord (session.dropPending cfg dropped status).droppedDeliveries d.id = _ :=
    hrecd.lastRecord
  rw [deliveryStatus_of_record hundel hunpending, hlast]
  rfl

theorem Recorded.dropPending (hr : Recorded session) (dropped : PendingDelivery → Bool)
    (hstat : status ∈ droppedStatuses) : Recorded (session.dropPending cfg dropped status) := by
  have hrecd : Recorded (session.without dropped) := hr
  exact hrecd.recordAll cfg _ hstat

variable (nowMs : ℕ)

theorem sideEffects_addMessage (session : ChatSession) (message : ChatMessage) :
    (session.addMessage cfg nowMs message).postToolSideEffects = session.postToolSideEffects := by
  unfold ChatSession.addMessage
  split_ifs <;> rfl

theorem sideEffects_preempt (session : ChatSession) :
    (session.preemptForDelivery cfg nowMs).postToolSideEffects = session.postToolSideEffects := by
  unfold ChatSession.preemptForDelivery
  split_ifs
  · rfl
  · exact sideEffects_addMessage cfg nowMs _ _

theorem sideEffects_append (session : ChatSession) (d : PendingDelivery) :
    (session.appendDelivery cfg nowMs d).postToolSideEffects = session.postToolSideEffects := by
  unfold ChatSession.appendDelivery
  split
  · rfl
  · dsimp only
    split_ifs
    · exact sideEffects_addMessage cfg nowMs _ _
    · rfl

theorem sideEffects_land (session : ChatSession) (d : PendingDelivery) :
    (session.landDelivery cfg nowMs d).postToolSideEffects = session.postToolSideEffects := by
  unfold ChatSession.landDelivery ChatSession.interruptedFor
  rw [sideEffects_append]
  split_ifs
  · exact sideEffects_preempt cfg nowMs session
  · rfl

theorem sideEffects_interruptWait (session : ChatSession) :
    session.interruptWaitForDelivery.postToolSideEffects = session.postToolSideEffects := by
  unfold ChatSession.interruptWaitForDelivery
  split_ifs <;> rfl

end Records

section Landing

variable {cfg : Settings} (hnew : ∀ used, cfg.newId used ∉ used) {session session' : ChatSession}

theorem deliveryStatus_noted (h : Noted session.ledger session'.ledger) {id : String}
    (hid : id ∈ session.seenIds) : session'.deliveryStatus id = session.deliveryStatus id := by
  obtain ⟨notes, hpend, -, -, hnotes⟩ := h.queued
  have hpend : session'.pendingDeliveries = session.pendingDeliveries ++ notes := hpend
  have hdeliv : session'.deliveredDeliveryIds = session.deliveredDeliveryIds := h.delivered
  have hnone : notes.any (fun d => decide (d.id = id)) = false := by
    rw [any_eq_false]
    intro d hd heq
    exact (hnotes d hd).1 (of_decide_eq_true heq ▸ hid)
  apply deliveryStatus_congr
  · rw [hdeliv]
  · rw [hpend, any_append, hnone, Bool.or_false]
  · exact h.dropped

structure Landed (session session' : ChatSession) (d : PendingDelivery) : Prop extends
    Keeps session session' where
  status : session'.deliveryStatus d.id = .delivered
  others : ∀ id ∈ session.seenIds, id ≠ d.id →
    session'.deliveryStatus id = session.deliveryStatus id

include hnew in
theorem Tidy.landed (ht : Tidy session) (nowMs : ℕ) {d : PendingDelivery}
    (hclear : session.ledger.Clear d.id) (hseen : d.id ∈ session.seenIds)
    (hfilled : d.messages ≠ []) : Landed session (session.landDelivery cfg nowMs d) d := by
  have heffects := sideEffects_land cfg nowMs session d
  obtain ⟨noted, hnoted, heq⟩ := landDelivery_eq hnew nowMs session d
  rw [heq] at heffects ⊢
  have hdrop : noted.droppedDeliveries = session.droppedDeliveries := hnoted.dropped
  have hsound := (ht.sound.noted hnoted).stamp (hclear.noted hseen hnoted) (hnoted.seen _ hseen)
    hfilled
  refine ⟨⟨⟨hsound, fun r hr => ht.records r (hdrop ▸ hr)⟩, hnoted.seen,
    fun _ hm => heffects ▸ hm⟩, ?_, ?_⟩
  · exact delivered_of_mem (Finset.mem_insert_self _ _)
  · intro id hid hne
    rw [← deliveryStatus_noted hnoted hid]
    apply deliveryStatus_congr
    · show id ∈ insert d.id noted.deliveredDeliveryIds ↔ _
      rw [Finset.mem_insert, or_iff_right hne]
    · rfl
    · rfl

structure Drained (session session' : ChatSession) : Prop extends Keeps session session' where
  status : ∀ id ∈ session.seenIds, session'.deliveryStatus id = session.deliveryStatus id ∨
    session.deliveryStatus id = .pending ∧ session'.deliveryStatus id = .delivered

include hnew in
theorem Tidy.drains {nowMs : ℕ} {landed : List Landing}
    (hd : Drains cfg nowMs session landed session') (ht : Tidy session) :
    Drained session session' := by
  induction hd with
  | done session => exact ⟨ht.keeps, fun id _ => Or.inl rfl⟩
  | @skip session session' earlier later d landed hpend hdeliv _ ih =>
    exact absurd hdeliv (ht.sound.undelivered d (ht.sound.taken hpend).mem)
  | @land session session' earlier later d landed hpend hopen hundel _ ih =>
    have htaken := ht.sound.taken hpend
    have htidy : Tidy { session with pendingDeliveries := earlier ++ later } :=
      ⟨htaken.sound, ht.records⟩
    have hlanded := htidy.landed hnew nowMs htaken.clear (ht.sound.seenPending d htaken.mem)
      (ht.sound.filled d htaken.mem)
    have hrest := ih hlanded.tidy
    have hkeeps := hlanded.toKeeps.trans hrest.toKeeps
    refine ⟨⟨hkeeps.tidy, hkeeps.seen, hkeeps.effects⟩, fun id hid => ?_⟩
    rcases eq_or_ne id d.id with rfl | hne
    · right
      refine ⟨pending_of_mem ht.sound htaken.mem, ?_⟩
      rcases hrest.status d.id (hlanded.seen hid) with h | h
      · exact h.trans hlanded.status
      · exact h.2
    · have hqueue : ({ session with
          pendingDeliveries := earlier ++ later } : ChatSession).deliveryStatus id =
            session.deliveryStatus id :=
        deliveryStatus_queue session (htaken.places id hne)
      have hsame := (hlanded.others id hid hne).trans hqueue
      rw [← hsame]
      exact hrest.status id (hlanded.seen hid)

theorem drains_nil {nowMs : ℕ} {landed : List Landing}
    (hd : Drains cfg nowMs session landed session') (h : Sound session.ledger) (hnone : landed =
      []) :
    session' = session := by
  cases hd with
  | done => rfl
  | skip hpend hdeliv _ =>
    exact absurd hdeliv (h.undelivered _ (h.taken hpend).mem)
  | land => cases hnone

variable (cfg) in
theorem seen_dropPending (session : ChatSession) (dropped : PendingDelivery → Bool)
    (status : DeliveryStatus) :
    (session.dropPending cfg dropped status).seenIds = session.seenIds := by
  obtain ⟨records, heq, -⟩ := dropPending_eq cfg session dropped status
  rw [heq]

variable (cfg) in
theorem keeps_dropPending (ht : Tidy session) (dropped : PendingDelivery → Bool)
    {status : DeliveryStatus} (hstat : status ∈ droppedStatuses) :
    Keeps session (session.dropPending cfg dropped status) := by
  obtain ⟨records, heq, -⟩ := dropPending_eq cfg session dropped status
  refine ⟨⟨ht.sound.dropPending cfg _ _, ht.records.dropPending cfg _ hstat⟩, ?_, ?_⟩
  · rw [heq]
    exact fun _ h => h
  · rw [heq]
    exact fun _ h => h

structure DrainSpec (cfg : Settings) (nowMs : ℕ) (session session' : ChatSession)
    (landed : List Landing) : Prop extends Keeps session session' where
  expired : (session.pendingDeliveries.filter (·.isExpiredAt nowMs)).length ≤
      cfg.deliveryStatusRetention →
    ∀ d ∈ session.pendingDeliveries, d.isExpiredAt nowMs = true →
      session'.deliveryStatus d.id = .expired
  others : ∀ id ∈ session.seenIds,
    (∀ d ∈ session.pendingDeliveries, d.id = id → d.isExpiredAt nowMs = false) →
      Steady session session' id ∨
        landed ≠ [] ∧ session.deliveryStatus id = .pending ∧ session'.deliveryStatus id = .delivered

include hnew in
theorem Tidy.drain (ht : Tidy session) (nowMs : ℕ) :
    DrainSpec cfg nowMs session (session.drainPendingDeliveries cfg nowMs).1
      (session.drainPendingDeliveries cfg nowMs).2 := by
  obtain ⟨drained, hdrains, hres⟩ := drainPendingDeliveries_drains cfg nowMs session
  generalize session.drainPendingDeliveries cfg nowMs = result at hdrains hres ⊢
  have hdrop : DeliveryStatus.expired ∈ droppedStatuses := by decide
  have hexpire : Keeps session (session.expirePendingDeliveries cfg nowMs) :=
    keeps_dropPending cfg ht _ hdrop
  have hspec := hexpire.tidy.drains hnew hdrains
  have hseen : (session.expirePendingDeliveries cfg nowMs).seenIds = session.seenIds :=
    seen_dropPending cfg session _ _
  -- the boundary of a wait is no part of what is reported
  have hsame : Keeps drained result.1 ∧
      ∀ id, result.1.deliveryStatus id = drained.deliveryStatus id := by
    rcases hres with h | h <;> rw [h]
    · exact ⟨hspec.tidy.keeps, fun _ => rfl⟩
    · exact ⟨⟨⟨hspec.tidy.sound, hspec.tidy.records⟩, fun _ h => h, fun _ h => h⟩, fun _ => rfl⟩
  obtain ⟨hkeeps, hstat⟩ := hsame
  refine ⟨(hexpire.trans hspec.toKeeps).trans hkeeps, ?_, ?_⟩
  · intro hret d hd hexp
    have hdrop : (session.expirePendingDeliveries cfg nowMs).deliveryStatus d.id = .expired :=
      status_dropPending cfg ht.sound _ _ hret hd hexp
    have hid : d.id ∈ (session.expirePendingDeliveries cfg nowMs).seenIds :=
      hseen ▸ ht.sound.seenPending d hd
    rw [hstat]
    rcases hspec.status d.id hid with h | ⟨hpend, -⟩
    · exact h.trans hdrop
    · rw [hdrop] at hpend
      cases hpend
  · intro id hid hkept
    have hsteady : Steady session (session.expirePendingDeliveries cfg nowMs) id :=
      steady_dropPending cfg ht.records _ hdrop hkept
    unfold Steady
    rw [hstat]
    rcases hspec.status id (hseen ▸ hid) with h | ⟨hpend, hdeliv⟩
    · rw [h]
      exact Or.inl hsteady
    · right
      refine ⟨?_, ?_, hdeliv⟩
      · intro hnone
        have hquiet := drains_nil hdrains hexpire.tidy.sound hnone
        rw [hquiet, hpend] at hdeliv
        cases hdeliv
      · rcases hsteady with h | ⟨-, h⟩
        · exact h ▸ hpend
        · rw [h] at hpend
          cases hpend

structure Goes (session session' : ChatSession) : Prop extends Keeps session session' where
  status : ∀ id ∈ session.seenIds, session'.deliveryStatus id = session.deliveryStatus id

theorem Goes.trans {s₁ s₂ s₃ : ChatSession} (h : Goes s₁ s₂) (h' : Goes s₂ s₃) : Goes s₁ s₃ where
  toKeeps := h.toKeeps.trans h'.toKeeps
  status id hid := (h'.status id (h.seen hid)).trans (h.status id hid)

include hnew in
theorem Tidy.addMessage (ht : Tidy session) (nowMs : ℕ) {message : ChatMessage}
    (hstamp : message.delivery = none) : Goes session (session.addMessage cfg nowMs message) := by
  unfold ChatSession.addMessage
  split_ifs with hqueued
  · have hid : cfg.newId session.seenIds ∉ session.seenIds := hnew _
    have hclear : session.ledger.Clear (cfg.newId session.seenIds) :=
      ⟨fun d hd heq => hid (heq ▸ ht.sound.seenPending d hd),
        fun r hr heq => hid (heq ▸ ht.sound.seenDropped r hr)⟩
    have hpushed := (ht.sound.see (cfg.newId session.seenIds)).push (d := {
        afterToolCallId := none, threadPatch := none, id := cfg.newId session.seenIds,
        messages := [message], push := .append, source := "chat.session", wake := false,
        enqueuedAtMs := nowMs, expiresAtMs := none, supersedeKey := none }) hclear
      (fun hin => hid (ht.sound.seenDelivered _ hin)) mem_cons_self nofun
      (fun e _ => by simp [PendingDelivery.supersedes])
    refine ⟨⟨⟨hpushed, ht.records⟩, subset_cons_self _ _, fun _ h => h⟩, fun id hseen => ?_⟩
    apply deliveryStatus_queue session
    constructor
    · rintro ⟨d, hd, rfl⟩
      rcases mem_append.mp hd with hd | hd
      · exact ⟨d, hd, rfl⟩
      · rw [mem_singleton.mp hd] at hseen
        exact absurd hseen hid
    · rintro ⟨d, hd, heq⟩
      exact ⟨d, mem_append_left _ hd, heq⟩
  · have hledger : (session.addMessageAtBoundary message).ledger = session.ledger := by
      simp [ChatSession.ledger, ChatSession.addMessageAtBoundary, stampsOf, hstamp]
    exact ⟨⟨⟨hledger ▸ ht.sound, ht.records⟩, fun _ h => h, fun _ h => h⟩, fun _ _ => rfl⟩

include hnew in
theorem Tidy.addMessages (ht : Tidy session) (nowMs : ℕ) {messages : List ChatMessage}
    (hstamps : ∀ message ∈ messages, message.delivery = none) :
    Goes session (messages.foldl (fun session message => session.addMessage cfg nowMs message)
      session) := by
  induction messages generalizing session with
  | nil => exact ⟨ht.keeps, fun _ _ => rfl⟩
  | cons message messages ih =>
    have hadded := ht.addMessage hnew nowMs (hstamps message mem_cons_self)
    exact hadded.trans (ih hadded.tidy fun m hm => hstamps m (mem_cons_of_mem _ hm))

def ChatSession.cancels (session : ChatSession) (deliveryId : String) : Bool :=
  match ChatSession.splitFirst (fun pending => decide (pending.id = deliveryId))
      session.pendingDeliveries with
  | none => false
  | some (_, delivery, later) => !(later.flatMap PendingDelivery.messages).any fun message =>
      (controlKind message).any (· ∈ delivery.kinds)

structure Updated (session session' : ChatSession) (cancelled : String → Prop) : Prop extends
    Keeps session session' where
  others : ∀ id, ¬ cancelled id → Steady session session' id

theorem Tidy.unchanged (ht : Tidy session) (cancelled : String → Prop) :
    Updated session session cancelled := ⟨ht.keeps, fun _ _ => Or.inl rfl⟩

variable (cfg) in
theorem Tidy.updated {session : ChatSession} (ht : Tidy session) (deliveryId : String)
    (push : Option PushMode) (cancel : Bool) :
    Updated session (session.updatePendingDelivery cfg deliveryId push cancel).1
      fun id => cancel = true ∧ session.cancels deliveryId = true ∧ id = deliveryId := by
  unfold ChatSession.updatePendingDelivery ChatSession.cancels
  cases hsplit : ChatSession.splitFirst (fun pending => decide (pending.id = deliveryId))
      session.pendingDeliveries with
  | none =>
    dsimp only
    split_ifs <;> exact ht.unchanged _
  | some split =>
    obtain ⟨earlier, d, later⟩ := split
    obtain ⟨hpend, hid, -⟩ := splitFirst_some hsplit
    rw [decide_eq_true_eq] at hid
    have htaken := ht.sound.taken hpend
    dsimp only
    cases cancel with
    | true =>
      rw [if_pos rfl]
      unfold ChatSession.cancelPending
      split_ifs with hdependent
      · exact ht.unchanged _
      · have htidy : Recorded { session with pendingDeliveries := earlier ++ later } := ht.records
        have hsound := htaken.sound.recordDropped cfg .failed htaken.clear.1
          (ht.sound.undelivered d htaken.mem) (ht.sound.seenPending d htaken.mem)
        refine ⟨⟨⟨hsound, htidy.recordDropped cfg d.id (by decide)⟩, fun _ h => h, fun _ h => h⟩,
          fun id hnot => ?_⟩
        have hne : id ≠ d.id := by
          rw [hid]
          rintro rfl
          exact hnot ⟨rfl, by simpa using hdependent, rfl⟩
        have hsteady := steady_recordDropped cfg htidy hne .failed
        unfold Steady at hsteady ⊢
        rwa [deliveryStatus_queue session (htaken.places id hne)] at hsteady
    | false =>
      rw [if_neg Bool.false_ne_true]
      cases push with
      | none => exact ht.unchanged _
      | some push =>
        have hsound := ht.sound.reprioritise hpend push
        have hwait := ledger_interruptWait { session with
          pendingDeliveries := earlier ++ { d with push := push } :: later }
        have heffects := sideEffects_interruptWait { session with
          pendingDeliveries := earlier ++ { d with push := push } :: later }
        dsimp only
        generalize ({ session with
          pendingDeliveries := earlier ++ { d with push := push } :: later }
          : ChatSession).interruptWaitForDelivery = changed at hwait heffects ⊢
        have hdrop : changed.droppedDeliveries = session.droppedDeliveries :=
          congrArg Ledger.dropped hwait
        have hseen : changed.seenIds = session.seenIds := congrArg Ledger.seen hwait
        refine ⟨⟨⟨hwait ▸ hsound, fun r hr => ht.records r (hdrop ▸ hr)⟩, ?_,
          fun _ hm => heffects ▸ hm⟩, fun id _ => Or.inl ?_⟩
        · rw [hseen]
          exact fun _ h => h
        · rw [deliveryStatus_of_ledger hwait]
          apply deliveryStatus_queue session
          simp only [hpend, mem_append, mem_cons, or_and_right, exists_or,
            exists_eq_left]

def ChatSession.unexpired (session : ChatSession) (nowMs : ℕ) : ChatSession :=
  { session with pendingDeliveries := session.pendingDeliveries.filter (!·.isExpiredAt nowMs) }

variable (cfg) in
theorem drain_lands (h : Sound session.ledger) (nowMs : ℕ)
    (hopen : ∃ d ∈ (session.unexpired nowMs).pendingDeliveries,
      (session.unexpired nowMs).deliveryEnvelopeBoundaryOpen d = true) :
    (session.drainPendingDeliveries cfg nowMs).2 ≠ [] := by
  obtain ⟨records, heq, -⟩ := dropPending_eq cfg session (·.isExpiredAt nowMs) .expired
  have hnodup : (session.pendingDeliveries.map PendingDelivery.id).Nodup := h.nodup
  rw [filter_ids hnodup] at heq
  have hsound := h.dropPending cfg (·.isExpiredAt nowMs) .expired
  obtain ⟨d, hd, hopen⟩ := hopen
  have hne : ¬ session.pendingDeliveries.isEmpty = true := by
    rw [List.isEmpty_iff]
    intro hnil
    rw [ChatSession.unexpired, hnil] at hd
    cases hd
  unfold ChatSession.drainPendingDeliveries
  rw [if_neg hne]
  unfold ChatSession.expirePendingDeliveries
  generalize session.dropPending cfg (·.isExpiredAt nowMs) .expired = kept at heq hsound ⊢
  have hpend : kept.pendingDeliveries = (session.unexpired nowMs).pendingDeliveries := by
    rw [heq]
    rfl
  have hopen : kept.deliveryEnvelopeBoundaryOpen d = true := by
    rw [heq]
    exact hopen
  rw [← hpend] at hd
  have hloop : (kept.drainLoop cfg nowMs kept.queueWeight []).2 ≠ [] := by
    have hfuel : 0 < kept.queueWeight :=
      (weight_pos d).trans_le (le_sum_of_mem (mem_map_of_mem hd))
    obtain ⟨fuel, hfuel⟩ := Nat.exists_eq_succ_of_ne_zero hfuel.ne'
    rw [hfuel, Nat.succ_eq_add_one, ChatSession.drainLoop]
    cases hsplit : ChatSession.splitFirst kept.deliveryEnvelopeBoundaryOpen
        kept.pendingDeliveries with
    | none =>
      rw [splitFirst_none hsplit d hd] at hopen
      cases hopen
    | some split =>
      obtain ⟨earlier, first, later⟩ := split
      obtain ⟨hsplits, -, -⟩ := splitFirst_some hsplit
      have hundel : first.id ∉ kept.deliveredDeliveryIds :=
        hsound.undelivered first (hsound.taken hsplits).mem
      dsimp only
      rw [if_neg hundel]
      obtain ⟨more, hlanded, -⟩ := drainLoop_drains cfg nowMs fuel
        (({ kept with pendingDeliveries := earlier ++ later } : ChatSession).landDelivery cfg nowMs
          first) ([] ++ [_])
      rw [hlanded]
      simp
  dsimp only
  split_ifs <;> exact hloop

end Landing

end SessionDeliveries
