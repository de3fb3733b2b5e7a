import RefactEngine.DeliveryLandings
import Mathlib.Algebra.Order.BigOperators.Group.List

/-! # Deliveries land once and in order

Whatever a session is asked to do, and over restarts: what it has dropped does not land, what has
landed does not land again, and controls of one kind land in the order in which they were accepted.
-/
namespace SessionDeliveries

open AgentDeliveries (PushMode DeliveryOutcome retained)
open DeliveryOutbox (DeliveryStatus)

/-- A session from its first delivery on. Acceptances are numbered, and what landed is kept with
its number. -/
structure History where
  session : ChatSession
  accepted : ℕ
  ticket : String → ℕ
  landed : List (ℕ × Landing)

/-- What can happen to a session; `other` is anything that deliveries have no part in. -/
inductive Op where
  | enqueue (delivery : PendingDelivery)
  | queuePostTool (delivery : PendingDelivery)
  | drain
  | update (deliveryId : String) (push : Option PushMode) (cancel : Bool)
  | dropSealed (id : String)
  | restart (fresh : ChatSession) (mergeFirst : Bool)
  | other (next : ChatSession)

def ChatSession.reopened (fresh saved : ChatSession) : ChatSession :=
  { fresh with
    messages := saved.messages
    pendingDeliveries := []
    runnerPendingDeliveries := []
    postToolSideEffects := []
    deliveredDeliveryIds := ∅
    droppedDeliveries := []
    seenIds := saved.seenIds }

/-- The messages, the pending deliveries and the dropped records are all that is saved. -/
def ChatSession.restarted (cfg : Settings) (nowMs : ℕ) (fresh saved : ChatSession)
    (mergeFirst : Bool) : ChatSession :=
  let session := fresh.reopened saved
  let pending := saved.pendingDeliveriesForSnapshot
  let dropped := saved.droppedDeliveriesForSnapshot
  if mergeFirst then
    (session.mergeDroppedDeliveries cfg dropped).restorePendingDeliveries cfg nowMs pending
  else (session.restorePendingDeliveries cfg nowMs pending).mergeDroppedDeliveries cfg dropped

/-- A turn goes on, or anything else that leaves deliveries and their stamps alone. -/
def ChatSession.turnedInto (session next : ChatSession) : ChatSession :=
  { next with
    messages := if stampsOf next.messages = stampsOf session.messages then next.messages
      else session.messages
    pendingDeliveries := session.pendingDeliveries
    runnerPendingDeliveries := session.runnerPendingDeliveries
    deliveredDeliveryIds := session.deliveredDeliveryIds
    droppedDeliveries := session.droppedDeliveries
    seenIds := session.seenIds }

namespace History

variable (h : History)

def accept (id : String) (outcome : Except String DeliveryOutcome) : History :=
  match outcome with
  | .ok .delivered | .ok .queued =>
    { h with accepted := h.accepted + 1, ticket := Function.update h.ticket id h.accepted }
  | _ => h

def record (session : ChatSession) (landed : List Landing) : History :=
  { h with
    session := session
    landed := h.landed ++ landed.map fun landing => (h.ticket landing.delivery.id, landing) }

def step (cfg : Settings) (h : History) (nowMs : ℕ) : Op → History
  | .enqueue delivery =>
    let result := h.session.enqueueDelivery cfg nowMs delivery
    (h.accept delivery.id result.2.2).record result.1 result.2.1
  | .queuePostTool delivery =>
    let result := h.session.queuePostToolDelivery cfg nowMs delivery
    (h.accept delivery.id result.2.2).record result.1 result.2.1
  | .drain =>
    let result := h.session.drainPendingDeliveries cfg nowMs
    h.record result.1 result.2
  | .update deliveryId push cancel =>
    h.record (h.session.updatePendingDelivery cfg deliveryId push cancel).1 []
  | .dropSealed id => h.record (h.session.dropSealedDelivery cfg id).1 []
  | .restart fresh mergeFirst =>
    h.record (ChatSession.restarted cfg nowMs fresh h.session mergeFirst) []
  | .other next => h.record (h.session.turnedInto next) []

/-- A chat whose history may already have stamps, with nothing pending or dropped. -/
def start (session : ChatSession) : History where
  session := { session with
    pendingDeliveries := []
    runnerPendingDeliveries := []
    deliveredDeliveryIds := (stampsOf session.messages).toFinset
    droppedDeliveries := []
    seenIds := stampsOf session.messages }
  accepted := 0
  ticket _ := 0
  landed := []

def run (cfg : Settings) (session : ChatSession) (ops : List (ℕ × Op)) : History :=
  ops.foldl (fun h op => h.step cfg op.1 op.2) (start session)

def landedTickets (kind : ControlKind) : List ℕ :=
  (h.landed.filter fun entry => kind ∈ entry.2.delivery.kinds).map Prod.fst

def keys (pending : List PendingDelivery) : List (String × List ControlKind) :=
  pending.map fun d => (d.id, d.kinds)

def ticketsOf (ticket : String → ℕ) (kind : ControlKind) (pending : List PendingDelivery) :
    List ℕ :=
  ((keys pending).filter fun key => kind ∈ key.2).map fun key => ticket key.1

def queue (kind : ControlKind) : List ℕ :=
  h.landedTickets kind ++ ticketsOf h.ticket kind h.session.pendingDeliveries

end History

section Tickets

open History

variable {ticket : String → ℕ} {kind : ControlKind}

theorem ticketsOf_append (pending pending' : List PendingDelivery) :
    ticketsOf ticket kind (pending ++ pending') =
      ticketsOf ticket kind pending ++ ticketsOf ticket kind pending' := by
  simp only [ticketsOf, keys, List.map_append, List.filter_append]

theorem ticketsOf_cons (d : PendingDelivery) (pending : List PendingDelivery) :
    ticketsOf ticket kind (d :: pending) =
      if kind ∈ d.kinds then ticket d.id :: ticketsOf ticket kind pending
      else ticketsOf ticket kind pending := by
  simp only [ticketsOf, keys, List.map_cons, List.filter_cons, decide_eq_true_eq]
  split_ifs <;> rfl

variable {pending : List PendingDelivery}

theorem ticketsOf_nil_of (h : ∀ d ∈ pending, kind ∉ d.kinds) :
    ticketsOf ticket kind pending = [] := by
  induction pending with
  | nil => rfl
  | cons d pending ih =>
    rw [ticketsOf_cons, if_neg (h d List.mem_cons_self)]
    exact ih fun e he => h e (List.mem_cons_of_mem _ he)

variable {pending' : List PendingDelivery}

theorem ticketsOf_sublist (h : (keys pending').Sublist (keys pending)) :
    (ticketsOf ticket kind pending').Sublist (ticketsOf ticket kind pending) :=
  (h.filter _).map _

theorem keys_sublist (h : pending'.Sublist pending) :
    (keys pending').Sublist (keys pending) := h.map _

theorem ticketsOf_update {id : String} {n : ℕ} (h : ∀ d ∈ pending, d.id ≠ id) :
    ticketsOf (Function.update ticket id n) kind pending = ticketsOf ticket kind pending := by
  induction pending with
  | nil => rfl
  | cons d pending ih =>
    rw [ticketsOf_cons, ticketsOf_cons, ih fun e he => h e (List.mem_cons_of_mem _ he),
      Function.update_of_ne (h d List.mem_cons_self)]

theorem ticketsOf_noted {l l' : Ledger} (h : Noted l l') :
    ticketsOf ticket kind l'.pending = ticketsOf ticket kind l.pending := by
  obtain ⟨notes, hpend, hnotes, -, -⟩ := h.queued
  have hnone : ticketsOf ticket kind notes = [] := ticketsOf_nil_of fun d hd => by
    rw [(hnotes d hd).kinds]
    exact List.not_mem_nil
  rw [hpend, ticketsOf_append, hnone, List.append_nil]

end Tickets

theorem earlier_of_open {session : ChatSession} {earlier rest : List PendingDelivery}
    {d : PendingDelivery} (hpend : session.pendingDeliveries = earlier ++ rest)
    (hne : ∀ e ∈ earlier, e.id ≠ d.id) (hkept : ∀ e ∈ earlier, d.supersedes e = false)
    (hopen : session.deliveryEnvelopeBoundaryOpen d = true) {kind : ControlKind}
    (hkind : kind ∈ d.kinds) : ∀ e ∈ earlier, kind ∉ e.kinds := by
  have hcontrols : session.controlsBefore d = false := by
    unfold ChatSession.deliveryEnvelopeBoundaryOpen at hopen
    split_ifs at hopen with _ hcontrols
    exact Bool.not_eq_true _ ▸ hcontrols
  intro e he hin
  obtain ⟨message, hmsg, hcontrol⟩ := List.mem_filterMap.mp hin
  have htake : e ∈ session.pendingDeliveries.takeWhile fun pending =>
      decide (pending.id ≠ d.id) := by
    rw [hpend, List.takeWhile_append_of_pos fun e he => decide_eq_true (hne e he)]
    exact List.mem_append_left _ he
  rw [ChatSession.controlsBefore, Bool.and_eq_false_iff] at hcontrols
  rcases hcontrols with hempty | hnone
  · rw [Bool.not_eq_false', List.isEmpty_iff] at hempty
    rw [hempty] at hkind
    cases hkind
  · rw [List.any_eq_false] at hnone
    refine hnone message (List.mem_append_left _ (List.mem_flatMap.mpr ⟨e, ?_, hmsg⟩)) ?_
    · exact List.mem_filter.mpr ⟨htake, by rw [hkept e he]; rfl⟩
    · rw [hcontrol]
      exact decide_eq_true hkind

structure Inv (h : History) : Prop where
  sound : Sound h.session.ledger
  once : (h.landed.map fun entry => entry.2.delivery.id).Nodup
  landed : ∀ entry ∈ h.landed, entry.2.delivery.id ∈ h.session.deliveredDeliveryIds
  counted : ∀ entry ∈ h.landed, (stampsOf h.session.messages).count entry.2.delivery.id =
    entry.2.delivery.messages.length
  undropped : ∀ entry ∈ h.landed, ∀ r ∈ entry.2.before.droppedDeliveries,
    r.id ≠ entry.2.delivery.id
  ordered : ∀ kind, (h.queue kind).Pairwise (· < ·)
  numbered : ∀ kind, ∀ n ∈ h.queue kind, n < h.accepted

theorem Inv.shrink {h : History} (hi : Inv h) {session : ChatSession}
    (hsound : Sound session.ledger)
    (hdeliv : h.session.deliveredDeliveryIds ⊆ session.deliveredDeliveryIds)
    (hstamps : stampsOf session.messages = stampsOf h.session.messages)
    (hkeys : (History.keys session.pendingDeliveries).Sublist
      (History.keys h.session.pendingDeliveries)) :
    Inv (h.record session []) := by
  have hlanded : (h.record session []).landed = h.landed := List.append_nil _
  have hqueue : ∀ kind, ((h.record session []).queue kind).Sublist (h.queue kind) := by
    intro kind
    rw [History.queue, History.queue, History.landedTickets, hlanded]
    exact (List.Sublist.refl _).append (ticketsOf_sublist hkeys)
  constructor
  · exact hsound
  · rw [hlanded]
    exact hi.once
  · rw [hlanded]
    exact fun entry hentry => hdeliv (hi.landed entry hentry)
  · rw [hlanded]
    intro entry hentry
    show (stampsOf session.messages).count _ = _
    rw [hstamps]
    exact hi.counted entry hentry
  · rw [hlanded]
    exact hi.undropped
  · exact fun kind => (hi.ordered kind).sublist (hqueue kind)
  · exact fun kind n hn => hi.numbered kind n ((hqueue kind).subset hn)

section Steps

variable {cfg : Settings} (hnew : ∀ used, cfg.newId used ∉ used) {session : ChatSession}

variable {d : PendingDelivery}

include hnew in
theorem Inv.land {h : History} (hi : Inv h) {session : ChatSession}
    (nowMs : ℕ) (hsound : Sound session.ledger) (hclear : session.ledger.Clear d.id)
    (hseen : d.id ∈ session.seenIds) (hfilled : d.messages ≠ [])
    (hdeliv : session.deliveredDeliveryIds = h.session.deliveredDeliveryIds)
    (hundel : d.id ∉ session.deliveredDeliveryIds)
    (hstamps : stampsOf session.messages = stampsOf h.session.messages)
    (hordered : ∀ kind, (h.landedTickets kind ++
      ((if kind ∈ d.kinds then [h.ticket d.id] else []) ++
        History.ticketsOf h.ticket kind session.pendingDeliveries)).Pairwise (· < ·))
    (hnumbered : ∀ kind, ∀ n ∈ h.landedTickets kind ++
      ((if kind ∈ d.kinds then [h.ticket d.id] else []) ++
        History.ticketsOf h.ticket kind session.pendingDeliveries), n < h.accepted) :
    Inv (h.record (session.landDelivery cfg nowMs d) [session.landing cfg nowMs d]) := by
  obtain ⟨noted, hnoted, heq⟩ := landDelivery_eq hnew nowMs session d
  rw [heq]
  have hlanded : (h.record (noted.stamped d) [session.landing cfg nowMs d]).landed =
      h.landed ++ [(h.ticket d.id, session.landing cfg nowMs d)] := rfl
  have hqueue : ∀ kind, (h.record (noted.stamped d) [session.landing cfg nowMs d]).queue kind =
      h.landedTickets kind ++ ((if kind ∈ d.kinds then [h.ticket d.id] else []) ++
        History.ticketsOf h.ticket kind session.pendingDeliveries) := by
    intro kind
    have htickets : History.ticketsOf h.ticket kind _ = _ := ticketsOf_noted hnoted
    rw [History.queue, History.landedTickets, hlanded, List.filter_append, List.map_append,
      List.append_assoc]
    refine congrArg₂ (· ++ ·) rfl (congrArg₂ (· ++ ·) ?_ htickets)
    by_cases hkind : kind ∈ d.kinds <;> simp [ChatSession.landing, hkind]
  have hdeliv' : (noted.stamped d).deliveredDeliveryIds =
      insert d.id h.session.deliveredDeliveryIds := by
    rw [← hdeliv]
    exact congrArg (insert d.id) hnoted.delivered
  have hstamps' : stampsOf (noted.stamped d).messages =
      stampsOf h.session.messages ++ List.replicate d.messages.length d.id := by
    rw [← hstamps, ← stampsOf_stampMessages]
    exact (stampsOf_append _ _).trans (congrArg (· ++ _) hnoted.stamps)
  have hcases : ∀ entry ∈ (h.record (noted.stamped d) [session.landing cfg nowMs d]).landed,
      entry ∈ h.landed ∨ entry = (h.ticket d.id, session.landing cfg nowMs d) := fun entry hentry =>
    (List.mem_append.mp hentry).imp_right List.mem_singleton.mp
  have hold : ∀ entry ∈ h.landed, entry.2.delivery.id ≠ d.id := by
    intro entry hentry heq
    apply hundel
    rw [hdeliv, ← heq]
    exact hi.landed entry hentry
  constructor
  · exact (hsound.noted hnoted).stamp (hclear.noted hseen hnoted) (hnoted.seen _ hseen) hfilled
  · rw [hlanded, List.map_append, List.nodup_append]
    refine ⟨hi.once, List.nodup_singleton _, ?_⟩
    rintro _ hid _ hid' rfl
    obtain ⟨entry, hentry, rfl⟩ := List.mem_map.mp hid
    exact hold entry hentry (List.mem_singleton.mp hid')
  · intro entry hentry
    show _ ∈ (noted.stamped d).deliveredDeliveryIds
    rw [hdeliv', Finset.mem_insert]
    rcases hcases entry hentry with hentry | rfl
    · exact Or.inr (hi.landed entry hentry)
    · exact Or.inl rfl
  · intro entry hentry
    show (stampsOf (noted.stamped d).messages).count _ = _
    rw [hstamps', List.count_append, List.count_replicate]
    rcases hcases entry hentry with hentry | rfl
    · rw [if_neg (by simpa using (hold entry hentry).symm), Nat.add_zero]
      exact hi.counted entry hentry
    · have hcount : (stampsOf session.messages).count d.id = 0 :=
        List.count_eq_zero.mpr fun hin => hundel ((hsound.stamped d.id).mpr hin)
      simp [ChatSession.landing, ← hstamps, hcount]
  · intro entry hentry
    rcases hcases entry hentry with hentry | rfl
    · exact hi.undropped entry hentry
    · exact hclear.2
  · intro kind
    rw [hqueue]
    exact hordered kind
  · intro kind n hn
    rw [hqueue] at hn
    exact hnumbered kind n hn

theorem History.record_cons (h : History) (session session' : ChatSession) (landing : Landing)
    (landed : List Landing) : h.record session' (landing :: landed) =
      (h.record session [landing]).record session' landed := by
  simp only [History.record, List.map_cons, List.map_nil, List.append_assoc, List.singleton_append]

variable {h : History}

include hnew in
theorem Inv.drains {nowMs : ℕ} {session' : ChatSession} {landed : List Landing}
    (hd : Drains cfg nowMs session landed session') (hsession : h.session = session) (hi : Inv h) :
    Inv (h.record session' landed) := by
  induction hd generalizing h with
  | done session =>
    subst hsession
    exact hi.shrink hi.sound (fun _ hid => hid) rfl (List.Sublist.refl _)
  | @skip session session' earlier later d landed hpend _ _ ih =>
    subst hsession
    have htaken := hi.sound.taken hpend
    have hshrunk := hi.shrink htaken.sound (fun _ hid => hid) rfl (keys_sublist htaken.sublist)
    have hrest := ih rfl hshrunk
    rw [History.record, History.record] at hrest
    simpa [History.record] using hrest
  | @land session session' earlier later d landed hpend hopen hundel _ ih =>
    subst hsession
    have htaken := hi.sound.taken hpend
    have hne : ∀ e ∈ earlier ++ later, e.id ≠ d.id := htaken.clear.1
    have hkept : ∀ e ∈ earlier, d.supersedes e = false := fun e he =>
      hi.sound.current d htaken.mem e (htaken.sublist.subset (List.mem_append_left _ he))
    have hqueue : ∀ kind, (if kind ∈ d.kinds then [h.ticket d.id] else []) ++
        History.ticketsOf h.ticket kind (earlier ++ later) =
          History.ticketsOf h.ticket kind h.session.pendingDeliveries := by
      intro kind
      rw [hpend, ticketsOf_append, ticketsOf_append, ticketsOf_cons]
      split_ifs with hkind
      · rw [ticketsOf_nil_of (earlier_of_open hpend
          (fun e he => hne e (List.mem_append_left _ he)) hkept hopen hkind)]
        rfl
      · rfl
    rw [History.record_cons]
    apply ih rfl
    apply hi.land hnew nowMs htaken.sound htaken.clear (hi.sound.seenPending d htaken.mem)
      (hi.sound.filled d htaken.mem) rfl hundel rfl
    · intro kind
      rw [hqueue]
      exact hi.ordered kind
    · intro kind
      rw [hqueue]
      exact hi.numbered kind

theorem Inv.of_ledger (hi : Inv h) (hledger : session.ledger = h.session.ledger) :
    Inv { h with session := session } where
  sound := hledger ▸ hi.sound
  once := hi.once
  landed entry hentry := by
    have hdeliv : session.deliveredDeliveryIds = h.session.deliveredDeliveryIds :=
      congrArg Ledger.delivered hledger
    rw [hdeliv]
    exact hi.landed entry hentry
  counted entry hentry := by
    have hstamps : stampsOf session.messages = stampsOf h.session.messages :=
      congrArg Ledger.stamps hledger
    rw [hstamps]
    exact hi.counted entry hentry
  undropped := hi.undropped
  ordered kind := by
    have hpend : session.pendingDeliveries = h.session.pendingDeliveries :=
      congrArg Ledger.pending hledger
    rw [History.queue, hpend]
    exact hi.ordered kind
  numbered kind := by
    have hpend : session.pendingDeliveries = h.session.pendingDeliveries :=
      congrArg Ledger.pending hledger
    rw [History.queue, hpend]
    exact hi.numbered kind

variable (cfg) in
theorem Inv.dropPending (hi : Inv h) (dropped : PendingDelivery → Bool) (status : DeliveryStatus) :
    Inv (h.record (h.session.dropPending cfg dropped status) []) := by
  have hsound := hi.sound.dropPending cfg dropped status
  obtain ⟨records, heq, -⟩ := dropPending_eq cfg h.session dropped status
  rw [heq] at hsound ⊢
  exact hi.shrink hsound (fun _ hid => hid) rfl (keys_sublist List.filter_sublist)

include hnew in
theorem Inv.drain (hi : Inv h) (nowMs : ℕ) : Inv (h.step cfg nowMs .drain) := by
  obtain ⟨drained, hdrains, hres⟩ := drainPendingDeliveries_drains cfg nowMs h.session
  have hexp := hi.dropPending cfg (fun pending => pending.isExpiredAt nowMs) .expired
  have hdrained := hexp.drains hnew hdrains rfl
  have hledger : (h.session.drainPendingDeliveries cfg nowMs).1.ledger = drained.ledger := by
    rcases hres with hres | hres <;> rw [hres]
    rfl
  have hrec := hdrained.of_ledger hledger
  simpa only [History.step, History.record, List.map_nil, List.append_nil] using hrec

theorem Inv.accept (hi : Inv h) {id : String} (hid : ∀ d ∈ h.session.pendingDeliveries, d.id ≠ id) :
    Inv { h with
      accepted := h.accepted + 1
      ticket := Function.update h.ticket id h.accepted } where
  sound := hi.sound
  once := hi.once
  landed := hi.landed
  counted := hi.counted
  undropped := hi.undropped
  ordered kind := by
    rw [History.queue, ticketsOf_update hid]
    exact hi.ordered kind
  numbered kind n hn := by
    rw [History.queue, ticketsOf_update hid] at hn
    exact Nat.lt_succ_of_lt (hi.numbered kind n hn)

theorem Inv.same (hi : Inv h) : Inv (h.record h.session []) := by
  simp only [History.record, List.map_nil, List.append_nil]
  exact hi

theorem Inv.nextTicket (hi : Inv h) {kind : ControlKind} {tickets : List ℕ}
    (hsub : tickets.Sublist (h.queue kind)) : (tickets ++ [h.accepted]).Pairwise (· < ·) ∧
      ∀ n ∈ tickets ++ [h.accepted], n < h.accepted + 1 := by
  have hnumbered : ∀ n ∈ tickets, n < h.accepted := fun n hn =>
    hi.numbered kind n (hsub.subset hn)
  constructor
  · rw [List.pairwise_append]
    refine ⟨(hi.ordered kind).sublist hsub, List.pairwise_singleton _ _, fun n hn m hm => ?_⟩
    rw [List.mem_singleton.mp hm]
    exact hnumbered n hn
  · intro n hn
    rcases List.mem_append.mp hn with hn | hn
    · have hlt := hnumbered n hn
      omega
    · rw [List.mem_singleton.mp hn]
      exact Nat.lt_succ_self _

include hnew in
theorem Inv.landNow (hi : Inv h) (nowMs : ℕ) (hsound : Sound session.ledger)
    (hclear : session.ledger.Clear d.id) (hseen : d.id ∈ session.seenIds)
    (hfilled : d.messages ≠ [])
    (hdeliv : session.deliveredDeliveryIds = h.session.deliveredDeliveryIds)
    (hundel : d.id ∉ session.deliveredDeliveryIds)
    (hstamps : stampsOf session.messages = stampsOf h.session.messages)
    (hsub : session.pendingDeliveries.Sublist h.session.pendingDeliveries)
    (hunpending : ∀ e ∈ h.session.pendingDeliveries, e.id ≠ d.id)
    (hkept : ∀ e ∈ session.pendingDeliveries, d.supersedes e = false)
    (hopen : session.deliveryEnvelopeBoundaryOpen d = true) : Inv (({ h with
      accepted := h.accepted + 1
      ticket := Function.update h.ticket d.id h.accepted } : History).record
        (session.landDelivery cfg nowMs d) [session.landing cfg nowMs d]) := by
  have hothers : ∀ e ∈ session.pendingDeliveries, e.id ≠ d.id := hclear.1
  have hqueue : ∀ kind, (if kind ∈ d.kinds then
        [Function.update h.ticket d.id h.accepted d.id] else []) ++
      History.ticketsOf (Function.update h.ticket d.id h.accepted) kind session.pendingDeliveries =
        if kind ∈ d.kinds then [h.accepted]
        else History.ticketsOf h.ticket kind session.pendingDeliveries := by
    intro kind
    rw [Function.update_self, ticketsOf_update hothers]
    split_ifs with hkind
    · have hnone := earlier_of_open (List.append_nil session.pendingDeliveries).symm hothers hkept
        hopen hkind
      rw [ticketsOf_nil_of hnone, List.append_nil]
    · rfl
  have hold : ∀ kind, (h.landedTickets kind ++
      History.ticketsOf h.ticket kind session.pendingDeliveries).Sublist (h.queue kind) :=
    fun kind => (List.Sublist.refl _).append (ticketsOf_sublist (keys_sublist hsub))
  apply (hi.accept hunpending).land hnew nowMs hsound hclear hseen hfilled hdeliv hundel
    hstamps
  · intro kind
    show (h.landedTickets kind ++ _).Pairwise (· < ·)
    rw [hqueue]
    split_ifs
    · exact (hi.nextTicket (List.sublist_append_left _ _)).1
    · exact (hi.ordered kind).sublist (hold kind)
  · intro kind n hn
    have hn : n ∈ h.landedTickets kind ++ _ := hn
    rw [hqueue] at hn
    show n < h.accepted + 1
    split_ifs at hn
    · exact (hi.nextTicket (List.sublist_append_left _ _)).2 n hn
    · exact Nat.lt_succ_of_lt (hi.numbered kind n ((hold kind).subset hn))

theorem Inv.enqueueLast (hi : Inv h)
    (hsound : Sound { session with
      pendingDeliveries := session.pendingDeliveries ++ [d] : ChatSession }.ledger)
    (hdeliv : session.deliveredDeliveryIds = h.session.deliveredDeliveryIds)
    (hstamps : stampsOf session.messages = stampsOf h.session.messages)
    (hsub : session.pendingDeliveries.Sublist h.session.pendingDeliveries)
    (hunpending : ∀ e ∈ h.session.pendingDeliveries, e.id ≠ d.id) : Inv (({ h with
      accepted := h.accepted + 1
      ticket := Function.update h.ticket d.id h.accepted } : History).record
        { session with pendingDeliveries := session.pendingDeliveries ++ [d] } []) := by
  have hqueue : ∀ kind, (({ h with
      accepted := h.accepted + 1
      ticket := Function.update h.ticket d.id h.accepted } : History).record
        { session with pendingDeliveries := session.pendingDeliveries ++ [d] } []).queue kind =
      (h.landedTickets kind ++ History.ticketsOf h.ticket kind session.pendingDeliveries) ++
        if kind ∈ d.kinds then [h.accepted] else [] := by
    intro kind
    simp only [History.queue, History.record, History.landedTickets, List.map_nil, List.append_nil]
    rw [ticketsOf_append, ticketsOf_update fun e he => hunpending e (hsub.subset he),
      ticketsOf_cons, Function.update_self, List.append_assoc]
    rfl
  have hold : ∀ kind, (h.landedTickets kind ++
      History.ticketsOf h.ticket kind session.pendingDeliveries).Sublist (h.queue kind) :=
    fun kind => (List.Sublist.refl _).append (ticketsOf_sublist (keys_sublist hsub))
  have hlanded : (({ h with
      accepted := h.accepted + 1
      ticket := Function.update h.ticket d.id h.accepted } : History).record
        { session with pendingDeliveries := session.pendingDeliveries ++ [d] } []).landed =
      h.landed := List.append_nil _
  constructor
  · exact hsound
  · rw [hlanded]
    exact hi.once
  · rw [hlanded]
    intro entry hentry
    show _ ∈ session.deliveredDeliveryIds
    rw [hdeliv]
    exact hi.landed entry hentry
  · rw [hlanded]
    intro entry hentry
    show (stampsOf session.messages).count _ = _
    rw [hstamps]
    exact hi.counted entry hentry
  · rw [hlanded]
    exact hi.undropped
  · intro kind
    rw [hqueue]
    split_ifs
    · exact (hi.nextTicket (hold kind)).1
    · rw [List.append_nil]
      exact (hi.ordered kind).sublist (hold kind)
  · intro kind n hn
    show n < h.accepted + 1
    rw [hqueue] at hn
    split_ifs at hn
    · exact (hi.nextTicket (hold kind)).2 n hn
    · rw [List.append_nil] at hn
      exact Nat.lt_succ_of_lt (hi.numbered kind n ((hold kind).subset hn))

include hnew in
theorem Inv.enqueued (hi : Inv h) {nowMs : ℕ}
    {r : ChatSession × List Landing × Except String DeliveryOutcome}
    (hr : EnqueueCase cfg nowMs h.session d r) : Inv ((h.accept d.id r.2.2).record r.1 r.2.1) := by
  cases hr with
  | refused error => exact hi.same
  | duplicate => exact hi.same
  | @accepted d' _ hunk hfilled hsame hr =>
    obtain ⟨hclear, hundel⟩ := clear_of_unknown hunk
    have hsound := hi.sound.see d.id
    rw [← hsame.id] at hclear hundel
    have hfilled' : d'.messages ≠ [] := hsame.messages ▸ hfilled
    have hseen : d'.id ∈ d.id :: h.session.seenIds := hsame.id ▸ List.mem_cons_self
    generalize hsession :
      ({ h.session with seenIds := d.id :: h.session.seenIds } : ChatSession) = session at hr hsound
    have hdrop := dropPending_eq cfg session d'.supersedes .superseded
    have hclear' : (session.supersedePending cfg d').ledger.Clear d'.id := by
      apply clear_dropPending
      subst hsession
      exact hclear
    have hsound' : Sound (session.supersedePending cfg d').ledger :=
      hsound.dropPending cfg _ _
    have hkept : ∀ e ∈ (session.supersedePending cfg d').pendingDeliveries,
        d'.supersedes e = false := fun e he => supersedes_supersedePending cfg he
    obtain ⟨records, heq, -⟩ := hdrop
    rw [← ChatSession.supersedePending] at heq
    rw [← hsame.id]
    cases hr with
    | expired =>
      subst hsession
      exact hi.shrink (hsound.recordDropped cfg _ hclear.1 hundel hseen) (fun _ hid => hid)
        rfl (List.Sublist.refl _)
    | full error =>
      subst hsession
      exact hi.shrink hsound (fun _ hid => hid) rfl (List.Sublist.refl _)
    | landed hopen =>
      have hsub : (session.supersedePending cfg d').pendingDeliveries.Sublist
          h.session.pendingDeliveries := by
        rw [heq, ← hsession]
        exact List.filter_sublist
      apply hi.landNow hnew nowMs hsound' hclear' _ hfilled' _ _ _ hsub hclear.1 hkept hopen <;>
        rw [heq, ← hsession]
      · exact hseen
      · exact hundel
    | queued =>
      have hsub : (session.supersedePending cfg d').pendingDeliveries.Sublist
          h.session.pendingDeliveries := by
        rw [heq, ← hsession]
        exact List.filter_sublist
      have hpushed := hsound'.push hclear' (by rw [heq, ← hsession]; exact hundel)
        (by rw [heq, ← hsession]; exact hseen) hfilled' hkept
      have hlast := hi.enqueueLast hpushed (by rw [heq, ← hsession]) (by rw [heq, ← hsession]) hsub
        hclear.1
      exact hlast.of_ledger (ledger_interruptWait _)

variable (cfg) in
theorem Inv.update {h : History} (hi : Inv h) (nowMs : ℕ) (deliveryId : String)
    (push : Option PushMode) (cancel : Bool) :
    Inv (h.step cfg nowMs (.update deliveryId push cancel)) := by
  have hsame : Inv (h.record h.session []) := hi.same
  show Inv (h.record (h.session.updatePendingDelivery cfg deliveryId push cancel).1 [])
  unfold ChatSession.updatePendingDelivery
  split
  · split_ifs <;> exact hsame
  · rename_i earlier d later hsplit
    have hpend : h.session.pendingDeliveries = earlier ++ d :: later :=
      (splitFirst_some hsplit).1
    have htaken := hi.sound.taken hpend
    split_ifs
    · unfold ChatSession.cancelPending
      split_ifs
      · exact hsame
      · have hsound := htaken.sound.recordDropped cfg .failed htaken.clear.1
          (hi.sound.undelivered d htaken.mem) (hi.sound.seenPending d htaken.mem)
        exact hi.shrink hsound (fun _ hid => hid) rfl (keys_sublist htaken.sublist)
    · split
      · exact hsame
      · rename_i push
        dsimp only
        have hkeys : History.keys (earlier ++ { d with push := push } :: later) =
            History.keys h.session.pendingDeliveries := by
          rw [hpend]
          simp only [History.keys, List.map_append, List.map_cons, PendingDelivery.kinds]
        have hsound := hi.sound.reprioritise hpend push
        exact (hi.shrink hsound (fun _ hid => hid) rfl
          (hkeys.symm ▸ List.Sublist.refl _)).of_ledger (ledger_interruptWait _)

variable (cfg) in
theorem Inv.dropSealed (hi : Inv h) (nowMs : ℕ) (id : String) :
    Inv (h.step cfg nowMs (.dropSealed id)) := by
  show Inv (h.record (h.session.dropSealedDelivery cfg id).1 [])
  unfold ChatSession.dropSealedDelivery
  split_ifs with hknown
  · exact hi.same
  · rw [Bool.not_eq_true] at hknown
    obtain ⟨hclear, hundel⟩ := clear_of_unknown hknown
    exact hi.shrink ((hi.sound.see id).recordDropped cfg _ hclear.1 hundel List.mem_cons_self)
      (fun _ hid => hid) rfl (List.Sublist.refl _)

theorem ledger_turnedInto (session next : ChatSession) :
    (session.turnedInto next).ledger = session.ledger := by
  have hstamps : stampsOf (session.turnedInto next).messages = stampsOf session.messages := by
    unfold ChatSession.turnedInto
    dsimp only
    split_ifs with hsame
    · exact hsame
    · rfl
  rw [ChatSession.ledger, hstamps]
  rfl

theorem Inv.other (hi : Inv h) (next : ChatSession) (nowMs : ℕ) :
    Inv (h.step cfg nowMs (.other next)) := by
  have hother := hi.of_ledger (ledger_turnedInto h.session next)
  simpa only [History.step, History.record, List.map_nil, List.append_nil] using hother

variable {deliveries : List PendingDelivery}

theorem firstOfEach_of_nodup (h : (deliveries.map PendingDelivery.id).Nodup) :
    ChatSession.firstOfEach deliveries = deliveries := by
  induction deliveries with
  | nil => rfl
  | cons d deliveries ih =>
    rw [List.map_cons, List.nodup_cons] at h
    rw [ChatSession.firstOfEach, ih h.2, List.filter_eq_self.mpr]
    intro e he
    rw [decide_eq_true_eq]
    exact fun heq => h.1 (heq ▸ List.mem_map_of_mem he)

variable (cfg) in
theorem mergeDropped_eq (session : ChatSession) (records : List DeliveryStatusRecord) :
    ∃ merged, session.mergeDroppedDeliveries cfg records =
        { session with droppedDeliveries := merged } ∧
      ∀ r ∈ merged, r ∈ session.droppedDeliveries ∨ r ∈ records := by
  unfold ChatSession.mergeDroppedDeliveries
  induction records generalizing session with
  | nil => exact ⟨_, rfl, fun _ hr => Or.inl hr⟩
  | cons record records ih =>
    obtain ⟨merged, heq, hmerged⟩ := ih (session.recordDroppedDelivery cfg record.id record.status)
    refine ⟨merged, heq, fun r hr => ?_⟩
    rcases hmerged r hr with hr | hr
    · rcases mem_recordDropped cfg hr with hr | rfl
      · exact Or.inl hr
      · exact Or.inr List.mem_cons_self
    · exact Or.inr (List.mem_cons_of_mem _ hr)

structure Restored (session session' : ChatSession) (deliveries : List PendingDelivery) :
    Prop where
  sound : Sound session'.ledger
  delivered : session'.deliveredDeliveryIds = session.deliveredDeliveryIds
  messages : session'.messages = session.messages
  seen : session'.seenIds = session.seenIds
  keys : (History.keys session'.pendingDeliveries).Sublist
    (History.keys session.pendingDeliveries ++ History.keys deliveries)
  records : ∀ r ∈ session'.droppedDeliveries, r ∈ session.droppedDeliveries ∨
    (∃ d ∈ session.pendingDeliveries, d.id = r.id) ∨ ∃ d ∈ deliveries, d.id = r.id

variable (cfg) in
theorem restore_restored (nowMs : ℕ) (seen : List String) (h : Sound session.ledger)
    (hnodup : (deliveries.map PendingDelivery.id).Nodup)
    (hclear : ∀ d ∈ deliveries, session.ledger.Clear d.id)
    (hseen : ∀ d ∈ deliveries, d.id ∈ session.seenIds) : Restored session
      (deliveries.foldl (ChatSession.restoreDelivery cfg nowMs) (session, seen)).1 deliveries := by
  induction deliveries generalizing session seen with
  | nil => exact ⟨h, rfl, rfl, rfl, by simp [History.keys], fun _ hr => Or.inl hr⟩
  | cons d deliveries ih =>
    rw [List.map_cons, List.nodup_cons] at hnodup
    have hrest : ∀ e ∈ deliveries, session.ledger.Clear e.id := fun e he =>
      hclear e (List.mem_cons_of_mem _ he)
    have hseenRest : ∀ e ∈ deliveries, e.id ∈ session.seenIds := fun e he =>
      hseen e (List.mem_cons_of_mem _ he)
    have hne : ∀ e ∈ deliveries, d.id ≠ e.id := fun e he heq =>
      hnodup.1 (heq ▸ List.mem_map_of_mem he)
    have hd := hclear d List.mem_cons_self
    have hdseen := hseen d List.mem_cons_self
    have hsame := retimed_ensureRestoredTtl d nowMs cfg.deliveryDefaultTtlSecs
    rw [List.foldl_cons, ChatSession.restoreDelivery]
    dsimp only
    generalize d.ensureRestoredTtlSecs nowMs cfg.deliveryDefaultTtlSecs = d' at hsame ⊢
    rw [← hsame.id] at hd hdseen
    split_ifs with hskip hexp
    · obtain ⟨hsound, hdeliv, hmsgs, hids, hkeys, hrecs⟩ :=
        ih seen h hnodup.2 hrest hseenRest
      refine ⟨hsound, hdeliv, hmsgs, hids, hkeys.trans ?_, fun r hr => ?_⟩
      · exact (List.Sublist.refl _).append (List.sublist_cons_self _ _)
      · rcases hrecs r hr with hr | hr | ⟨e, he, heq⟩
        · exact Or.inl hr
        · exact Or.inr (Or.inl hr)
        · exact Or.inr (Or.inr ⟨e, List.mem_cons_of_mem _ he, heq⟩)
    · simp only [Bool.or_eq_true, decide_eq_true_eq, not_or] at hskip
      have hundel : d'.id ∉ session.deliveredDeliveryIds := hsame.id ▸ hskip.1.2
      have hsound := h.recordDropped cfg .expired hd.1 hundel hdseen
      obtain ⟨hsound', hdeliv, hmsgs, hids, hkeys, hrecs⟩ := ih (d.id :: seen) hsound
        hnodup.2 (fun e he => ⟨(hrest e he).1, fun r hr => by
          rcases mem_recordDropped cfg hr with hr | rfl
          · exact (hrest e he).2 r hr
          · rw [hsame.id]
            exact hne e he⟩) hseenRest
      refine ⟨hsound', hdeliv, hmsgs, hids, hkeys.trans ?_, fun r hr => ?_⟩
      · exact (List.Sublist.refl _).append (List.sublist_cons_self _ _)
      · rcases hrecs r hr with hr | hr | ⟨e, he, heq⟩
        · rcases mem_recordDropped cfg hr with hr | rfl
          · exact Or.inl hr
          · exact Or.inr (Or.inr ⟨d, List.mem_cons_self, hsame.id.symm⟩)
        · exact Or.inr (Or.inl hr)
        · exact Or.inr (Or.inr ⟨e, List.mem_cons_of_mem _ he, heq⟩)
    · simp only [Bool.or_eq_true, decide_eq_true_eq, not_or] at hskip
      have hundel : d'.id ∉ session.deliveredDeliveryIds := hsame.id ▸ hskip.1.2
      have hfilled : d'.messages ≠ [] := by
        rw [hsame.messages, ne_eq, ← List.isEmpty_iff]
        exact hskip.1.1
      have hsound : Sound (session.supersedePending cfg d').ledger := h.dropPending cfg _ _
      have hclear' : (session.supersedePending cfg d').ledger.Clear d'.id :=
        clear_dropPending cfg hd _ _
      have hrest' : ∀ e ∈ deliveries, (session.supersedePending cfg d').ledger.Clear e.id :=
        fun e he => clear_dropPending cfg (hrest e he) _ _
      have hkept : ∀ e ∈ (session.supersedePending cfg d').pendingDeliveries,
          d'.supersedes e = false := fun e he => supersedes_supersedePending cfg he
      obtain ⟨records, heq, hdrop⟩ := dropPending_eq cfg session d'.supersedes .superseded
      rw [← ChatSession.supersedePending] at heq
      have hpushed := hsound.push hclear' (by rw [heq]; exact hundel)
        (by rw [heq]; exact hdseen) hfilled hkept
      rw [heq] at hpushed hrest' ⊢
      obtain ⟨hsound', hdeliv, hmsgs, hids, hkeys, hrecs⟩ := ih (d.id :: seen) hpushed
        hnodup.2 (fun e he => ⟨fun x hx => by
          rcases List.mem_append.mp hx with hx | hx
          · exact (hrest' e he).1 x hx
          · rw [List.mem_singleton.mp hx, hsame.id]
            exact hne e he, (hrest' e he).2⟩) hseenRest
      refine ⟨hsound', hdeliv, hmsgs, hids, hkeys.trans ?_, fun r hr => ?_⟩
      · have hkey : History.keys [d'] = [(d.id, d.kinds)] := by
          simp only [History.keys, List.map_cons, List.map_nil, hsame.id, hsame.kinds]
        show (History.keys (List.filter _ _ ++ [d']) ++ _).Sublist _
        rw [History.keys, List.map_append, ← History.keys, ← History.keys, hkey, List.append_assoc]
        exact (keys_sublist List.filter_sublist).append (List.Sublist.refl _)
      · rcases hrecs r hr with hr | ⟨e, he, heq⟩ | ⟨e, he, heq⟩
        · rcases hdrop r hr with hr | hr
          · exact Or.inl hr
          · obtain ⟨e, he, heq⟩ := List.mem_map.mp hr
            exact Or.inr (Or.inl ⟨e, (List.mem_filter.mp he).1, heq⟩)
        · rcases List.mem_append.mp he with he | he
          · exact Or.inr (Or.inl ⟨e, (List.mem_filter.mp he).1, heq⟩)
          · rw [List.mem_singleton.mp he, hsame.id] at heq
            exact Or.inr (Or.inr ⟨d, List.mem_cons_self, heq⟩)
        · exact Or.inr (Or.inr ⟨e, List.mem_cons_of_mem _ he, heq⟩)

variable {records : List DeliveryStatusRecord}

theorem Sound.withRecords (h : Sound session.ledger)
    (hundropped : ∀ d ∈ session.pendingDeliveries, ∀ r ∈ records, r.id ≠ d.id)
    (hapart : ∀ r ∈ records, r.id ∉ session.deliveredDeliveryIds)
    (hseen : ∀ r ∈ records, r.id ∈ session.seenIds) :
    Sound { session with droppedDeliveries := records : ChatSession }.ledger where
  nodup := h.nodup
  undelivered := h.undelivered
  undropped := hundropped
  apart := hapart
  stamped := h.stamped
  filled := h.filled
  current := h.current
  seenPending := h.seenPending
  seenDelivered := h.seenDelivered
  seenDropped := hseen
  noRunner := h.noRunner

theorem Sound.reopened {saved : ChatSession} (h : Sound saved.ledger) (fresh : ChatSession)
    (hrecs : ∀ r ∈ records, r ∈ saved.droppedDeliveries) :
    Sound { fresh.reopened saved with
      deliveredDeliveryIds := ∅ ∪ (stampsOf saved.messages).toFinset
      droppedDeliveries := records : ChatSession }.ledger := by
  have hids : ∀ id, id ∈ ∅ ∪ (stampsOf saved.messages).toFinset ↔
      id ∈ saved.deliveredDeliveryIds := by
    intro id
    rw [Finset.empty_union, List.mem_toFinset]
    exact (h.stamped id).symm
  constructor
  · exact List.nodup_nil
  · exact List.forall_mem_nil _
  · exact List.forall_mem_nil _
  · exact fun r hr hin => h.apart r (hrecs r hr) ((hids r.id).mp hin)
  · exact fun id => (hids id).trans (h.stamped id)
  · exact List.forall_mem_nil _
  · exact List.forall_mem_nil _
  · exact List.forall_mem_nil _
  · exact fun id hid => h.seenDelivered id ((hids id).mp hid)
  · exact fun r hr => h.seenDropped r (hrecs r hr)
  · rfl

variable (cfg) in
theorem Inv.restart (hi : Inv h) (nowMs : ℕ) (fresh : ChatSession) (mergeFirst : Bool) :
    Inv (h.step cfg nowMs (.restart fresh mergeFirst)) := by
  have hsnapshot : h.session.pendingDeliveriesForSnapshot = h.session.pendingDeliveries := by
    have hrunner : h.session.runnerPendingDeliveries = [] := hi.sound.noRunner
    rw [ChatSession.pendingDeliveriesForSnapshot, hrunner, List.append_nil]
    exact firstOfEach_of_nodup hi.sound.nodup
  have hdeliv : ∀ id, id ∈ h.session.deliveredDeliveryIds ↔
      id ∈ ∅ ∪ (stampsOf h.session.messages).toFinset := by
    intro id
    rw [Finset.empty_union, List.mem_toFinset]
    exact hi.sound.stamped id
  show Inv (h.record (ChatSession.restarted cfg nowMs fresh h.session mergeFirst) [])
  unfold ChatSession.restarted
  dsimp only
  rw [hsnapshot]
  split_ifs
  · obtain ⟨merged, heq, hmerged⟩ := mergeDropped_eq cfg (fresh.reopened h.session)
      h.session.droppedDeliveriesForSnapshot
    have hold : ∀ r ∈ merged, r ∈ h.session.droppedDeliveries := fun r hr =>
      (hmerged r hr).resolve_left List.not_mem_nil
    rw [heq]
    obtain ⟨hsound, hsame, hmsgs, -, hkeys, -⟩ := restore_restored cfg nowMs []
      (hi.sound.reopened fresh hold) hi.sound.nodup
      (fun d hd => ⟨List.forall_mem_nil _, fun r hr => hi.sound.undropped d hd r (hold r hr)⟩)
      hi.sound.seenPending
    apply hi.shrink hsound
    · exact fun id hid => hsame.symm ▸ (hdeliv id).mp hid
    · exact congrArg stampsOf hmsgs
    · exact hkeys
  · obtain ⟨merged, heq, hmerged⟩ := mergeDropped_eq cfg
      ((fresh.reopened h.session).restorePendingDeliveries cfg nowMs h.session.pendingDeliveries)
      h.session.droppedDeliveriesForSnapshot
    rw [heq]
    obtain ⟨hsound, hsame, hmsgs, hseen, hkeys, hrecs⟩ := restore_restored cfg nowMs []
      (hi.sound.reopened fresh (fun r hr => absurd hr List.not_mem_nil)) hi.sound.nodup
      (fun d hd => ⟨List.forall_mem_nil _, List.forall_mem_nil _⟩) hi.sound.seenPending
    -- what was dropped before is neither pending nor delivered now
    have hpend : ∀ d ∈ ((fresh.reopened h.session).restorePendingDeliveries cfg nowMs
        h.session.pendingDeliveries).pendingDeliveries,
        ∃ e ∈ h.session.pendingDeliveries, e.id = d.id := by
      intro d hd
      obtain ⟨e, he, hkey⟩ := List.mem_map.mp (hkeys.subset (List.mem_map_of_mem hd))
      exact ⟨e, he, congrArg Prod.fst hkey⟩
    have hsound' : Sound { (fresh.reopened h.session).restorePendingDeliveries cfg nowMs
        h.session.pendingDeliveries with droppedDeliveries := merged : ChatSession }.ledger := by
      apply hsound.withRecords
      · intro d hd r hr
        rcases hmerged r hr with hr | hr
        · exact hsound.undropped d hd r hr
        · obtain ⟨e, he, hid⟩ := hpend d hd
          rw [← hid]
          exact hi.sound.undropped e he r hr
      · intro r hr
        rcases hmerged r hr with hr | hr
        · exact hsound.apart r hr
        · exact fun hin => hi.sound.apart r hr ((hdeliv r.id).mpr
            ((Finset.ext_iff.mp hsame r.id).mp hin))
      · intro r hr
        rcases hmerged r hr with hr | hr
        · exact hsound.seenDropped r hr
        · rw [hseen]
          exact hi.sound.seenDropped r hr
    apply hi.shrink hsound'
    · exact fun id hid => hsame.symm ▸ (hdeliv id).mp hid
    · exact congrArg stampsOf hmsgs
    · exact hkeys

include hnew in
theorem Inv.step (hi : Inv h) (nowMs : ℕ) (op : Op) : Inv (h.step cfg nowMs op) := by
  cases op with
  | enqueue d => exact hi.enqueued hnew (enqueueDelivery_case cfg nowMs hi.sound.nodup d)
  | queuePostTool d =>
    have hcase := enqueueDelivery_case cfg nowMs hi.sound.nodup
      { d with afterToolCallId := some h.session.lastOpenToolCall }
    have hqueued := hi.enqueued hnew hcase
    exact hqueued
  | drain => exact hi.drain hnew nowMs
  | update deliveryId push cancel => exact hi.update cfg nowMs deliveryId push cancel
  | dropSealed id => exact hi.dropSealed cfg nowMs id
  | restart fresh mergeFirst => exact hi.restart cfg nowMs fresh mergeFirst
  | other next => exact hi.other next nowMs

theorem Inv.start (session : ChatSession) : Inv (History.start session) := by
  have hsound : Sound (History.start session).session.ledger := by
    constructor
    · exact List.nodup_nil
    · exact List.forall_mem_nil _
    · exact List.forall_mem_nil _
    · exact List.forall_mem_nil _
    · exact fun id => List.mem_toFinset
    · exact List.forall_mem_nil _
    · exact List.forall_mem_nil _
    · exact List.forall_mem_nil _
    · exact fun id => List.mem_toFinset.mp
    · exact List.forall_mem_nil _
    · rfl
  exact ⟨hsound, List.nodup_nil, List.forall_mem_nil _, List.forall_mem_nil _,
    List.forall_mem_nil _, fun _ => List.Pairwise.nil, fun _ => List.forall_mem_nil _⟩

include hnew in
theorem Inv.run (session : ChatSession) (ops : List (ℕ × Op)) :
    Inv (History.run cfg session ops) := by
  have hfold : ∀ h : History, Inv h →
      Inv (ops.foldl (fun h op => h.step cfg op.1 op.2) h) := by
    induction ops with
    | nil => exact fun h hi => hi
    | cons op ops ih => exact fun h hi => ih _ (hi.step hnew op.1 op.2)
  exact hfold _ (Inv.start session)

include hnew in
/-- After any operations an id is in one place; its messages have been appended at most once, and
not while there was a record of it being dropped; controls land in the order of their numbers. -/
theorem run_orderly (session : ChatSession) (ops : List (ℕ × Op)) :
    ((History.run cfg session ops).session.pendingDeliveries.map PendingDelivery.id).Nodup ∧
    (∀ d ∈ (History.run cfg session ops).session.pendingDeliveries,
      d.id ∉ (History.run cfg session ops).session.deliveredDeliveryIds ∧
      ∀ r ∈ (History.run cfg session ops).session.droppedDeliveries, r.id ≠ d.id) ∧
    (∀ r ∈ (History.run cfg session ops).session.droppedDeliveries,
      r.id ∉ (History.run cfg session ops).session.deliveredDeliveryIds) ∧
    ((History.run cfg session ops).landed.map fun entry => entry.2.delivery.id).Nodup ∧
    (∀ entry ∈ (History.run cfg session ops).landed,
      (stampsOf (History.run cfg session ops).session.messages).count entry.2.delivery.id =
          entry.2.delivery.messages.length ∧
        ∀ r ∈ entry.2.before.droppedDeliveries, r.id ≠ entry.2.delivery.id) ∧
    ∀ kind, ((History.run cfg session ops).landedTickets kind).Pairwise (· < ·) := by
  have hi := Inv.run hnew session ops
  refine ⟨hi.sound.nodup, fun d hd => ⟨hi.sound.undelivered d hd, hi.sound.undropped d hd⟩,
    hi.sound.apart, hi.once, fun entry hentry => ⟨hi.counted entry hentry,
      hi.undropped entry hentry⟩, fun kind => ?_⟩
  exact (hi.ordered kind).sublist (List.sublist_append_left _ _)

end Steps

def longerId (used : List String) : String :=
  String.ofList (List.replicate ((used.map String.length).sum + 1) 'u')

theorem longerId_notMem (used : List String) : longerId used ∉ used := by
  intro h
  have hle := List.le_sum_of_mem (List.mem_map_of_mem (f := String.length) h)
  rw [longerId, String.length_ofList, List.length_replicate] at hle
  omega

def defaults : Settings where
  deliveryDefaultTtlSecs := 86400
  deliveryMaxPending := 4096
  deliveryStatusRetention := 16384
  maxQueueSize := 100
  newId := longerId
  modeId mode := mode

def answering : ChatSession where
  closed := false
  messages := []
  draft := true
  state := .generating
  turnDepth := 1
  compressing := false
  plannerPaused := false
  plannerPausePendingTools := false
  waitDeliveryBoundary := false
  interruptibleWaits := 0
  waitToolWindowActive := false
  commandsQueued := false
  mode := "agent"
  model := ""
  pendingDeliveries := []
  runnerPendingDeliveries := []
  postToolSideEffects := []
  deliveredDeliveryIds := ∅
  droppedDeliveries := []
  seenIds := []

def goalDelivery (id : String) (push : PushMode) : PendingDelivery where
  afterToolCallId := none
  threadPatch := none
  id := id
  messages := [{ messageId := "", role := "goal", toolCalls := none, toolCallId := "",
                 subkind := none, delivery := none, mark := .plain }]
  push := push
  source := "test"
  wake := false
  enqueuedAtMs := 1
  expiresAtMs := none
  supersedeKey := none

/-- A goal that would interrupt the answer waits for the one before it, and the two land in order
when the first one has been made urgent. -/
def urgentGoals : List (ℕ × Op) :=
  [(1, .enqueue (goalDelivery "first" .whenIdle)), (2, .enqueue (goalDelivery "second" .preempt)),
    (3, .drain), (4, .update "first" (some .preempt) false), (5, .drain)]

theorem urgentGoals_orderly :
    (History.run defaults answering urgentGoals).landed.map (fun entry => entry.2.delivery.id) =
        ["first", "second"] ∧
      ∀ kind, ((History.run defaults answering urgentGoals).landedTickets kind).Pairwise (· < ·) :=
  ⟨by decide, (run_orderly longerId_notMem answering urgentGoals).2.2.2.2.2⟩

end SessionDeliveries
