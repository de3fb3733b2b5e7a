import RefactEngine.ChatDelivery
import RefactEngine.DeliveryOrder

/-! # The outbox follows the session

After each call the rows of a chat say what the session reports, as long as deliveries leave the
queue only by calls that tell the outbox.
-/
namespace ChatDelivery

open SessionDeliveries List
open AgentDeliveries (DeliveryOutcome PushMode)
open DeliveryOutbox (DeliveryState DeliveryStatus DeliveryOutboxRecord OutboxTable getOutboxMessage
  listOutboxMessagesInStates recover stateForStatus)

inductive Call where
  | deliver (request : Request)
  | update (deliveryId : String) (push : Option PushMode) (cancel : Bool)
  | drain
  | turn (next : ChatSession)

/-- The ids that were accepted into the outbox, and what the session reported last of each. -/
structure World where
  session : ChatSession
  table : OutboxTable
  accepted : List String
  reported : String → DeliveryStatus

def unstamped (message : ChatMessage) : ChatMessage := { message with delivery := none }

def latest (reported status : DeliveryStatus) : DeliveryStatus :=
  if status = .unknown then reported else status

namespace World

def returns (w : World) (session : ChatSession) (table : OutboxTable) (accepted : List String) :
    World where
  session := session
  table := table
  accepted := accepted
  reported id := if id ∈ accepted then latest (w.reported id) (session.deliveryStatus id)
    else .unknown

def step (cfg : Settings) (outbox : Outbox) (w : World) (nowMs : ℕ) : Call → World
  | .deliver request =>
    let session := { w.session with seenIds := request.delivery.id :: w.session.seenIds }
    let result := deliverToChat cfg outbox nowMs session w.table request
    w.returns result.1 result.2.1
      (if (entryError outbox session request.delivery).isNone then request.delivery.id :: w.accepted
      else w.accepted)
  | .update deliveryId push cancel =>
    let result := updatePendingDeliveryInChat cfg outbox nowMs w.session w.table deliveryId push
      cancel
    w.returns result.1 result.2.1 w.accepted
  | .drain =>
    let result := drainDeliveriesAtBoundary cfg outbox nowMs w.session w.table
    w.returns result.1 result.2 w.accepted
  | .turn next =>
    w.returns { w.session.turnedInto next with
      postToolSideEffects := next.postToolSideEffects.map unstamped } w.table w.accepted

/-- A chat that nothing has been delivered to since it was loaded. -/
def start (session : ChatSession) : World where
  session := { (History.start session).session with postToolSideEffects := [] }
  table := ∅
  accepted := []
  reported _ := .unknown

def run (cfg : Settings) (outbox : Outbox) (session : ChatSession) (calls : List (ℕ × Call)) :
    World :=
  calls.foldl (fun w call => w.step cfg outbox call.1 call.2) (start session)

end World

/-- What is no longer pending is settled as it was reported, and only what is pending is
redelivered. -/
structure Mirrors (outbox : Outbox) (w : World) : Prop where
  settled : ∀ id ∈ w.accepted, ∃ held, outbox.stateOf w.table id = some held ∧
    (w.session.deliveryStatus id ≠ .pending → held.isTerminal = true ∧
      (w.reported id ≠ .unknown → stateForStatus (w.reported id) = some held))
  redelivered : ∀ decode limit, ∀ entry ∈ (recover decode w.table outbox.project limit).redeliver,
    ∃ id record, outbox.row w.table id = some record ∧ decode record.payload = some entry.2 ∧
      w.session.deliveryStatus id = .pending

/-- How a row may be settled already when the session makes something new of a delivery. -/
def Reception.settledAs : Reception → Option DeliveryState
  | .sealed => some .failed
  | .expired => some .expired
  | .lands => some .delivered
  | _ => none

/-- A refusal is of a delivery that the session does not know or has failed. What is new to the
session is new to the outbox, or has the same end. What is superseded has no row. -/
structure DeliverFits (cfg : Settings) (outbox : Outbox) (w : World) (nowMs : ℕ)
    (request : Request) : Prop where
  refused : reception cfg nowMs w.session request = .refused →
    w.session.deliveryStatus request.delivery.id ≠ .pending ∧ (request.delivery.id ∉ w.accepted →
      w.session.deliveryStatus request.delivery.id = .unknown ∨
        stateForStatus (w.session.deliveryStatus request.delivery.id) = some .failed)
  fresh : reception cfg nowMs w.session request ≠ .refused →
    reception cfg nowMs w.session request ≠ .duplicate →
    ∀ held, outbox.stateOf w.table request.delivery.id = some held → held.isTerminal = true →
      (reception cfg nowMs w.session request).settledAs = some held
  supersedes : (reception cfg nowMs w.session request).enters = true →
    ∀ d ∈ w.session.pendingDeliveries, request.delivery.supersedes d = true → d.id ∉ w.accepted

/-- If something has expired then something lands, and the session remembers what has expired. -/
def DrainFits (cfg : Settings) (accepted : List String) (nowMs : ℕ) (session : ChatSession) :
    Prop :=
  (∃ d ∈ session.pendingDeliveries, d.isExpiredAt nowMs = true ∧ d.id ∈ accepted) →
    (session.pendingDeliveries.filter (·.isExpiredAt nowMs)).length ≤
        cfg.deliveryStatusRetention ∧
      ∃ d ∈ (session.unexpired nowMs).pendingDeliveries,
        (session.unexpired nowMs).deliveryEnvelopeBoundaryOpen d = true

def Fits (cfg : Settings) (outbox : Outbox) (w : World) (nowMs : ℕ) : Call → Prop
  | .deliver request => entryError outbox w.session request.delivery = none →
    DeliverFits cfg outbox w nowMs request
  | .update deliveryId push cancel =>
    (cancel = true → w.session.cancels deliveryId = true → deliveryId ∉ w.accepted) ∧
      ((w.session.updatePendingDelivery cfg deliveryId push cancel).2 = .ok true →
        DrainFits cfg w.accepted nowMs (drainPostToolSideEffects cfg nowMs
          (w.session.updatePendingDelivery cfg deliveryId push cancel).1))
  | .drain => DrainFits cfg w.accepted nowMs (drainPostToolSideEffects cfg nowMs w.session)
  | .turn _ => True

def AllFit (cfg : Settings) (outbox : Outbox) : World → List (ℕ × Call) → Prop
  | _, [] => True
  | w, (nowMs, call) :: calls =>
    Fits cfg outbox w nowMs call ∧ AllFit cfg outbox (w.step cfg outbox nowMs call) calls

/-- A row agrees with what the session reports of a delivery now and what it reported last. -/
structure Agrees (status reported : DeliveryStatus) (held : DeliveryState) : Prop where
  latest : status ≠ .unknown → reported = status
  pending : status = .pending → held = .pending
  settled : status ≠ .pending → held.isTerminal = true ∧
    (reported ≠ .unknown → stateForStatus reported = some held)

variable {held : DeliveryState} {status : DeliveryStatus}

theorem Agrees.reported {reported : DeliveryStatus} (h : Agrees status reported held) :
    Agrees status (ChatDelivery.latest reported status) held := by
  have hsame : ChatDelivery.latest reported status = reported := by
    unfold ChatDelivery.latest
    split_ifs with hunknown
    · rfl
    · exact (h.latest hunknown).symm
  rwa [hsame]

theorem Agrees.steady {session session' : ChatSession} {id : String} {reported : DeliveryStatus}
    (h : Agrees (session.deliveryStatus id) reported held) (hs : Steady session session' id) :
    Agrees (session'.deliveryStatus id) reported held := by
  rcases hs with heq | ⟨hpending, hunknown⟩
  · rwa [heq]
  · obtain ⟨hterminal, hreported⟩ := h.settled hpending
    rw [hunknown]
    exact ⟨fun hne => absurd rfl hne, nofun, fun _ => ⟨hterminal, hreported⟩⟩

theorem agrees_told (hstatus : status ≠ .unknown) (hheld : held.isTerminal = false) :
    Agrees status status (told held status) := by
  cases held <;> try cases hheld
  all_goals cases status <;> first | exact absurd rfl hstatus | constructor <;> decide

theorem agrees_settled (hstate : stateForStatus status = some held) (hheld : held.isTerminal =
      true) :
    Agrees status status held := by
  refine ⟨fun _ => rfl, ?_, fun _ => ⟨hheld, fun _ => hstate⟩⟩
  rintro rfl
  obtain rfl := Option.some.inj hstate
  cases hheld

def Unstamped (session : ChatSession) : Prop :=
  ∀ message ∈ session.postToolSideEffects, message.delivery = none

structure WInv (outbox : Outbox) (w : World) : Prop where
  tidy : Tidy w.session
  unstamped : Unstamped w.session
  keyed : Keyed w.table
  seen : ∀ id ∈ w.accepted, id ∈ w.session.seenIds
  rows : ∀ id held, outbox.stateOf w.table id = some held → id ∈ w.accepted
  agrees : ∀ id ∈ w.accepted, ∃ held, outbox.stateOf w.table id = some held ∧
    Agrees (w.session.deliveryStatus id) (w.reported id) held
  unreported : ∀ id, id ∉ w.accepted → w.reported id = .unknown

structure Left (outbox : Outbox) (reported : String → DeliveryStatus) (session : ChatSession)
    (table : OutboxTable) (accepted : List String) : Prop where
  tidy : Tidy session
  unstamped : Unstamped session
  keyed : Keyed table
  seen : ∀ id ∈ accepted, id ∈ session.seenIds
  rows : ∀ id held, outbox.stateOf table id = some held → id ∈ accepted
  agrees : ∀ id ∈ accepted, ∃ held, outbox.stateOf table id = some held ∧
    Agrees (session.deliveryStatus id) (latest (reported id) (session.deliveryStatus id)) held

theorem Left.returns {outbox : Outbox} {w : World} {session : ChatSession} {table : OutboxTable}
    {accepted : List String} (h : Left outbox w.reported session table accepted) :
    WInv outbox (w.returns session table accepted) := by
  refine ⟨h.tidy, h.unstamped, h.keyed, h.seen, h.rows, fun id hid => ?_, fun id hid => if_neg hid⟩
  obtain ⟨held, hheld, hagrees⟩ := h.agrees id hid
  have hreported : (w.returns session table accepted).reported id =
      latest (w.reported id) (session.deliveryStatus id) := if_pos hid
  rw [hreported]
  exact ⟨held, hheld, hagrees⟩

section Steps

variable {cfg : Settings} {outbox : Outbox} (hnew : ∀ used, cfg.newId used ∉ used)
  (hretention : 1 ≤ cfg.deliveryStatusRetention) {session : ChatSession} {w : World}

theorem WInv.steady (h : WInv outbox w) (hkeeps : Keeps w.session session)
    (hsteady : ∀ id ∈ w.accepted, Steady w.session session id) :
    WInv outbox { w with session := session } := by
  refine ⟨hkeeps.tidy, fun message hmessage => h.unstamped message (hkeeps.effects hmessage),
    h.keyed, fun id hid => hkeeps.seen (h.seen id hid), h.rows, fun id hid => ?_, h.unreported⟩
  obtain ⟨held, hheld, hagrees⟩ := h.agrees id hid
  exact ⟨held, hheld, hagrees.steady (hsteady id hid)⟩

theorem WInv.left {w : World} (h : WInv outbox w) :
    Left outbox w.reported w.session w.table w.accepted := by
  refine ⟨h.tidy, h.unstamped, h.keyed, h.seen, h.rows, fun id hid => ?_⟩
  obtain ⟨held, hheld, hagrees⟩ := h.agrees id hid
  exact ⟨held, hheld, hagrees.reported⟩

include hnew in
theorem goes_drainSideEffects (ht : Tidy session) (hunstamped : Unstamped session) (nowMs : ℕ) :
    Goes session (drainPostToolSideEffects cfg nowMs session) := by
  unfold drainPostToolSideEffects
  split_ifs
  · exact ⟨ht.keeps, fun _ _ => rfl⟩
  · have hemptied : Goes session { session with postToolSideEffects := [] } :=
      ⟨⟨⟨ht.sound, ht.records⟩, fun _ h => h, nil_subset _⟩, fun _ _ => rfl⟩
    exact hemptied.trans (hemptied.tidy.addMessages hnew nowMs hunstamped)

include hnew in
theorem WInv.drain (h : WInv outbox w) (nowMs : ℕ)
    (hfits : DrainFits cfg w.accepted nowMs (drainPostToolSideEffects cfg nowMs w.session)) :
    Left outbox w.reported (drainDeliveriesAtBoundary cfg outbox nowMs w.session w.table).1
      (drainDeliveriesAtBoundary cfg outbox nowMs w.session w.table).2 w.accepted := by
  have hgoes := goes_drainSideEffects hnew h.tidy h.unstamped nowMs
  have hw := h.steady hgoes.toKeeps fun id hid => Or.inl (hgoes.status id (h.seen id hid))
  unfold drainDeliveriesAtBoundary
  dsimp only
  generalize drainPostToolSideEffects cfg nowMs w.session = session at hfits hgoes hw ⊢
  have hspec := hgoes.tidy.drain hnew nowMs
  have hlands := drain_lands cfg hgoes.tidy.sound nowMs
  generalize session.drainPendingDeliveries cfg nowMs = drained at hspec hlands ⊢
  have hunexpired : ∀ id ∈ w.accepted, drained.2 = [] →
      ∀ d ∈ session.pendingDeliveries, d.id = id → d.isExpiredAt nowMs = false := by
    rintro id hid hnone d hd rfl
    rw [← Bool.not_eq_true]
    intro hexpired
    exact hlands (hfits ⟨d, hd, hexpired, hid⟩).2 hnone
  split_ifs with hempty
  · rw [List.isEmpty_iff] at hempty
    have hrest := hw.steady hspec.toKeeps fun id hid => by
      rcases hspec.others id (hw.seen id hid) (hunexpired id hid hempty) with hsteady | ⟨hne, -⟩
      · exact hsteady
      · exact absurd hempty hne
    exact hrest.left
  · rw [List.isEmpty_iff] at hempty
    refine ⟨hspec.tidy, fun message hmessage => hw.unstamped message (hspec.effects hmessage),
      h.keyed.recordAll outbox nowMs _ _,
      fun id hid => hspec.seen (hw.seen id hid), fun id held hheld => ?_, fun id hid => ?_⟩
    · rw [stateOf_recordAll outbox nowMs h.keyed] at hheld
      split_ifs at hheld
      · obtain ⟨before, hbefore, -⟩ := Option.map_eq_some_iff.mp hheld
        exact h.rows id before hbefore
      · exact h.rows id held hheld
    · obtain ⟨held, hheld, hagrees⟩ := hw.agrees id hid
      have hheld : outbox.stateOf w.table id = some held := hheld
      rw [stateOf_recordAll outbox nowMs h.keyed]
      split_ifs with htracked
      · -- what was pending is told what became of it
        obtain ⟨d, hd, rfl⟩ := mem_map.mp htracked
        have hpending := pending_of_mem hgoes.tidy.sound hd
        obtain rfl := hagrees.pending hpending
        have hknown : drained.1.deliveryStatus d.id ≠ .unknown := by
          by_cases hexpired : d.isExpiredAt nowMs = true
          · rw [hspec.expired (hfits ⟨d, hd, hexpired, hid⟩).1 d hd hexpired]
            nofun
          · have hunexpired : ∀ e ∈ session.pendingDeliveries, e.id = d.id →
                e.isExpiredAt nowMs = false := by
              intro e he heq
              obtain rfl := inj_on_of_nodup_map hgoes.tidy.sound.nodup he hd heq
              exact Bool.not_eq_true _ ▸ hexpired
            rcases hspec.others d.id (hw.seen d.id hid) hunexpired with
              (heq | ⟨hne, -⟩) | ⟨-, -, heq⟩
            · rw [heq, hpending]
              nofun
            · exact absurd hpending hne
            · rw [heq]
              nofun
        refine ⟨_, congrArg _ hheld, ?_⟩
        rw [latest, if_neg hknown]
        exact agrees_told hknown rfl
      · have hsteady : Steady session drained.1 id := by
          rcases hspec.others id (hw.seen id hid) (fun d hd heq => absurd
            (mem_map.mpr ⟨d, hd, heq⟩) htracked) with hsteady | ⟨-, hpending, -⟩
          · exact hsteady
          · obtain ⟨d, hd, heq⟩ := hgoes.tidy.records.mem_of_pending hpending
            exact absurd (mem_map.mpr ⟨d, hd, heq⟩) htracked
        exact ⟨held, hheld, (hagrees.steady hsteady).reported⟩

theorem status_of_known (ht : Tidy session) {id : String} (h : session.knowsDeliveryId id = true) :
    session.deliveryStatus id ≠ .unknown := by
  have hrunner : session.runnerPendingDeliveries = [] := ht.sound.noRunner
  unfold ChatSession.knowsDeliveryId at h
  rw [hrunner, any_nil, Bool.or_false, Bool.or_eq_true, Bool.or_eq_true,
    decide_eq_true_eq] at h
  unfold ChatSession.deliveryStatus
  split_ifs with hdelivered hpending
  · nofun
  · nofun
  · have hdropped := (h.resolve_right hpending).resolve_left hdelivered
    obtain ⟨r, hr, hid⟩ := any_eq_true.mp hdropped
    cases hfind : session.droppedDeliveries.reverse.find? (·.id = id) with
    | none => exact absurd hid (List.find?_eq_none.mp hfind r (mem_reverse.mpr hr))
    | some found =>
      intro hunknown
      have hstatus := ht.records found (mem_reverse.mp (List.mem_of_find?_eq_some hfind))
      have hunknown : found.status = .unknown := hunknown
      rw [hunknown] at hstatus
      exact absurd hstatus (by decide)

theorem status_of_unknown {id : String} (h : session.knowsDeliveryId id = false) :
    session.deliveryStatus id = .unknown := by
  obtain ⟨hclear, hundelivered⟩ := clear_of_unknown h
  have hnone : lastRecord session.droppedDeliveries id = none := by
    rw [lastRecord, List.find?_eq_none]
    intro r hr hid
    exact hclear.2 r (mem_reverse.mp hr) (of_decide_eq_true hid)
  rw [deliveryStatus_of_record hundelivered hclear.1, hnone]
  rfl

variable {request : Request} {nowMs : ℕ}

theorem unknown_of_reception (hrefused : reception cfg nowMs session request ≠ .refused)
    (hduplicate : reception cfg nowMs session request ≠ .duplicate) :
    session.knowsDeliveryId request.delivery.id = false := by
  unfold reception at hrefused hduplicate
  split_ifs at hrefused hduplicate with _ _ hknown _ hknown
  all_goals first | exact absurd rfl hrefused | exact absurd rfl hduplicate | skip
  all_goals exact Bool.not_eq_true _ ▸ hknown

theorem known_of_duplicate (h : reception cfg nowMs session request = .duplicate) :
    session.knowsDeliveryId request.delivery.id = true := by
  unfold reception at h
  split_ifs at h with _ _ hknown _ hknown
  · exact hknown
  · exact hknown
  · unfold acceptance at h
    dsimp only at h
    split_ifs at h

theorem told_settled {held : DeliveryState} (h : held.isTerminal = true) (status : DeliveryStatus) :
    told (dispatched (some held)) status = held := by
  have hdispatched : dispatched (some held) = held := if_pos h
  rw [hdispatched]
  exact if_pos h

variable {held : Option DeliveryState} {status : DeliveryStatus}

theorem agrees_dispatched (hstatus : status ≠ .unknown) (reported : DeliveryStatus)
    (hheld : (held.getD .pending).isTerminal = false) :
    Agrees status (latest reported status) (told (dispatched held) status) := by
  have hdispatched : dispatched held = .inFlight := by
    rw [dispatched, settle, hheld]
    rfl
  rw [latest, if_neg hstatus, hdispatched]
  exact agrees_told hstatus rfl

variable {reception : Reception}

theorem agrees_fresh {reported : DeliveryStatus}
    (hheld : ∀ state, held = some state → Agrees .unknown reported state)
    (hstatus : reception.status .unknown ≠ .unknown)
    (hfresh : ∀ state, held = some state → state.isTerminal = true →
      reception.settledAs = some state) :
    Agrees (reception.status .unknown) (latest reported (reception.status .unknown))
      (told (dispatched held) (reception.status .unknown)) := by
  cases held with
  | none => exact agrees_dispatched hstatus reported rfl
  | some state =>
    have hterminal := ((hheld state rfl).settled nofun).1
    have hsettled := hfresh state rfl hterminal
    rw [told_settled hterminal, latest, if_neg hstatus]
    apply agrees_settled _ hterminal
    rw [← hsettled]
    cases reception <;> first | rfl | cases hsettled

theorem agrees_received {reported : DeliveryStatus}
    (hheld : ∀ state, held = some state → Agrees status reported state)
    (hknown : reception = .duplicate → status ≠ .unknown)
    (hunknown : reception ≠ .refused → reception ≠ .duplicate → status = .unknown)
    (hrefused : reception = .refused → status ≠ .pending ∧
      (held = none → status = .unknown ∨ stateForStatus status = some .failed))
    (hfresh : reception ≠ .refused → reception ≠ .duplicate → ∀ state, held = some state →
      state.isTerminal = true → reception.settledAs = some state)
    (hreported : held = none → reported = .unknown) :
    Agrees (reception.status status) (latest reported (reception.status status))
      (told (dispatched held) (if reception = .refused then .failed
        else reception.status status)) := by
  by_cases hisRefused : reception = .refused
  · subst hisRefused
    obtain ⟨hpending, hnone⟩ := hrefused rfl
    rw [if_pos rfl]
    cases held with
    | some state =>
      rw [told_settled ((hheld state rfl).settled hpending).1]
      exact (hheld state rfl).reported
    | none =>
      show Agrees status (latest reported status) .failed
      rcases hnone rfl with rfl | hfailed
      · rw [hreported rfl]
        exact ⟨fun h => absurd rfl h, nofun, fun _ => ⟨rfl, fun h => absurd rfl h⟩⟩
      · have hne : status ≠ .unknown := by
          rintro rfl
          cases hfailed
        rw [latest, if_neg hne]
        exact agrees_settled hfailed rfl
  · rw [if_neg hisRefused]
    by_cases hduplicate : reception = .duplicate
    · subst hduplicate
      have hne := hknown rfl
      show Agrees status (latest reported status) (told (dispatched held) status)
      cases held with
      | none => exact agrees_dispatched hne reported rfl
      | some state =>
        by_cases hpending : status = .pending
        · have hstate := (hheld state rfl).pending hpending
          subst hstate
          exact agrees_dispatched hne reported rfl
        · rw [told_settled ((hheld state rfl).settled hpending).1]
          exact (hheld state rfl).reported
    · obtain rfl := hunknown hisRefused hduplicate
      apply agrees_fresh hheld _ (hfresh hisRefused hduplicate)
      cases reception <;> first | exact absurd rfl hisRefused | exact absurd rfl hduplicate | nofun

theorem statusAfter_received {session' : ChatSession} {d : PendingDelivery}
    {answer : Except String DeliveryOutcome} (h : Received reception session session' d answer) :
    statusAfter session' d.id answer =
      if reception = .refused then .failed else reception.status (session.deliveryStatus d.id) := by
  have hanswers := h.answers
  cases reception
  · obtain ⟨error, rfl⟩ := hanswers
    rfl
  all_goals
    have hanswer : answer = .ok _ := hanswers
    rw [hanswer, statusAfter, if_neg nofun]
    exact h.own

include hnew hretention in
theorem WInv.deliver (h : WInv outbox w) (nowMs : ℕ) (request : Request)
    (hfits : Fits cfg outbox w nowMs (.deliver request)) :
    WInv outbox (w.step cfg outbox nowMs (.deliver request)) := by
  apply Left.returns
  have hsee : Tidy { w.session with seenIds := request.delivery.id :: w.session.seenIds } :=
    Tidy.see h.tidy request.delivery.id
  unfold deliverToChat
  cases hentry : entryError outbox
      { w.session with seenIds := request.delivery.id :: w.session.seenIds } request.delivery with
  | some error =>
    have hkeeps : Keeps w.session
        { w.session with seenIds := request.delivery.id :: w.session.seenIds } :=
      ⟨hsee, subset_cons_self _ _, fun _ hm => hm⟩
    exact (h.steady hkeeps fun _ _ => Or.inl rfl).left
  | none =>
    obtain ⟨hrefused, hfresh, hsupersedes⟩ := hfits hentry
    have hreceived : Received (reception cfg nowMs w.session request) _ _ _ _ :=
      received hnew hretention outbox hsee nowMs request
    have hknown : reception cfg nowMs w.session request = .duplicate →
        w.session.deliveryStatus request.delivery.id ≠ .unknown :=
      fun heq => status_of_known h.tidy (known_of_duplicate heq)
    have hunknown : reception cfg nowMs w.session request ≠ .refused →
        reception cfg nowMs w.session request ≠ .duplicate →
          w.session.deliveryStatus request.delivery.id = .unknown :=
      fun hne hne' => status_of_unknown (unknown_of_reception hne hne')
    dsimp only
    rw [statusAfter_received hreceived]
    generalize receive cfg outbox nowMs _ request = result at hreceived ⊢
    generalize reception cfg nowMs w.session request = reception at *
    refine ⟨hreceived.tidy, fun m hm => h.unstamped m (hreceived.effects hm),
      (h.keyed.accept outbox nowMs _).record outbox nowMs _ _, ?_, ?_, ?_⟩
    · intro id hid
      rcases mem_cons.mp hid with rfl | hid
      · exact hreceived.seen mem_cons_self
      · exact hreceived.seen (mem_cons_of_mem _ (h.seen id hid))
    · intro id held hheld
      rw [stateOf_record outbox nowMs (h.keyed.accept outbox nowMs _),
        stateOf_accept outbox nowMs h.keyed] at hheld
      rcases eq_or_ne id request.delivery.id with rfl | hne
      · exact mem_cons_self
      · rw [if_neg hne, if_neg hne] at hheld
        exact mem_cons_of_mem _ (h.rows id held hheld)
    · intro id hid
      rw [stateOf_record outbox nowMs (h.keyed.accept outbox nowMs _),
        stateOf_accept outbox nowMs h.keyed]
      rcases eq_or_ne id request.delivery.id with rfl | hne
      · rw [if_pos rfl, if_pos rfl, Option.map_some, hreceived.own]
        refine ⟨_, rfl, ?_⟩
        have hnone : outbox.stateOf w.table request.delivery.id = none →
            request.delivery.id ∉ w.accepted := by
          intro hnone hid
          obtain ⟨held, hheld, -⟩ := h.agrees _ hid
          rw [hnone] at hheld
          cases hheld
        apply agrees_received _ hknown hunknown _ hfresh fun heq => h.unreported _ (hnone heq)
        · intro state hstate
          obtain ⟨held, hheld, hagrees⟩ := h.agrees _ (h.rows _ state hstate)
          obtain rfl := Option.some.inj (hstate.symm.trans hheld)
          exact hagrees
        · exact fun heq => ⟨(hrefused heq).1, fun hheld => (hrefused heq).2 (hnone hheld)⟩
      · have hid := (mem_cons.mp hid).resolve_left hne
        obtain ⟨held, hheld, hagrees⟩ := h.agrees id hid
        rw [if_neg hne, if_neg hne]
        have hsteady := hreceived.others id (mem_cons_of_mem _ (h.seen id hid)) hne
          fun henters e he heq => by
            rw [← Bool.not_eq_true]
            intro hsuperseded
            exact hsupersedes henters e he hsuperseded (heq ▸ hid)
        exact ⟨held, hheld, (hagrees.steady hsteady).reported⟩

include hnew in
theorem WInv.update {w : World} (h : WInv outbox w) (nowMs : ℕ) (deliveryId : String)
    (push : Option PushMode) (cancel : Bool)
    (hfits : Fits cfg outbox w nowMs (.update deliveryId push cancel)) :
    WInv outbox (w.step cfg outbox nowMs (.update deliveryId push cancel)) := by
  apply Left.returns
  obtain ⟨hcancel, hdrain⟩ := hfits
  have hupdated := h.tidy.updated cfg deliveryId push cancel
  unfold updatePendingDeliveryInChat
  generalize w.session.updatePendingDelivery cfg deliveryId push cancel = result
    at hdrain hupdated ⊢
  obtain ⟨session, answer⟩ := result
  have hw := h.steady hupdated.toKeeps fun id hid => hupdated.others id
    fun hcancelled => hcancel hcancelled.1 hcancelled.2.1 (hcancelled.2.2 ▸ hid)
  cases answer with
  | error error => exact hw.left
  | ok ready =>
    dsimp only
    split_ifs with hready
    · subst hready
      exact hw.drain hnew nowMs (hdrain rfl)
    · exact hw.left

theorem WInv.turn (h : WInv outbox w) (nowMs : ℕ) (next : ChatSession) :
    WInv outbox (w.step cfg outbox nowMs (.turn next)) := by
  apply Left.returns
  have hledger := ledger_turnedInto w.session next
  refine ⟨⟨hledger ▸ h.tidy.sound, h.tidy.records⟩, fun message hmessage => ?_, h.keyed, h.seen,
    h.rows, fun id hid => ?_⟩
  · obtain ⟨other, -, rfl⟩ := mem_map.mp hmessage
    rfl
  · obtain ⟨held, hheld, hagrees⟩ := h.agrees id hid
    rw [← deliveryStatus_of_ledger hledger] at hagrees
    exact ⟨held, hheld, hagrees.reported⟩

include hnew hretention in
theorem WInv.step (h : WInv outbox w) (nowMs : ℕ) (call : Call)
    (hfits : Fits cfg outbox w nowMs call) : WInv outbox (w.step cfg outbox nowMs call) := by
  cases call with
  | deliver request => exact h.deliver hnew hretention nowMs request hfits
  | update deliveryId push cancel => exact h.update hnew nowMs deliveryId push cancel hfits
  | drain => exact (h.drain hnew nowMs hfits).returns
  | turn next => exact h.turn nowMs next

theorem WInv.start (outbox : Outbox) (session : ChatSession) :
    WInv outbox (World.start session) := by
  have hsound := (Inv.start session).sound
  have hempty : ∀ id, outbox.stateOf ∅ id = none := fun id => by
    simp [Outbox.stateOf, Outbox.row, DeliveryOutbox.getOutboxMessage]
  refine ⟨⟨hsound, forall_mem_nil _⟩, forall_mem_nil _, ?_, forall_mem_nil _, ?_,
    forall_mem_nil _, fun _ _ => rfl⟩
  · intro key record hrecord
    simp [World.start] at hrecord
  · intro id held hheld
    have hheld : outbox.stateOf ∅ id = some held := hheld
    rw [hempty] at hheld
    cases hheld

include hnew hretention in
theorem WInv.run (h : WInv outbox w) (calls : List (ℕ × Call)) (hfit : AllFit cfg outbox w calls) :
    WInv outbox (calls.foldl (fun w call => w.step cfg outbox call.1 call.2) w) := by
  induction calls generalizing w with
  | nil => exact h
  | cons call calls ih =>
    obtain ⟨hfits, hrest⟩ := hfit
    exact ih (h.step hnew hretention call.1 call.2 hfits) hrest

theorem mem_listed {table : OutboxTable} (h : Keyed table) {limit : ℕ}
    {record : DeliveryOutboxRecord}
    (hr : record ∈ listOutboxMessagesInStates table outbox.project [.pending] limit) :
    outbox.row table record.messageId = some record ∧ record.state = .pending := by
  have hsorted := (perm_insertionSort _ _).mem_iff.mp (mem_of_mem_take hr)
  obtain ⟨row, hrow, rfl⟩ := mem_map.mp hsorted
  obtain ⟨hentry, hstate⟩ := mem_filter.mp hrow
  obtain ⟨hproject, hpending⟩ := of_decide_eq_true hstate
  have hlookup : table.lookup row.1 = some row.2 := AList.mem_lookup_iff.mpr hentry
  have hplace := h _ _ hlookup
  refine ⟨?_, mem_singleton.mp hpending⟩
  rw [hplace] at hlookup hproject
  unfold Outbox.row DeliveryOutbox.getOutboxMessage
  rw [← hproject]
  exact hlookup

theorem WInv.mirrors (h : WInv outbox w) : Mirrors outbox w where
  settled id hid := by
    obtain ⟨held, hheld, hagrees⟩ := h.agrees id hid
    exact ⟨held, hheld, hagrees.settled⟩
  redelivered decode limit entry hentry := by
    obtain ⟨record, hrecord, hdecode⟩ := mem_filterMap.mp hentry
    obtain ⟨delivery, hdelivery, rfl⟩ := Option.map_eq_some_iff.mp hdecode
    obtain ⟨hrow, hpending⟩ := mem_listed h.keyed hrecord
    refine ⟨record.messageId, record, hrow, hdelivery, ?_⟩
    have hstate : outbox.stateOf w.table record.messageId = some .pending :=
      (congrArg _ hrow).trans (congrArg some hpending)
    obtain ⟨held, hheld, hagrees⟩ := h.agrees _ (h.rows _ _ hstate)
    obtain rfl := Option.some.inj (hstate.symm.trans hheld)
    by_contra hne
    exact absurd (hagrees.settled hne).1 Bool.false_ne_true

include hnew hretention in
/-- In every run of calls that fit the outbox mirrors the session. -/
theorem run_mirrors (session : ChatSession) (calls : List (ℕ × Call))
    (hfit : AllFit cfg outbox (World.start session) calls) :
    Mirrors outbox (World.run cfg outbox session calls) :=
  ((WInv.start outbox session).run hnew hretention calls hfit).mirrors

end Steps

def someOutbox : Outbox where
  project := "project"
  chatId := "chat"
  encode delivery := delivery.id

def whenIdle (id : String) : Call := .deliver ⟨goalDelivery id .whenIdle, false, none⟩

def waits : List (ℕ × Call) :=
  [(1, whenIdle "first"),
    (2, .turn { answering with draft := false, state := .idle, turnDepth := 0 }), (3, .drain)]

def cancelled : List (ℕ × Call) := [(1, whenIdle "first"), (2, .update "first" none true)]

theorem waits_mirrors :
    (World.run defaults someOutbox answering waits).reported "first" = .delivered ∧
      Mirrors someOutbox (World.run defaults someOutbox answering waits) := by
  refine ⟨by decide,
    run_mirrors longerId_notMem (by decide) answering waits ⟨?_, trivial, ?_, trivial⟩⟩
  · intro _
    refine ⟨fun h => absurd h (by decide), fun _ _ held hheld => ?_,
      fun _ => forall_mem_nil _⟩
    cases hheld
  · intro h
    exact absurd h (by decide)

/-- The outbox is not told of the cancellation. -/
theorem run_notMirrors : ¬ ∀ (cfg : Settings) (outbox : Outbox) (session : ChatSession)
    (calls : List (ℕ × Call)), (∀ used, cfg.newId used ∉ used) → 1 ≤ cfg.deliveryStatusRetention →
      Mirrors outbox (World.run cfg outbox session calls) := by
  intro h
  have hmirrors := h defaults someOutbox answering cancelled longerId_notMem (by decide)
  obtain ⟨held, hheld, hsettled⟩ := hmirrors.settled "first" (by decide)
  have hpending : someOutbox.stateOf (World.run defaults someOutbox answering cancelled).table
      "first" = some .pending := by decide
  obtain rfl := Option.some.inj (hpending.symm.trans hheld)
  exact absurd (hsettled (by decide)).1 Bool.false_ne_true

end ChatDelivery
