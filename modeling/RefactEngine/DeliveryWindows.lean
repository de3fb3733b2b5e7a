import RefactEngine.DeliveryLandings

/-! # Deliveries and open tool calls

A message must not come between a tool call and its result. A delivery waits until the last calls
have their results; an urgent one takes the unanswered calls back, but only from an answer that is
in progress.
-/
namespace SessionDeliveries

open AgentDeliveries (PushMode DeliveryOutcome)
open List

variable (messages : List ChatMessage)

def activeStart : ℕ := (lastReport messages).elim 0 (·.1 + 1)

def callsOf (message : ChatMessage) : Option (List String) :=
  if message.role ≠ "assistant" then none else message.toolCalls.filter (· ≠ [])

def CallsAt (bound i : ℕ) (calls : List String) : Prop :=
  activeStart messages ≤ i ∧ i < bound ∧ messages[i]?.bind callsOf = some calls

structure LatestCalls (messages : List ChatMessage) (bound i : ℕ) (calls : List String) :
    Prop where
  calls : CallsAt messages bound i calls
  latest : ∀ j calls', CallsAt messages bound j calls' → j ≤ i

def resultOf (message : ChatMessage) : Option String :=
  if message.role = "tool" ∨ message.role = "diff" then some message.toolCallId else none

def HasResultAfter (i : ℕ) (call : String) : Prop :=
  ∃ j, i < j ∧ messages[j]?.bind resultOf = some call

def ResultsIn (bound : ℕ) : Prop :=
  ∀ i calls, LatestCalls messages bound i calls → ∀ call ∈ calls, HasResultAfter messages i call

variable {messages : List ChatMessage} {calls : List String} {i : ℕ}

variable {bound j : ℕ}

theorem LatestCalls.unique {calls' : List String}
    (h : LatestCalls messages bound i calls) (h' : LatestCalls messages bound j calls') :
    i = j ∧ calls = calls' := by
  obtain rfl : i = j := Nat.le_antisymm (h'.latest i calls h.calls) (h.latest j calls' h'.calls)
  exact ⟨rfl, Option.some.inj (h.calls.2.2.symm.trans h'.calls.2.2)⟩

variable {messages' : List ChatMessage}

theorem resultsIn_congr {bound' : ℕ}
    (hcalls : ∀ i calls, CallsAt messages bound i calls ↔ CallsAt messages' bound' i calls)
    (hres : ∀ i : ℕ, messages[i]?.bind resultOf = messages'[i]?.bind resultOf) :
    ResultsIn messages bound ↔ ResultsIn messages' bound' := by
  have hlatest : ∀ i calls,
      LatestCalls messages bound i calls ↔ LatestCalls messages' bound' i calls := by
    intro i calls
    constructor
    · rintro ⟨h, hlast⟩
      exact ⟨(hcalls i calls).mp h, fun j calls' h' => hlast j calls' ((hcalls j calls').mpr h')⟩
    · rintro ⟨h, hlast⟩
      exact ⟨(hcalls i calls).mpr h, fun j calls' h' => hlast j calls' ((hcalls j calls').mp h')⟩
  simp only [ResultsIn, HasResultAfter, hlatest, hres]

theorem findLast_spec {α β : Type*} (f : α → Option β) (start : ℕ) (l : List α) :
    match (l.zipIdx.drop start).reverse.findSome? fun entry => (f entry.1).map (entry.2, ·) with
    | some (i, b) => start ≤ i ∧ l[i]?.bind f = some b ∧ ∀ j, i < j → l[j]?.bind f = none
    | none => ∀ j, start ≤ j → l[j]?.bind f = none := by
  induction l using List.reverseRecOn with
  | nil => simp
  | append_singleton l x ih =>
    rw [zipIdx_append, zipIdx_singleton, Nat.zero_add]
    rcases Nat.lt_or_ge l.length start with hstart | hstart
    · rw [drop_of_length_le (by simp; omega)]
      intro j hj
      rw [List.getElem?_eq_none (by simp; omega)]
      rfl
    · rw [drop_append_of_le_length (by simpa using hstart), reverse_append,
        reverse_singleton, singleton_append, List.findSome?_cons]
      have hlast : ∀ j, l.length < j → (l ++ [x])[j]?.bind f = none := by
        intro j hj
        rw [List.getElem?_eq_none (by simp; omega)]
        rfl
      cases hx : f x with
      | some b => exact ⟨hstart, by simpa using hx, hlast⟩
      | none =>
        have hsame : ∀ j : ℕ, (l ++ [x])[j]?.bind f = l[j]?.bind f := by
          intro j
          rcases Nat.lt_trichotomy j l.length with hj | rfl | hj
          · rw [List.getElem?_append_left hj]
          · simpa using hx
          · rw [hlast j hj, List.getElem?_eq_none hj.le]
            rfl
        simpa only [Option.map_none, hsame] using ih

theorem window_eq (messages : List ChatMessage) :
    latestAssistantToolCallWindow messages none = (mutableMessageStart messages).bind fun start =>
      (messages.zipIdx.drop start).reverse.findSome? fun entry =>
        (callsOf entry.1).map (entry.2, ·) := by
  unfold latestAssistantToolCallWindow
  congr 1
  funext start
  congr 1
  funext entry
  unfold callsOf
  split_ifs
  · rfl
  · cases entry.1.toolCalls with
    | none => rfl
    | some calls => cases calls <;> rfl

theorem mutableMessageStart_eq {start : ℕ} (h : mutableMessageStart messages = some start) :
    activeStart messages = start := by
  unfold mutableMessageStart at h
  unfold activeStart
  obtain ⟨payload, -, h⟩ := Option.bind_eq_some_iff.mp h
  cases hrep : lastReport messages <;> rw [hrep] at h <;> dsimp only [Option.elim] at h ⊢ <;>
    split_ifs at h <;> exact Option.some.inj h

theorem window_some (h : latestAssistantToolCallWindow messages none = some (i, calls)) :
    LatestCalls messages messages.length i calls := by
  rw [window_eq] at h
  obtain ⟨start, hstart, h⟩ := Option.bind_eq_some_iff.mp h
  have hspec := findLast_spec callsOf start messages
  rw [h] at hspec
  obtain ⟨hle, hcalls, hlast⟩ := hspec
  obtain ⟨message, hmsg, -⟩ := Option.bind_eq_some_iff.mp hcalls
  refine ⟨⟨(mutableMessageStart_eq hstart).trans_le hle,
    (List.getElem?_eq_some_iff.mp hmsg).1, hcalls⟩, ?_⟩
  intro j calls' hcalls'
  by_contra hlt
  have hnone := hlast j (Nat.lt_of_not_le hlt)
  rw [hcalls'.2.2] at hnone
  cases hnone

theorem window_none (hvalid : (mutableMessageStart messages).isSome)
    (h : latestAssistantToolCallWindow messages none = none) (bound i : ℕ) (calls : List String) :
    ¬ CallsAt messages bound i calls := by
  obtain ⟨start, hstart⟩ := Option.isSome_iff_exists.mp hvalid
  rw [window_eq, hstart, Option.bind_some] at h
  have hspec := findLast_spec callsOf start messages
  rw [h] at hspec
  rintro ⟨hle, -, hcalls⟩
  rw [mutableMessageStart_eq hstart] at hle
  rw [hspec i hle] at hcalls
  cases hcalls

variable {call : String}

theorem hasResultAfter_of_drop (h : ∃ message ∈ messages.drop (i + 1), resultOf message =
      some call) :
    HasResultAfter messages i call := by
  obtain ⟨message, hmsg, hres⟩ := h
  obtain ⟨k, hk, rfl⟩ := getElem_of_mem hmsg
  refine ⟨i + 1 + k, by omega, ?_⟩
  rw [← List.getElem?_drop, List.getElem?_eq_getElem hk]
  exact hres

variable {message : ChatMessage}

theorem resultOf_of_isToolResult (h : isToolResult message = true) :
    resultOf message = some message.toolCallId := by
  simp only [isToolResult, Bool.and_eq_true, Bool.or_eq_true, decide_eq_true_eq] at h
  exact if_pos h.1

theorem mem_resultIds (h : call ∈ resultIds messages) :
    ∃ message ∈ messages, resultOf message = some call := by
  induction messages with
  | nil => cases h
  | cons message rest ih =>
    rw [resultIds] at h
    split_ifs at h with hres hspeaker
    · rcases mem_cons.mp h with rfl | h
      · exact ⟨message, mem_cons_self, resultOf_of_isToolResult hres⟩
      · obtain ⟨found, hfound, heq⟩ := ih h
        exact ⟨found, mem_cons_of_mem _ hfound, heq⟩
    · cases h
    · obtain ⟨found, hfound, heq⟩ := ih h
      exact ⟨found, mem_cons_of_mem _ hfound, heq⟩

theorem mem_answeredIds (h : call ∈ answeredIds messages) :
    ∃ message ∈ messages, resultOf message = some call := by
  induction messages with
  | nil => cases h
  | cons message rest ih =>
    rw [answeredIds] at h
    split_ifs at h with hres hspeaker
    · rcases mem_cons.mp h with rfl | h
      · exact ⟨message, mem_cons_self, resultOf_of_isToolResult hres⟩
      · obtain ⟨found, hfound, heq⟩ := ih h
        exact ⟨found, mem_cons_of_mem _ hfound, heq⟩
    · obtain ⟨found, hfound, heq⟩ := ih h
      exact ⟨found, mem_cons_of_mem _ hfound, heq⟩
    · cases h

theorem resultsIn_of_noWindow (hvalid : (mutableMessageStart messages).isSome)
    (h : hasPendingToolResultWindow messages = false) : ResultsIn messages messages.length := by
  intro i calls hlatest call hcall
  unfold hasPendingToolResultWindow at h
  cases hwindow : latestAssistantToolCallWindow messages none with
  | none => exact absurd hlatest.calls (window_none hvalid hwindow _ i calls)
  | some window =>
    obtain ⟨rfl, rfl⟩ := hlatest.unique (window_some hwindow)
    rw [hwindow, Option.map_some, Option.getD_some, Bool.not_eq_false',
      allToolCallIdsHaveResultsAfter, all_eq_true] at h
    apply hasResultAfter_of_drop
    apply mem_resultIds
    exact of_decide_eq_true (h call hcall)

theorem lastReport_congr (h : messages.map ChatMessage.mark = messages'.map ChatMessage.mark) :
    lastReport messages = lastReport messages' := by
  unfold lastReport
  congr 1
  generalize 0 = k
  induction messages generalizing messages' k with
  | nil => rw [map_eq_nil_iff.mp h.symm]
  | cons message rest ih =>
    cases messages' with
    | nil => cases h
    | cons message' rest' =>
      obtain ⟨hmark, hrest⟩ := List.cons.inj h
      simp only [zipIdx_cons, filterMap_cons, ih hrest, hmark]

theorem lastReport_event (messages : List ChatMessage) (subkind : String) :
    lastReport (messages ++ [event subkind]) = lastReport messages := by
  simp [lastReport, zipIdx_append, event]

theorem activeStart_event (messages : List ChatMessage) (subkind : String) :
    activeStart (messages ++ [event subkind]) = activeStart messages := by
  rw [activeStart, lastReport_event, activeStart]

/-- What an event has none of cannot be found at the end. -/
theorem getElem?_append_event {β : Type*} (f : ChatMessage → Option β)
    (messages : List ChatMessage) {subkind : String} (hf : f (event subkind) = none) (i : ℕ) :
    (messages ++ [event subkind])[i]?.bind f = messages[i]?.bind f := by
  rcases Nat.lt_trichotomy i messages.length with hi | rfl | hi
  · rw [List.getElem?_append_left hi]
  · simp [hf]
  · rw [List.getElem?_eq_none (by simp; omega), List.getElem?_eq_none hi.le]

theorem resultsIn_event (messages : List ChatMessage) (subkind : String) :
    ResultsIn (messages ++ [event subkind]) (messages ++ [event subkind]).length ↔
      ResultsIn messages messages.length := by
  apply resultsIn_congr
  · intro i calls
    unfold CallsAt
    rw [activeStart_event, getElem?_append_event callsOf messages rfl, length_append,
      length_singleton]
    constructor
    · rintro ⟨hle, -, hcalls⟩
      obtain ⟨message, hmsg, -⟩ := Option.bind_eq_some_iff.mp hcalls
      exact ⟨hle, (List.getElem?_eq_some_iff.mp hmsg).1, hcalls⟩
    · rintro ⟨hle, hlt, hcalls⟩
      exact ⟨hle, by omega, hcalls⟩
  · exact getElem?_append_event resultOf messages rfl

def withdraw (answered : List String) (message : ChatMessage) : ChatMessage :=
  match message.toolCalls with
  | none => message
  | some calls =>
    let kept := calls.filter (· ∈ answered)
    { message with toolCalls := if kept = [] then none else some kept }

theorem clearPending_eq (h : latestAssistantToolCallWindow messages none = some (i, calls)) :
    clearPendingToolCallsForInterruption messages =
      messages.modify i (withdraw (answeredToolCallIdsForInterruption messages i)) := by
  rw [clearPendingToolCallsForInterruption, h]
  rfl

variable (answered : List String)

theorem withdraw_mark (message : ChatMessage) :
    (withdraw answered message).mark = message.mark := by
  unfold withdraw
  split <;> rfl

theorem resultOf_withdraw (message : ChatMessage) :
    resultOf (withdraw answered message) = resultOf message := by
  unfold withdraw
  split <;> rfl

theorem callsOf_withdraw {answered : List String} (h : callsOf message = some calls) :
    callsOf (withdraw answered message) = (some (calls.filter (· ∈ answered))).filter (· ≠ []) := by
  unfold callsOf at h ⊢
  split_ifs at h with hrole
  obtain ⟨hcalls, -⟩ := Option.filter_eq_some_iff.mp h
  unfold withdraw
  rw [hcalls]
  dsimp only
  rw [if_neg hrole]
  split_ifs with hkept
  · rw [hkept]
    rfl
  · rfl

theorem activeStart_modify (messages : List ChatMessage) (i : ℕ) (answered : List String) :
    activeStart (messages.modify i (withdraw answered)) = activeStart messages := by
  unfold activeStart
  rw [lastReport_congr]
  apply ext_getElem?
  intro j
  rw [List.getElem?_map, List.getElem?_map, List.getElem?_modify]
  cases messages[j]? with
  | none => rfl
  | some message =>
    by_cases hij : i = j
    · simp [hij, withdraw_mark]
    · simp [hij]

theorem result_modify (messages : List ChatMessage) (i : ℕ) (answered : List String) (j : ℕ) :
    (messages.modify i (withdraw answered))[j]?.bind resultOf = messages[j]?.bind resultOf := by
  rw [List.getElem?_modify]
  cases messages[j]? with
  | none => rfl
  | some message =>
    by_cases hij : i = j
    · simp [hij, resultOf_withdraw]
    · simp [hij]

theorem callsAt_modify_of_ne (hne : i ≠ j) (answered : List String) (bound : ℕ)
    (calls : List String) : CallsAt (messages.modify i (withdraw answered)) bound j calls ↔
      CallsAt messages bound j calls := by
  unfold CallsAt
  rw [activeStart_modify, List.getElem?_modify_ne _ _ hne]

theorem calls_modify (h : CallsAt messages bound i calls) (answered : List String) :
    (messages.modify i (withdraw answered))[i]?.bind callsOf =
      (some (calls.filter (· ∈ answered))).filter (· ≠ []) := by
  obtain ⟨message, hmsg, hcalls⟩ := Option.bind_eq_some_iff.mp h.2.2
  rw [List.getElem?_modify_eq, hmsg, Option.map_eq_map, Option.map_some, Option.bind_some,
    callsOf_withdraw hcalls]

theorem resultsIn_of_noneKept {answered : List String}
    (hlatest : LatestCalls messages messages.length i calls)
    (hnone : calls.filter (· ∈ answered) = []) :
    ResultsIn (messages.modify i (withdraw answered)) messages.length ↔ ResultsIn messages i := by
  apply resultsIn_congr
  · intro j calls'
    rcases eq_or_ne i j with rfl | hne
    · have hkept := calls_modify hlatest.calls answered
      rw [hnone] at hkept
      constructor
      · rintro ⟨-, -, hcalls⟩
        rw [hkept] at hcalls
        cases hcalls
      · rintro ⟨-, hlt, -⟩
        exact absurd hlt (Nat.lt_irrefl _)
    · rw [callsAt_modify_of_ne hne]
      constructor
      · intro hcalls
        have hle := hlatest.latest j calls' hcalls
        exact ⟨hcalls.1, by omega, hcalls.2.2⟩
      · rintro ⟨hle, hlt, hcalls⟩
        exact ⟨hle, hlt.trans hlatest.calls.2.1, hcalls⟩
  · exact result_modify messages i _

theorem resultsIn_of_kept (hlatest : LatestCalls messages messages.length i calls)
    (hkept : calls.filter (· ∈ answeredToolCallIdsForInterruption messages i) ≠ []) :
    ResultsIn (messages.modify i (withdraw (answeredToolCallIdsForInterruption messages i)))
      messages.length := by
  have hcalls := calls_modify hlatest.calls (answeredToolCallIdsForInterruption messages i)
  rw [Option.filter_some, if_pos (decide_eq_true hkept)] at hcalls
  have hstart := activeStart_modify messages i (answeredToolCallIdsForInterruption messages i)
  intro j calls' hlatest'
  have hle := hlatest'.latest i _ ⟨hstart.trans_le hlatest.calls.1, hlatest.calls.2.1, hcalls⟩
  obtain rfl : i = j := by
    by_contra hne
    have hlast := hlatest.latest j calls' ((callsAt_modify_of_ne hne _ _ _).mp hlatest'.calls)
    omega
  obtain rfl := Option.some.inj (hcalls.symm.trans hlatest'.calls.2.2)
  intro call hcall
  have hfound := of_decide_eq_true (mem_filter.mp hcall).2
  obtain ⟨k, hk, hres⟩ := hasResultAfter_of_drop (mem_answeredIds hfound)
  exact ⟨k, hk, (result_modify messages i _ k).trans hres⟩

theorem resultsIn_cleared (hvalid : (mutableMessageStart messages).isSome) :
    ResultsIn (clearPendingToolCallsForInterruption messages) messages.length ↔
      ∀ i calls, LatestCalls messages messages.length i calls →
        (∃ call ∈ calls, call ∈ answeredToolCallIdsForInterruption messages i) ∨
          ResultsIn messages i := by
  cases hwindow : latestAssistantToolCallWindow messages none with
  | none =>
    have hnone := window_none hvalid hwindow
    rw [clearPendingToolCallsForInterruption, hwindow]
    constructor
    · exact fun _ i calls hlatest => absurd hlatest.calls (hnone _ i calls)
    · exact fun _ i calls hlatest => absurd hlatest.calls (hnone _ i calls)
  | some window =>
    obtain ⟨i, calls⟩ := window
    have hlatest := window_some hwindow
    rw [clearPending_eq hwindow]
    by_cases hnone : calls.filter (· ∈ answeredToolCallIdsForInterruption messages i) = []
    · rw [resultsIn_of_noneKept hlatest hnone]
      constructor
      · intro hresults j calls' hlatest'
        obtain ⟨rfl, rfl⟩ := hlatest'.unique hlatest
        exact Or.inr hresults
      · intro hresults
        apply (hresults i calls hlatest).resolve_left
        rintro ⟨call, hcall, hanswered⟩
        exact filter_eq_nil_iff.mp hnone call hcall (decide_eq_true hanswered)
    · obtain ⟨call, hmem⟩ := exists_mem_of_ne_nil _ hnone
      obtain ⟨hcall, hanswered⟩ := mem_filter.mp hmem
      refine iff_of_true (resultsIn_of_kept hlatest hnone) fun j calls' hlatest' => ?_
      obtain ⟨rfl, rfl⟩ := hlatest'.unique hlatest
      exact Or.inl ⟨call, hcall, of_decide_eq_true hanswered⟩

inductive DeliveryCall where
  | enqueue (delivery : PendingDelivery)
  | queuePostTool (delivery : PendingDelivery)
  | drain
  | updateThenDrain (deliveryId : String) (push : Option PushMode) (cancel : Bool)

def ChatSession.landings (cfg : Settings) (nowMs : ℕ) (session : ChatSession) :
    DeliveryCall → List Landing
  | .enqueue delivery => (session.enqueueDelivery cfg nowMs delivery).2.1
  | .queuePostTool delivery => (session.queuePostToolDelivery cfg nowMs delivery).2.1
  | .drain => (session.drainPendingDeliveries cfg nowMs).2
  | .updateThenDrain deliveryId push cancel =>
    ((session.updatePendingDelivery cfg deliveryId push cancel).1.drainPendingDeliveries cfg
      nowMs).2

/-- Nothing is being written, the last calls have their results, and what waits for the end of a
turn has it. -/
structure LandsOutside (l : Landing) : Prop where
  noDraft : l.appendedTo.draft = false
  results : ResultsIn l.appendedTo.messages l.appendedTo.messages.length
  idle : l.delivery.push = .whenIdle →
    l.before.turnFinished = true ∨ l.before.waitDeliveryBoundary = true

/-- A session in which a delivery would not come between calls and results. What does not interrupt
is safe if the active history is valid. An interruption is safe if there is an answer in progress
and it leaves one of the last calls, or has answers to the ones before them. -/
def MayLand (session : ChatSession) (delivery : PendingDelivery) : Prop :=
  if (mutableMessageStart session.messages).isSome then
    if delivery.push = .preempt then
      if session.draft || session.isActive then
        ∀ i calls, LatestCalls session.messages session.messages.length i calls →
          (∃ call ∈ calls, call ∈ answeredToolCallIdsForInterruption session.messages i) ∨
            ResultsIn session.messages i
      else ResultsIn session.messages session.messages.length
    else True
  else ResultsIn session.messages session.messages.length

section Landings

variable (cfg : Settings) (nowMs : ℕ)

def Guarded (l : Landing) : Prop :=
  l = l.before.landing cfg nowMs l.delivery ∧
    l.before.deliveryBoundaryOpen l.delivery.push = true

variable {session : ChatSession} {d : PendingDelivery}

theorem boundary_of_envelope (h : session.deliveryEnvelopeBoundaryOpen d = true) :
    session.deliveryBoundaryOpen d.push = true := by
  unfold ChatSession.deliveryEnvelopeBoundaryOpen at h
  split_ifs at h
  exact (Bool.and_eq_true _ _ ▸ h).2

theorem Drains.guarded {session' : ChatSession} {landed : List Landing}
    (h : Drains cfg nowMs session landed session') : ∀ l ∈ landed, Guarded cfg nowMs l := by
  induction h with
  | done => exact forall_mem_nil _
  | skip _ _ _ ih => exact ih
  | land _ hopen _ _ ih =>
    intro l hl
    rcases mem_cons.mp hl with rfl | hl
    · have hboundary := boundary_of_envelope hopen
      exact ⟨rfl, hboundary⟩
    · exact ih l hl

theorem EnqueueCase.guarded {r : ChatSession × List Landing × Except String DeliveryOutcome}
    (h : EnqueueCase cfg nowMs session d r) : ∀ l ∈ r.2.1, Guarded cfg nowMs l := by
  cases h with
  | refused => exact forall_mem_nil _
  | duplicate => exact forall_mem_nil _
  | accepted _ _ _ hacc =>
    cases hacc with
    | expired => exact forall_mem_nil _
    | full => exact forall_mem_nil _
    | queued => exact forall_mem_nil _
    | landed hopen =>
      intro l hl
      rw [mem_singleton.mp hl]
      exact ⟨rfl, boundary_of_envelope hopen⟩

theorem drain_guarded (session : ChatSession) :
    ∀ l ∈ (session.drainPendingDeliveries cfg nowMs).2, Guarded cfg nowMs l := by
  obtain ⟨drained, hdrains, -⟩ := drainPendingDeliveries_drains cfg nowMs session
  exact hdrains.guarded

theorem landings_guarded (session : ChatSession)
    (hnodup : (session.pendingDeliveries.map PendingDelivery.id).Nodup) (call : DeliveryCall) :
    ∀ l ∈ session.landings cfg nowMs call, Guarded cfg nowMs l := by
  cases call with
  | enqueue d => exact (enqueueDelivery_case cfg nowMs hnodup d).guarded
  | queuePostTool d => exact (enqueueDelivery_case cfg nowMs hnodup _).guarded
  | drain => exact drain_guarded cfg nowMs session
  | updateThenDrain deliveryId push cancel => exact drain_guarded cfg nowMs _

theorem length_clearPending (messages : List ChatMessage) :
    (clearPendingToolCallsForInterruption messages).length = messages.length := by
  unfold clearPendingToolCallsForInterruption
  split
  · rfl
  · exact length_modify _ _ _

theorem preempt_results (hactive : (session.draft || session.isActive) = true) :
    (session.preemptForDelivery cfg nowMs).draft = false ∧
      (ResultsIn (session.preemptForDelivery cfg nowMs).messages
          (session.preemptForDelivery cfg nowMs).messages.length ↔
        ResultsIn (clearPendingToolCallsForInterruption session.messages)
          session.messages.length) := by
  have hpreempt : ¬ (!session.draft && !session.isActive) = true := by
    rw [← Bool.not_or, hactive]
    exact Bool.false_ne_true
  unfold ChatSession.preemptForDelivery
  rw [if_neg hpreempt, ← length_clearPending session.messages]
  dsimp only
  unfold ChatSession.addMessage
  split_ifs
  · exact ⟨rfl, Iff.rfl⟩
  · exact ⟨rfl, resultsIn_event _ _⟩

theorem clearPending_of_invalid {messages : List ChatMessage}
    (hinvalid : ¬ (mutableMessageStart messages).isSome = true) :
    clearPendingToolCallsForInterruption messages = messages := by
  rw [Option.not_isSome_iff_eq_none] at hinvalid
  rw [clearPendingToolCallsForInterruption, latestAssistantToolCallWindow, hinvalid]
  rfl

theorem boundary_of_notPreempt {push : PushMode} (hpush : push ≠ .preempt)
    (h : session.deliveryBoundaryOpen push = true) :
    session.draft = false ∧ hasPendingToolResultWindow session.messages = false ∧
      (push = .whenIdle → session.turnFinished = true ∨ session.waitDeliveryBoundary = true) := by
  unfold ChatSession.deliveryBoundaryOpen at h
  split_ifs at h
  cases push with
  | preempt => exact absurd rfl hpush
  | append =>
    simp only [Bool.and_eq_true, Bool.not_eq_true'] at h
    exact ⟨h.1, h.2, nofun⟩
  | whenIdle =>
    simp only [Bool.and_eq_true, Bool.not_eq_true', Bool.or_eq_true] at h
    exact ⟨h.1.1, h.1.2, fun _ => h.2⟩

theorem interrupted_outside_iff (hpush : d.push = .preempt) :
    LandsOutside (session.landing cfg nowMs d) ↔ MayLand session d := by
  have hinterrupted : (session.landing cfg nowMs d).appendedTo =
      session.preemptForDelivery cfg nowMs := if_pos hpush
  have hidle : d.push ≠ .whenIdle := by
    rw [hpush]
    nofun
  unfold MayLand
  rw [if_pos hpush]
  by_cases hactive : (session.draft || session.isActive) = true
  · obtain ⟨hdraft, hresults⟩ := preempt_results cfg nowMs hactive
    have hiff : LandsOutside (session.landing cfg nowMs d) ↔
        ResultsIn (clearPendingToolCallsForInterruption session.messages)
          session.messages.length := by
      rw [← hresults, ← hinterrupted]
      constructor
      · exact LandsOutside.results
      · intro h
        exact ⟨hinterrupted ▸ hdraft, h, fun hwhenIdle => absurd hwhenIdle hidle⟩
    rw [hiff, if_pos hactive]
    split_ifs with hvalid
    · exact resultsIn_cleared hvalid
    · rw [clearPending_of_invalid hvalid]
  · have hquiet : session.draft = false ∧ session.isActive = false := by
      simpa only [Bool.not_eq_true, Bool.or_eq_false_iff] using hactive
    have hsame : (session.landing cfg nowMs d).appendedTo = session := by
      rw [hinterrupted, ChatSession.preemptForDelivery, hquiet.1, hquiet.2]
      rfl
    rw [if_neg hactive, ite_self]
    constructor
    · intro h
      rw [← hsame]
      exact h.results
    · intro h
      refine ⟨?_, ?_, fun hwhenIdle => absurd hwhenIdle hidle⟩
      · exact (congrArg ChatSession.draft hsame).trans hquiet.1
      · rw [hsame]
        exact h

theorem Guarded.outside_iff {l : Landing} (h : Guarded cfg nowMs l) :
    LandsOutside l ↔ MayLand l.before l.delivery := by
  obtain ⟨hlanding, hboundary⟩ := h
  by_cases hpush : l.delivery.push = .preempt
  · rw [hlanding]
    exact interrupted_outside_iff cfg nowMs hpush
  · obtain ⟨hdraft, hwindow, hidle⟩ := boundary_of_notPreempt hpush hboundary
    have hsame : l.appendedTo = l.before := by
      rw [hlanding]
      exact if_neg hpush
    have hiff : LandsOutside l ↔ ResultsIn l.before.messages l.before.messages.length := by
      rw [← hsame]
      exact ⟨LandsOutside.results, fun h => ⟨hsame ▸ hdraft, h, hidle⟩⟩
    rw [hiff, MayLand, if_neg hpush]
    split_ifs with hvalid
    · exact iff_true_intro (resultsIn_of_noWindow hvalid hwindow)
    · exact Iff.rfl

/-- Whatever is asked of a session, a delivery that lands does so outside of all windows exactly if
it may. -/
theorem landings_outside_iff (session : ChatSession)
    (hnodup : (session.pendingDeliveries.map PendingDelivery.id).Nodup) (call : DeliveryCall) :
    ∀ l ∈ session.landings cfg nowMs call, LandsOutside l ↔ MayLand l.before l.delivery :=
  fun l hl => (landings_guarded cfg nowMs session hnodup call l hl).outside_iff

end Landings

def awaitingApproval : ChatSession where
  closed := false
  messages := [{ messageId := "m1", role := "assistant", toolCalls := some ["call"],
                 toolCallId := "", subkind := none, delivery := none, mark := .plain }]
  draft := false
  state := .paused
  turnDepth := 1
  compressing := false
  plannerPaused := false
  plannerPausePendingTools := false
  waitDeliveryBoundary := false
  interruptibleWaits := 0
  waitToolWindowActive := false
  commandsQueued := false
  mode := "agent"
  model := ""
  pendingDeliveries := []
  runnerPendingDeliveries := []
  postToolSideEffects := []
  deliveredDeliveryIds := ∅
  droppedDeliveries := []
  seenIds := []

def notice (push : PushMode) : PendingDelivery where
  afterToolCallId := none
  threadPatch := none
  id := "notice"
  messages := [{ messageId := "", role := "user", toolCalls := none, toolCallId := "",
                 subkind := none, delivery := none, mark := .plain }]
  push := push
  source := "test"
  wake := false
  enqueuedAtMs := 1
  expiresAtMs := none
  supersedeKey := none

def plainSettings : Settings where
  deliveryDefaultTtlSecs := 86400
  deliveryMaxPending := 4096
  deliveryStatusRetention := 16384
  maxQueueSize := 100
  newId used := String.join used ++ "u"
  modeId mode := mode

theorem awaitingApproval_lands :
    (awaitingApproval.landings plainSettings 1 (.enqueue (notice .preempt))).map
      (fun l => l.appendedTo.messages) = [awaitingApproval.messages] := by decide

theorem not_resultsIn_awaitingApproval :
    ¬ ResultsIn awaitingApproval.messages awaitingApproval.messages.length := by
  intro h
  have hlatest : LatestCalls awaitingApproval.messages awaitingApproval.messages.length 0
      ["call"] := by
    refine ⟨⟨by decide, by decide, by decide⟩, fun j calls hcalls => ?_⟩
    have hlt : j < 1 := hcalls.2.1
    omega
  obtain ⟨j, hj, hres⟩ := h 0 ["call"] hlatest "call" (mem_singleton_self _)
  have hnone : awaitingApproval.messages[j]? = none := List.getElem?_eq_none hj
  rw [hnone] at hres
  cases hres

/-- An urgent delivery lands between a call that waits for its approval and the result. -/
theorem landings_notOutside : ¬ ∀ (cfg : Settings) (nowMs : ℕ) (session : ChatSession),
    (mutableMessageStart session.messages).isSome = true →
    (session.pendingDeliveries.map PendingDelivery.id).Nodup →
    ∀ call, ∀ l ∈ session.landings cfg nowMs call, LandsOutside l := by
  intro h
  obtain ⟨l, hl, hmessages⟩ := mem_map.mp
    (awaitingApproval_lands ▸ mem_singleton_self awaitingApproval.messages)
  have hlands := h plainSettings 1 awaitingApproval (by decide) nodup_nil _ l hl
  apply not_resultsIn_awaitingApproval
  rw [← hmessages]
  exact hlands.results

/-- The condition tells as much. -/
theorem awaitingApproval_outside_iff :
    (awaitingApproval.landings plainSettings 1 (.enqueue (notice .preempt))).length = 1 ∧
      ∀ l ∈ awaitingApproval.landings plainSettings 1 (.enqueue (notice .preempt)),
        LandsOutside l ↔ MayLand l.before l.delivery :=
  ⟨by decide, landings_outside_iff plainSettings 1 awaitingApproval nodup_nil _⟩

end SessionDeliveries
