import RefactEngine.BoardValidation

/-! # Who finalises a card

The gate refuses a finaliser that holds the claim on the card. Histories remember who held it since
the outcome of the card was recorded, and which of these chats let it go again: the gate does not
see them.
-/
namespace SelfReview

open TaskBoards BoardFinalization BoardValidation Function

variable (board : TaskBoard)

/-- What only the owner may do. -/
def asOwner (actor : Text) (result : Except Text TaskBoard) :
    Except Text TaskBoard :=
  match requireOwner board actor with
  | .error reason => .error reason
  | .ok () => result

def addReviewer (actor target : Text) : Except Text TaskBoard :=
  asOwner board actor
    (if board.ownerChatId = some target then
      .error "task board owner cannot also be an assigned reviewer".toList
    else if target ∈ board.reviewerChatIds then .ok board
    else .ok { board with reviewerChatIds := board.reviewerChatIds ++ [target] })

def transferOwner (actor target : Text) : Except Text TaskBoard :=
  asOwner board actor
    (.ok (clearVerifierReports { removeReviewer board target with ownerChatId := some target }))

def setReviewPolicy (actor : Text) (policy : BoardReviewPolicy) :
    Except Text TaskBoard :=
  asOwner board actor (.ok (clearVerifierReports { board with reviewPolicy := policy }))

inductive Event where
  | board (op : Op)
  | claimOwner (actor : Text)
  | addReviewer (actor target : Text)
  | transferOwner (actor target : Text)
  | setReviewPolicy (actor : Text) (policy : BoardReviewPolicy)
  | overrideDependencies (cardId overriddenBy reason overriddenAt : Text)

def holder (cardId : Text) : Option Text :=
  (board.cardClaims.lookup cardId).map CardClaim.claimantChatId

/-- The chats that held the claim on a card since its outcome was recorded, and those among them
that released it. -/
structure Claimants where
  workers : Text → List Text
  released : Text → List Text

def claimants (seen : Claimants) : Op → Claimants
  | .claimCard cardId claimant key claimedAt =>
    match claimCard board cardId claimant key claimedAt with
    | .ok _ =>
      ⟨update seen.workers cardId (claimant :: seen.workers cardId), seen.released⟩
    | .error _ => seen
  | .releaseClaim cardId claimant =>
    match releaseClaim board cardId claimant, holder board cardId with
    | .ok _, some chat =>
      ⟨seen.workers, update seen.released cardId (chat :: seen.released cardId)⟩
    | _, _ => seen
  | .recordCardOutcome cardId _ _ =>
    ⟨update seen.workers cardId (holder board cardId).toList,
      update seen.released cardId []⟩
  | .removeCard cardId =>
    ⟨update seen.workers cardId [], update seen.released cardId []⟩
  | _ => seen

structure History where
  state : State
  seen : Claimants

variable (h : History)

def withBoard (result : Except Text TaskBoard) : History :=
  ⟨⟨orKeep h.state.board result, h.state.permissive⟩, h.seen⟩

def advance : Event → History
  | .board op => ⟨step h.state op, claimants h.state.board h.seen op⟩
  | .claimOwner actor => withBoard h (authorizeOwner h.state.board actor)
  | .addReviewer actor target => withBoard h (addReviewer h.state.board actor target)
  | .transferOwner actor target => withBoard h (transferOwner h.state.board actor target)
  | .setReviewPolicy actor policy => withBoard h (setReviewPolicy h.state.board actor policy)
  | .overrideDependencies cardId overriddenBy reason overriddenAt =>
    ⟨⟨orKeep h.state.board ((recordDependencyOverride h.state.board cardId overriddenBy reason
      overriddenAt).map Prod.fst), h.state.permissive⟩, h.seen⟩

def beginning : History :=
  ⟨⟨board, fun _ => false⟩, ⟨fun cardId => (holder board cardId).toList, fun _ => []⟩⟩

def history (events : List Event) : History :=
  events.foldl advance (beginning board)

def Independent (cardId principal : Text) : Prop :=
  (h.state.board.ownerChatId = some principal ∨ principal ∈ h.state.board.reviewerChatIds) ∧
    principal ∉ h.seen.workers cardId

/-- If the event finalises a card of an owned board without self-review, the finaliser is
independent. -/
def SelfReviewExcluded : Event → Prop
  | .board (.finalizeCard cardId principal false finalizedAt) =>
    h.state.board.ownerChatId ≠ none →
      (∃ next, finalizeCard h.state.board cardId principal false finalizedAt = .ok next) →
      Independent h cardId principal
  | _ => True

/-- No chat asks to finalise a card whose claim it released since the outcome was recorded. -/
def AsksUnreleased : Event → Prop
  | .board (.finalizeCard cardId principal false _) => principal ∉ h.seen.released cardId
  | _ => True

def Throughout (P : History → Event → Prop) : History → List Event → Prop
  | _, [] => True
  | h, event :: events => P h event ∧ Throughout P (advance h event) events

/-- The workers of a card are the chat that holds its claim and those that released it. -/
def Tracked : Prop :=
  ∀ cardId chat, chat ∈ h.seen.workers cardId ↔
    chat ∈ h.seen.released cardId ∨ holder h.state.board cardId = some chat

variable {h : History}

theorem Tracked.of_claims (ht : Tracked h) {state : State}
    (hclaims : state.board.cardClaims = h.state.board.cardClaims) : Tracked ⟨state, h.seen⟩ := by
  intro cardId chat
  rw [ht cardId chat, holder, holder, hclaims]

theorem removeReviewer_claims (board : TaskBoard) (reviewer : Text) :
    (removeReviewer board reviewer).cardClaims = board.cardClaims :=
  (foldl_invalidate_keeps (attestedBy board reviewer) _).2.2.2.1

theorem createCard_claims (board : TaskBoard) (id title : Text) (dependsOn : List Text)
    (instructions : Text) :
    (createCard board id title dependsOn instructions).cardClaims = board.cardClaims := by
  rw [createCard]
  split_ifs
  · rfl
  · rfl

theorem attachCardEvidence_claims (board : TaskBoard) (cardId fragment : Text)
    (specIds : List Text) :
    (attachCardEvidence board cardId fragment specIds).cardClaims = board.cardClaims := by
  rw [attachCardEvidence]
  split_ifs
  · rfl
  · rfl

theorem recordVerifierReport_claims (board : TaskBoard) (cardId : Text) (report : VerifierReport)
    (specIds : List Text) :
    (recordVerifierReport board cardId report specIds).cardClaims = board.cardClaims := by
  rw [recordVerifierReport]
  cases getCard board cardId with
  | none => rfl
  | some card => exact attachCardEvidence_claims _ cardId _ specIds

variable {board : TaskBoard}

theorem orKeep_claims {ε : Type} {result : Except ε TaskBoard}
    (h : ∀ next, result = .ok next → next.cardClaims = board.cardClaims) :
    (orKeep board result).cardClaims = board.cardClaims := by
  cases result with
  | error e => rfl
  | ok next => exact h next rfl

variable {next : TaskBoard} {cardId : Text}

variable {actor : Text}

theorem asOwner_ok {result : Except Text TaskBoard} (h : asOwner board actor result = .ok next) :
    result = .ok next := by
  rw [asOwner] at h
  cases howner : requireOwner board actor with
  | error reason => rw [howner] at h; cases h
  | ok u =>
    rw [howner] at h
    exact h

variable {target : Text}

theorem addReviewer_claims (h : addReviewer board actor target = .ok next) :
    next.cardClaims = board.cardClaims := by
  have hok := asOwner_ok h
  split_ifs at hok
  · cases hok
    rfl
  · cases hok
    rfl

theorem recordDependencyOverride_claims {overriddenBy reason overriddenAt : Text}
    (h : (recordDependencyOverride board cardId overriddenBy reason overriddenAt).map Prod.fst =
      .ok next) :
    next.cardClaims = board.cardClaims := by
  rw [recordDependencyOverride] at h
  cases hunsat : unsatisfiedDependencies board cardId with
  | error violation => rw [hunsat] at h; cases h
  | ok unsatisfied =>
    rw [hunsat] at h
    cases h
    rfl

theorem Tracked.of_card (ht : Tracked h) {state : State} {workers released : List Text}
    (hclaims : ∀ cardId, cardId ≠ target → state.board.cardClaims.lookup cardId =
      h.state.board.cardClaims.lookup cardId)
    (hcard : ∀ chat, chat ∈ workers ↔ chat ∈ released ∨ holder state.board target = some chat) :
    Tracked ⟨state, ⟨update h.seen.workers target workers,
      update h.seen.released target released⟩⟩ := by
  intro cardId chat
  by_cases hc : cardId = target
  · subst hc
    simp only [update_self]
    exact hcard chat
  · simp only [update_of_ne hc]
    rw [ht cardId chat, holder, holder, hclaims cardId hc]

theorem tracked_claimCard (ht : Tracked h) (cardId claimant key claimedAt : Text) :
    Tracked (advance h (.board (.claimCard cardId claimant key claimedAt))) := by
  rw [advance, step, claimants]
  cases hok : claimCard h.state.board cardId claimant key claimedAt with
  | error violation => exact ht
  | ok result =>
    have hsame : h.seen.released =
        update h.seen.released cardId (h.seen.released cardId) :=
      (update_eq_self cardId h.seen.released).symm
    simp only
    rw [hsame]
    rw [claimCard] at hok
    cases hgate : dependencyGate h.state.board cardId with
    | error violation => rw [hgate] at hok; cases hok
    | ok u =>
      cases hold : h.state.board.cardClaims.lookup cardId with
      | some existing =>
        simp only [hgate, hold] at hok
        split_ifs at hok with hmatch
        cases hok
        refine ht.of_card (fun _ _ => rfl) fun chat => ?_
        have hheld : holder h.state.board cardId = some claimant := by
          rw [holder, hold, Option.map_some, hmatch.1]
        rw [List.mem_cons, ht cardId chat]
        simp only [Except.map, orKeep, hheld, Option.some.injEq]
        tauto
      | none =>
        simp only [hgate, hold] at hok
        cases hok
        refine ht.of_card (fun other hne => AList.lookup_insert_ne hne) fun chat => ?_
        have hfree : holder h.state.board cardId = none := by
          rw [holder, hold, Option.map_none]
        have hheld : holder { h.state.board with
            cardClaims := h.state.board.cardClaims.insert cardId ⟨claimant, key, claimedAt⟩ } cardId =
            some claimant := by
          rw [holder, AList.lookup_insert, Option.map_some]
        rw [List.mem_cons, ht cardId chat, hfree]
        simp only [Except.map, orKeep, hheld, Option.some.injEq]
        tauto

theorem tracked_releaseClaim (ht : Tracked h) (cardId claimant : Text) :
    Tracked (advance h (.board (.releaseClaim cardId claimant))) := by
  rw [advance, step, claimants]
  cases hold : h.state.board.cardClaims.lookup cardId with
  | none =>
    have hok : releaseClaim h.state.board cardId claimant = .ok h.state.board := by
      rw [releaseClaim, hold]
    have hfree : holder h.state.board cardId = none := by
      rw [holder, hold, Option.map_none]
    rw [hok, hfree]
    exact ht
  | some existing =>
    have hheld : holder h.state.board cardId = some existing.claimantChatId := by
      rw [holder, hold, Option.map_some]
    by_cases hsame : existing.claimantChatId = claimant
    · have hok : releaseClaim h.state.board cardId claimant =
          .ok { h.state.board with cardClaims := h.state.board.cardClaims.erase cardId } := by
        rw [releaseClaim, hold]
        exact if_pos hsame
      rw [hok, hheld]
      have hkept : h.seen.workers =
          update h.seen.workers cardId (h.seen.workers cardId) :=
        (update_eq_self cardId h.seen.workers).symm
      simp only
      rw [hkept]
      refine ht.of_card (fun other hne => AList.lookup_erase_ne hne) fun chat => ?_
      have hfree : holder { h.state.board with
          cardClaims := h.state.board.cardClaims.erase cardId } cardId = none := by
        rw [holder, AList.lookup_erase, Option.map_none]
      rw [ht cardId chat, hheld, List.mem_cons]
      simp only [orKeep, hfree, Option.some.injEq, reduceCtorEq, or_false]
      tauto
    · have href : releaseClaim h.state.board cardId claimant =
          .error (.alreadyClaimed cardId existing.claimantChatId) := by
        rw [releaseClaim, hold]
        exact if_neg hsame
      rw [href]
      exact ht

theorem tracked_board (ht : Tracked h) (op : Op) : Tracked (advance h (.board op)) := by
  cases op with
  | claimCard cardId claimant key claimedAt =>
    exact tracked_claimCard ht cardId claimant key claimedAt
  | releaseClaim cardId claimant => exact tracked_releaseClaim ht cardId claimant
  | recordCardOutcome cardId required fragments =>
    refine ht.of_card (fun _ _ => rfl) fun chat => ?_
    rw [Option.mem_toList]
    exact ⟨Or.inr, fun hchat => hchat.resolve_left List.not_mem_nil⟩
  | removeCard cardId =>
    refine ht.of_card (fun other hne => AList.lookup_erase_ne hne) fun chat => ?_
    have hfree : holder (removeCard h.state.board cardId) cardId = none := by
      rw [holder, removeCard, AList.lookup_erase, Option.map_none]
    rw [step, hfree]
    simp
  | createCard id title dependsOn instructions =>
    exact ht.of_claims (createCard_claims h.state.board id title dependsOn instructions)
  | moveCard cardId column now => exact ht.of_claims (orKeep_claims fun _ hok => by rw [moveCard_ok hok])
  | attachCardEvidence cardId fragment specIds =>
    exact ht.of_claims (attachCardEvidence_claims h.state.board cardId fragment specIds)
  | recordVerifierReport cardId report specIds =>
    exact ht.of_claims (recordVerifierReport_claims h.state.board cardId report specIds)
  | attestReview cardId reviewer report reviewedAt allow =>
    exact ht.of_claims (orKeep_claims fun _ hok => by rw [attestReview_ok hok])
  | invalidateCardReview cardId => exact ht.of_claims rfl
  | removeReviewer reviewer => exact ht.of_claims (removeReviewer_claims h.state.board reviewer)
  | clearVerifierReports => exact ht.of_claims rfl
  | finalizeCard cardId principal allow finalizedAt =>
    apply ht.of_claims
    rw [step, finalizeCard]
    by_cases hblocks : evaluateFinalize h.state.board cardId principal allow = []
    · simp only [hblocks, if_true]
      rfl
    · simp only [hblocks, if_false]

theorem tracked_advance (ht : Tracked h) (event : Event) : Tracked (advance h event) := by
  cases event with
  | board op => exact tracked_board ht op
  | claimOwner actor => 
    refine ht.of_claims (orKeep_claims fun _ hok => ?_)
    rcases authorizeOwner_ok hok with ⟨-, rfl⟩ | ⟨-, rfl⟩ <;> rfl
  | addReviewer actor target => exact ht.of_claims (orKeep_claims fun _ => addReviewer_claims)
  | transferOwner actor target => 
    refine ht.of_claims (orKeep_claims fun _ hok => ?_)
    cases asOwner_ok hok
    exact removeReviewer_claims h.state.board target
  | setReviewPolicy actor policy =>
    exact ht.of_claims (orKeep_claims fun _ hok => by cases asOwner_ok hok; rfl)
  | overrideDependencies cardId overriddenBy reason overriddenAt =>
    exact ht.of_claims (orKeep_claims fun _ => recordDependencyOverride_claims)

theorem tracked_beginning (board : TaskBoard) : Tracked (beginning board) := by
  intro cardId chat
  rw [beginning, Option.mem_toList]
  exact ⟨Or.inr, fun hchat => hchat.resolve_left List.not_mem_nil⟩

variable {events : List Event}

theorem tracked_run : ∀ {h : History}, Tracked h → Tracked (events.foldl advance h) := by
  induction events with
  | nil => exact fun ht => ht
  | cons event events ih => exact fun ht => ih (tracked_advance ht event)

variable {principal : Text}

theorem finalizer_of_ok {finalizedAt : Text} (howned : board.ownerChatId ≠ none)
    (hok : finalizeCard board cardId principal false finalizedAt = .ok next) :
    (board.ownerChatId = some principal ∨ principal ∈ board.reviewerChatIds) ∧
      holder board cardId ≠ some principal := by
  have hblocks : evaluateFinalize board cardId principal false = [] := by
    by_contra hne
    rw [finalizeCard] at hok
    simp only [hne, if_false] at hok
    cases hok
  obtain ⟨owner, howner⟩ := Option.ne_none_iff_exists'.mp howned
  have hfin := authorizeFinalizer_ok_iff.mp (accepted_of_evaluate hblocks).1.finalizer
  obtain ⟨hrole, hclaim⟩ := hfin.2 owner howner
  refine ⟨?_, fun hheld => ?_⟩
  · rw [howner, Option.some.injEq]
    exact hrole
  · obtain ⟨claim, hl, hchat⟩ := Option.map_eq_some_iff.mp hheld
    cases hclaim claim hl hchat

theorem finalizeCard_ok {allow : Bool} (h : evaluateFinalize board cardId principal allow = [])
    (finalizedAt : Text) :
    ∃ next, finalizeCard board cardId principal allow finalizedAt = .ok next := by
  rw [finalizeCard]
  simp only [h, if_true]
  exact ⟨_, rfl⟩

theorem independent_iff (ht : Tracked h) {finalizedAt : Text}
    (howned : h.state.board.ownerChatId ≠ none)
    (hok : finalizeCard h.state.board cardId principal false finalizedAt = .ok next) :
    Independent h cardId principal ↔ principal ∉ h.seen.released cardId := by
  obtain ⟨hrole, hfree⟩ := finalizer_of_ok howned hok
  have hworker := ht cardId principal
  rw [or_iff_left hfree] at hworker
  rw [Independent, hworker]
  exact and_iff_right hrole

theorem throughout_of {P Q : History → Event → Prop}
    (h : ∀ {history : History} {event : Event}, Tracked history → P history event →
      Q history event) :
    ∀ {history : History}, Tracked history → Throughout P history events →
      Throughout Q history events := by
  induction events with
  | nil => exact fun _ hp => hp
  | cons event events ih =>
    exact fun ht hp => ⟨h ht hp.1, ih (tracked_advance ht event) hp.2⟩

/-- In a run where no chat asks to finalise a card whose claim it released, no chat finalises a card
it worked on. A card that is finalised in a run was finalised by an independent chat exactly if that
chat had not released its claim. -/
theorem self_review_excluded (board : TaskBoard) (events : List Event) :
    (Throughout AsksUnreleased (beginning board) events →
      Throughout SelfReviewExcluded (beginning board) events) ∧
    ∀ cardId principal finalizedAt next,
      (history board events).state.board.ownerChatId ≠ none →
      finalizeCard (history board events).state.board cardId principal false finalizedAt =
        .ok next →
      (Independent (history board events) cardId principal ↔
        principal ∉ (history board events).seen.released cardId) := by
  refine ⟨throughout_of (fun {h event} ht hasks => ?_) (tracked_beginning board),
    fun cardId principal finalizedAt next howned hok => ?_⟩
  · cases event with
    | board op =>
      cases op with
      | finalizeCard cardId principal allow finalizedAt =>
        cases allow with
        | true => trivial
        | false =>
          rintro howned ⟨next, hok⟩
          exact (independent_iff ht howned hok).mpr hasks
      | _ => trivial
    | _ => trivial
  · exact independent_iff (tracked_run (tracked_beginning board)) howned hok

/-- The owner claims a card, does it and releases the claim; an assigned reviewer attests the
report. -/
def releasedEvents : List Event :=
  [.board (.createCard ['a'] [] [] []), .board (.recordCardOutcome ['a'] [] []),
    .board (.claimCard ['a'] ['p'] ['k'] []), .board (.moveCard ['a'] doing []),
    .board (.moveCard ['a'] done []), .board (.recordVerifierReport ['a'] verified []),
    .board (.attestReview ['a'] ['r'] verified [] false),
    .board (.releaseClaim ['a'] ['p'])]

def releasedHistory : History :=
  history (.empty (some ['p']) [['r']] .independentRequired) releasedEvents

/-- With the claim the owner may not finalise the card, without it the owner may. -/
theorem released_claimant_finalises :
    finalizerBlocks (history (.empty (some ['p']) [['r']] .independentRequired)
      releasedEvents.dropLast).state.board ['a'] ['p'] false ≠ [] ∧
    ¬ SelfReviewExcluded releasedHistory (.board (.finalizeCard ['a'] ['p'] false [])) := by
  refine ⟨by decide, fun hexcluded => ?_⟩
  have hopen : evaluateFinalize releasedHistory.state.board ['a'] ['p'] false = [] := by
    decide
  have hindependent := hexcluded (by decide) (finalizeCard_ok hopen [])
  have hworker : ['p'] ∈ releasedHistory.seen.workers ['a'] := by decide
  exact hindependent.2 hworker

/-- The reviewer, who never claimed the card, finalises it. -/
theorem reviewer_finalises_independent :
    Throughout SelfReviewExcluded (beginning (.empty (some ['p']) [['r']] .independentRequired))
      (releasedEvents ++ [.board (.finalizeCard ['a'] ['r'] false [])]) ∧
    (Independent releasedHistory ['a'] ['r'] ↔ ['r'] ∉ releasedHistory.seen.released ['a']) := by
  constructor
  · apply (self_review_excluded _ _).1
    refine ⟨trivial, trivial, trivial, trivial, trivial, trivial, trivial, trivial, ?_, trivial⟩
    have hunreleased : ['r'] ∉ releasedHistory.seen.released ['a'] := by decide
    exact hunreleased
  · have hopen : evaluateFinalize releasedHistory.state.board ['a'] ['r'] false = [] := by
      decide
    obtain ⟨next, hok⟩ := finalizeCard_ok hopen []
    exact (self_review_excluded _ _).2 ['a'] ['r'] [] next (by decide) hok

end SelfReview
