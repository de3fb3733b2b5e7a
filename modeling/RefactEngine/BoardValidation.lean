import RefactEngine.BoardFinalization

/-! # What a board may store

A board is checked before it is written: its dependencies, its owner, reviewers and attestations,
and its claims and overrides. Who may act on a board is decided by other rules; an operation that
those rules allow keeps the check unless it makes a reviewer the owner, or attests for the owner.
-/
namespace BoardValidation

open TaskBoards BoardFinalization List

structure CardLinks where
  id : Text
  dependsOn : List Text

variable (board : TaskBoard)

def cardLinks : List CardLinks :=
  board.cards.map fun card => ⟨card.id, card.dependsOn⟩

def firstRepeat (seen : List Text) : List Text → Option Text
  | [] => none
  | a :: rest => if a ∈ seen then some a else firstRepeat (a :: seen) rest

def linkError (ids : List Text) (card : CardLinks) : Option Text :=
  if card.id ∈ card.dependsOn then
    some ("Card ".toList ++ card.id ++ " cannot depend on itself".toList)
  else
    match firstRepeat [] card.dependsOn with
    | some duplicate =>
      some ("Card ".toList ++ card.id ++ " lists dependency ".toList ++ duplicate ++
        " more than once".toList)
    | none =>
      match card.dependsOn.find? fun dependency => decide (dependency ∉ ids) with
      | some missing =>
        some ("Card ".toList ++ card.id ++ " dependency ".toList ++ missing ++
          " does not exist".toList)
      | none => none

variable (cards : List CardLinks)

def dependents : List (List ℕ) :=
  let ids := cards.map CardLinks.id
  cards.zipIdx.foldl (fun table entry =>
    entry.1.dependsOn.foldl (fun table dependency =>
      table.modify (ids.idxOf dependency) (· ++ [entry.2])) table)
    (List.replicate cards.length [])

structure Ranking where
  indegree : List ℕ
  ready : List ℕ

def settle (ranking : Ranking) (dependent : ℕ) : Ranking :=
  let indegree := ranking.indegree.modify dependent (· - 1)
  ⟨indegree,
    if indegree.getD dependent 0 = 0 then ranking.ready ++ [dependent] else ranking.ready⟩

/-- The degrees that are left and the number of cards visited. A card is ready once, so the number
of cards is fuel enough. -/
def visit (dependents : List (List ℕ)) : ℕ → Ranking → ℕ → List ℕ × ℕ
  | 0, ranking, visited => (ranking.indegree, visited)
  | fuel + 1, ranking, visited =>
    match ranking.ready with
    | [] => (ranking.indegree, visited)
    | index :: rest =>
      visit dependents fuel ((dependents.getD index []).foldl settle ⟨ranking.indegree, rest⟩)
        (visited + 1)

def cycleError : Option Text :=
  let indegree := cards.map fun card => card.dependsOn.length
  let ready := indegree.zipIdx.filterMap fun entry => if entry.1 = 0 then some entry.2 else none
  let result := visit (dependents cards) cards.length ⟨indegree, ready⟩ 0
  if result.2 ≠ cards.length then
    let cycle := result.1.zipIdx.findSome? fun entry =>
      if 0 < entry.1 then (cards[entry.2]?).map CardLinks.id else none
    some ("Dependency cycle includes ".toList ++ cycle.getD "unknown".toList)
  else none

def dependencyError : Option Text :=
  let ids := cards.map CardLinks.id
  match firstRepeat [] ids with
  | some duplicate => some ("Duplicate card ID ".toList ++ duplicate)
  | none => (cards.findSome? (linkError ids)).or (cycleError cards)

def refuse : Option Text → Except Text Unit
  | some reason => .error reason
  | none => .ok ()

def validateDependencies : Except Text Unit :=
  refuse (dependencyError (cardLinks board))

variable (maxClaimKeyLen : ℕ) (cardId : Text)

def claimError (claim : CardClaim) :
    Option Text :=
  if (getCard board cardId).isNone then
    some ("Claim references missing card ".toList ++ cardId)
  else if trim claim.claimantChatId = [] then
    some ("Claim on card ".toList ++ cardId ++ " has an empty claimant".toList)
  else if trim claim.idempotencyKey = [] then
    some ("Claim on card ".toList ++ cardId ++ " has an empty idempotency key".toList)
  else if claim.idempotencyKey.length > maxClaimKeyLen then
    some ("Claim idempotency key on card ".toList ++ cardId ++
      " exceeds the configured maximum of ".toList ++ (toString maxClaimKeyLen).toList ++
      " characters".toList)
  else none

def overrideError (record : DependencyOverride) :
    Option Text :=
  if (getCard board cardId).isNone then
    some ("Dependency override references missing card ".toList ++ cardId)
  else if trim record.overriddenBy = [] then
    some ("Dependency override on card ".toList ++ cardId ++ " has no recorded principal".toList)
  else if trim record.reason = [] then
    some ("Dependency override on card ".toList ++ cardId ++ " has no recorded reason".toList)
  else none

def firstError {α : Type} (error : Text → α → Option Text) (entries : ByCard α) : Option Text :=
  entries.inOrder.findSome? fun entry => error entry.1 entry.2

def validateClaims : Except Text Unit :=
  refuse ((firstError (claimError board maxClaimKeyLen) board.cardClaims).or
    (firstError (overrideError board) board.dependencyOverrides))

def reviewerError (owner : Option Text) (seen : List Text) : List Text → Option Text
  | [] => none
  | reviewer :: rest =>
    if trim reviewer = [] then some "Task board reviewer IDs cannot be empty".toList
    else if reviewer ∈ seen then
      some ("Task board reviewer ".toList ++ reviewer ++ " is duplicated".toList)
    else if owner = some reviewer then
      some "Task board owner cannot also be an assigned reviewer".toList
    else reviewerError owner (reviewer :: seen) rest

def attestationError (attestation : BoardReviewAttestation) :
    Option Text :=
  match getCard board cardId with
  | none => some ("Review attestation references missing card ".toList ++ cardId)
  | some card =>
    if card.verifierReport ≠ some attestation.report then
      some ("Review attestation for card ".toList ++ cardId ++
        " does not match its verifier report".toList)
    else if attestation.reviewerChatId ∉ board.reviewerChatIds then
      some ("Review attestation for card ".toList ++ cardId ++
        " names unassigned reviewer ".toList ++ attestation.reviewerChatId)
    else if board.ownerChatId = some attestation.reviewerChatId then
      some ("Review attestation for card ".toList ++ cardId ++
        " was produced by the board owner".toList)
    else none

def validateAuthority (maxReviewers : ℕ) : Except Text Unit :=
  if board.reviewerChatIds.length > maxReviewers then
    .error ("Task board has ".toList ++ (toString board.reviewerChatIds.length).toList ++
      " reviewers, exceeding the configured maximum of ".toList ++
      (toString maxReviewers).toList)
  else
    match reviewerError board.ownerChatId [] board.reviewerChatIds with
    | some reason => .error reason
    | none =>
      if board.ownerChatId = some [] then .error "Task board owner ID cannot be empty".toList
      else refuse (firstError (attestationError board) board.reviewAttestations)

def validateForWrite (maxReviewers maxClaimKeyLen : ℕ) : Except Text Unit :=
  match validateDependencies board with
  | .error reason => .error reason
  | .ok () =>
    match validateAuthority board maxReviewers with
    | .error reason => .error reason
    | .ok () => validateClaims board maxClaimKeyLen

def authorizeOwner (chatId : Text) : Except Text TaskBoard :=
  match board.ownerChatId with
  | none => .ok { board with ownerChatId := some chatId }
  | some owner =>
    if owner = chatId then .ok board
    else .error "task board mutation requires the owning planner chat".toList

def requireOwner (chatId : Text) : Except Text Unit :=
  match board.ownerChatId with
  | some owner =>
    if owner = chatId then .ok ()
    else .error "task board mutation requires the owning planner chat".toList
  | none => .error "task board has no owner; claim ownership first".toList

def recordDependencyOverride (cardId overriddenBy reason overriddenAt : Text) :
    Except BoardRuleViolation (TaskBoard × List Text) :=
  match unsatisfiedDependencies board cardId with
  | .error violation => .error violation
  | .ok unsatisfied =>
    .ok ({ board with dependencyOverrides :=
        board.dependencyOverrides.insert cardId ⟨overriddenBy, reason, overriddenAt, unsatisfied⟩ },
      unsatisfied)

section Accepted

variable {board} {next : TaskBoard} {cardId : Text}

theorem moveCard_ok {column now : Text} (h : moveCard board cardId column now = .ok next) :
    next = { board with cards := modifyCard cardId (placeCard column now) board.cards } := by
  rw [moveCard] at h
  cases hallow : ensureColumnMoveAllowed board cardId column with
  | error violation => rw [hallow] at h; cases h
  | ok u => rw [hallow] at h; cases h; rfl

theorem claimCard_ok {claimant key claimedAt : Text} {outcome : ClaimOutcome}
    (h : claimCard board cardId claimant key claimedAt = .ok (next, outcome)) :
    dependencyGate board cardId = .ok () ∧
      (board.cardClaims.lookup cardId = none ∧ next = { board with
          cardClaims := board.cardClaims.insert cardId ⟨claimant, key, claimedAt⟩ } ∨
        (∃ existing, board.cardClaims.lookup cardId = some existing ∧
          existing.claimantChatId = claimant) ∧ next = board) := by
  rw [claimCard] at h
  cases hgate : dependencyGate board cardId with
  | error violation => rw [hgate] at h; cases h
  | ok u =>
    refine ⟨rfl, ?_⟩
    cases hold : board.cardClaims.lookup cardId with
    | none =>
      simp only [hgate, hold] at h
      cases h
      exact Or.inl ⟨rfl, rfl⟩
    | some existing =>
      simp only [hgate, hold] at h
      split_ifs at h with hmatch
      cases h
      exact Or.inr ⟨⟨existing, rfl, hmatch.1⟩, rfl⟩

theorem releaseClaim_ok {claimant : Text} (h : releaseClaim board cardId claimant = .ok next) :
    next = board ∨ next = { board with cardClaims := board.cardClaims.erase cardId } := by
  rw [releaseClaim] at h
  cases hold : board.cardClaims.lookup cardId with
  | none => rw [hold] at h; cases h; exact Or.inl rfl
  | some existing =>
    simp only [hold] at h
    split_ifs at h
    cases h
    exact Or.inr rfl

theorem attestReview_ok {reviewer reviewedAt : Text} {report : VerifierReport} {allow : Bool}
    (h : attestReview board cardId reviewer report reviewedAt allow = .ok next) :
    next = { board with
      reviewAttestations :=
        board.reviewAttestations.insert cardId ⟨reviewer, reviewedAt, report⟩ } := by
  rw [attestReview] at h
  cases hauth : authorizeReviewer board reviewer allow with
  | error reason => rw [hauth] at h; cases h
  | ok u => rw [hauth] at h; cases h; rfl

theorem authorizeOwner_ok {chatId : Text} (h : authorizeOwner board chatId = .ok next) :
    board.ownerChatId ≠ none ∧ next = board ∨
      board.ownerChatId = none ∧ next = { board with ownerChatId := some chatId } := by
  rw [authorizeOwner] at h
  cases howner : board.ownerChatId with
  | none => rw [howner] at h; cases h; exact Or.inr ⟨rfl, rfl⟩
  | some owner =>
    simp only [howner] at h
    split_ifs at h
    cases h
    exact Or.inl ⟨Option.some_ne_none owner, rfl⟩

theorem recordDependencyOverride_ok {overriddenBy reason overriddenAt : Text}
    {unsatisfied : List Text}
    (h : recordDependencyOverride board cardId overriddenBy reason overriddenAt =
      .ok (next, unsatisfied)) :
    unsatisfiedDependencies board cardId = .ok unsatisfied ∧ next = { board with
      dependencyOverrides := board.dependencyOverrides.insert cardId
        ⟨overriddenBy, reason, overriddenAt, unsatisfied⟩ } := by
  rw [recordDependencyOverride] at h
  cases hlist : unsatisfiedDependencies board cardId with
  | error violation => rw [hlist] at h; cases h
  | ok found => rw [hlist] at h; cases h; exact ⟨rfl, rfl⟩

end Accepted

structure ClaimValid (board : TaskBoard) (maxClaimKeyLen : ℕ) (cardId : Text)
    (claim : CardClaim) : Prop where
  card : (getCard board cardId).isSome
  claimant : trim claim.claimantChatId ≠ []
  key : trim claim.idempotencyKey ≠ []
  short : claim.idempotencyKey.length ≤ maxClaimKeyLen

structure OverrideValid (board : TaskBoard) (cardId : Text) (record : DependencyOverride) :
    Prop where
  card : (getCard board cardId).isSome
  principal : trim record.overriddenBy ≠ []
  reason : trim record.reason ≠ []

structure AttestationValid (board : TaskBoard) (cardId : Text)
    (attestation : BoardReviewAttestation) : Prop where
  report : ∃ card, getCard board cardId = some card ∧
    card.verifierReport = some attestation.report
  assigned : attestation.reviewerChatId ∈ board.reviewerChatIds
  independent : board.ownerChatId ≠ some attestation.reviewerChatId

structure RolesValid (board : TaskBoard) (maxReviewers : ℕ) : Prop where
  few : board.reviewerChatIds.length ≤ maxReviewers
  named : ∀ reviewer ∈ board.reviewerChatIds, trim reviewer ≠ []
  distinct : board.reviewerChatIds.Nodup
  independent : ∀ reviewer ∈ board.reviewerChatIds, board.ownerChatId ≠ some reviewer
  owner : board.ownerChatId ≠ some []

structure Saveable (board : TaskBoard) (maxReviewers maxClaimKeyLen : ℕ) : Prop where
  dependencies : dependencyError (cardLinks board) = none
  roles : RolesValid board maxReviewers
  attestations : ∀ cardId attestation, board.reviewAttestations.lookup cardId = some attestation →
    AttestationValid board cardId attestation
  claims : ∀ cardId claim, board.cardClaims.lookup cardId = some claim →
    ClaimValid board maxClaimKeyLen cardId claim
  overrides : ∀ cardId record, board.dependencyOverrides.lookup cardId = some record →
    OverrideValid board cardId record

@[simp] theorem refuse_ok_iff {error : Option Text} : refuse error = .ok () ↔ error = none := by
  cases error with
  | none => simp [refuse]
  | some reason => simp [refuse]

theorem firstError_eq_none_iff {α : Type} {error : Text → α → Option Text} {entries : ByCard α} :
    firstError error entries = none ↔
      ∀ cardId a, entries.lookup cardId = some a → error cardId a = none := by
  rw [firstError, List.findSome?_eq_none_iff]
  constructor
  · intro h cardId a hl
    exact h (cardId, a) (AList.mem_inOrder.mpr hl)
  · rintro h ⟨cardId, a⟩ hmem
    exact h cardId a (AList.mem_inOrder.mp hmem)

variable {cardId : Text}

theorem claimError_eq_none_iff {board : TaskBoard} {maxClaimKeyLen : ℕ} {claim : CardClaim} :
    claimError board maxClaimKeyLen cardId claim = none ↔
      ClaimValid board maxClaimKeyLen cardId claim := by
  rw [claimError]
  constructor
  · intro h
    split_ifs at h with hcard hclaimant hkey hlong
    exact ⟨by simpa [Option.isSome_iff_ne_none] using hcard, hclaimant, hkey, not_lt.mp hlong⟩
  · rintro ⟨hcard, hclaimant, hkey, hshort⟩
    rw [if_neg (by simpa [Option.isSome_iff_ne_none] using hcard), if_neg hclaimant, if_neg hkey,
      if_neg (not_lt.mpr hshort)]

theorem overrideError_eq_none_iff {board : TaskBoard} {record : DependencyOverride} :
    overrideError board cardId record = none ↔ OverrideValid board cardId record := by
  rw [overrideError]
  constructor
  · intro h
    split_ifs at h with hcard hprincipal hreason
    exact ⟨by simpa [Option.isSome_iff_ne_none] using hcard, hprincipal, hreason⟩
  · rintro ⟨hcard, hprincipal, hreason⟩
    rw [if_neg (by simpa [Option.isSome_iff_ne_none] using hcard), if_neg hprincipal,
      if_neg hreason]

theorem reviewerError_eq_none_iff {owner : Option Text} {reviewers : List Text} :
    ∀ {seen : List Text}, reviewerError owner seen reviewers = none ↔
      reviewers.Nodup ∧
        ∀ reviewer ∈ reviewers, trim reviewer ≠ [] ∧ owner ≠ some reviewer ∧ reviewer ∉ seen := by
  induction reviewers with
  | nil => simp [reviewerError]
  | cons reviewer rest ih =>
    intro seen
    rw [reviewerError, nodup_cons, forall_mem_cons]
    constructor
    · intro h
      split_ifs at h with hblank hseen howner
      obtain ⟨hnodup, hrest⟩ := ih.mp h
      refine ⟨⟨fun hmem => (hrest reviewer hmem).2.2 mem_cons_self, hnodup⟩,
        ⟨hblank, howner, hseen⟩, fun r hr => ?_⟩
      obtain ⟨hr₁, hr₂, hr₃⟩ := hrest r hr
      exact ⟨hr₁, hr₂, fun hmem => hr₃ (mem_cons_of_mem reviewer hmem)⟩
    · rintro ⟨⟨hnot, hnodup⟩, ⟨hblank, howner, hseen⟩, hrest⟩
      rw [if_neg hblank, if_neg hseen, if_neg howner]
      apply ih.mpr
      refine ⟨hnodup, fun r hr => ?_⟩
      obtain ⟨hr₁, hr₂, hr₃⟩ := hrest r hr
      refine ⟨hr₁, hr₂, fun hmem => ?_⟩
      rcases mem_cons.mp hmem with rfl | hmem
      · exact hnot hr
      · exact hr₃ hmem

variable {attestation : BoardReviewAttestation}

theorem attestationError_eq_none_iff {board : TaskBoard} :
    attestationError board cardId attestation = none ↔
      AttestationValid board cardId attestation := by
  rw [attestationError]
  constructor
  · intro h
    cases hcard : getCard board cardId with
    | none => rw [hcard] at h; cases h
    | some card =>
      simp only [hcard] at h
      split_ifs at h with hrep hassign howner
      exact ⟨⟨card, hcard, not_not.mp hrep⟩, hassign, howner⟩
  · rintro ⟨⟨card, hcard, hrep⟩, hassign, howner⟩
    simp only [hcard]
    rw [if_neg (not_not.mpr hrep), if_neg (not_not.mpr hassign), if_neg howner]

theorem validateAuthority_ok_iff {board : TaskBoard} {maxReviewers : ℕ} :
    validateAuthority board maxReviewers = .ok () ↔ RolesValid board maxReviewers ∧
      ∀ cardId attestation, board.reviewAttestations.lookup cardId = some attestation →
        AttestationValid board cardId attestation := by
  have hatt : refuse (firstError (attestationError board) board.reviewAttestations) =
      .ok () ↔ ∀ cardId attestation, board.reviewAttestations.lookup cardId = some attestation →
        AttestationValid board cardId attestation := by
    rw [refuse_ok_iff, firstError_eq_none_iff]
    simp only [attestationError_eq_none_iff]
  rw [validateAuthority]
  by_cases hfew : board.reviewerChatIds.length > maxReviewers
  · rw [if_pos hfew]
    exact ⟨fun h => (by cases h), fun h => absurd h.1.few (not_le.mpr hfew)⟩
  · rw [if_neg hfew]
    cases hroles : reviewerError board.ownerChatId [] board.reviewerChatIds with
    | some reason =>
      refine ⟨fun h => (by cases h), fun h => ?_⟩
      have hnone : reviewerError board.ownerChatId [] board.reviewerChatIds = none :=
        reviewerError_eq_none_iff.mpr ⟨h.1.distinct, fun r hr =>
          ⟨h.1.named r hr, h.1.independent r hr, not_mem_nil⟩⟩
      rw [hroles] at hnone
      cases hnone
    | none =>
      obtain ⟨hdist, hnames⟩ := reviewerError_eq_none_iff.mp hroles
      by_cases howner : board.ownerChatId = some []
      · simp only [howner, if_true]
        exact ⟨fun h => (by cases h), fun h => absurd howner h.1.owner⟩
      · simp only [howner, if_false]
        rw [hatt]
        exact ⟨fun h => ⟨⟨not_lt.mp hfew, fun r hr => (hnames r hr).1, hdist,
          fun r hr => (hnames r hr).2.1, howner⟩, h⟩, fun h => h.2⟩

theorem validateForWrite_ok_iff {board : TaskBoard} {maxReviewers maxClaimKeyLen : ℕ} :
    validateForWrite board maxReviewers maxClaimKeyLen = .ok () ↔
      Saveable board maxReviewers maxClaimKeyLen := by
  have hclaims : validateClaims board maxClaimKeyLen = .ok () ↔
      (∀ cardId claim, board.cardClaims.lookup cardId = some claim →
        ClaimValid board maxClaimKeyLen cardId claim) ∧
      ∀ cardId record, board.dependencyOverrides.lookup cardId = some record →
        OverrideValid board cardId record := by
    rw [validateClaims, refuse_ok_iff, Option.or_eq_none_iff, firstError_eq_none_iff,
      firstError_eq_none_iff]
    simp only [claimError_eq_none_iff, overrideError_eq_none_iff]
  rw [validateForWrite]
  constructor
  · intro h
    cases hdeps : validateDependencies board with
    | error reason => rw [hdeps] at h; cases h
    | ok u =>
      cases hauth : validateAuthority board maxReviewers with
      | error reason => rw [hdeps, hauth] at h; cases h
      | ok v =>
        simp only [hdeps, hauth] at h
        obtain ⟨hroles, hatt⟩ := validateAuthority_ok_iff.mp hauth
        exact ⟨refuse_ok_iff.mp hdeps, hroles, hatt, (hclaims.mp h).1,
          (hclaims.mp h).2⟩
  · intro h
    have hdeps : validateDependencies board = .ok () := refuse_ok_iff.mpr h.dependencies
    simp only [hdeps, validateAuthority_ok_iff.mpr ⟨h.roles, h.attestations⟩]
    exact hclaims.mpr ⟨h.claims, h.overrides⟩

inductive Mutation where
  | claimCard (cardId claimantChatId idempotencyKey claimedAt : Text)
  | releaseClaim (cardId claimantChatId : Text)
  | recordDependencyOverride (cardId overriddenBy reason overriddenAt : Text)
  | authorizeOwner (chatId : Text)
  | attestReview (cardId reviewerChatId : Text) (report : VerifierReport) (reviewedAt : Text)
      (allowSelfReview : Bool)
  | removeReviewer (reviewerChatId : Text)
  | invalidateCardReview (cardId : Text)
  | clearVerifierReports
  | recordCardOutcome (cardId : Text) (required : List OutcomeRequirement)
      (fragments : List OutcomeFragment)
  | finalizeCard (cardId principal : Text) (allowSelfReview : Bool) (finalizedAt : Text)

def apply : Mutation → Option TaskBoard
  | .claimCard cardId claimant key claimedAt =>
    ((claimCard board cardId claimant key claimedAt).map Prod.fst).toOption
  | .releaseClaim cardId claimant => (releaseClaim board cardId claimant).toOption
  | .recordDependencyOverride cardId overriddenBy reason overriddenAt =>
    ((recordDependencyOverride board cardId overriddenBy reason overriddenAt).map
      Prod.fst).toOption
  | .authorizeOwner chatId => (authorizeOwner board chatId).toOption
  | .attestReview cardId reviewer report reviewedAt allow =>
    (attestReview board cardId reviewer report reviewedAt allow).toOption
  | .removeReviewer reviewer => some (removeReviewer board reviewer)
  | .invalidateCardReview cardId => some (invalidateCardReview board cardId)
  | .clearVerifierReports => some (clearVerifierReports board)
  | .recordCardOutcome cardId required fragments =>
    some (recordCardOutcome board cardId required fragments)
  | .finalizeCard cardId principal allow finalizedAt =>
    (finalizeCard board cardId principal allow finalizedAt).toOption

/-- What the callers of an operation pass: names and reasons that are not blank, keys that are not
too long, and the report that is stored on the card. -/
def WellGiven : Mutation → Prop
  | .claimCard _ claimant key _ => trim claimant ≠ [] ∧ trim key ≠ [] ∧ key.length ≤ maxClaimKeyLen
  | .recordDependencyOverride _ overriddenBy reason _ => trim overriddenBy ≠ [] ∧ trim reason ≠ []
  | .authorizeOwner chatId => chatId ≠ []
  | .attestReview cardId _ report _ _ =>
    ∃ card, getCard board cardId = some card ∧ card.verifierReport = some report
  | _ => True

def RolesAgree : Mutation → Prop
  | .authorizeOwner chatId => board.ownerChatId ≠ none ∨ chatId ∉ board.reviewerChatIds
  | .attestReview _ reviewer _ _ _ => reviewer ∈ board.reviewerChatIds
  | _ => True

variable {board board' : TaskBoard} {maxReviewers maxClaimKeyLen : ℕ}

theorem getCard_isSome_iff :
    (getCard board cardId).isSome ↔ cardId ∈ (cardLinks board).map CardLinks.id := by
  rw [getCard, List.find?_isSome, cardLinks, map_map, mem_map]
  simp

theorem RolesValid.of_same (h : RolesValid board maxReviewers)
    (howner : board'.ownerChatId = board.ownerChatId)
    (hrevs : board'.reviewerChatIds = board.reviewerChatIds) :
    RolesValid board' maxReviewers := by
  refine ⟨?_, ?_, ?_, ?_, ?_⟩
  · rw [hrevs]
    exact h.few
  · rw [hrevs]
    exact h.named
  · rw [hrevs]
    exact h.distinct
  · rw [hrevs, howner]
    exact h.independent
  · rw [howner]
    exact h.owner

theorem AttestationValid.of_same (h : AttestationValid board cardId attestation)
    (hcard : getCard board' cardId = getCard board cardId)
    (howner : board'.ownerChatId = board.ownerChatId)
    (hrevs : board'.reviewerChatIds = board.reviewerChatIds) :
    AttestationValid board' cardId attestation := by
  refine ⟨?_, ?_, ?_⟩
  · rw [hcard]
    exact h.report
  · rw [hrevs]
    exact h.assigned
  · rw [howner]
    exact h.independent

theorem Saveable.of_links (h : Saveable board maxReviewers maxClaimKeyLen)
    (hlinks : cardLinks board' = cardLinks board) (hroles : RolesValid board' maxReviewers)
    (hatt : ∀ cardId attestation,
      board'.reviewAttestations.lookup cardId = some attestation →
      AttestationValid board' cardId attestation)
    (hclaims : ∀ cardId claim, board'.cardClaims.lookup cardId = some claim →
      board.cardClaims.lookup cardId = some claim ∨ ClaimValid board maxClaimKeyLen cardId claim)
    (hover : ∀ cardId record, board'.dependencyOverrides.lookup cardId = some record →
      board.dependencyOverrides.lookup cardId = some record ∨
        OverrideValid board cardId record) :
    Saveable board' maxReviewers maxClaimKeyLen := by
  have hcards : ∀ cardId, (getCard board cardId).isSome → (getCard board' cardId).isSome := by
    intro cardId hcard
    rw [getCard_isSome_iff] at hcard ⊢
    rwa [hlinks]
  refine ⟨?_, hroles, hatt, fun cardId claim hl => ?_, fun cardId record hl => ?_⟩
  · rw [hlinks]
    exact h.dependencies
  · have hvalid := (hclaims cardId claim hl).elim (h.claims cardId claim) id
    exact ⟨hcards cardId hvalid.card, hvalid.claimant, hvalid.key, hvalid.short⟩
  · have hvalid := (hover cardId record hl).elim (h.overrides cardId record) id
    exact ⟨hcards cardId hvalid.card, hvalid.principal, hvalid.reason⟩

theorem Saveable.of_entries (h : Saveable board maxReviewers maxClaimKeyLen)
    (hcards : board'.cards = board.cards) (howner : board'.ownerChatId = board.ownerChatId)
    (hrevs : board'.reviewerChatIds = board.reviewerChatIds)
    (hatt : board'.reviewAttestations = board.reviewAttestations)
    (hclaims : ∀ cardId claim, board'.cardClaims.lookup cardId = some claim →
      board.cardClaims.lookup cardId = some claim ∨ ClaimValid board maxClaimKeyLen cardId claim)
    (hover : ∀ cardId record, board'.dependencyOverrides.lookup cardId = some record →
      board.dependencyOverrides.lookup cardId = some record ∨
        OverrideValid board cardId record) :
    Saveable board' maxReviewers maxClaimKeyLen := by
  refine h.of_links ?_ (h.roles.of_same howner hrevs) (fun cardId attestation hl => ?_)
    hclaims hover
  · rw [cardLinks, cardLinks, hcards]
  · rw [hatt] at hl
    refine (h.attestations cardId attestation hl).of_same ?_ howner hrevs
    rw [getCard, getCard, hcards]

variable {unsatisfied : List Text}

theorem unsatisfiedDependencies_card (h : unsatisfiedDependencies board cardId = .ok unsatisfied) :
    (getCard board cardId).isSome := by
  rw [unsatisfiedDependencies] at h
  cases hcard : getCard board cardId with
  | none => rw [hcard] at h; cases h
  | some card => rfl

theorem dependencyGate_card (h : dependencyGate board cardId = .ok ()) :
    (getCard board cardId).isSome := by
  rw [dependencyGate] at h
  cases hunsat : unsatisfiedDependencies board cardId with
  | error violation => rw [hunsat] at h; cases h
  | ok unsatisfied => exact unsatisfiedDependencies_card hunsat

theorem claimCard_saveable (h : Saveable board maxReviewers maxClaimKeyLen)
    {claimant key claimedAt : Text} {outcome : ClaimOutcome} (hclaimant : trim claimant ≠ [])
    (hkey : trim key ≠ []) (hshort : key.length ≤ maxClaimKeyLen)
    (hok : claimCard board cardId claimant key claimedAt = .ok (board', outcome)) :
    Saveable board' maxReviewers maxClaimKeyLen := by
  obtain ⟨hgate, ⟨-, rfl⟩ | ⟨-, rfl⟩⟩ := claimCard_ok hok
  · refine h.of_entries rfl rfl rfl rfl (fun other claim hl => ?_) fun _ _ hl => Or.inl hl
    rw [AList.lookup_insert_if] at hl
    split_ifs at hl with hother
    · subst hother
      cases hl
      exact Or.inr ⟨dependencyGate_card hgate, hclaimant, hkey, hshort⟩
    · exact Or.inl hl
  · exact h

theorem releaseClaim_saveable (h : Saveable board maxReviewers maxClaimKeyLen) {claimant : Text}
    (hok : releaseClaim board cardId claimant = .ok board') :
    Saveable board' maxReviewers maxClaimKeyLen := by
  rcases releaseClaim_ok hok with rfl | rfl
  · exact h
  · refine h.of_entries rfl rfl rfl rfl (fun other claim hl => ?_) fun _ _ hl => Or.inl hl
    rw [AList.lookup_erase_if] at hl
    split_ifs at hl
    exact Or.inl hl

theorem recordDependencyOverride_saveable (h : Saveable board maxReviewers maxClaimKeyLen)
    {overriddenBy reason overriddenAt : Text} (hprincipal : trim overriddenBy ≠ [])
    (hreason : trim reason ≠ [])
    (hok : recordDependencyOverride board cardId overriddenBy reason overriddenAt =
      .ok (board', unsatisfied)) :
    Saveable board' maxReviewers maxClaimKeyLen := by
  obtain ⟨hunsat, rfl⟩ := recordDependencyOverride_ok hok
  refine h.of_entries rfl rfl rfl rfl (fun _ _ hl => Or.inl hl) fun other record hl => ?_
  rw [AList.lookup_insert_if] at hl
  split_ifs at hl with hother
  · subst hother
    cases hl
    exact Or.inr ⟨unsatisfiedDependencies_card hunsat, hprincipal, hreason⟩
  · exact Or.inl hl

theorem setOutcome_saveable (h : Saveable board maxReviewers maxClaimKeyLen) (cardId : Text)
    (outcome : CardOutcome) :
    Saveable (setOutcome board cardId outcome) maxReviewers maxClaimKeyLen :=
  h.of_entries rfl rfl rfl rfl (fun _ _ hl => Or.inl hl) fun _ _ hl => Or.inl hl

theorem finalizeCard_saveable (h : Saveable board maxReviewers maxClaimKeyLen)
    {principal finalizedAt : Text} {allow : Bool}
    (hok : finalizeCard board cardId principal allow finalizedAt = .ok board') :
    Saveable board' maxReviewers maxClaimKeyLen := by
  rw [finalizeCard] at hok
  by_cases hblocks : evaluateFinalize board cardId principal allow = []
  · simp only [hblocks, if_true] at hok
    cases hok
    exact setOutcome_saveable h cardId _
  · simp only [hblocks, if_false] at hok
    cases hok

theorem authorizeOwner_saveable_iff (h : Saveable board maxReviewers maxClaimKeyLen)
    {chatId : Text} (hchat : chatId ≠ []) (hok : authorizeOwner board chatId = .ok board') :
    Saveable board' maxReviewers maxClaimKeyLen ↔
      board.ownerChatId ≠ none ∨ chatId ∉ board.reviewerChatIds := by
  rcases authorizeOwner_ok hok with ⟨howner, rfl⟩ | ⟨howner, rfl⟩
  · exact ⟨fun _ => Or.inl howner, fun _ => h⟩
  constructor
  · intro hvalid
    exact Or.inr fun hmem => hvalid.roles.independent chatId hmem rfl
  · intro hagree
    have hnot : chatId ∉ board.reviewerChatIds := hagree.resolve_left (not_not.mpr howner)
    have hne : ∀ reviewer ∈ board.reviewerChatIds, some chatId ≠ some reviewer :=
      fun reviewer hmem he => hnot (Option.some.inj he ▸ hmem)
    refine h.of_links rfl ⟨h.roles.few, h.roles.named, h.roles.distinct, hne, ?_⟩
      (fun cardId attestation hl => ?_) (fun _ _ hl => Or.inl hl) fun _ _ hl => Or.inl hl
    · exact fun he => hchat (Option.some.inj he)
    · have hvalid := h.attestations cardId attestation hl
      exact ⟨hvalid.report, hvalid.assigned, hne _ hvalid.assigned⟩

theorem attestReview_saveable_iff (h : Saveable board maxReviewers maxClaimKeyLen)
    {reviewer reviewedAt : Text} {report : VerifierReport} {allow : Bool}
    (hstored : ∃ card, getCard board cardId = some card ∧ card.verifierReport = some report)
    (hok : attestReview board cardId reviewer report reviewedAt allow = .ok board') :
    Saveable board' maxReviewers maxClaimKeyLen ↔ reviewer ∈ board.reviewerChatIds := by
  obtain rfl := attestReview_ok hok
  constructor
  · intro hvalid
    exact (hvalid.attestations cardId _ (AList.lookup_insert _)).assigned
  · intro hassign
    refine h.of_links rfl (h.roles.of_same rfl rfl) (fun other attestation hl => ?_)
      (fun _ _ hl => Or.inl hl) fun _ _ hl => Or.inl hl
    rw [AList.lookup_insert_if] at hl
    split_ifs at hl with hother
    · subst hother
      cases hl
      exact ⟨hstored, hassign, h.roles.independent reviewer hassign⟩
    · exact (h.attestations other attestation hl).of_same rfl rfl rfl

theorem cardLinks_modifyCard {f : BoardCard → BoardCard}
    (hf : ∀ card, (f card).id = card.id ∧ (f card).dependsOn = card.dependsOn) (cardId : Text)
    (cards : List BoardCard) :
    ((modifyCard cardId f cards).map fun card => CardLinks.mk card.id card.dependsOn) =
      cards.map fun card => ⟨card.id, card.dependsOn⟩ := by
  induction cards with
  | nil => rfl
  | cons card rest ih =>
    rw [modifyCard]
    split_ifs
    · rw [map_cons, map_cons, (hf card).1, (hf card).2]
    · rw [map_cons, map_cons, ih]

/-- Invalidating keeps everything that the check reads but the reports and the attestations, and the
attestations of the cards are gone. -/
theorem foldl_invalidate_keeps (cardIds : List Text) (board : TaskBoard) :
    cardLinks (cardIds.foldl invalidateCardReview board) = cardLinks board ∧
      (cardIds.foldl invalidateCardReview board).ownerChatId = board.ownerChatId ∧
      (cardIds.foldl invalidateCardReview board).reviewerChatIds = board.reviewerChatIds ∧
      (cardIds.foldl invalidateCardReview board).cardClaims = board.cardClaims ∧
      (cardIds.foldl invalidateCardReview board).dependencyOverrides =
        board.dependencyOverrides := by
  induction cardIds generalizing board with
  | nil => exact ⟨rfl, rfl, rfl, rfl, rfl⟩
  | cons cardId rest ih =>
    obtain ⟨hlinks, hkept⟩ := ih (invalidateCardReview board cardId)
    have hsame : cardLinks (invalidateCardReview board cardId) = cardLinks board :=
      @cardLinks_modifyCard withoutReport (fun _ => ⟨rfl, rfl⟩) cardId board.cards
    exact ⟨hlinks.trans hsame, hkept⟩

theorem lookup_foldl_invalidate {cardIds : List Text} {board : TaskBoard} (hmem : cardId ∈ cardIds)
      :
    (cardIds.foldl invalidateCardReview board).reviewAttestations.lookup cardId = none := by
  induction cardIds generalizing board with
  | nil => exact absurd hmem not_mem_nil
  | cons target rest ih =>
    by_cases hrest : cardId ∈ rest
    · exact ih hrest
    · obtain rfl := (mem_cons.mp hmem).resolve_right hrest
      have hsame := (foldl_invalidate rest (invalidateCardReview board cardId) cardId).1 hrest
      rw [foldl_cons, hsame.attestation]
      exact AList.lookup_erase _ _

/-- The cards whose attestations are not valid any more are invalidated. -/
theorem foldl_invalidate_saveable (h : Saveable board maxReviewers maxClaimKeyLen)
    {reviewers cardIds : List Text}
    (hroles : RolesValid { board with reviewerChatIds := reviewers } maxReviewers)
    (hkept : ∀ cardId attestation, board.reviewAttestations.lookup cardId = some attestation →
      cardId ∉ cardIds → attestation.reviewerChatId ∈ reviewers) :
    Saveable (cardIds.foldl invalidateCardReview { board with reviewerChatIds := reviewers })
      maxReviewers maxClaimKeyLen := by
  obtain ⟨hlinks, howner, hrevs, hclaims, hover⟩ :=
    foldl_invalidate_keeps cardIds { board with reviewerChatIds := reviewers }
  refine h.of_links hlinks (hroles.of_same howner hrevs) (fun cardId attestation hl => ?_)
    (fun cardId claim hl => Or.inl (by rwa [hclaims] at hl))
    fun cardId record hl => Or.inl (by rwa [hover] at hl)
  by_cases hmem : cardId ∈ cardIds
  · rw [lookup_foldl_invalidate hmem] at hl
    cases hl
  · have hsame := (foldl_invalidate cardIds { board with reviewerChatIds := reviewers } cardId).1 hmem
    rw [hsame.attestation] at hl
    have hvalid := h.attestations cardId attestation hl
    refine ⟨?_, ?_, ?_⟩
    · rw [hsame.card]
      exact hvalid.report
    · rw [hrevs]
      exact hkept cardId attestation hl hmem
    · rw [howner]
      exact hvalid.independent

theorem invalidateCardReview_saveable (h : Saveable board maxReviewers maxClaimKeyLen)
    (cardId : Text) :
    Saveable (invalidateCardReview board cardId) maxReviewers maxClaimKeyLen :=
  @foldl_invalidate_saveable board _ _ h board.reviewerChatIds [cardId] h.roles
    fun other attestation hl _ => (h.attestations other attestation hl).assigned

theorem removeReviewer_saveable (h : Saveable board maxReviewers maxClaimKeyLen)
    (reviewer : Text) :
    Saveable (removeReviewer board reviewer) maxReviewers maxClaimKeyLen := by
  apply foldl_invalidate_saveable h
  · refine ⟨?_, fun r hr => ?_, h.roles.distinct.filter _, fun r hr => ?_, h.roles.owner⟩
    · exact (length_filter_le _ _).trans h.roles.few
    · exact h.roles.named r (mem_filter.mp hr).1
    · exact h.roles.independent r (mem_filter.mp hr).1
  · intro cardId attestation hl hnot
    apply mem_filter.mpr
    refine ⟨(h.attestations cardId attestation hl).assigned, decide_eq_true fun he => ?_⟩
    exact hnot (mem_attestedBy_iff.mpr ⟨attestation, hl, he⟩)

theorem clearVerifierReports_saveable (h : Saveable board maxReviewers maxClaimKeyLen) :
    Saveable (clearVerifierReports board) maxReviewers maxClaimKeyLen := by
  refine h.of_links ?_ (h.roles.of_same rfl rfl) (fun cardId attestation hl => ?_)
    (fun _ _ hl => Or.inl hl) fun _ _ hl => Or.inl hl
  · rw [cardLinks, clearVerifierReports, map_map, cardLinks]
    rfl
  · cases hl

/-- An operation on a board that can be written leaves one that can be written, exactly when the new
owner is no assigned reviewer and the attestation is by one. -/
theorem written_again_iff {mutation : Mutation}
    (hvalid : validateForWrite board maxReviewers maxClaimKeyLen = .ok ())
    (hgiven : WellGiven board maxClaimKeyLen mutation) (hok : apply board mutation = some board') :
    validateForWrite board' maxReviewers maxClaimKeyLen = .ok () ↔ RolesAgree board mutation := by
  rw [validateForWrite_ok_iff] at hvalid ⊢
  have hkeeps : ∀ {next : TaskBoard}, Saveable next maxReviewers maxClaimKeyLen →
      (Saveable next maxReviewers maxClaimKeyLen ↔ True) := fun h => iff_true_intro h
  cases mutation with
  | claimCard cardId claimant key claimedAt =>
    obtain ⟨hclaimant, hkey, hshort⟩ := hgiven
    cases hclaim : claimCard board cardId claimant key claimedAt with
    | error violation => rw [apply, hclaim] at hok; cases hok
    | ok result =>
      rw [apply, hclaim] at hok
      obtain rfl : result.1 = board' := Option.some.inj hok
      exact hkeeps (claimCard_saveable hvalid hclaimant hkey hshort hclaim)
  | releaseClaim cardId claimant =>
    cases hrelease : releaseClaim board cardId claimant with
    | error violation => rw [apply, hrelease] at hok; cases hok
    | ok next =>
      rw [apply, hrelease] at hok
      obtain rfl : next = board' := Option.some.inj hok
      exact hkeeps (releaseClaim_saveable hvalid hrelease)
  | recordDependencyOverride cardId overriddenBy reason overriddenAt =>
    cases hrecord : recordDependencyOverride board cardId overriddenBy reason overriddenAt with
    | error violation => rw [apply, hrecord] at hok; cases hok
    | ok result =>
      rw [apply, hrecord] at hok
      obtain rfl : result.1 = board' := Option.some.inj hok
      exact hkeeps (recordDependencyOverride_saveable hvalid hgiven.1 hgiven.2 hrecord)
  | authorizeOwner chatId =>
    cases howner : authorizeOwner board chatId with
    | error reason => rw [apply, howner] at hok; cases hok
    | ok next =>
      rw [apply, howner] at hok
      obtain rfl : next = board' := Option.some.inj hok
      exact authorizeOwner_saveable_iff hvalid hgiven howner
  | attestReview cardId reviewer report reviewedAt allow =>
    cases hattest : attestReview board cardId reviewer report reviewedAt allow with
    | error reason => rw [apply, hattest] at hok; cases hok
    | ok next =>
      rw [apply, hattest] at hok
      obtain rfl : next = board' := Option.some.inj hok
      exact attestReview_saveable_iff hvalid hgiven hattest
  | removeReviewer reviewer =>
    obtain rfl : removeReviewer board reviewer = board' := Option.some.inj hok
    exact hkeeps (removeReviewer_saveable hvalid reviewer)
  | invalidateCardReview cardId =>
    obtain rfl : invalidateCardReview board cardId = board' := Option.some.inj hok
    exact hkeeps (invalidateCardReview_saveable hvalid cardId)
  | clearVerifierReports =>
    obtain rfl : clearVerifierReports board = board' := Option.some.inj hok
    exact hkeeps (clearVerifierReports_saveable hvalid)
  | recordCardOutcome cardId required fragments =>
    obtain rfl : recordCardOutcome board cardId required fragments = board' := Option.some.inj hok
    exact hkeeps (setOutcome_saveable hvalid cardId _)
  | finalizeCard cardId principal allow finalizedAt =>
    cases hfinal : finalizeCard board cardId principal allow finalizedAt with
    | error blocks => rw [apply, hfinal] at hok; cases hok
    | ok next =>
      rw [apply, hfinal] at hok
      obtain rfl : next = board' := Option.some.inj hok
      exact hkeeps (finalizeCard_saveable hvalid hfinal)

def verified : VerifierReport := ⟨true, [], [], [], .passed⟩

def verifiedBoard (owner : Option Text) : TaskBoard :=
  { TaskBoard.empty owner [['r']] .ownerAllowed with
    cards := [⟨['a'], [], done, [], [], some verified, none, none⟩] }

theorem reviewer_attests_written_again :
    ∃ board', apply (verifiedBoard (some ['p'])) (.attestReview ['a'] ['r'] verified [] false) =
      some board' ∧ (validateForWrite board' 1 1 = .ok () ↔
        RolesAgree (verifiedBoard (some ['p'])) (.attestReview ['a'] ['r'] verified [] false)) := by
  have hvalid : validateForWrite (verifiedBoard (some ['p'])) 1 1 = .ok () := by decide
  exact ⟨_, rfl, written_again_iff hvalid ⟨_, rfl, rfl⟩ rfl⟩

/-- The owner attests where self-review is allowed, and a reviewer becomes the owner; neither board
can be written. -/
theorem authorised_but_not_written :
    (∃ board', validateForWrite (verifiedBoard (some ['p'])) 1 1 = .ok () ∧
      WellGiven (verifiedBoard (some ['p'])) 1 (.attestReview ['a'] ['p'] verified [] true) ∧
      apply (verifiedBoard (some ['p'])) (.attestReview ['a'] ['p'] verified [] true) =
        some board' ∧
      validateForWrite board' 1 1 =
        .error "Review attestation for card a names unassigned reviewer p".toList) ∧
    ∃ board', validateForWrite (verifiedBoard none) 1 1 = .ok () ∧
      WellGiven (verifiedBoard none) 1 (.authorizeOwner ['r']) ∧
      apply (verifiedBoard none) (.authorizeOwner ['r']) = some board' ∧
      validateForWrite board' 1 1 =
        .error "Task board owner cannot also be an assigned reviewer".toList := by
  refine ⟨⟨_, by decide, ⟨_, rfl, rfl⟩, rfl, by decide⟩, _, by decide, ?_,
    rfl, by decide⟩
  exact cons_ne_nil 'r' []

end BoardValidation
