import RefactEngine.CoordinationSettings
import RefactEngine.FiniteMap
import RefactEngine.TextLines

/-! # Task boards

Cards move between columns; the outcome of a card is what its run produced and what its instructions
require. Finalising a card is a gate over its column, its review and its outcome. The maps of a
board are keyed by the id of the card.
-/
namespace TaskBoards

open CoordinationSettings TextLines

abbrev Text := List Char

abbrev ByCard (α : Type) := AList fun _ : Text => α

def trim (text : Text) : Text := trimBy isWhitespace text

inductive FragmentReview where
  | pending
  | approved
  | rejected
  | contradicted
  deriving DecidableEq

structure OutcomeRequirement where
  fragment : Text
  requiresEvidence : Bool
  deriving DecidableEq

structure OutcomeProvenance where
  sourceRun : Option Text
  evidenceSpecIds : List Text
  deriving DecidableEq

structure OutcomeFragment where
  name : Text
  content : Text
  provenance : OutcomeProvenance
  review : FragmentReview
  reviewerChatId : Option Text
  reviewedAt : Option Text
  reviewNote : Option Text
  deriving DecidableEq

structure CardFinalization where
  finalizedBy : Text
  finalizedAt : Text
  deriving DecidableEq

structure CardOutcome where
  required : List OutcomeRequirement
  fragments : List OutcomeFragment
  finalized : Option CardFinalization
  deriving DecidableEq

def CardOutcome.default : CardOutcome := ⟨[], [], none⟩

def outcomePlaceholders : List Text :=
  ["_none._".toList, "_none_".toList, "_none provided._".toList, "none".toList, "n/a".toList]

def lineIsAbsent (line : Text) : Bool :=
  let line := trim ((trim line).dropWhile (· = '-'))
  decide (line = [] ∨ line.map Char.toLower ∈ outcomePlaceholders)

def fragmentContentIsAbsent (content : Text) : Bool :=
  let trimmed := trim content
  decide (trimmed = []) || (lines trimmed).all lineIsAbsent

def normalizeFragmentName (name : Text) : Text :=
  let bare := trim (trimBy (· = '.') (trimBy (· = '\u0060') (trim name)))
  (bare.map Char.toLower).map fun c => if c = ' ' ∨ c = '-' then '_' else c

def OutcomeFragment.hasContent (fragment : OutcomeFragment) : Bool :=
  !fragmentContentIsAbsent fragment.content

variable (outcome : CardOutcome)

def CardOutcome.fragment (name : Text) : Option OutcomeFragment :=
  outcome.fragments.find? fun entry => decide (entry.name = normalizeFragmentName name)

def setFragment (fragments : List OutcomeFragment) (fragment : OutcomeFragment) :
    List OutcomeFragment :=
  match fragments with
  | [] => [fragment]
  | entry :: rest =>
    if entry.name = fragment.name then fragment :: rest else entry :: setFragment rest fragment

def addSpecId (specIds : List Text) (specId : Text) : List Text :=
  if specId ∈ specIds then specIds else specIds ++ [specId]

def attachSpecs (specIds : List Text) (entry : OutcomeFragment) : OutcomeFragment :=
  { entry with provenance :=
      ⟨entry.provenance.sourceRun, specIds.foldl addSpecId entry.provenance.evidenceSpecIds⟩ }

def attachEvidence (name : Text) (specIds : List Text) : List OutcomeFragment → List OutcomeFragment
  | [] => []
  | entry :: rest =>
    if entry.name = name then attachSpecs specIds entry :: rest
    else entry :: attachEvidence name specIds rest

inductive VerificationOutcome where
  | unknown
  | passed
  | commandFailed
  | rejected
  | policyDenied
  | infrastructureFailed
  | noCommands
  deriving DecidableEq

structure VerificationResult where
  command : Text
  exitCode : Option ℤ
  passed : Bool
  outputTail : Text
  outcome : VerificationOutcome
  fromCache : Bool
  executedAt : Option Text
  deriving DecidableEq

inductive VerifierReportClassification where
  | unknown
  | passed
  | verificationFailed
  | humanReview
  | unavailable
  deriving DecidableEq

structure VerifierReport where
  passed : Bool
  commandResults : List VerificationResult
  concerns : List Text
  recommendation : Text
  classification : VerifierReportClassification
  deriving DecidableEq

structure BoardCard where
  id : Text
  title : Text
  column : Text
  dependsOn : List Text
  instructions : Text
  verifierReport : Option VerifierReport
  startedAt : Option Text
  completedAt : Option Text
  deriving DecidableEq

inductive BoardReviewPolicy where
  | ownerAllowed
  | independentRequired
  deriving DecidableEq

structure BoardReviewAttestation where
  reviewerChatId : Text
  reviewedAt : Text
  report : VerifierReport
  deriving DecidableEq

structure CardClaim where
  claimantChatId : Text
  idempotencyKey : Text
  claimedAt : Text
  deriving DecidableEq

structure DependencyOverride where
  overriddenBy : Text
  reason : Text
  overriddenAt : Text
  unsatisfied : List Text
  deriving DecidableEq

structure TaskBoard where
  cards : List BoardCard
  ownerChatId : Option Text
  reviewerChatIds : List Text
  reviewPolicy : BoardReviewPolicy
  reviewAttestations : ByCard BoardReviewAttestation
  cardClaims : ByCard CardClaim
  dependencyOverrides : ByCard DependencyOverride
  cardOutcomes : ByCard CardOutcome

def TaskBoard.empty (ownerChatId : Option Text) (reviewerChatIds : List Text)
    (reviewPolicy : BoardReviewPolicy) : TaskBoard :=
  ⟨[], ownerChatId, reviewerChatIds, reviewPolicy, ∅, ∅, ∅, ∅⟩

inductive BoardRuleViolation where
  | cardNotFound (cardId : Text)
  | alreadyClaimed (cardId holder : Text)
  | dependenciesUnsatisfied (cardId : Text) (unsatisfied : List Text)
  | roleDenied (cardId reason : Text)
  deriving DecidableEq

def BoardRuleViolation.message : BoardRuleViolation → Text
  | .cardNotFound cardId => "card ".toList ++ cardId ++ " not found on this board".toList
  | .alreadyClaimed cardId holder =>
    "card ".toList ++ cardId ++ " is already claimed by ".toList ++ holder
  | .dependenciesUnsatisfied cardId unsatisfied =>
    "card ".toList ++ cardId ++ " is blocked by unsatisfied dependencies: ".toList ++
      ", ".toList.intercalate unsatisfied
  | .roleDenied cardId reason => "card ".toList ++ cardId ++ ": ".toList ++ reason

variable (board : TaskBoard) (cardId : Text)

def getCard : Option BoardCard :=
  board.cards.find? fun c => decide (c.id = cardId)

def modifyCard (cardId : Text) (f : BoardCard → BoardCard) : List BoardCard → List BoardCard
  | [] => []
  | card :: rest =>
    if card.id = cardId then f card :: rest else card :: modifyCard cardId f rest

def planned : Text := "planned".toList

def doing : Text := "doing".toList

def done : Text := "done".toList

def unsatisfiedDependencies :
    Except BoardRuleViolation (List Text) :=
  match getCard board cardId with
  | none => .error (.cardNotFound cardId)
  | some card =>
    .ok (card.dependsOn.filter fun dependency =>
      match getCard board dependency with
      | none => true
      | some dependencyCard => decide (dependencyCard.column ≠ done))

def dependencyGate : Except BoardRuleViolation Unit :=
  match unsatisfiedDependencies board cardId with
  | .error violation => .error violation
  | .ok unsatisfied =>
    if unsatisfied = [] ∨ (board.dependencyOverrides.lookup cardId).isSome then .ok ()
    else .error (.dependenciesUnsatisfied cardId unsatisfied)

def ensureColumnMoveAllowed (cardId column : Text) :
    Except BoardRuleViolation Unit :=
  if (getCard board cardId).isNone then .error (.cardNotFound cardId)
  else if column = doing then dependencyGate board cardId
  else .ok ()

def createCard (id title : Text) (dependsOn : List Text)
    (instructions : Text) : TaskBoard :=
  if board.cards.any fun c => decide (c.id = id) then board
  else
    { board with cards :=
        board.cards ++ [⟨id, title, planned, dependsOn, instructions, none, none, none⟩] }

def placeCard (column now : Text) (card : BoardCard) : BoardCard :=
  { card with
    startedAt := if column = doing ∧ card.startedAt.isNone then some now else card.startedAt
    completedAt :=
      if (column = done ∨ column = "failed".toList ∨ column = "regressed".toList) ∧
          card.completedAt.isNone then some now
      else card.completedAt
    column }

def moveCard (cardId column now : Text) :
    Except BoardRuleViolation TaskBoard :=
  match ensureColumnMoveAllowed board cardId column with
  | .error violation => .error violation
  | .ok () => .ok { board with cards := modifyCard cardId (placeCard column now) board.cards }

inductive ClaimOutcome where
  | claimed
  | alreadyHeld
  deriving DecidableEq

def claimCard (cardId claimantChatId idempotencyKey claimedAt : Text) :
    Except BoardRuleViolation (TaskBoard × ClaimOutcome) :=
  match dependencyGate board cardId with
  | .error violation => .error violation
  | .ok () =>
    match board.cardClaims.lookup cardId with
    | some existing =>
      if existing.claimantChatId = claimantChatId ∧ existing.idempotencyKey = idempotencyKey then
        .ok (board, .alreadyHeld)
      else .error (.alreadyClaimed cardId existing.claimantChatId)
    | none =>
      .ok ({ board with cardClaims :=
          board.cardClaims.insert cardId ⟨claimantChatId, idempotencyKey, claimedAt⟩ }, .claimed)

def releaseClaim (cardId claimantChatId : Text) :
    Except BoardRuleViolation TaskBoard :=
  match board.cardClaims.lookup cardId with
  | none => .ok board
  | some existing =>
    if existing.claimantChatId = claimantChatId then
      .ok { board with cardClaims := board.cardClaims.erase cardId }
    else .error (.alreadyClaimed cardId existing.claimantChatId)

def authorizeFinalizer (cardId principal : Text) (allowSelfReview : Bool) :
    Except BoardRuleViolation Unit :=
  if (getCard board cardId).isNone then .error (.cardNotFound cardId)
  else
    match board.ownerChatId with
    | none => .ok ()
    | some owner =>
      if owner ≠ principal ∧ principal ∉ board.reviewerChatIds then
        .error (.roleDenied cardId
          "finalising requires the board owner or an assigned reviewer".toList)
      else if (board.cardClaims.lookup cardId).any
          (fun claim => decide (claim.claimantChatId = principal)) ∧ allowSelfReview = false then
        .error (.roleDenied cardId ("self-review is refused; enable ".toList ++
          "coordination.board_allow_self_review to permit the claimant ".toList ++
          "to finalise its own card".toList))
      else .ok ()

def authorizeReviewer (chatId : Text) (allowSelfReview : Bool) :
    Except Text Unit :=
  if chatId ∈ board.reviewerChatIds ∨
      (board.ownerChatId = some chatId ∧ allowSelfReview = true ∧
        board.reviewPolicy = .ownerAllowed) then .ok ()
  else if board.ownerChatId = some chatId then
    .error "task review policy requires an independent assigned reviewer".toList
  else .error "task review requires the owner or an assigned reviewer".toList

def reviewPolicyAllowsReport (report : VerifierReport)
    (allowSelfReview : Bool) : Except Text Unit :=
  if allowSelfReview = true ∧ board.reviewPolicy = .ownerAllowed then .ok ()
  else
    match board.reviewAttestations.lookup cardId with
    | none => .error "task review policy requires an independent reviewer report".toList
    | some attestation =>
      if attestation.report ≠ report then
        .error "task review attestation no longer matches the stored report".toList
      else if board.ownerChatId = some attestation.reviewerChatId then
        .error "task review policy forbids owner self-review".toList
      else if attestation.reviewerChatId ∉ board.reviewerChatIds then
        .error ("task reviewer ".toList ++ attestation.reviewerChatId ++
          " is no longer assigned to this board".toList)
      else .ok ()

inductive FinalizeBlock where
  | cardNotFound (cardId : Text)
  | notCompleted (cardId column : Text)
  | alreadyFinalized (cardId finalizedBy : Text)
  | reviewDenied (reason : Text)
  | missingFragment (fragment : Text)
  | emptyFragment (fragment : Text)
  | rejectedFragment (fragment reason : Text)
  | contradictedFragment (fragment reason : Text)
  | missingSourceRun (fragment : Text)
  | missingEvidence (fragment : Text)
  deriving DecidableEq

def reviewBlocks (fragment : OutcomeFragment) (name : Text) : List FinalizeBlock :=
  let note := fragment.reviewNote.getD "no reason recorded".toList
  match fragment.review with
  | .rejected => [.rejectedFragment name note]
  | .contradicted => [.contradictedFragment name note]
  | .pending => []
  | .approved => []

def evidenceBlocks (fragment : OutcomeFragment) (requirement : OutcomeRequirement) :
    List FinalizeBlock :=
  if requirement.requiresEvidence then
    (if fragment.provenance.sourceRun.all fun run => decide (trim run = []) then
      [.missingSourceRun requirement.fragment] else []) ++
    (if fragment.provenance.evidenceSpecIds = [] then
      [.missingEvidence requirement.fragment] else [])
  else []

def requirementBlocks (requirement : OutcomeRequirement) :
    List FinalizeBlock :=
  match outcome.fragment requirement.fragment with
  | none => [.missingFragment requirement.fragment]
  | some fragment =>
    (if fragment.hasContent then [] else [.emptyFragment requirement.fragment]) ++
      reviewBlocks fragment requirement.fragment ++ evidenceBlocks fragment requirement

def outcomeBlocks (outcome : Option CardOutcome) : List FinalizeBlock :=
  match outcome with
  | none => []
  | some outcome => outcome.required.flatMap (requirementBlocks outcome)

def alreadyBlocks (outcome : Option CardOutcome) : List FinalizeBlock :=
  match outcome.bind CardOutcome.finalized with
  | none => []
  | some finalized => [.alreadyFinalized cardId finalized.finalizedBy]

def finalizerBlocks (cardId principal : Text) (allowSelfReview : Bool) :
    List FinalizeBlock :=
  match authorizeFinalizer board cardId principal allowSelfReview with
  | .error violation => [.reviewDenied violation.message]
  | .ok () => []

def reportBlocks (card : BoardCard) (cardId : Text) (allowSelfReview : Bool) :
    List FinalizeBlock :=
  if board.ownerChatId.isSome then
    match card.verifierReport with
    | none => [.reviewDenied "finalising requires a reviewer report for the card".toList]
    | some report =>
      match reviewPolicyAllowsReport board cardId report allowSelfReview with
      | .error reason => [.reviewDenied reason]
      | .ok () => []
  else []

def evaluateFinalize (cardId principal : Text) (allowSelfReview : Bool) :
    List FinalizeBlock :=
  match getCard board cardId with
  | none => [.cardNotFound cardId]
  | some card =>
    let outcome := board.cardOutcomes.lookup cardId
    (if card.column = done then [] else [.notCompleted cardId card.column]) ++
      alreadyBlocks cardId outcome ++ finalizerBlocks board cardId principal allowSelfReview ++
      reportBlocks board card cardId allowSelfReview ++ outcomeBlocks outcome

def setOutcome (outcome : CardOutcome) : TaskBoard :=
  { board with cardOutcomes := board.cardOutcomes.insert cardId outcome }

def outcomeOf : CardOutcome :=
  (board.cardOutcomes.lookup cardId).getD .default

def finalizeCard (cardId principal : Text) (allowSelfReview : Bool)
    (finalizedAt : Text) : Except (List FinalizeBlock) TaskBoard :=
  let blocks := evaluateFinalize board cardId principal allowSelfReview
  if blocks = [] then
    .ok (setOutcome board cardId
      { outcomeOf board cardId with finalized := some ⟨principal, finalizedAt⟩ })
  else .error blocks

def cardIsFinalized : Bool :=
  (board.cardOutcomes.lookup cardId).any fun outcome => outcome.finalized.isSome

def recordCardOutcome (required : List OutcomeRequirement)
    (fragments : List OutcomeFragment) : TaskBoard :=
  let outcome := outcomeOf board cardId
  setOutcome board cardId
    ⟨required, fragments.foldl setFragment outcome.fragments, outcome.finalized⟩

def attachCardEvidence (cardId fragment : Text) (specIds : List Text) :
    TaskBoard :=
  if specIds = [] then board
  else
    { board with cardOutcomes := board.cardOutcomes.modify cardId fun outcome =>
        { outcome with fragments :=
            attachEvidence (normalizeFragmentName fragment) specIds outcome.fragments } }

def unfinalize : CardOutcome := { outcome with finalized := none }

def withoutReport (card : BoardCard) : BoardCard := { card with verifierReport := none }

def clearVerifierReports : TaskBoard :=
  { board with
    reviewAttestations := ∅
    cards := board.cards.map withoutReport
    cardOutcomes := board.cardOutcomes.mapValues fun _ => unfinalize }

def invalidateCardReview : TaskBoard :=
  { board with
    reviewAttestations := board.reviewAttestations.erase cardId
    cardOutcomes := board.cardOutcomes.modify cardId unfinalize
    cards := modifyCard cardId withoutReport board.cards }

def attestedBy (reviewerChatId : Text) : List Text :=
  (board.reviewAttestations.entries.filter fun entry =>
    decide (entry.2.reviewerChatId = reviewerChatId)).map Sigma.fst

def removeReviewer (reviewerChatId : Text) : TaskBoard :=
  (attestedBy board reviewerChatId).foldl invalidateCardReview
    { board with reviewerChatIds :=
        board.reviewerChatIds.filter fun reviewer => decide (reviewer ≠ reviewerChatId) }

def attestReview (cardId reviewerChatId : Text) (report : VerifierReport)
    (reviewedAt : Text) (allowSelfReview : Bool) : Except Text TaskBoard :=
  match authorizeReviewer board reviewerChatId allowSelfReview with
  | .error reason => .error reason
  | .ok () =>
    .ok { board with reviewAttestations :=
        board.reviewAttestations.insert cardId ⟨reviewerChatId, reviewedAt, report⟩ }

def recordVerifierReport (report : VerifierReport)
    (specIds : List Text) : TaskBoard :=
  match getCard board cardId with
  | none => board
  | some _ =>
    attachCardEvidence
      { board with
        reviewAttestations := board.reviewAttestations.erase cardId
        cards := modifyCard cardId (fun card => { card with verifierReport := some report })
          board.cards }
      cardId "verification".toList specIds

def removeCard : TaskBoard :=
  { board with
    reviewAttestations := board.reviewAttestations.erase cardId
    cardClaims := board.cardClaims.erase cardId
    dependencyOverrides := board.dependencyOverrides.erase cardId
    cardOutcomes := board.cardOutcomes.erase cardId
    cards := board.cards.eraseP fun card => decide (card.id = cardId) }

inductive Op where
  | createCard (id title : Text) (dependsOn : List Text) (instructions : Text)
  | moveCard (cardId column now : Text)
  | claimCard (cardId claimantChatId idempotencyKey claimedAt : Text)
  | releaseClaim (cardId claimantChatId : Text)
  | recordCardOutcome (cardId : Text) (required : List OutcomeRequirement)
      (fragments : List OutcomeFragment)
  | attachCardEvidence (cardId fragment : Text) (specIds : List Text)
  | recordVerifierReport (cardId : Text) (report : VerifierReport) (specIds : List Text)
  | attestReview (cardId reviewerChatId : Text) (report : VerifierReport) (reviewedAt : Text)
      (allowSelfReview : Bool)
  | invalidateCardReview (cardId : Text)
  | removeReviewer (reviewerChatId : Text)
  | clearVerifierReports
  | finalizeCard (cardId principal : Text) (allowSelfReview : Bool) (finalizedAt : Text)
  | removeCard (cardId : Text)

/-- The board, and for every card whether self-review was allowed when it was last finalised. -/
structure State where
  board : TaskBoard
  permissive : Text → Bool

def orKeep {ε : Type} (board : TaskBoard) : Except ε TaskBoard → TaskBoard
  | .ok next => next
  | .error _ => board

def step (s : State) : Op → State
  | .createCard id title dependsOn instructions =>
    ⟨createCard s.board id title dependsOn instructions, s.permissive⟩
  | .moveCard cardId column now =>
    ⟨orKeep s.board (moveCard s.board cardId column now), s.permissive⟩
  | .claimCard cardId claimant key claimedAt =>
    ⟨orKeep s.board ((claimCard s.board cardId claimant key claimedAt).map Prod.fst), s.permissive⟩
  | .releaseClaim cardId claimant =>
    ⟨orKeep s.board (releaseClaim s.board cardId claimant), s.permissive⟩
  | .recordCardOutcome cardId required fragments =>
    ⟨recordCardOutcome s.board cardId required fragments, s.permissive⟩
  | .attachCardEvidence cardId fragment specIds =>
    ⟨attachCardEvidence s.board cardId fragment specIds, s.permissive⟩
  | .recordVerifierReport cardId report specIds =>
    ⟨recordVerifierReport s.board cardId report specIds, s.permissive⟩
  | .attestReview cardId reviewer report reviewedAt allow =>
    ⟨orKeep s.board (attestReview s.board cardId reviewer report reviewedAt allow), s.permissive⟩
  | .invalidateCardReview cardId => ⟨invalidateCardReview s.board cardId, s.permissive⟩
  | .removeReviewer reviewer => ⟨removeReviewer s.board reviewer, s.permissive⟩
  | .clearVerifierReports => ⟨clearVerifierReports s.board, s.permissive⟩
  | .finalizeCard cardId principal allow finalizedAt =>
    match finalizeCard s.board cardId principal allow finalizedAt with
    | .error _ => s
    | .ok board => ⟨board, Function.update s.permissive cardId allow⟩
  | .removeCard cardId => ⟨removeCard s.board cardId, s.permissive⟩

end TaskBoards
