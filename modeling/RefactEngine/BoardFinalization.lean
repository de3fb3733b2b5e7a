import RefactEngine.TaskBoards

/-! # When a finalised card stays accepted

The gate asks for a done card, an authorised finaliser, an accepted report and met requirements. An
operation on another card changes none of them; an operation on the card itself keeps them under a
condition on its arguments, or clears the finalisation.
-/
namespace BoardFinalization

open TaskBoards List

def FragmentAccepted (fragment : OutcomeFragment) (requiresEvidence : Bool) : Prop :=
  fragment.hasContent = true ∧ fragment.review ≠ .rejected ∧ fragment.review ≠ .contradicted ∧
    (requiresEvidence = true →
      (∃ run, fragment.provenance.sourceRun = some run ∧ trim run ≠ []) ∧
      fragment.provenance.evidenceSpecIds ≠ [])

def RequirementMet (outcome : CardOutcome) (requirement : OutcomeRequirement) : Prop :=
  ∃ fragment, outcome.fragment requirement.fragment = some fragment ∧
    FragmentAccepted fragment requirement.requiresEvidence

def finalization (board : TaskBoard) (cardId : Text) : Option CardFinalization :=
  (board.cardOutcomes.lookup cardId).bind CardOutcome.finalized

def ReportAccepted (board : TaskBoard) (cardId : Text) (card : BoardCard) (allow : Bool) : Prop :=
  board.ownerChatId ≠ none → ∃ report, card.verifierReport = some report ∧
    reviewPolicyAllowsReport board cardId report allow = .ok ()

/-- The card satisfies the gate for the principal, apart from being finalised already. -/
structure CardAccepted (board : TaskBoard) (cardId principal : Text) (allow : Bool) : Prop where
  card : ∃ card, getCard board cardId = some card ∧ card.column = done ∧
    ReportAccepted board cardId card allow
  finalizer : authorizeFinalizer board cardId principal allow = .ok ()
  outcome : ∀ outcome, board.cardOutcomes.lookup cardId = some outcome →
    ∀ requirement ∈ outcome.required, RequirementMet outcome requirement

/-- Every finalised card is accepted for its finaliser, under the setting it was finalised with. -/
def FinalizedAccepted (s : State) : Prop :=
  ∀ cardId final, finalization s.board cardId = some final →
    CardAccepted s.board cardId final.finalizedBy (s.permissive cardId)

def ReviewFree (s : State) (cardId : Text) : Prop :=
  s.board.ownerChatId = none ∨
    (s.permissive cardId = true ∧ s.board.reviewPolicy = .ownerAllowed)

/-- The condition on an operation and the state before it: what it does to a finalised card leaves
the card accepted. -/
def Keeps (s : State) : Op → Prop
  | .moveCard cardId column _ => finalization s.board cardId ≠ none →
      column = done ∨ ensureColumnMoveAllowed s.board cardId column ≠ .ok ()
  | .claimCard cardId claimant _ _ => ∀ final, finalization s.board cardId = some final →
      final.finalizedBy = claimant → dependencyGate s.board cardId = .ok () →
      s.board.cardClaims.lookup cardId = none →
      s.board.ownerChatId = none ∨ s.permissive cardId = true
  | .recordCardOutcome cardId required fragments => finalization s.board cardId ≠ none →
      ∀ requirement ∈ required, RequirementMet
        ⟨required, fragments.foldl setFragment (outcomeOf s.board cardId).fragments, none⟩
        requirement
  | .recordVerifierReport cardId _ _ => finalization s.board cardId ≠ none → ReviewFree s cardId
  | .attestReview cardId reviewer report _ allow => finalization s.board cardId ≠ none →
      authorizeReviewer s.board reviewer allow = .ok () →
      ReviewFree s cardId ∨ (s.board.ownerChatId ≠ some reviewer ∧
        ∀ card, getCard s.board cardId = some card → card.verifierReport = some report)
  | .removeReviewer reviewer => ∀ cardId final, finalization s.board cardId = some final →
      final.finalizedBy = reviewer →
      s.board.ownerChatId = none ∨ s.board.ownerChatId = some reviewer ∨
        ∃ attestation, s.board.reviewAttestations.lookup cardId = some attestation ∧
          attestation.reviewerChatId = reviewer
  | _ => True

variable {fragment : OutcomeFragment}

theorem reviewBlocks_eq_nil_iff {name : Text} : reviewBlocks fragment name = [] ↔
      fragment.review ≠ .rejected ∧ fragment.review ≠ .contradicted := by
  rw [reviewBlocks]
  cases fragment.review <;> simp

variable {r : OutcomeRequirement}

theorem evidenceBlocks_eq_nil_iff : evidenceBlocks fragment r = [] ↔ (r.requiresEvidence = true →
      (∃ run, fragment.provenance.sourceRun = some run ∧ trim run ≠ []) ∧
      fragment.provenance.evidenceSpecIds ≠ []) := by
  rw [evidenceBlocks]
  by_cases hr : r.requiresEvidence = true
  · rw [if_pos hr, append_eq_nil_iff]
    cases fragment.provenance.sourceRun with
    | none => simp [hr]
    | some run => simp [hr]
  · rw [if_neg hr]
    simp [hr]

variable {outcome : CardOutcome}

theorem requirementBlocks_eq_nil_iff :
    requirementBlocks outcome r = [] ↔ RequirementMet outcome r := by
  rw [requirementBlocks, RequirementMet]
  cases outcome.fragment r.fragment with
  | none => simp
  | some fragment =>
    simp only [append_eq_nil_iff, reviewBlocks_eq_nil_iff, evidenceBlocks_eq_nil_iff,
      Option.some.injEq, exists_eq_left', FragmentAccepted]
    by_cases hcont : fragment.hasContent = true
    · simp [hcont, and_assoc]
    · simp [hcont]

theorem outcomeBlocks_eq_nil_iff {outcome : Option CardOutcome} :
    outcomeBlocks outcome = [] ↔
      ∀ o, outcome = some o → ∀ r ∈ o.required, RequirementMet o r := by
  cases outcome with
  | none => simp [outcomeBlocks]
  | some o => simp [outcomeBlocks, flatMap_eq_nil_iff, requirementBlocks_eq_nil_iff]

variable {cardId : Text} {board : TaskBoard} {allow : Bool} {principal : Text}

theorem finalizerBlocks_eq_nil_iff : finalizerBlocks board cardId principal allow = [] ↔
      authorizeFinalizer board cardId principal allow = .ok () := by
  rw [finalizerBlocks]
  cases authorizeFinalizer board cardId principal allow with
  | error violation => simp
  | ok u => simp

theorem reportBlocks_eq_nil_iff {card : BoardCard} :
    reportBlocks board card cardId allow = [] ↔ ReportAccepted board cardId card allow := by
  rw [reportBlocks, ReportAccepted]
  cases board.ownerChatId with
  | none => simp
  | some owner =>
    simp only [Option.isSome_some, if_true]
    cases card.verifierReport with
    | none => simp
    | some report =>
      cases hallows : reviewPolicyAllowsReport board cardId report allow with
      | error reason => simp [hallows]
      | ok u => simp [hallows]

theorem accepted_of_evaluate (h : evaluateFinalize board cardId principal allow = []) :
    CardAccepted board cardId principal allow ∧ finalization board cardId = none := by
  rw [evaluateFinalize] at h
  cases hcard : getCard board cardId with
  | none => rw [hcard] at h; cases h
  | some card =>
    rw [hcard] at h
    obtain ⟨h, hout⟩ := append_eq_nil_iff.mp h
    obtain ⟨h, hrep⟩ := append_eq_nil_iff.mp h
    obtain ⟨h, hfin⟩ := append_eq_nil_iff.mp h
    obtain ⟨hcolumn, halready⟩ := append_eq_nil_iff.mp h
    refine ⟨⟨⟨card, hcard, ?_, reportBlocks_eq_nil_iff.mp hrep⟩,
      finalizerBlocks_eq_nil_iff.mp hfin, outcomeBlocks_eq_nil_iff.mp hout⟩, ?_⟩
    · by_contra hne
      rw [if_neg hne] at hcolumn
      cases hcolumn
    · rw [alreadyBlocks] at halready
      rw [finalization]
      cases hf : (board.cardOutcomes.lookup cardId).bind CardOutcome.finalized with
      | none => rfl
      | some final => rw [hf] at halready; cases halready

/-- An accepted card has no block but that it is finalised already. -/
theorem CardAccepted.evaluate (h : CardAccepted board cardId principal allow) :
    evaluateFinalize board cardId principal allow =
      alreadyBlocks cardId (board.cardOutcomes.lookup cardId) := by
  obtain ⟨card, hcard, hcolumn, hrep⟩ := h.card
  rw [evaluateFinalize, hcard]
  dsimp only
  rw [if_pos hcolumn, finalizerBlocks_eq_nil_iff.mpr h.finalizer,
    reportBlocks_eq_nil_iff.mpr hrep, outcomeBlocks_eq_nil_iff.mpr h.outcome]
  simp only [nil_append, append_nil]

structure Same (board board' : TaskBoard) (cardId : Text) : Prop where
  owner : board'.ownerChatId = board.ownerChatId
  policy : board'.reviewPolicy = board.reviewPolicy
  reviewers : board'.reviewerChatIds = board.reviewerChatIds
  card : getCard board' cardId = getCard board cardId
  attestation : board'.reviewAttestations.lookup cardId = board.reviewAttestations.lookup cardId
  claim : board'.cardClaims.lookup cardId = board.cardClaims.lookup cardId
  outcome : board'.cardOutcomes.lookup cardId = board.cardOutcomes.lookup cardId

theorem Same.refl (board : TaskBoard) (cardId : Text) : Same board board cardId :=
  ⟨rfl, rfl, rfl, rfl, rfl, rfl, rfl⟩

theorem Same.trans {a b c : TaskBoard} (hab : Same a b cardId) (hbc : Same b c cardId) :
    Same a c cardId :=
  ⟨hbc.owner.trans hab.owner, hbc.policy.trans hab.policy, hbc.reviewers.trans hab.reviewers,
    hbc.card.trans hab.card, hbc.attestation.trans hab.attestation, hbc.claim.trans hab.claim,
    hbc.outcome.trans hab.outcome⟩

theorem Same.finalization {board' : TaskBoard} (h : Same board board' cardId) :
    finalization board' cardId = finalization board cardId := by
  rw [BoardFinalization.finalization, h.outcome, BoardFinalization.finalization]

theorem Same.accepted {board board' : TaskBoard} {cardId principal : Text} {allow : Bool}
    (h : Same board board' cardId) (hacc : CardAccepted board cardId principal allow) :
    CardAccepted board' cardId principal allow := by
  obtain ⟨⟨card, hcard, hcolumn, hrep⟩, hfin, hout⟩ := hacc
  refine ⟨⟨card, h.card.trans hcard, hcolumn, fun howned => ?_⟩, ?_, ?_⟩
  · obtain ⟨report, hsome, hallows⟩ := hrep (h.owner ▸ howned)
    refine ⟨report, hsome, ?_⟩
    rw [reviewPolicyAllowsReport] at hallows ⊢
    rwa [h.policy, h.attestation, h.owner, h.reviewers]
  · rw [authorizeFinalizer] at hfin ⊢
    rwa [h.card, h.owner, h.reviewers, h.claim]
  · rw [h.outcome]
    exact hout

variable {f : BoardCard → BoardCard}

theorem find_modifyCard (hf : ∀ card, (f card).id = card.id) (target cardId : Text)
    (cards : List BoardCard) : (modifyCard target f cards).find? (fun c => decide (c.id = cardId)) =
      if cardId = target then (cards.find? fun c => decide (c.id = cardId)).map f
      else cards.find? fun c => decide (c.id = cardId) := by
  induction cards with
  | nil => simp [modifyCard]
  | cons card rest ih =>
    rw [modifyCard]
    by_cases ht : card.id = target
    · rw [if_pos ht, List.find?_cons, List.find?_cons, hf]
      by_cases hc : card.id = cardId
      · simp [hc, hc ▸ ht]
      · have hne : cardId ≠ target := fun he => hc (ht.trans he.symm)
        simp [hc, hne]
    · rw [if_neg ht, List.find?_cons, List.find?_cons]
      by_cases hc : card.id = cardId
      · have hne : cardId ≠ target := fun he => ht (hc.trans he)
        simp [hc, hne]
      · simp only [hc, decide_false]
        exact ih

variable {target : Text}

theorem find_eraseP (hne : cardId ≠ target) (cards : List BoardCard) :
    (cards.eraseP fun c => decide (c.id = target)).find? (fun c => decide (c.id = cardId)) =
      cards.find? fun c => decide (c.id = cardId) := by
  induction cards with
  | nil => rfl
  | cons card rest ih =>
    by_cases ht : card.id = target
    · have hc : ¬ card.id = cardId := fun he => hne (he.symm.trans ht)
      rw [eraseP_cons_of_pos (by simpa using ht), List.find?_cons]
      simp [hc]
    · rw [eraseP_cons_of_neg (by simpa using ht), List.find?_cons, List.find?_cons, ih]

theorem same_setOutcome {board : TaskBoard} {target cardId : Text} (hne : cardId ≠ target)
    (outcome : CardOutcome) : Same board (setOutcome board target outcome) cardId :=
  ⟨rfl, rfl, rfl, rfl, rfl, rfl, AList.lookup_insert_ne hne⟩

theorem same_modifyCards (hne : cardId ≠ target) (hf : ∀ card, (f card).id = card.id) :
    Same board { board with cards := modifyCard target f board.cards } cardId := by
  refine ⟨rfl, rfl, rfl, ?_, rfl, rfl, rfl⟩
  rw [getCard, find_modifyCard hf, if_neg hne, getCard]

theorem same_createCard (id title : Text) (dependsOn : List Text) (instructions : Text)
    {card : BoardCard} (h : getCard board cardId = some card) :
    Same board (createCard board id title dependsOn instructions) cardId := by
  rw [createCard]
  by_cases hany : (board.cards.any fun c => decide (c.id = id)) = true
  · rw [if_pos hany]
    exact Same.refl board cardId
  · rw [if_neg hany]
    refine ⟨rfl, rfl, rfl, ?_, rfl, rfl, rfl⟩
    rw [getCard] at h
    rw [getCard, List.find?_append, h, Option.some_or, getCard, h]

theorem same_attachCardEvidence (hne : cardId ≠ target) (name : Text) (specIds : List Text) :
    Same board (attachCardEvidence board target name specIds) cardId := by
  rw [attachCardEvidence]
  by_cases hspecs : specIds = []
  · rw [if_pos hspecs]
    exact Same.refl board cardId
  · rw [if_neg hspecs]
    refine ⟨rfl, rfl, rfl, rfl, rfl, rfl, ?_⟩
    rw [AList.lookup_modify, if_neg hne]

theorem same_invalidate (hne : cardId ≠ target) :
    Same board (invalidateCardReview board target) cardId := by
  refine ⟨rfl, rfl, rfl, ?_, ?_, rfl, ?_⟩
  · exact (find_modifyCard (f := withoutReport) (fun _ => rfl) target cardId board.cards).trans
      (if_neg hne)
  · exact AList.lookup_erase_ne hne
  · rw [invalidateCardReview, AList.lookup_modify, if_neg hne]

theorem finalization_invalidate (board : TaskBoard) (cardId : Text) :
    finalization (invalidateCardReview board cardId) cardId = none := by
  rw [finalization, invalidateCardReview, AList.lookup_modify, if_pos rfl]
  cases board.cardOutcomes.lookup cardId with
  | none => rfl
  | some outcome => rfl

theorem foldl_invalidate (cardIds : List Text) (board : TaskBoard) (cardId : Text) :
    (cardId ∉ cardIds → Same board (cardIds.foldl invalidateCardReview board) cardId) ∧
    (cardId ∈ cardIds → finalization (cardIds.foldl invalidateCardReview board) cardId = none) := by
  induction cardIds generalizing board with
  | nil => exact ⟨fun _ => Same.refl board cardId, fun h => absurd h not_mem_nil⟩
  | cons target rest ih =>
    obtain ⟨hsame, hnone⟩ := ih (invalidateCardReview board target)
    refine ⟨fun hnot => ?_, fun hmem => ?_⟩
    · obtain ⟨hne, hrest⟩ := not_or.mp (mt mem_cons.mpr hnot)
      exact (same_invalidate hne).trans (hsame hrest)
    · by_cases hrest : cardId ∈ rest
      · exact hnone hrest
      · obtain rfl : cardId = target := (mem_cons.mp hmem).resolve_right hrest
        rw [foldl_cons, (hsame hrest).finalization, finalization_invalidate]

theorem same_removeCard (hne : cardId ≠ target) : Same board (removeCard board target) cardId :=
  ⟨rfl, rfl, rfl, find_eraseP hne board.cards, AList.lookup_erase_ne hne,
    AList.lookup_erase_ne hne, AList.lookup_erase_ne hne⟩

theorem foldl_addSpecId_ne_nil (specIds : List Text) {known : List Text} (h : known ≠ []) :
    specIds.foldl addSpecId known ≠ [] := by
  induction specIds generalizing known with
  | nil => exact h
  | cons specId rest ih =>
    apply ih
    rw [addSpecId]
    by_cases hmem : specId ∈ known
    · rwa [if_pos hmem]
    · rw [if_neg hmem]
      exact append_ne_nil_of_left_ne_nil h _

theorem fragmentAccepted_attachSpecs {evidence : Bool} (h : FragmentAccepted fragment evidence)
    (specIds : List Text) : FragmentAccepted (attachSpecs specIds fragment) evidence := by
  obtain ⟨hcont, hrejected, hcontradicted, hevidence⟩ := h
  refine ⟨hcont, hrejected, hcontradicted, fun he => ?_⟩
  obtain ⟨hrun, hspecs⟩ := hevidence he
  exact ⟨hrun, foldl_addSpecId_ne_nil specIds hspecs⟩

theorem find_attachEvidence (name : Text) (specIds : List Text) (wanted : Text)
    (fragments : List OutcomeFragment) :
    (attachEvidence name specIds fragments).find? (fun f => decide (f.name = wanted)) =
      if wanted = name then
        (fragments.find? fun f => decide (f.name = wanted)).map (attachSpecs specIds)
      else fragments.find? fun f => decide (f.name = wanted) := by
  induction fragments with
  | nil => simp [attachEvidence]
  | cons entry rest ih =>
    rw [attachEvidence]
    by_cases hn : entry.name = name
    · have hkeep : (attachSpecs specIds entry).name = entry.name := rfl
      rw [if_pos hn, List.find?_cons, List.find?_cons, hkeep]
      by_cases hw : entry.name = wanted
      · simp [hw, hw ▸ hn]
      · have hne : wanted ≠ name := fun he => hw (hn.trans he.symm)
        simp [hw, hne]
    · rw [if_neg hn, List.find?_cons, List.find?_cons]
      by_cases hw : entry.name = wanted
      · have hne : wanted ≠ name := fun he => hn (hw.trans he)
        simp [hw, hne]
      · simp only [hw, decide_false]
        exact ih

theorem requirementMet_attach (h : RequirementMet outcome r) (name : Text) (specIds : List Text) :
    RequirementMet { outcome with fragments := attachEvidence name specIds outcome.fragments } r := by
  obtain ⟨fragment, hfind, hacc⟩ := h
  rw [CardOutcome.fragment] at hfind
  rw [RequirementMet, CardOutcome.fragment, find_attachEvidence, hfind]
  by_cases hn : normalizeFragmentName r.fragment = name
  · rw [if_pos hn]
    exact ⟨_, rfl, fragmentAccepted_attachSpecs hacc specIds⟩
  · rw [if_neg hn]
    exact ⟨fragment, rfl, hacc⟩

theorem attachCardEvidence_spec (board : TaskBoard) (target name : Text) (specIds : List Text)
    (cardId : Text) :
    finalization (attachCardEvidence board target name specIds) cardId =
      finalization board cardId ∧
    ∀ principal allow, CardAccepted board cardId principal allow →
      CardAccepted (attachCardEvidence board target name specIds) cardId principal allow := by
  by_cases hne : cardId = target
  · subst hne
    rw [attachCardEvidence]
    by_cases hspecs : specIds = []
    · rw [if_pos hspecs]
      exact ⟨rfl, fun _ _ h => h⟩
    rw [if_neg hspecs]
    refine ⟨?_, fun principal allow h => ⟨h.card, h.finalizer, fun outcome hl r hr => ?_⟩⟩
    · rw [finalization, AList.lookup_modify, if_pos rfl, finalization]
      cases board.cardOutcomes.lookup cardId with
      | none => rfl
      | some outcome => rfl
    · rw [AList.lookup_modify, if_pos rfl] at hl
      obtain ⟨old, hold, rfl⟩ := Option.map_eq_some_iff.mp hl
      exact requirementMet_attach (h.outcome old hold r hr) _ specIds
  · have hsame : Same board (attachCardEvidence board target name specIds) cardId :=
      same_attachCardEvidence hne name specIds
    exact ⟨hsame.finalization, fun _ _ h => hsame.accepted h⟩

theorem authorizeFinalizer_ok_iff : authorizeFinalizer board cardId principal allow = .ok () ↔
      (getCard board cardId).isSome ∧ ∀ owner, board.ownerChatId = some owner →
        (owner = principal ∨ principal ∈ board.reviewerChatIds) ∧
        ∀ claim, board.cardClaims.lookup cardId = some claim →
          claim.claimantChatId = principal → allow = true := by
  rw [authorizeFinalizer]
  cases hcard : getCard board cardId with
  | none => simp [-String.reduceToList]
  | some card =>
    cases howner : board.ownerChatId with
    | none => simp [-String.reduceToList]
    | some owner =>
      by_cases hrole : owner ≠ principal ∧ principal ∉ board.reviewerChatIds
      · simp only [Option.isNone_some, Bool.false_eq_true, if_false, if_pos hrole, reduceCtorEq,
          Option.isSome_some, true_and, Option.some.injEq, forall_eq', false_iff]
        rintro ⟨h, -⟩
        exact h.elim hrole.1 hrole.2
      · simp only [Option.isNone_some, Bool.false_eq_true, if_false, if_neg hrole,
          Option.isSome_some, true_and, Option.some.injEq, forall_eq']
        have hrole' : owner = principal ∨ principal ∈ board.reviewerChatIds := by
          rcases not_and_or.mp hrole with h | h
          · exact Or.inl (not_not.mp h)
          · exact Or.inr (not_not.mp h)
        cases hclaim : board.cardClaims.lookup cardId with
        | none => simp [hrole']
        | some claim =>
          by_cases hself : claim.claimantChatId = principal
          · cases allow <;> simp [-String.reduceToList, hself, hrole']
          · simp [-String.reduceToList, hself, hrole']

variable {report : VerifierReport}

theorem reviewPolicyAllowsReport_ok_iff :
    reviewPolicyAllowsReport board cardId report allow = .ok () ↔
      (allow = true ∧ board.reviewPolicy = .ownerAllowed) ∨
      ∃ attestation, board.reviewAttestations.lookup cardId = some attestation ∧
        attestation.report = report ∧ board.ownerChatId ≠ some attestation.reviewerChatId ∧
        attestation.reviewerChatId ∈ board.reviewerChatIds := by
  rw [reviewPolicyAllowsReport]
  by_cases hfree : allow = true ∧ board.reviewPolicy = .ownerAllowed
  · simp [hfree]
  · rw [if_neg hfree]
    cases board.reviewAttestations.lookup cardId with
    | none => simp [-String.reduceToList, hfree]
    | some attestation =>
      by_cases hrep : attestation.report = report
      · by_cases howner : board.ownerChatId = some attestation.reviewerChatId
        · simp [-String.reduceToList, hfree, hrep, howner]
        · by_cases hassign : attestation.reviewerChatId ∈ board.reviewerChatIds
          · simp [-String.reduceToList, hrep, howner, hassign]
          · simp [-String.reduceToList, hfree, hrep, howner, hassign]
      · simp [-String.reduceToList, hfree, hrep]

variable {s : State}

theorem FinalizedAccepted.of_same (h : FinalizedAccepted s) (target : Text)
    (hother : ∀ cardId, cardId ≠ target → Same s.board board cardId)
    (hself : ∀ final, finalization board target = some final →
      CardAccepted board target final.finalizedBy (s.permissive target)) :
    FinalizedAccepted ⟨board, s.permissive⟩ := by
  intro cardId final hfinal
  by_cases hc : cardId = target
  · subst hc
    exact hself final hfinal
  · have hsame := hother cardId hc
    exact hsame.accepted (h cardId final (hsame.finalization.symm.trans hfinal))

theorem createCard_keeps (h : FinalizedAccepted s) (id title : Text) (dependsOn : List Text)
    (instructions : Text) :
    FinalizedAccepted ⟨createCard s.board id title dependsOn instructions, s.permissive⟩ := by
  intro cardId final hfinal
  have hold : finalization s.board cardId = some final := by
    rw [← hfinal, finalization, finalization, createCard]
    by_cases hany : (s.board.cards.any fun c => decide (c.id = id)) = true
    · rw [if_pos hany]
    · rw [if_neg hany]
  obtain ⟨card, hcard, -⟩ := (h cardId final hold).card
  exact (same_createCard id title dependsOn instructions hcard).accepted (h cardId final hold)

theorem moveCard_keeps (h : FinalizedAccepted s) {column : Text} (now : Text)
    (hkeeps : Keeps s (.moveCard cardId column now)) :
    FinalizedAccepted (step s (.moveCard cardId column now)) := by
  rw [step, moveCard]
  cases hgate : ensureColumnMoveAllowed s.board cardId column with
  | error violation => exact h
  | ok u =>
    have hplace : ∀ card, (placeCard column now card).id = card.id := fun _ => rfl
    apply h.of_same cardId (fun other hne => same_modifyCards hne hplace)
    intro final hfinal
    obtain ⟨⟨card, hcard, hcolumn, hrep⟩, hfin, hout⟩ := h cardId final hfinal
    have hdone : column = done := by
      apply (hkeeps _).resolve_right (not_not_intro hgate)
      rw [show finalization s.board cardId = some final from hfinal]
      exact Option.some_ne_none final
    have hmoved : getCard { s.board with
        cards := modifyCard cardId (placeCard column now) s.board.cards } cardId =
        some (placeCard column now card) := by
      rw [getCard, find_modifyCard hplace, if_pos rfl]
      rw [getCard] at hcard
      rw [hcard, Option.map_some]
    refine ⟨⟨_, hmoved, hdone, hrep⟩, ?_, hout⟩
    rw [authorizeFinalizer_ok_iff] at hfin ⊢
    rw [hmoved]
    exact ⟨rfl, hfin.2⟩

theorem claimCard_keeps (h : FinalizedAccepted s) {claimant : Text} (key claimedAt : Text)
    (hkeeps : Keeps s (.claimCard cardId claimant key claimedAt)) :
    FinalizedAccepted (step s (.claimCard cardId claimant key claimedAt)) := by
  rw [step, claimCard]
  cases hgate : dependencyGate s.board cardId with
  | error violation => exact h
  | ok u =>
    cases hclaim : s.board.cardClaims.lookup cardId with
    | some existing =>
      dsimp only
      by_cases hheld : existing.claimantChatId = claimant ∧ existing.idempotencyKey = key
      · rw [if_pos hheld]
        exact h
      · rw [if_neg hheld]
        exact h
    | none =>
      refine h.of_same cardId (fun other hne => ⟨rfl, rfl, rfl, rfl, rfl,
        AList.lookup_insert_ne hne, rfl⟩) fun final hfinal => ?_
      obtain ⟨hcard, hfin, hout⟩ := h cardId final hfinal
      refine ⟨hcard, ?_, hout⟩
      rw [authorizeFinalizer_ok_iff] at hfin ⊢
      refine ⟨hfin.1, fun owner howner => ⟨(hfin.2 owner howner).1, ?_⟩⟩
      intro claim hsome hself
      obtain rfl := Option.some.inj ((AList.lookup_insert _).symm.trans hsome)
      rcases hkeeps final hfinal hself.symm hgate hclaim with hnone | hallow
      · rw [show s.board.ownerChatId = some owner from howner] at hnone
        cases hnone
      · exact hallow

theorem releaseClaim_keeps (h : FinalizedAccepted s) (cardId claimant : Text) :
    FinalizedAccepted (step s (.releaseClaim cardId claimant)) := by
  rw [step, releaseClaim]
  cases hclaim : s.board.cardClaims.lookup cardId with
  | none => exact h
  | some existing =>
    dsimp only
    by_cases hholder : existing.claimantChatId = claimant
    · rw [if_pos hholder]
      refine h.of_same cardId (fun other hne => ⟨rfl, rfl, rfl, rfl, rfl,
        AList.lookup_erase_ne hne, rfl⟩) fun final hfinal => ?_
      obtain ⟨hcard, hfin, hout⟩ := h cardId final hfinal
      refine ⟨hcard, ?_, hout⟩
      rw [authorizeFinalizer_ok_iff] at hfin ⊢
      refine ⟨hfin.1, fun owner howner => ⟨(hfin.2 owner howner).1, ?_⟩⟩
      intro claim hsome
      have hnone := (AList.lookup_erase cardId s.board.cardClaims).symm.trans hsome
      cases hnone
    · rw [if_neg hholder]
      exact h

theorem recordCardOutcome_keeps (h : FinalizedAccepted s) {required : List OutcomeRequirement}
    {fragments : List OutcomeFragment}
    (hkeeps : Keeps s (.recordCardOutcome cardId required fragments)) :
    FinalizedAccepted (step s (.recordCardOutcome cardId required fragments)) := by
  apply h.of_same cardId (fun other hne => same_setOutcome hne _)
  intro final hfinal
  have hold : finalization s.board cardId = some final := by
    rw [← hfinal, finalization, finalization]
    simp only [setOutcome, AList.lookup_insert, outcomeOf]
    cases s.board.cardOutcomes.lookup cardId with
    | none => rfl
    | some outcome => rfl
  obtain ⟨hcard, hfin, -⟩ := h cardId final hold
  refine ⟨hcard, hfin, fun outcome hsome r hr => ?_⟩
  obtain rfl := Option.some.inj ((AList.lookup_insert _).symm.trans hsome)
  exact hkeeps (by rw [hold]; exact Option.some_ne_none final) r hr

theorem recordVerifierReport_keeps (h : FinalizedAccepted s) {specIds : List Text}
    (hkeeps : Keeps s (.recordVerifierReport cardId report specIds)) :
    FinalizedAccepted (step s (.recordVerifierReport cardId report specIds)) := by
  rw [step, recordVerifierReport]
  cases hcard : getCard s.board cardId with
  | none => exact h
  | some card =>
    have hset : ∀ c : BoardCard, ({ c with verifierReport := some report } : BoardCard).id = c.id :=
      fun _ => rfl
    have hreported : FinalizedAccepted ⟨{ s.board with
        reviewAttestations := s.board.reviewAttestations.erase cardId
        cards := modifyCard cardId (fun c => { c with verifierReport := some report })
          s.board.cards }, s.permissive⟩ := by
      refine h.of_same cardId (fun other hne => ⟨rfl, rfl, rfl,
        (find_modifyCard hset cardId other s.board.cards).trans (if_neg hne),
        AList.lookup_erase_ne hne, rfl, rfl⟩) fun final hfinal => ?_
      obtain ⟨⟨old, hold, hcolumn, -⟩, hfin, hout⟩ := h cardId final hfinal
      have hnew := (find_modifyCard hset cardId cardId s.board.cards).trans (if_pos rfl)
      rw [getCard] at hold
      rw [hold, Option.map_some] at hnew
      refine ⟨⟨_, hnew, hcolumn, fun howned => ⟨report, rfl, ?_⟩⟩, ?_, hout⟩
      · rw [reviewPolicyAllowsReport_ok_iff]
        have hfree : ReviewFree s cardId := hkeeps (by
          rw [show finalization s.board cardId = some final from hfinal]
          exact Option.some_ne_none final)
        exact Or.inl (hfree.resolve_left howned)
      · rw [authorizeFinalizer_ok_iff] at hfin ⊢
        refine ⟨?_, hfin.2⟩
        rw [getCard, hnew]
        rfl
    intro other final hfinal
    have hspec := attachCardEvidence_spec { s.board with
        reviewAttestations := s.board.reviewAttestations.erase cardId
        cards := modifyCard cardId (fun c => { c with verifierReport := some report })
          s.board.cards } cardId "verification".toList specIds other
    exact hspec.2 _ _ (hreported other final (hspec.1.symm.trans hfinal))

variable {reviewer : Text}

theorem attestReview_keeps (h : FinalizedAccepted s) {reviewedAt : Text}
    (hkeeps : Keeps s (.attestReview cardId reviewer report reviewedAt allow)) :
    FinalizedAccepted (step s (.attestReview cardId reviewer report reviewedAt allow)) := by
  rw [step, attestReview]
  cases hauth : authorizeReviewer s.board reviewer allow with
  | error reason => exact h
  | ok u =>
    refine h.of_same cardId (fun other hne => ⟨rfl, rfl, rfl, rfl,
      AList.lookup_insert_ne hne, rfl, rfl⟩) fun final hfinal => ?_
    obtain ⟨⟨card, hcard, hcolumn, hrep⟩, hfin, hout⟩ := h cardId final hfinal
    refine ⟨⟨card, hcard, hcolumn, fun howned => ?_⟩, hfin, hout⟩
    obtain ⟨stored, hstored, -⟩ := hrep howned
    refine ⟨stored, hstored, reviewPolicyAllowsReport_ok_iff.mpr ?_⟩
    have hfinalized : finalization s.board cardId ≠ none := by
      rw [show finalization s.board cardId = some final from hfinal]
      exact Option.some_ne_none final
    rcases hkeeps hfinalized hauth with hfree | ⟨hnotowner, hmatch⟩
    · exact Or.inl (hfree.resolve_left howned)
    · have hassign : reviewer ∈ s.board.reviewerChatIds := by
        rw [authorizeReviewer] at hauth
        by_contra hnot
        rw [if_neg (not_or.mpr ⟨hnot, fun hown => hnotowner hown.1⟩), if_neg hnotowner] at hauth
        cases hauth
      have hsame : stored = report := Option.some.inj (hstored.symm.trans (hmatch card hcard))
      exact Or.inr ⟨_, AList.lookup_insert _, hsame.symm, hnotowner, hassign⟩

theorem mem_attestedBy_iff : cardId ∈ attestedBy board reviewer ↔
      ∃ attestation, board.reviewAttestations.lookup cardId = some attestation ∧
        attestation.reviewerChatId = reviewer := by
  simp only [attestedBy, mem_map, mem_filter, decide_eq_true_eq]
  constructor
  · rintro ⟨⟨key, attestation⟩, ⟨hmem, hby⟩, rfl⟩
    exact ⟨attestation, AList.mem_entries_iff.mp hmem, hby⟩
  · rintro ⟨attestation, hl, hby⟩
    exact ⟨⟨cardId, attestation⟩, ⟨AList.mem_entries_iff.mpr hl, hby⟩, rfl⟩

theorem removeReviewer_keeps (h : FinalizedAccepted s) (hkeeps : Keeps s (.removeReviewer
      reviewer)) :
    FinalizedAccepted (step s (.removeReviewer reviewer)) := by
  intro cardId final hfinal
  obtain ⟨hsame, hnone⟩ := foldl_invalidate (attestedBy s.board reviewer)
    { s.board with reviewerChatIds :=
        s.board.reviewerChatIds.filter fun r => decide (r ≠ reviewer) } cardId
  by_cases hattested : cardId ∈ attestedBy s.board reviewer
  · have := hfinal.symm.trans (hnone hattested)
    cases this
  · apply (hsame hattested).accepted
    have hold : finalization s.board cardId = some final :=
      (hsame hattested).finalization.symm.trans hfinal
    obtain ⟨⟨card, hcard, hcolumn, hrep⟩, hfin, hout⟩ := h cardId final hold
    refine ⟨⟨card, hcard, hcolumn, fun howned => ?_⟩, ?_, hout⟩
    · obtain ⟨report, hsome, hallows⟩ := hrep howned
      refine ⟨report, hsome, ?_⟩
      rw [reviewPolicyAllowsReport_ok_iff] at hallows ⊢
      rcases hallows with hfree | ⟨attestation, hl, hr, hnotowner, hassign⟩
      · exact Or.inl hfree
      · refine Or.inr ⟨attestation, hl, hr, hnotowner, mem_filter.mpr ⟨hassign, ?_⟩⟩
        apply decide_eq_true
        exact fun he => hattested (mem_attestedBy_iff.mpr ⟨attestation, hl, he⟩)
    · rw [authorizeFinalizer_ok_iff] at hfin ⊢
      refine ⟨hfin.1, fun owner howner => ⟨?_, (hfin.2 owner howner).2⟩⟩
      rcases (hfin.2 owner howner).1 with hown | hassign
      · exact Or.inl hown
      · by_cases hself : final.finalizedBy = reviewer
        · rcases hkeeps cardId final hold hself with hn | ho | ha
          · rw [show s.board.ownerChatId = some owner from howner] at hn
            cases hn
          · rw [show s.board.ownerChatId = some owner from howner, Option.some.injEq] at ho
            exact Or.inl (ho.trans hself.symm)
          · exact absurd (mem_attestedBy_iff.mpr ha) hattested
        · exact Or.inr (mem_filter.mpr ⟨hassign, decide_eq_true hself⟩)

theorem finalizeCard_keeps (h : FinalizedAccepted s) (cardId principal : Text) (allow : Bool)
    (finalizedAt : Text) :
    FinalizedAccepted (step s (.finalizeCard cardId principal allow finalizedAt)) := by
  rw [step, finalizeCard]
  by_cases hblocks : evaluateFinalize s.board cardId principal allow = []
  · simp only [hblocks, if_true]
    obtain ⟨⟨hcard, hfin, hout⟩, -⟩ := accepted_of_evaluate hblocks
    intro other final hfinal
    by_cases hc : other = cardId
    · subst hc
      rw [finalization, setOutcome, AList.lookup_insert] at hfinal
      obtain rfl := Option.some.inj hfinal
      simp only [Function.update_self]
      refine ⟨hcard, hfin, fun outcome hsome r hr => ?_⟩
      obtain rfl := Option.some.inj ((AList.lookup_insert _).symm.trans hsome)
      simp only [outcomeOf] at hr ⊢
      cases hl : s.board.cardOutcomes.lookup other with
      | none =>
        rw [hl] at hr
        exact absurd hr not_mem_nil
      | some old =>
        rw [hl] at hr
        exact hout old hl r hr
    · have hsame := @same_setOutcome s.board _ _ hc
        { outcomeOf s.board cardId with finalized := some ⟨principal, finalizedAt⟩ }
      simp only [Function.update_of_ne hc]
      exact hsame.accepted (h other final (hsame.finalization.symm.trans hfinal))
  · simp only [hblocks, if_false]
    exact h

theorem step_keeps (h : FinalizedAccepted s) {op : Op} (hkeeps : Keeps s op) :
    FinalizedAccepted (step s op) := by
  cases op with
  | createCard id title dependsOn instructions =>
    exact createCard_keeps h id title dependsOn instructions
  | moveCard cardId column now => exact moveCard_keeps h now hkeeps
  | claimCard cardId claimant key claimedAt => exact claimCard_keeps h key claimedAt hkeeps
  | releaseClaim cardId claimant => exact releaseClaim_keeps h cardId claimant
  | recordCardOutcome cardId required fragments => exact recordCardOutcome_keeps h hkeeps
  | attachCardEvidence cardId fragment specIds =>
    intro other final hfinal
    have hspec := attachCardEvidence_spec s.board cardId fragment specIds other
    exact hspec.2 _ _ (h other final (hspec.1.symm.trans hfinal))
  | recordVerifierReport cardId report specIds => exact recordVerifierReport_keeps h hkeeps
  | attestReview cardId reviewer report reviewedAt allow => exact attestReview_keeps h hkeeps
  | invalidateCardReview cardId =>
    refine h.of_same cardId (fun other hne => same_invalidate hne) fun final hfinal => ?_
    rw [finalization_invalidate] at hfinal
    cases hfinal
  | removeReviewer reviewer => exact removeReviewer_keeps h hkeeps
  | clearVerifierReports =>
    intro cardId final hfinal
    rw [finalization, step, clearVerifierReports, AList.lookup_mapValues] at hfinal
    cases hl : s.board.cardOutcomes.lookup cardId with
    | none => rw [hl] at hfinal; cases hfinal
    | some outcome => rw [hl] at hfinal; cases hfinal
  | finalizeCard cardId principal allow finalizedAt =>
    exact finalizeCard_keeps h cardId principal allow finalizedAt
  | removeCard cardId =>
    refine h.of_same cardId (fun other hne => same_removeCard hne) fun final hfinal => ?_
    rw [finalization, removeCard, AList.lookup_erase] at hfinal
    cases hfinal

def start (owner : Option Text) (reviewers : List Text) (policy : BoardReviewPolicy) : State :=
  ⟨.empty owner reviewers policy, fun _ => false⟩

def KeepsAll : State → List Op → Prop
  | _, [] => True
  | s, op :: ops => Keeps s op ∧ KeepsAll (step s op) ops

theorem run_keeps {ops : List Op} : ∀ {s : State}, FinalizedAccepted s → KeepsAll s ops →
    FinalizedAccepted (ops.foldl step s) := by
  induction ops with
  | nil => exact fun h _ => h
  | cons op ops ih => exact fun h hkeeps => ih (step_keeps h hkeeps.1) hkeeps.2

theorem finalizedAccepted_start (owner : Option Text) (reviewers : List Text)
    (policy : BoardReviewPolicy) : FinalizedAccepted (start owner reviewers policy) := by
  intro cardId final hfinal
  cases hfinal

def run (owner : Option Text) (reviewers : List Text) (policy : BoardReviewPolicy)
    (ops : List Op) : State :=
  ops.foldl step (start owner reviewers policy)

/-- In a run whose operations leave finalised cards accepted, a finalised card is done, its report
is accepted and its requirements are met, and its finaliser meets no block but that it is finalised.
-/
theorem finalized_means_accepted {owner : Option Text} {reviewers : List Text}
    {policy : BoardReviewPolicy} {ops : List Op}
    (hkeeps : KeepsAll (start owner reviewers policy) ops) (cardId : Text)
    (hfinalized : cardIsFinalized (run owner reviewers policy ops).board cardId = true) :
    ∃ final, finalization (run owner reviewers policy ops).board cardId = some final ∧
      CardAccepted (run owner reviewers policy ops).board cardId final.finalizedBy
        ((run owner reviewers policy ops).permissive cardId) ∧
      evaluateFinalize (run owner reviewers policy ops).board cardId final.finalizedBy
        ((run owner reviewers policy ops).permissive cardId) =
        [.alreadyFinalized cardId final.finalizedBy] := by
  have h : FinalizedAccepted (run owner reviewers policy ops) :=
    run_keeps (finalizedAccepted_start owner reviewers policy) hkeeps
  have hsome : ∃ final, finalization (run owner reviewers policy ops).board cardId =
      some final := by
    rw [cardIsFinalized] at hfinalized
    rw [finalization]
    cases hl : (run owner reviewers policy ops).board.cardOutcomes.lookup cardId with
    | none => rw [hl] at hfinalized; cases hfinalized
    | some outcome =>
      rw [hl] at hfinalized
      exact Option.isSome_iff_exists.mp hfinalized
  obtain ⟨final, hfinal⟩ := hsome
  have hacc := h cardId final hfinal
  refine ⟨final, hfinal, hacc, ?_⟩
  have hblocks := hacc.evaluate
  rw [finalization] at hfinal
  rw [alreadyBlocks, hfinal] at hblocks
  exact hblocks

def reviewedOps : List Op :=
  [.createCard ['a'] [] [] [], .moveCard ['a'] done [],
    .recordVerifierReport ['a'] ⟨true, [], [], [], .passed⟩ [],
    .attestReview ['a'] ['r'] ⟨true, [], [], [], .passed⟩ [] false,
    .finalizeCard ['a'] ['p'] false []]

theorem reviewed_card_accepted :
    ∃ final, finalization (run (some ['p']) [['r']] .independentRequired reviewedOps).board ['a'] =
        some final ∧
      CardAccepted (run (some ['p']) [['r']] .independentRequired reviewedOps).board ['a']
        final.finalizedBy
        ((run (some ['p']) [['r']] .independentRequired reviewedOps).permissive ['a']) ∧
      evaluateFinalize (run (some ['p']) [['r']] .independentRequired reviewedOps).board ['a']
        final.finalizedBy
        ((run (some ['p']) [['r']] .independentRequired reviewedOps).permissive ['a']) =
        [.alreadyFinalized ['a'] final.finalizedBy] := by
  -- No card is finalised before the last operation.
  have hkeeps : KeepsAll (start (some ['p']) [['r']] .independentRequired) reviewedOps :=
    And.intro trivial (And.intro (fun h => absurd rfl h) (And.intro (fun h => absurd rfl h)
      (And.intro (fun h => absurd rfl h) (And.intro trivial trivial))))
  exact finalized_means_accepted hkeeps ['a'] (by decide)

/-- A finalised card moves back to the planned column, and a finalised card gets a requirement that
no fragment meets; both stay finalised. -/
theorem finalized_card_not_accepted :
    (∃ ops, cardIsFinalized (run none [] .ownerAllowed ops).board ['a'] = true ∧
      (getCard (run none [] .ownerAllowed ops).board ['a']).map BoardCard.column =
        some planned) ∧
    ∃ ops, cardIsFinalized (run none [] .ownerAllowed ops).board ['a'] = true ∧
      outcomeBlocks ((run none [] .ownerAllowed ops).board.cardOutcomes.lookup ['a']) =
        [.missingFragment ['s']] :=
  ⟨⟨[.createCard ['a'] [] [] [], .moveCard ['a'] done [], .finalizeCard ['a'] ['p'] false [],
      .moveCard ['a'] planned []], by decide, by decide⟩,
    ⟨[.createCard ['a'] [] [] [], .moveCard ['a'] done [], .finalizeCard ['a'] ['p'] false [],
      .recordCardOutcome ['a'] [⟨['s'], false⟩] []], by decide, by decide⟩⟩

end BoardFinalization
