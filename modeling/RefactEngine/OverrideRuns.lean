import RefactEngine.SelfReview
import RefactEngine.WaveLevels

/-! # What a dependency override lifts

An override is recorded once, with the dependencies that were open at that time, and lifts the gate
of its card as long as it stays on the board. Dependencies that are open later and were not recorded
were given to the card, or left the done column, after the override.
-/
namespace OverrideRuns

open TaskBoards BoardFinalization BoardValidation WaveLevels SelfReview List

inductive Edit where
  | event (event : Event)
  | updateCard (cardId : Text) (title : Option Text) (dependsOn : Option (List Text))
      (instructions : Option Text)
  /-- What agents that start, finish or fail write without moving the card. -/
  | writeColumn (cardId column : Text)

def updateCard (title : Option Text) (dependsOn : Option (List Text)) (instructions : Option Text)
    (card : BoardCard) : BoardCard :=
  { card with
    title := title.getD card.title
    dependsOn := dependsOn.getD card.dependsOn
    instructions := instructions.getD card.instructions }

variable (board : TaskBoard)

def edited : Edit → TaskBoard
  | .event event => (advance (beginning board) event).state.board
  | .updateCard cardId title dependsOn instructions =>
    { board with cards :=
        modifyCard cardId (updateCard title dependsOn instructions) board.cards }
  | .writeColumn cardId column =>
    { board with cards := modifyCard cardId (fun card => { card with column }) board.cards }

def step (edit : Edit) : TaskBoard :=
  match validateDependencies (edited board edit) with
  | .ok () => edited board edit
  | .error _ => board

def run (edits : List Edit) : TaskBoard := edits.foldl step board

def Unsatisfied (cardId dependency : Text) : Prop :=
  ∃ card, getCard board cardId = some card ∧ dependency ∈ card.dependsOn ∧
    ∀ other, getCard board dependency = some other → other.column ≠ done

/-- The card may be started: the gate accepts it, or it is claimed or moved to doing. -/
def Admitted (cardId : Text) : Prop :=
  dependencyGate board cardId = .ok () ∨
  (∃ claimant key claimedAt result, claimCard board cardId claimant key claimedAt = .ok result) ∨
  ∃ now next, moveCard board cardId doing now = .ok next

def OnlyListed (cardId : Text) : Prop :=
  ∀ dependency, Unsatisfied board cardId dependency →
    ∃ record, board.dependencyOverrides.lookup cardId = some record ∧
      dependency ∈ record.unsatisfied

/-- The edit gives the dependency to the card, or takes the dependency out of the done column. -/
def Reopens (edit : Edit) (cardId dependency : Text) : Prop :=
  match edit with
  | .updateCard target _ (some dependsOn) _ => target = cardId ∧ dependency ∈ dependsOn
  | .event (.board (.moveCard target column _)) => target = dependency ∧ column ≠ done
  | .writeColumn target column => target = dependency ∧ column ≠ done
  | _ => False

def Reopened (edits : List Edit) (cardId dependency : Text) : Prop :=
  ∃ before edit after, edits = before ++ edit :: after ∧ Reopens edit cardId dependency ∧
    ¬ Unsatisfied (run board before) cardId dependency ∧
    Unsatisfied (step (run board before) edit) cardId dependency

/-- The override was recorded in the run, with the dependencies that were open at that time, and
everything that is open now was open then or reopened since. -/
def Justified (start : TaskBoard) (edits : List Edit) (cardId : Text)
    (record : DependencyOverride) : Prop :=
  ∃ before after,
    edits = before ++
      .event (.overrideDependencies cardId record.overriddenBy record.reason record.overriddenAt) ::
        after ∧
    unsatisfiedDependencies (run start before) cardId = .ok record.unsatisfied ∧
    ∀ dependency, Unsatisfied (run start edits) cardId dependency →
      dependency ∈ record.unsatisfied ∨
        Reopened (step (run start before)
          (.event (.overrideDependencies cardId record.overriddenBy record.reason
            record.overriddenAt))) after cardId dependency

/-- The columns and the dependencies of the cards and the overrides are the same. -/
structure Kept (board next : TaskBoard) : Prop where
  cards : ∀ cardId, (getCard next cardId).map (fun card => (card.column, card.dependsOn)) =
    (getCard board cardId).map fun card => (card.column, card.dependsOn)
  overrides : next.dependencyOverrides = board.dependencyOverrides

inductive Effect (board next : TaskBoard) : Edit → Prop where
  | kept {edit : Edit} : Kept board next → Effect board next edit
  | created {edit : Edit} (card : BoardCard) : getCard board card.id = none →
    next.cards = board.cards ++ [card] → next.dependencyOverrides = board.dependencyOverrides →
    Effect board next edit
  | changed {edit : Edit} (target : Text) (f : BoardCard → BoardCard) :
    (∀ card, (f card).id = card.id) →
    (∀ card, ∀ dependency ∈ (f card).dependsOn,
      dependency ∈ card.dependsOn ∨ Reopens edit target dependency) →
    (∀ card, (f card).column = card.column ∨ (f card).column = done ∨
      ∀ cardId, Reopens edit cardId target) →
    next.cards = modifyCard target f board.cards →
    next.dependencyOverrides = board.dependencyOverrides → Effect board next edit
  | overridden (cardId overriddenBy reason overriddenAt : Text) (unsatisfied : List Text) :
    recordDependencyOverride board cardId overriddenBy reason overriddenAt =
      .ok (next, unsatisfied) →
    Effect board next (.event (.overrideDependencies cardId overriddenBy reason overriddenAt))
  | removed {edit : Edit} (target : Text) : next = removeCard board target →
    Effect board next edit

variable {board next : TaskBoard}

theorem Kept.refl (board : TaskBoard) : Kept board board := ⟨fun _ => rfl, rfl⟩

theorem Kept.trans {last : TaskBoard} (h : Kept board next) (h' : Kept next last) :
    Kept board last :=
  ⟨fun cardId => (h'.cards cardId).trans (h.cards cardId), h'.overrides.trans h.overrides⟩

theorem Kept.of_eq (hcards : next.cards = board.cards)
    (hover : next.dependencyOverrides = board.dependencyOverrides) : Kept board next := by
  refine ⟨fun cardId => ?_, hover⟩
  rw [getCard, hcards]
  rfl

variable {target : Text}

theorem Kept.of_modify {f : BoardCard → BoardCard} (hf : ∀ card, (f card).id = card.id)
    (hkept : ∀ card, (f card).column = card.column ∧ (f card).dependsOn = card.dependsOn)
    (hcards : next.cards = modifyCard target f board.cards)
    (hover : next.dependencyOverrides = board.dependencyOverrides) : Kept board next := by
  refine ⟨fun cardId => ?_, hover⟩
  rw [getCard, hcards, find_modifyCard hf]
  split_ifs with htgt
  · rw [Option.map_map, getCard]
    congr 1
    funext card
    exact Prod.ext (hkept card).1 (hkept card).2
  · rfl

theorem Kept.orKeep {ε : Type} {result : Except ε TaskBoard}
    (h : ∀ next, result = .ok next → Kept board next) : Kept board (orKeep board result) := by
  cases result with
  | error violation => exact Kept.refl board
  | ok next => exact h next rfl

theorem kept_invalidate (board : TaskBoard) (cardId : Text) :
    Kept board (invalidateCardReview board cardId) :=
  .of_modify (f := withoutReport) (fun _ => rfl) (fun _ => ⟨rfl, rfl⟩) rfl rfl

theorem kept_foldl_invalidate (cardIds : List Text) (board : TaskBoard) :
    Kept board (cardIds.foldl invalidateCardReview board) := by
  induction cardIds generalizing board with
  | nil => exact .refl board
  | cons cardId rest ih => exact (kept_invalidate board cardId).trans (ih _)

theorem kept_clear (board : TaskBoard) : Kept board (clearVerifierReports board) := by
  refine ⟨fun cardId => ?_, rfl⟩
  rw [getCard, clearVerifierReports, List.find?_map, Option.map_map]
  rfl

theorem kept_removeReviewer (board : TaskBoard) (reviewer : Text) :
    Kept board (removeReviewer board reviewer) := by
  refine Kept.trans ?_ (kept_foldl_invalidate (attestedBy board reviewer) _)
  exact .of_eq rfl rfl

theorem kept_attachCardEvidence (board : TaskBoard) (cardId fragment : Text)
    (specIds : List Text) : Kept board (attachCardEvidence board cardId fragment specIds) := by
  rw [attachCardEvidence]
  split_ifs
  · exact .refl board
  · exact .of_eq rfl rfl

theorem kept_recordVerifierReport (board : TaskBoard) (cardId : Text) (report : VerifierReport)
    (specIds : List Text) : Kept board (recordVerifierReport board cardId report specIds) := by
  rw [recordVerifierReport]
  cases getCard board cardId with
  | none => exact .refl board
  | some card =>
    refine Kept.trans ?_ (kept_attachCardEvidence _ cardId _ specIds)
    exact .of_modify (f := fun card => { card with verifierReport := some report })
      (fun _ => rfl) (fun _ => ⟨rfl, rfl⟩) rfl rfl

variable {cardId : Text}

theorem kept_authorizeOwner {chatId : Text} (h : authorizeOwner board chatId = .ok next) :
    Kept board next := by
  rcases authorizeOwner_ok h with ⟨-, rfl⟩ | ⟨-, rfl⟩
  · exact .refl next
  · exact .of_eq rfl rfl

variable {actor : Text}

theorem kept_addReviewer (h : addReviewer board actor target = .ok next) : Kept board next := by
  have hok := asOwner_ok h
  split_ifs at hok
  · cases hok
    exact .refl board
  · cases hok
    exact .of_eq rfl rfl

theorem kept_transferOwner (h : transferOwner board actor target = .ok next) : Kept board next := by
  cases asOwner_ok h
  refine (kept_removeReviewer board target).trans (Kept.trans ?_ (kept_clear _))
  exact .of_eq rfl rfl

theorem kept_setReviewPolicy {policy : BoardReviewPolicy}
    (h : setReviewPolicy board actor policy = .ok next) : Kept board next := by
  cases asOwner_ok h
  refine Kept.trans ?_ (kept_clear _)
  exact .of_eq rfl rfl

variable {edit : Edit}

theorem effect_createCard (id title : Text) (dependsOn : List Text) (instructions : Text) :
    Effect board (createCard board id title dependsOn instructions) edit := by
  rw [createCard]
  split_ifs with hknown
  · exact .kept (.refl board)
  · refine .created ⟨id, title, planned, dependsOn, instructions, none, none, none⟩ ?_ rfl rfl
    rw [getCard, List.find?_eq_none]
    intro card hcard hid
    exact hknown (any_eq_true.mpr ⟨card, hcard, hid⟩)

theorem effect_moveCard {column now : Text} (h : moveCard board cardId column now = .ok next) :
    Effect board next (.event (.board (.moveCard cardId column now))) := by
  refine .changed cardId (placeCard column now) (fun _ => rfl) (fun _ _ hin => .inl hin)
    (fun card => ?_) (by rw [moveCard_ok h]) (by rw [moveCard_ok h])
  by_cases hdone : column = done
  · exact .inr (.inl hdone)
  · exact .inr (.inr fun _ => ⟨rfl, hdone⟩)

theorem effect_op (s : State) (op : Op) :
    Effect s.board (TaskBoards.step s op).board (.event (.board op)) := by
  cases op with
  | createCard id title dependsOn instructions =>
    exact effect_createCard id title dependsOn instructions
  | moveCard cardId column now =>
    rw [TaskBoards.step]
    cases h : moveCard s.board cardId column now with
    | error violation => exact .kept (.refl s.board)
    | ok next => exact effect_moveCard h
  | claimCard cardId claimant key claimedAt =>
    refine .kept (.orKeep fun next h => ?_)
    cases hok : claimCard s.board cardId claimant key claimedAt with
    | error violation => rw [hok] at h; cases h
    | ok result =>
      rw [hok] at h
      cases h
      obtain ⟨-, ⟨-, heq⟩ | ⟨-, heq⟩⟩ := claimCard_ok hok <;> rw [heq]
      · exact .of_eq rfl rfl
      · exact .refl _
  | releaseClaim cardId claimant =>
    refine .kept (.orKeep fun _ hok => ?_)
    rcases releaseClaim_ok hok with rfl | rfl
    · exact .refl _
    · exact .of_eq rfl rfl
  | recordCardOutcome cardId required fragments => exact .kept (.of_eq rfl rfl)
  | attachCardEvidence cardId fragment specIds =>
    exact .kept (kept_attachCardEvidence s.board cardId fragment specIds)
  | recordVerifierReport cardId report specIds =>
    exact .kept (kept_recordVerifierReport s.board cardId report specIds)
  | attestReview cardId reviewer report reviewedAt allow =>
    exact .kept (.orKeep fun _ hok => by
      rw [attestReview_ok hok]
      exact .of_eq rfl rfl)
  | invalidateCardReview cardId => exact .kept (kept_invalidate s.board cardId)
  | removeReviewer reviewer => exact .kept (kept_removeReviewer s.board reviewer)
  | clearVerifierReports => exact .kept (kept_clear s.board)
  | finalizeCard cardId principal allow finalizedAt =>
    rw [TaskBoards.step, finalizeCard]
    split_ifs
    · exact .kept (.of_eq rfl rfl)
    · exact .kept (.refl s.board)
  | removeCard cardId => exact .removed cardId rfl

theorem effect_edited (board : TaskBoard) (edit : Edit) :
    Effect board (edited board edit) edit := by
  cases edit with
  | event event =>
    cases event with
    | board op => exact effect_op ⟨board, fun _ => false⟩ op
    | claimOwner actor => exact .kept (.orKeep fun _ => kept_authorizeOwner)
    | addReviewer actor target => exact .kept (.orKeep fun _ => kept_addReviewer)
    | transferOwner actor target => exact .kept (.orKeep fun _ => kept_transferOwner)
    | setReviewPolicy actor policy => exact .kept (.orKeep fun _ => kept_setReviewPolicy)
    | overrideDependencies cardId overriddenBy reason overriddenAt =>
      rw [edited, advance, beginning]
      cases h : recordDependencyOverride board cardId overriddenBy reason overriddenAt with
      | error violation => exact .kept (.refl board)
      | ok result => exact .overridden cardId overriddenBy reason overriddenAt result.2 h
  | updateCard cardId title dependsOn instructions =>
    refine .changed cardId (updateCard title dependsOn instructions) (fun _ => rfl)
      (fun card dependency hin => ?_) (fun _ => .inl rfl) rfl rfl
    cases dependsOn with
    | none => exact .inl hin
    | some given => exact .inr ⟨rfl, hin⟩
  | writeColumn cardId column =>
    refine .changed cardId (fun card => { card with column }) (fun _ => rfl)
      (fun _ _ hin => .inl hin) (fun card => ?_) rfl rfl
    by_cases hdone : column = done
    · exact .inr (.inl hdone)
    · exact .inr (.inr fun _ => ⟨rfl, hdone⟩)

theorem effect_step (board : TaskBoard) (edit : Edit) : Effect board (step board edit) edit := by
  rw [step]
  cases validateDependencies (edited board edit) with
  | error reason => exact .kept (.refl board)
  | ok u => exact effect_edited board edit

theorem linked_step (h : Linked (cardLinks board)) (edit : Edit) :
    Linked (cardLinks (step board edit)) := by
  rw [step]
  cases hvalid : validateDependencies (edited board edit) with
  | error reason => exact h
  | ok u => exact (accepted_of_validate hvalid).toLinked

variable {dependency : Text}

theorem mem_unsatisfied {unsatisfied : List Text}
    (h : unsatisfiedDependencies board cardId = .ok unsatisfied) :
    dependency ∈ unsatisfied ↔ Unsatisfied board cardId dependency := by
  rw [unsatisfiedDependencies] at h
  cases hcard : getCard board cardId with
  | none => rw [hcard] at h; cases h
  | some card =>
    rw [hcard] at h
    cases h
    rw [mem_filter]
    constructor
    · rintro ⟨hin, hopen⟩
      refine ⟨card, hcard, hin, fun other hother => ?_⟩
      simp only [hother] at hopen
      exact of_decide_eq_true hopen
    · rintro ⟨found, hfound, hin, hothers⟩
      obtain rfl := Option.some.inj (hcard.symm.trans hfound)
      refine ⟨hin, ?_⟩
      cases hother : getCard board dependency with
      | none => rfl
      | some other => exact decide_eq_true (hothers other hother)

theorem Kept.unsatisfied_iff (h : Kept board next) :
    Unsatisfied next cardId dependency ↔ Unsatisfied board cardId dependency := by
  have hiff : ∀ b : TaskBoard, Unsatisfied b cardId dependency ↔
      ∃ key, (getCard b cardId).map (fun card => (card.column, card.dependsOn)) = some key ∧
        dependency ∈ key.2 ∧ ∀ other,
          (getCard b dependency).map (fun card => (card.column, card.dependsOn)) = some other →
          other.1 ≠ done := by
    intro b
    simp only [Option.map_eq_some_iff]
    constructor
    · rintro ⟨card, hcard, hin, hothers⟩
      refine ⟨_, ⟨card, hcard, rfl⟩, hin, ?_⟩
      rintro - ⟨other, hother, rfl⟩
      exact hothers other hother
    · rintro ⟨-, ⟨card, hcard, rfl⟩, hin, hothers⟩
      exact ⟨card, hcard, hin, fun other hother => hothers _ ⟨other, hother, rfl⟩⟩
  rw [hiff, hiff, h.cards, h.cards]

theorem Effect.isSome (h : Effect board next edit) (hcard : (getCard board cardId).isSome)
    (hkept : (next.dependencyOverrides.lookup cardId).isSome) : (getCard next cardId).isSome := by
  cases h with
  | kept h =>
    have hsame := congrArg Option.isSome (h.cards cardId)
    rwa [Option.isSome_map, Option.isSome_map, hcard] at hsame
  | created card hnew hcards hover =>
    rw [getCard, hcards, List.find?_append]
    exact Option.isSome_or.trans (by rw [← getCard, hcard, Bool.true_or])
  | changed target f hf hdeps hcolumn hcards hover =>
    rw [getCard, hcards, find_modifyCard hf]
    split_ifs
    · rwa [Option.isSome_map]
    · exact hcard
  | overridden target overriddenBy reason overriddenAt unsatisfied hok =>
    rw [(recordDependencyOverride_ok hok).2]
    exact hcard
  | removed target heq =>
    subst heq
    by_cases htgt : cardId = target
    · rw [htgt, removeCard, AList.lookup_erase] at hkept
      cases hkept
    · rw [getCard, removeCard, find_eraseP htgt]
      exact hcard

theorem not_mem_eraseP {cards : List BoardCard} (h : (cards.map BoardCard.id).Nodup) :
    target ∉ (cards.eraseP fun card => decide (card.id = target)).map BoardCard.id := by
  induction cards with
  | nil => exact not_mem_nil
  | cons card rest ih =>
    obtain ⟨hnew, hrest⟩ := nodup_cons.mp h
    by_cases htgt : card.id = target
    · rw [eraseP_cons_of_pos (by simpa using htgt)]
      exact htgt ▸ hnew
    · rw [eraseP_cons_of_neg (by simpa using htgt), map_cons, mem_cons]
      exact not_or.mpr ⟨fun heq => htgt heq.symm, ih hrest⟩

theorem ids_nodup (h : Linked (cardLinks board)) : (board.cards.map BoardCard.id).Nodup := by
  have hids := h.ids
  rwa [cardLinks, map_map] at hids

/-- An open dependency of a card with an override was open before or is reopened by the edit. -/
theorem Effect.unsatisfied (h : Effect board next edit)
    (hboard : Linked (cardLinks board)) (hnext : Linked (cardLinks next))
    (hcard : (getCard board cardId).isSome)
    (hkept : (next.dependencyOverrides.lookup cardId).isSome)
    (hopen : Unsatisfied next cardId dependency) :
    Unsatisfied board cardId dependency ∨ Reopens edit cardId dependency := by
  obtain ⟨card, hcard⟩ := Option.isSome_iff_exists.mp hcard
  obtain ⟨found, hfound, hin, hothers⟩ := hopen
  cases h with
  | kept h => exact .inl (h.unsatisfied_iff.mp ⟨found, hfound, hin, hothers⟩)
  | created new hnew hcards hover =>
    have hget : ∀ {id : Text} {old : BoardCard}, getCard board id = some old →
        getCard next id = some old := by
      intro id old hold
      rw [getCard, hcards, List.find?_append, ← getCard, hold]
      rfl
    obtain rfl := Option.some.inj ((hget hcard).symm.trans hfound)
    exact .inl ⟨card, hcard, hin, fun other hother => hothers other (hget hother)⟩
  | changed target f hf hdeps hcolumn hcards hover =>
    have hget : ∀ id, getCard next id =
        if id = target then (getCard board id).map f else getCard board id := by
      intro id
      rw [getCard, hcards, find_modifyCard hf]
      rfl
    by_cases hreopens : Reopens edit cardId dependency
    · exact .inr hreopens
    refine .inl ⟨card, hcard, ?_, fun other hother => ?_⟩
    · rw [hget, hcard] at hfound
      split_ifs at hfound with htgt
      · cases hfound
        exact (hdeps card dependency hin).resolve_right (htgt ▸ hreopens)
      · cases hfound
        exact hin
    · by_cases htgt : dependency = target
      · have hafter := hothers (f other) (by rw [hget, if_pos htgt, hother]; rfl)
        rcases hcolumn other with hsame | hdone | hall
        · exact hsame ▸ hafter
        · exact absurd hdone hafter
        · exact absurd (htgt ▸ hall cardId) hreopens
      · exact hothers other (by rw [hget, if_neg htgt, hother])
  | overridden target overriddenBy reason overriddenAt unsatisfied hok =>
    obtain ⟨-, rfl⟩ := recordDependencyOverride_ok hok
    exact .inl ⟨found, hfound, hin, hothers⟩
  | removed target heq =>
    subst heq
    have htgt : cardId ≠ target := by
      rintro rfl
      rw [removeCard, AList.lookup_erase] at hkept
      cases hkept
    have hsame : ∀ {id : Text}, id ≠ target → getCard (removeCard board target) id =
        getCard board id := fun hne => find_eraseP hne board.cards
    -- A card with dependents is not removed: the board would not be written.
    have hdep : dependency ≠ target := by
      rintro rfl
      have hlink : ⟨found.id, found.dependsOn⟩ ∈ cardLinks (removeCard board dependency) :=
        mem_map_of_mem (List.mem_of_find?_eq_some hfound)
      obtain ⟨other, hother, hid⟩ := mem_ids.mp (hnext.known _ hlink dependency hin)
      exact not_mem_eraseP (ids_nodup hboard) (mem_map.mpr ⟨other, hother, hid⟩)
    rw [hsame htgt] at hfound
    exact .inl ⟨found, hfound, hin, fun other hother =>
      hothers other ((hsame hdep).trans hother)⟩


variable {record : DependencyOverride}

theorem Effect.lookup (h : Effect board next edit)
    (hrec : next.dependencyOverrides.lookup cardId = some record) :
    board.dependencyOverrides.lookup cardId = some record ∨
      edit = .event (.overrideDependencies cardId record.overriddenBy record.reason
          record.overriddenAt) ∧
        unsatisfiedDependencies board cardId = .ok record.unsatisfied ∧
        ∀ dependency, Unsatisfied next cardId dependency → dependency ∈ record.unsatisfied := by
  cases h with
  | kept h => exact .inl (h.overrides ▸ hrec)
  | created card hnew hcards hover => exact .inl (hover ▸ hrec)
  | changed target f hf hdeps hcolumn hcards hover => exact .inl (hover ▸ hrec)
  | overridden target overriddenBy reason overriddenAt unsatisfied hok =>
    obtain ⟨hlist, rfl⟩ := recordDependencyOverride_ok hok
    rw [AList.lookup_insert_if] at hrec
    split_ifs at hrec with htgt
    · subst htgt
      cases hrec
      exact .inr ⟨rfl, hlist, fun dependency hopen => (mem_unsatisfied hlist).mpr hopen⟩
    · exact .inl hrec
  | removed target heq =>
    subst heq
    rw [removeCard, AList.lookup_erase_if] at hrec
    split_ifs at hrec
    exact .inl hrec

theorem run_concat (start : TaskBoard) (edits : List Edit) (edit : Edit) :
    run start (edits ++ [edit]) = step (run start edits) edit := foldl_concat ..

theorem run_append (start : TaskBoard) (before after : List Edit) :
    run start (before ++ after) = run (run start before) after := foldl_append

variable {start : TaskBoard}

theorem Justified.concat {edits : List Edit} (h : Justified start edits cardId record) (edit : Edit)
    (hopen : ∀ dependency, Unsatisfied (step (run start edits) edit) cardId dependency →
      Unsatisfied (run start edits) cardId dependency ∨ Reopens edit cardId dependency) :
    Justified start (edits ++ [edit]) cardId record := by
  obtain ⟨before, after, hsplit, hlist, hall⟩ := h
  refine ⟨before, after ++ [edit], ?_, hlist, fun dependency hnow => ?_⟩
  · rw [hsplit, append_assoc, cons_append]
  rw [run_concat] at hnow
  by_cases hold : Unsatisfied (run start edits) cardId dependency
  · refine (hall dependency hold).imp_right ?_
    rintro ⟨first, reopening, rest, hafter, hreopened⟩
    exact ⟨first, reopening, rest ++ [edit], by rw [hafter, append_assoc, cons_append],
      hreopened⟩
  · have hrun : run start edits = run (step (run start before)
        (.event (.overrideDependencies cardId record.overriddenBy record.reason
          record.overriddenAt))) after := by
      rw [hsplit, run_append]
      rfl
    rw [hrun] at hnow hold
    refine .inr ⟨after, edit, [], rfl, ?_, hold, hnow⟩
    exact (hopen dependency (hrun ▸ hnow)).resolve_left (hrun ▸ hold)

theorem run_justified (hstart : Linked (cardLinks start))
    (hnone : start.dependencyOverrides = ∅) (edits : List Edit) :
    Linked (cardLinks (run start edits)) ∧
      ∀ cardId record, (run start edits).dependencyOverrides.lookup cardId = some record →
        (getCard (run start edits) cardId).isSome ∧ Justified start edits cardId record := by
  induction edits using List.reverseRecOn with
  | nil =>
    refine ⟨hstart, fun cardId record hrec => ?_⟩
    rw [show run start [] = start from rfl, hnone, AList.lookup_empty] at hrec
    cases hrec
  | append_singleton edits edit ih =>
    obtain ⟨hlinked, hjustified⟩ := ih
    have heffect := effect_step (run start edits) edit
    have hnext := linked_step hlinked edit
    refine ⟨run_concat start edits edit ▸ hnext, fun cardId record hrec => ?_⟩
    rw [run_concat] at hrec ⊢
    have hkept : ((step (run start edits) edit).dependencyOverrides.lookup cardId).isSome :=
      hrec ▸ rfl
    rcases heffect.lookup hrec with hold | ⟨rfl, hlist, hopen⟩
    · obtain ⟨hcard, hwhy⟩ := hjustified cardId record hold
      exact ⟨heffect.isSome hcard hkept, hwhy.concat edit fun dependency =>
        heffect.unsatisfied hlinked hnext hcard hkept⟩
    · refine ⟨heffect.isSome (unsatisfiedDependencies_card hlist) hkept, edits, [], rfl, hlist, ?_⟩
      intro dependency hnow
      rw [run_concat] at hnow
      exact .inl (hopen dependency hnow)

theorem Admitted.gate (h : Admitted board cardId) : dependencyGate board cardId = .ok () := by
  rcases h with hgate | ⟨claimant, key, claimedAt, result, hclaim⟩ | ⟨now, next, hmove⟩
  · exact hgate
  · exact (claimCard_ok hclaim).1
  · rw [moveCard, ensureColumnMoveAllowed, if_pos rfl] at hmove
    split_ifs at hmove
    cases hgate : dependencyGate board cardId with
    | error violation => rw [hgate] at hmove; cases hmove
    | ok u => rfl

theorem admitted_justified (hstart : validateDependencies start = .ok ())
    (hnone : start.dependencyOverrides = ∅) (edits : List Edit)
    (hadm : Admitted (run start edits) cardId) :
    (∀ dependency, ¬ Unsatisfied (run start edits) cardId dependency) ∨
      ∃ record, (run start edits).dependencyOverrides.lookup cardId = some record ∧
        Justified start edits cardId record := by
  have hgate := hadm.gate
  rw [dependencyGate] at hgate
  cases hlist : unsatisfiedDependencies (run start edits) cardId with
  | error violation => rw [hlist] at hgate; cases hgate
  | ok unsatisfied =>
    simp only [hlist] at hgate
    split_ifs at hgate with hlifted
    rcases hlifted with rfl | hoverride
    · exact .inl fun dependency hopen => not_mem_nil ((mem_unsatisfied hlist).mpr hopen)
    · obtain ⟨record, hrec⟩ := Option.isSome_iff_exists.mp hoverride
      have hlinked := (accepted_of_validate hstart).toLinked
      exact .inr ⟨record, hrec, ((run_justified hlinked hnone edits).2 cardId record hrec).2⟩

theorem onlyListed_of_quiet (hstart : validateDependencies start = .ok ())
    (hnone : start.dependencyOverrides = ∅) (edits : List Edit)
    (hquiet : ∀ edit ∈ edits, ∀ dependency, ¬ Reopens edit cardId dependency)
    (hadm : Admitted (run start edits) cardId) : OnlyListed (run start edits) cardId := by
  intro dependency hopen
  rcases admitted_justified hstart hnone edits hadm with hfree | ⟨record, hrec, hwhy⟩
  · exact absurd hopen (hfree dependency)
  · obtain ⟨before, after, hsplit, -, hall⟩ := hwhy
    refine ⟨record, hrec, (hall dependency hopen).resolve_right ?_⟩
    rintro ⟨first, edit, rest, hafter, hreopens, -⟩
    refine hquiet edit ?_ dependency hreopens
    rw [hsplit, hafter]
    simp

/-- A card that may be started has no open dependency or an override, and what is open but not
recorded was reopened after the override. -/
theorem override_lifts_recorded_or_reopened {start : TaskBoard}
    (hstart : validateDependencies start = .ok ()) (hnone : start.dependencyOverrides = ∅)
    (edits : List Edit) {cardId : Text} (hadmitted : Admitted (run start edits) cardId) :
    ((∀ dependency, ¬ Unsatisfied (run start edits) cardId dependency) ∨
      ∃ record, (run start edits).dependencyOverrides.lookup cardId = some record ∧
        Justified start edits cardId record) ∧
    ((∀ edit ∈ edits, ∀ dependency, ¬ Reopens edit cardId dependency) →
      OnlyListed (run start edits) cardId) :=
  ⟨admitted_justified hstart hnone edits hadmitted,
    fun hquiet => onlyListed_of_quiet hstart hnone edits hquiet hadmitted⟩

def emptyBoard : TaskBoard := TaskBoard.empty none [] .ownerAllowed

def laterDependency : List Edit :=
  [.event (.board (.createCard ['a'] [] [] [])), .event (.board (.createCard ['b'] [] [['a']] [])),
    .event (.overrideDependencies ['b'] ['p'] ['r'] ['t']),
    .event (.board (.createCard ['c'] [] [] [])),
    .updateCard ['b'] none (some [['a'], ['c']]) none]

theorem later_dependency_lifted_or_reopened :
    (run emptyBoard laterDependency).dependencyOverrides.lookup ['b'] =
      some ⟨['p'], ['r'], ['t'], [['a']]⟩ ∧
    ∃ record, (run emptyBoard laterDependency).dependencyOverrides.lookup ['b'] = some record ∧
      Justified emptyBoard laterDependency ['b'] record := by
  have hgate : dependencyGate (run emptyBoard laterDependency) ['b'] = .ok () := by decide
  have hopen : unsatisfiedDependencies (run emptyBoard laterDependency) ['b'] =
      .ok [['a'], ['c']] := by decide
  refine ⟨by decide, ?_⟩
  have hlifts := @override_lifts_recorded_or_reopened emptyBoard (by decide) rfl
    laterDependency ['b'] (.inl hgate)
  exact hlifts.1.resolve_left fun hnone =>
    hnone ['a'] ((mem_unsatisfied hopen).mp mem_cons_self)

/-- The later dependency is not done and not listed, and the card may be started. -/
theorem later_dependency_not_listed :
    Admitted (run emptyBoard laterDependency) ['b'] ∧
      ¬ OnlyListed (run emptyBoard laterDependency) ['b'] := by
  have hgate : dependencyGate (run emptyBoard laterDependency) ['b'] = .ok () := by decide
  have hopen : unsatisfiedDependencies (run emptyBoard laterDependency) ['b'] =
      .ok [['a'], ['c']] := by decide
  have hlookup : (run emptyBoard laterDependency).dependencyOverrides.lookup ['b'] =
      some ⟨['p'], ['r'], ['t'], [['a']]⟩ := by decide
  refine ⟨.inl hgate, fun hlisted => ?_⟩
  have hthird : Unsatisfied (run emptyBoard laterDependency) ['b'] ['c'] :=
    (mem_unsatisfied hopen).mp (by decide)
  obtain ⟨record, hrecord, hin⟩ := hlisted ['c'] hthird
  rw [hlookup, Option.some_inj] at hrecord
  rw [← hrecord] at hin
  exact absurd hin (by decide)

end OverrideRuns
