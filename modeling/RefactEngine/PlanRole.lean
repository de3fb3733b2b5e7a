import RefactEngine.FoldedHistories
import RefactEngine.TextCodes

/-! # The current plan

What is rendered of a plan is taken from every plan update of the history, and from the first
checkpoint of the base; a fold takes the updates behind the base and its last checkpoint.
-/
namespace PlanRole

open JsonValues ProjectedRoles ProjectionBudgets RoleFolds FoldedHistories List

variable {F : Type}

section Renderings

variable (messages : List (ChatMessage F))

def planDeltaEvents : List (ChatMessage F) :=
  messages.filter fun message => isDeltaKind message "plan_delta"

def synthesizeCurrentPlan : Option String :=
  (currentBase .plan messages).map fun current =>
    let base := current.1.content.contentTextOnly
    let deltas := planDeltaEvents messages
    if deltas.isEmpty then base
    else
      base ++ "\n\n---\n\n## Plan updates\n\n" ++
        "\n\n".intercalate (deltas.map fun message => message.content.contentTextOnly)

def planCheckpoint (baseId : String) : Option CheckpointProvenance :=
  ((planDeltaEvents messages).filterMap checkpointProvenance).find? (·.approvedMessageId = baseId)

def planDeltaHistory : List (ℕ × String) :=
  let folded := prefoldCount
    ((currentBase .plan messages).bind fun current => planCheckpoint messages current.1.messageId)
  (((planDeltaEvents messages).filter fun message =>
    (checkpointProvenance message).isNone).zipIdx folded).map fun e =>
      (deltaRevision e.1 e.2, e.1.content.contentTextOnly)

def projectCurrentPlan (limits : ProjectionLimits) : Option RoleProjection :=
  (currentBase .plan messages).map fun current =>
    projectRoleWithPrefold .plan (approvedBase .plan current.1)
      (planCheckpoint messages current.1.messageId)
      ((planDeltaHistory messages).map fun note => ⟨note.1, note.2⟩) limits

end Renderings

def notesOf (messages : List (ChatMessage F)) : List String :=
  messages.map fun message => message.content.contentTextOnly

variable (messages : List (ChatMessage F))

theorem updates_eq :
    ((planDeltaEvents messages).filter fun message => (checkpointProvenance message).isNone) =
      updatesOf .plan messages := by
  rw [planDeltaEvents, updatesOf, filter_filter]
  refine filter_congr fun message _ => ?_
  rw [isUpdate]
  simp [ProjectedRole.deltaSubkind, Bool.and_comm]

theorem projectedDeltas_notes (k : ℕ) (updates : List (ChatMessage F)) :
    (projectedDeltas k updates).map ProjectedDelta.note = notesOf updates := by
  rw [projectedDeltas, map_map, notesOf]
  conv_rhs => rw [← zipIdx_map_fst k updates, map_map]
  rfl

theorem history_notes :
    (planDeltaHistory messages).map Prod.snd = notesOf (updatesOf .plan messages) := by
  rw [planDeltaHistory, updates_eq, map_map, ← projectedDeltas_notes (prefoldCount
    ((currentBase .plan messages).bind fun current => planCheckpoint messages current.1.messageId)),
    projectedDeltas, map_map]
  rfl

theorem projectCurrentPlan_eq {messages : List (ChatMessage F)} {b : ChatMessage F} {i : ℕ}
    (hbase : currentBase .plan messages = some (b, i)) (limits : ProjectionLimits) :
    projectCurrentPlan messages limits = some (projectRoleWithPrefold .plan (approvedBase .plan b)
      (planCheckpoint messages b.messageId)
      (projectedDeltas (prefoldCount (planCheckpoint messages b.messageId))
        (updatesOf .plan messages)) limits) := by
  have hdeltas : (planDeltaHistory messages).map (fun note => ProjectedDelta.mk note.1 note.2) =
      projectedDeltas (prefoldCount (planCheckpoint messages b.messageId))
        (updatesOf .plan messages) := by
    rw [planDeltaHistory, updates_eq, map_map, hbase]
    rfl
  rw [projectCurrentPlan, hbase, Option.map_some, hdeltas]

theorem planCheckpoint_append (first second : List (ChatMessage F)) (baseId : String) :
    planCheckpoint (first ++ second) baseId =
      (planCheckpoint first baseId).or (planCheckpoint second baseId) := by
  rw [planCheckpoint, planDeltaEvents, filter_append, filterMap_append,
    List.find?_append]
  rfl

theorem planCheckpoint_none {base : ApprovedBase} {messages : List (ChatMessage F)}
    (h : ∀ y ∈ messages, isBaseCheckpoint .plan base y = false) :
    planCheckpoint messages base.messageId = none := by
  rw [planCheckpoint, List.find?_eq_none]
  intro provenance hmem
  obtain ⟨y, hy, hprov⟩ := mem_filterMap.mp hmem
  obtain ⟨hy, hkind⟩ := mem_filter.mp hy
  have hnot := h y hy
  have hkind' : isDeltaKind y ProjectedRole.plan.deltaSubkind = true := hkind
  rw [isBaseCheckpoint, isRoleCheckpoint, hkind', hprov] at hnot
  simpa using hnot

theorem planCheckpoint_singleton {base : ApprovedBase} {y : ChatMessage F}
    (h : isBaseCheckpoint .plan base y = true) :
    planCheckpoint [y] base.messageId = checkpointProvenance y := by
  rw [isBaseCheckpoint, isRoleCheckpoint, Bool.and_eq_true, Bool.and_eq_true] at h
  obtain ⟨⟨hkind, -⟩, hid⟩ := h
  have hkind' : isDeltaKind y "plan_delta" = true := hkind
  cases hprov : checkpointProvenance y with
  | none => simp [hprov] at hid
  | some provenance =>
    rw [hprov, Option.any_some] at hid
    simp [planCheckpoint, planDeltaEvents, hkind', hprov, hid]

section Fits

variable {role : ProjectedRole} {base : ApprovedBase} {prefold : Option CheckpointProvenance}
  {deltas : List ProjectedDelta} {limits : ProjectionLimits}

def Fits (role : ProjectedRole) (base : ApprovedBase) (prefold : Option CheckpointProvenance)
    (deltas : List ProjectedDelta) (limits : ProjectionLimits) : Prop :=
  deltas = [] ∨ rendersFull role base prefold deltas limits = true ∨
    deltas.length ≤ limits.checkpointAfterDeltas ∧ ∀ j, 1 ≤ j → j ≤ deltas.length →
      totalLength role base prefold deltas j ≤ limits.maxChars

theorem keptCount_eq_length
    (h : deltas.length ≤ limits.checkpointAfterDeltas ∧ ∀ j, 1 ≤ j → j ≤ deltas.length →
      totalLength role base prefold deltas j ≤ limits.maxChars) :
    keptCount role base prefold deltas limits = deltas.length := by
  have hrun := keptCount_isLongestRun role base prefold deltas limits
  rw [Nat.min_eq_right h.1] at hrun
  exact hrun.unique ⟨le_refl _, h.2, .inl rfl⟩

theorem fits_of_keptCount
    (h : keptCount role base prefold deltas limits = deltas.length) :
    deltas.length ≤ limits.checkpointAfterDeltas ∧ ∀ j, 1 ≤ j → j ≤ deltas.length →
      totalLength role base prefold deltas j ≤ limits.maxChars := by
  have hrun := keptCount_isLongestRun role base prefold deltas limits
  have hle := hrun.le
  rw [h] at hrun hle
  exact ⟨by omega, hrun.all⟩

theorem folds_of_not_fits (h : ¬ Fits role base prefold deltas limits) :
    projectRoleWithPrefold role base prefold deltas limits =
        checkpointedProjection role base prefold deltas limits ∧
      keptCount role base prefold deltas limits < deltas.length := by
  rw [Fits, not_or, not_or] at h
  obtain ⟨hne, hfull, hall⟩ := h
  have hpos := length_pos_of_ne_nil hne
  have hle := (keptCount_isLongestRun role base prefold deltas limits).le
  refine ⟨?_, ?_⟩
  · unfold projectRoleWithPrefold
    rw [if_neg (by omega), if_neg hfull]
  · by_contra hlt
    exact hall (fits_of_keptCount (by omega))

theorem no_folds_of_fits (h : Fits role base prefold deltas limits)
    {provenance : CheckpointProvenance}
    (hcheck :
      (projectRoleWithPrefold role base prefold deltas limits).checkpoint = some provenance) :
    provenance.foldedDeltas - prefoldCount prefold = 0 := by
  by_contra hnew
  have hlt := kept_lt_length hcheck (by omega)
  obtain ⟨-, hfull, -⟩ := projection_eq_checkpointed hcheck
  rcases h with h | h | h
  · rw [h] at hlt
    exact absurd hlt (by simp)
  · rw [hfull] at h
    exact absurd h (by simp)
  · have := keptCount_eq_length h
    omega

theorem header_shows_folded {revision folded total revision' folded' total' : ℕ}
    {rest rest' : String}
    (h : base.body ++ baseSeparator ++ checkpointHeader role base revision folded total ++ rest =
      base.body ++ baseSeparator ++ checkpointHeader role base revision' folded' total' ++
        rest') : folded = folded' := by
  have hof : " of ".toList = ' ' :: "of ".toList := by decide
  have hclose : ")\n\n[checkpoint: ".toList = ')' :: "\n\n[checkpoint: ".toList := by
    decide
  have hearly : " earlier ".toList = ' ' :: "earlier ".toList := by decide
  have hlist := congrArg String.toList h
  unfold checkpointHeader at hlist
  simp only [String.toList_append, Nat.toList_repr, append_assoc, hof,
    hclose, hearly, cons_append] at hlist
  have hrev := append_cancel_left (append_cancel_left
    (append_cancel_left (append_cancel_left hlist)))
  rw [append_cons, append_cons (Nat.toDigits 10 revision')] at hrev
  have htotal := append_cancel_left
    (@delimits_decimal ' ' (by decide) revision revision' _ _ trivial trivial hrev).2
  rw [append_cons, append_cons (Nat.toDigits 10 total')] at htotal
  have hfolded := append_cancel_left
    (@delimits_decimal ')' (by decide) total total' _ _ trivial trivial htotal).2
  rw [append_cons, append_cons (Nat.toDigits 10 folded')] at hfolded
  exact (@delimits_decimal ' ' (by decide) folded folded' _ _ trivial trivial hfolded).1

theorem checkpointedProjection_text (role : ProjectedRole) (base : ApprovedBase)
    (prefold : Option CheckpointProvenance) (deltas : List ProjectedDelta)
    (limits : ProjectionLimits) : ∃ rest,
    (checkpointedProjection role base prefold deltas limits).text = base.body ++ baseSeparator ++
      checkpointHeader role base
        (revisionForFold prefold deltas
          (deltas.length - keptCount role base prefold deltas limits))
        (prefoldCount prefold + (deltas.length - keptCount role base prefold deltas limits))
        (prefoldCount prefold + deltas.length) ++ rest := by
  rw [checkpointedProjection]
  by_cases hkept : 0 < keptCount role base prefold deltas limits
  · refine ⟨noteSeparator ++ joinNotes (deltas.drop
      (deltas.length - keptCount role base prefold deltas limits)), ?_⟩
    simp only [if_pos hkept, String.append_assoc]
  · refine ⟨"", ?_⟩
    simp only [if_neg hkept, String.append_empty]

/-- Two checkpoints with the same count project alike, unless the updates fit beside one. -/
theorem checkpointedProjection_congr {prefold' : Option CheckpointProvenance}
    (hcount : prefoldCount prefold = prefoldCount prefold')
    (hkept : keptCount role base prefold deltas limits < deltas.length)
    (hkept' : keptCount role base prefold' deltas limits < deltas.length) :
    checkpointedProjection role base prefold deltas limits =
      checkpointedProjection role base prefold' deltas limits := by
  have hrev : ∀ m, 0 < m →
      revisionForFold prefold deltas m = revisionForFold prefold' deltas m := by
    intro m hm
    rw [revisionForFold, revisionForFold, if_neg (by omega), if_neg (by omega)]
  have htotal : ∀ j, j < deltas.length → totalLength role base prefold deltas j =
      totalLength role base prefold' deltas j := by
    intro j hj
    rw [totalLength, totalLength, hcount, hrev _ (by omega)]
  have hrun := keptCount_isLongestRun role base prefold deltas limits
  have hrun' := keptCount_isLongestRun role base prefold' deltas limits
  have hsame : keptCount role base prefold deltas limits =
      keptCount role base prefold' deltas limits := by
    have hbound : min (min limits.checkpointAfterDeltas deltas.length) (deltas.length - 1) ≤
        min limits.checkpointAfterDeltas deltas.length := by omega
    have hle := hrun.le
    have hle' := hrun'.le
    have hshort := hrun.of_agree (by omega) hbound fun j _ hj => by rw [htotal j (by omega)]
    have hshort' := hrun'.of_agree (by omega) hbound fun j _ _ => Iff.rfl
    exact hshort.unique hshort'
  rw [checkpointedProjection, checkpointedProjection, hsame, hcount, hrev _ (by omega)]

end Fits

def foldedUpdates (messages : List (ChatMessage F)) (b : ChatMessage F) (i : ℕ) :
    List (ChatMessage F) :=
  (deltaEntries .plan messages i
    (checkpointEntries .plan messages (approvedBase .plan b) i).getLast?).map Prod.fst

def withUpdates (base : String) (notes : List String) : String :=
  if notes = [] then base
  else base ++ "\n\n---\n\n## Plan updates\n\n" ++ "\n\n".intercalate notes

/-- What is rendered is the base with the plan_delta events behind it, and of these the updates, not
the notices of checkpoints, are the ones that the history, a projection and a fold take. -/
structure NotesBelong (messages : List (ChatMessage F)) (limits : ProjectionLimits)
    (b : ChatMessage F) (i : ℕ) : Prop where
  synthesized : synthesizeCurrentPlan messages = some (withUpdates b.content.contentTextOnly
    (notesOf ((messages.drop (i + 1)).filter fun message => isDeltaKind message "plan_delta")))
  history : (planDeltaHistory messages).map Prod.snd =
    notesOf (updatesOf .plan (messages.drop (i + 1)))
  projected : ∃ deltas : List ProjectedDelta,
    deltas.map ProjectedDelta.note = notesOf (updatesOf .plan (messages.drop (i + 1))) ∧
      projectCurrentPlan messages limits = some (projectRoleWithPrefold .plan (approvedBase .plan b)
        (planCheckpoint messages b.messageId) deltas limits)
  folded : notesOf (foldedUpdates messages b i) =
    notesOf (updatesOf .plan (messages.drop (i + 1)))

structure SameProjection (before after : Option RoleProjection) : Prop where
  text : after.map RoleProjection.text = before.map RoleProjection.text
  count : after.map RoleProjection.deltaCount = before.map RoleProjection.deltaCount
  revision : (after.bind RoleProjection.checkpoint).map CheckpointProvenance.revision =
    (before.bind RoleProjection.checkpoint).map CheckpointProvenance.revision

def PlanBelongs (messages : List (ChatMessage F)) (limits : ProjectionLimits) : Prop :=
  ∀ b i, currentBase .plan messages = some (b, i) →
    NotesBelong messages limits b i ∧
      SameProjection (projectCurrentPlan messages limits)
        (projectCurrentPlan (foldRoleMessages .plan messages limits) limits)

/-- No update and no checkpoint stands before the base, and no update before its last checkpoint. -/
def UpdatesFollow (messages : List (ChatMessage F)) (b : ChatMessage F) (i : ℕ) : Prop :=
  planDeltaEvents (messages.take (i + 1)) = [] ∧
    updatesOf .plan (settledPart .plan (approvedBase .plan b) (messages.drop (i + 1))) = []

def lastCheckpoint (messages : List (ChatMessage F)) (b : ChatMessage F) (i : ℕ) :
    Option CheckpointProvenance :=
  prefoldOf (settledPart .plan (approvedBase .plan b) (messages.drop (i + 1)))

def fitsBeside (messages : List (ChatMessage F)) (b : ChatMessage F)
    (checkpoint : Option CheckpointProvenance) (limits : ProjectionLimits) : Prop :=
  Fits .plan (approvedBase .plan b) checkpoint
    (projectedDeltas (prefoldCount checkpoint) (updatesOf .plan messages)) limits

/-- Either nothing has to be folded, or the first checkpoint stands for what the last one does. -/
def CheckpointsAgree (messages : List (ChatMessage F)) (b : ChatMessage F) (i : ℕ)
    (limits : ProjectionLimits) : Prop :=
  fitsBeside messages b (lastCheckpoint messages b i) limits ∨
    prefoldCount (planCheckpoint messages b.messageId) =
        prefoldCount (lastCheckpoint messages b i) ∧
      ¬ fitsBeside messages b (planCheckpoint messages b.messageId) limits

section Base

variable {before behind settled recent : List (ChatMessage F)} {b : ChatMessage F}

theorem take_base : (before ++ b :: behind).take (before.length + 1) = before ++ [b] := by
  rw [take_append, take_of_length_le (by omega), Nat.add_sub_cancel_left]
  rfl

theorem drop_base : (before ++ b :: behind).drop (before.length + 1) = behind := by
  rw [drop_append, drop_of_length_le (by omega), Nat.add_sub_cancel_left]
  rfl

theorem updatesOf_base : updatesOf .plan (before ++ b :: behind) =
    updatesOf .plan (before ++ [b]) ++ updatesOf .plan behind := by
  rw [← updatesOf_append, append_assoc, singleton_append]

theorem updates_front (hfront : planDeltaEvents (before ++ [b]) = []) :
    updatesOf .plan (before ++ [b]) = [] := by
  rw [← updates_eq, hfront, filter_nil]

theorem checkpoint_front (hfront : planDeltaEvents (before ++ [b]) = []) (baseId : String) :
    planCheckpoint (before ++ [b]) baseId = none := by
  rw [planCheckpoint, hfront]
  rfl

variable (parts : Parts .plan (approvedBase .plan b) behind settled recent)

include parts

theorem foldedUpdates_eq :
    foldedUpdates (before ++ b :: behind) b before.length = updatesOf .plan recent := by
  rw [foldedUpdates, checkpointEntries_eq parts,
    getLast?_checkpoints (before.length + 1) parts.settled, deltaEntries_eq parts,
    map_fst_filter_zipIdx]
  rfl

omit parts in
theorem eq_nil_of_notes {first second : List (ChatMessage F)}
    (h : notesOf (first ++ second) = notesOf second) : first = [] := by
  have hlen := congrArg List.length h
  rw [notesOf, notesOf, length_map, length_map, length_append] at hlen
  exact length_eq_zero_iff.mp (by omega)

omit parts in
/-- More notes make a longer text. -/
theorem eq_nil_of_withUpdates {base : String} {first second : List String}
    (h : withUpdates base (first ++ second) = withUpdates base second) : first = [] := by
  by_contra hfirst
  have hlen := congrArg String.length h
  have hheading : "\n\n---\n\n## Plan updates\n\n".length = 24 := by decide
  have hseparator : "\n\n".length = 2 := by decide
  rw [withUpdates, withUpdates, if_neg (by simp [hfirst])] at hlen
  by_cases hsecond : second = []
  · rw [if_pos hsecond, String.length_append, String.length_append, hheading] at hlen
    omega
  · rw [if_neg hsecond, String.intercalate_append_of_ne_nil hfirst hsecond] at hlen
    simp only [String.length_append, hheading, hseparator] at hlen
    omega

omit parts in
theorem synthesized_base {version : ℕ} (hbase : IsBase .plan before b behind version) :
    synthesizeCurrentPlan (before ++ b :: behind) = some (withUpdates b.content.contentTextOnly
      (notesOf (planDeltaEvents (before ++ [b])) ++ notesOf (planDeltaEvents behind))) := by
  have hevents : planDeltaEvents (before ++ b :: behind) =
      planDeltaEvents (before ++ [b]) ++ planDeltaEvents behind := by
    rw [planDeltaEvents, planDeltaEvents, planDeltaEvents, ← filter_append, append_assoc,
      singleton_append]
  have hnotes : notesOf (planDeltaEvents (before ++ [b])) ++ notesOf (planDeltaEvents behind) =
      notesOf (planDeltaEvents (before ++ b :: behind)) := by
    rw [hevents, notesOf, notesOf, notesOf, map_append]
  rw [synthesizeCurrentPlan, currentBase_of_isBase hbase, Option.map_some, hnotes, withUpdates,
    notesOf]
  simp only [map_eq_nil_iff, List.isEmpty_iff]

theorem notesBelong_iff {version : ℕ} (hbase : IsBase .plan before b behind version)
    (limits : ProjectionLimits) : NotesBelong (before ++ b :: behind) limits b before.length ↔
      UpdatesFollow (before ++ b :: behind) b before.length := by
  have hset := (parts_split parts.settled _ parts.recent).1
  have hbehind : updatesOf .plan behind = updatesOf .plan settled ++ updatesOf .plan recent := by
    rw [parts.parts, updatesOf_append]
  rw [← parts.parts] at hset
  rw [UpdatesFollow, take_base, drop_base, hset]
  constructor
  · intro h
    have hfirst := h.synthesized
    have hfolded := h.folded
    rw [synthesized_base hbase, Option.some.injEq, drop_base] at hfirst
    rw [foldedUpdates_eq parts, drop_base, hbehind] at hfolded
    exact ⟨map_eq_nil_iff.mp (eq_nil_of_withUpdates hfirst), eq_nil_of_notes hfolded.symm⟩
  · rintro ⟨hfront, hearly⟩
    have hupdates : updatesOf .plan (before ++ b :: behind) = updatesOf .plan behind := by
      rw [updatesOf_base, updates_front hfront, nil_append]
    refine ⟨?_, ?_, ⟨_, ?_, projectCurrentPlan_eq (currentBase_of_isBase hbase) limits⟩, ?_⟩
    · rw [synthesized_base hbase, hfront, drop_base]
      rfl
    · rw [history_notes, drop_base, hupdates]
    · rw [drop_base, hupdates, projectedDeltas_notes]
    · rw [foldedUpdates_eq parts, drop_base, hbehind, hearly, nil_append]

end Base

theorem SameProjection.refl (projection : Option RoleProjection) :
    SameProjection projection projection := ⟨rfl, rfl, rfl⟩

section AfterFold

variable {before settled w z : List (ChatMessage F)} {b x : ChatMessage F}
  {provenance : CheckpointProvenance} {limits : ProjectionLimits}

theorem not_checkpoint_settledOf (h : Folding .plan limits before b settled w x z provenance) :
    ∀ y ∈ settledOf .plan b settled w, isBaseCheckpoint .plan (approvedBase .plan b) y = false := by
  intro y hy
  rcases mem_append.mp hy with hy | hy
  · simpa using (mem_filter.mp hy).2
  · exact h.parts.recent y (mem_append_left _ (mem_of_mem_filter hy))

/-- After a fold its checkpoint is the first one, unless one stands before the base. -/
theorem planCheckpoint_after (h : Folding .plan limits before b settled w x z provenance) :
    planCheckpoint (before ++ b :: (settledOf .plan b settled w ++
        checkpointOf .plan b settled w x provenance :: z)) b.messageId =
      (planCheckpoint (before ++ [b]) b.messageId).or (some provenance) := by
  have hlist : before ++ b :: (settledOf .plan b settled w ++
      checkpointOf .plan b settled w x provenance :: z) =
        (before ++ [b]) ++ (settledOf .plan b settled w ++
          ([checkpointOf .plan b settled w x provenance] ++ z)) := by simp
  have hset := planCheckpoint_none (not_checkpoint_settledOf h)
  have hmade := planCheckpoint_singleton h.made_checkpoint
  rw [h.provenance_made] at hmade
  have hid : (approvedBase .plan b).messageId = b.messageId := rfl
  rw [hid] at hset hmade
  rw [hlist, planCheckpoint_append (before ++ [b]), planCheckpoint_append (settledOf .plan b settled w),
    planCheckpoint_append [_], hset, hmade]
  rfl

theorem updates_after (h : Folding .plan limits before b settled w x z provenance)
    (hfront : planDeltaEvents (before ++ [b]) = []) (hearly : updatesOf .plan settled = []) :
    updatesOf .plan (before ++ b :: (settledOf .plan b settled w ++
      checkpointOf .plan b settled w x provenance :: z)) = updatesOf .plan z := by
  have hnot : isUpdate .plan (checkpointOf .plan b settled w x provenance) = false :=
    not_update_made h.version_lt
  have hcons : updatesOf .plan (checkpointOf .plan b settled w x provenance :: z) =
      updatesOf .plan z := filter_cons_of_neg (by simp [hnot])
  rw [updatesOf_base, updates_front hfront, updatesOf_append, settledOf_updates, hearly, hcons]
  rfl

theorem projection_after (h : Folding .plan limits before b settled w x z provenance)
    (hfront : planDeltaEvents (before ++ [b]) = []) (hearly : updatesOf .plan settled = []) :
    projectCurrentPlan (before ++ b :: (settledOf .plan b settled w ++
        checkpointOf .plan b settled w x provenance :: z)) limits =
      some (projectionOf .plan (approvedBase .plan b) limits settled (w ++ x :: z)) := by
  obtain ⟨version, hafter⟩ := h.base_after
  have hresume := h.projection_eq []
  rw [append_nil] at hresume
  rw [projectCurrentPlan_eq (currentBase_of_isBase hafter), planCheckpoint_after h,
    checkpoint_front hfront, updates_after h hfront hearly, ← hresume, projectionOf, deltasOf, h.prefold_made]
  rfl

end AfterFold

theorem projection_deltaCount (role : ProjectedRole) (base : ApprovedBase)
    (prefold : Option CheckpointProvenance) (deltas : List ProjectedDelta)
    (limits : ProjectionLimits) :
    (projectRoleWithPrefold role base prefold deltas limits).deltaCount =
      prefoldCount prefold + deltas.length := by
  unfold projectRoleWithPrefold
  dsimp only
  split_ifs <;> rfl

theorem exists_folding {before settled recent : List (ChatMessage F)} {b : ChatMessage F}
    {version : ℕ} {limits : ProjectionLimits}
    (hbase : IsBase .plan before b (settled ++ recent) version)
    (parts : Parts .plan (approvedBase .plan b) (settled ++ recent) settled recent)
    (hfits : ¬ Fits .plan (approvedBase .plan b) (prefoldOf settled)
      (deltasOf .plan settled recent) limits) :
    ∃ w x z provenance, recent = w ++ x :: z ∧
      Folding .plan limits before b settled w x z provenance := by
  obtain ⟨heq, hlt⟩ := folds_of_not_fits hfits
  have hcheck : (projectionOf .plan (approvedBase .plan b) limits settled recent).checkpoint =
      some (provenanceOf (approvedBase .plan b) (prefoldOf settled) (deltasOf .plan settled recent)
        (keptCount .plan (approvedBase .plan b) (prefoldOf settled)
          (deltasOf .plan settled recent) limits)) := by
    rw [projectionOf, heq, checkpointedProjection_checkpoint]
  have hnew : 0 < (provenanceOf (approvedBase .plan b) (prefoldOf settled)
      (deltasOf .plan settled recent) (keptCount .plan (approvedBase .plan b) (prefoldOf settled)
        (deltasOf .plan settled recent) limits)).foldedDeltas -
          prefoldCount (prefoldOf settled) := by
    rw [provenanceOf_folded]
    omega
  have hlen := (folds_of_checkpoint hcheck hnew).le
  rw [deltasOf, projectedDeltas_length] at hlen
  obtain ⟨w, x, z, rfl, hx, hcount⟩ := exists_split hnew recent hlen
  exact ⟨w, x, z, _, rfl, ⟨version, hbase⟩, parts, hcheck, hx, hcount⟩

theorem updates_before {before settled recent : List (ChatMessage F)} {b : ChatMessage F}
    (hfront : planDeltaEvents (before ++ [b]) = []) (hearly : updatesOf .plan settled = []) :
    updatesOf .plan (before ++ b :: (settled ++ recent)) = updatesOf .plan recent := by
  rw [updatesOf_base, updates_front hfront, updatesOf_append, hearly]
  rfl

section Agreement

variable {before settled w z : List (ChatMessage F)} {b x : ChatMessage F}
  {provenance : CheckpointProvenance} {limits : ProjectionLimits}
  (h : Folding .plan limits before b settled w x z provenance)
  (hfront : planDeltaEvents (before ++ [b]) = []) (hearly : updatesOf .plan settled = [])
include h hfront hearly

theorem count_of_same
    (hsame : SameProjection
      (projectCurrentPlan (before ++ b :: (settled ++ (w ++ x :: z))) limits)
      (projectCurrentPlan (before ++ b :: (settledOf .plan b settled w ++
        checkpointOf .plan b settled w x provenance :: z)) limits)) :
    prefoldCount (planCheckpoint (before ++ b :: (settled ++ (w ++ x :: z))) b.messageId) =
      prefoldCount (prefoldOf settled) := by
  obtain ⟨version, hbase⟩ := h.base
  obtain ⟨version', hafter⟩ := h.base_after
  have hcount := hsame.count
  have hlen : (updatesOf .plan (w ++ x :: z)).length =
      (updatesOf .plan w).length + 1 + (updatesOf .plan z).length := by
    rw [updatesOf_split h.update, length_append, length_append, length_singleton]
  have hfolded := h.count
  rw [projectCurrentPlan_eq (currentBase_of_isBase hbase),
    projectCurrentPlan_eq (currentBase_of_isBase hafter), Option.map_some, Option.map_some,
    projection_deltaCount, projection_deltaCount, projectedDeltas_length, projectedDeltas_length,
    updates_after h hfront hearly, updates_before hfront hearly, planCheckpoint_after h,
    checkpoint_front hfront, Option.none_or, Option.some.injEq, hlen] at hcount
  rw [prefoldCount, Option.elim_some] at hcount
  omega

theorem not_fits_of_same
    (hsame : SameProjection
      (projectCurrentPlan (before ++ b :: (settled ++ (w ++ x :: z))) limits)
      (projectCurrentPlan (before ++ b :: (settledOf .plan b settled w ++
        checkpointOf .plan b settled w x provenance :: z)) limits)) :
    ¬ fitsBeside (before ++ b :: (settled ++ (w ++ x :: z))) b
      (planCheckpoint (before ++ b :: (settled ++ (w ++ x :: z))) b.messageId) limits := by
  have hcount := count_of_same h hfront hearly hsame
  obtain ⟨version, hbase⟩ := h.base
  have hnew : 0 < provenance.foldedDeltas - prefoldCount (prefoldOf settled) := by
    rw [h.count]
    omega
  have hlt := kept_lt_length h.checkpoint hnew
  obtain ⟨hchecked, -, hprov⟩ := projection_eq_checkpointed h.checkpoint
  obtain ⟨htext, -, hrev⟩ := hsame
  rw [projection_after h hfront hearly, projectCurrentPlan_eq (currentBase_of_isBase hbase)]
    at htext hrev
  rw [Option.bind_some, h.checkpoint, Option.bind_some, Option.map_some] at hrev
  rw [Option.map_some, Option.map_some, Option.some.injEq] at htext
  rw [fitsBeside]
  rw [hcount, updates_before hfront hearly] at htext hrev ⊢
  have hdeltas : projectedDeltas (prefoldCount (prefoldOf settled))
      (updatesOf .plan (w ++ x :: z)) = deltasOf .plan settled (w ++ x :: z) := rfl
  rw [hdeltas] at htext hrev ⊢
  intro hfits
  rcases hcp : (projectRoleWithPrefold .plan (approvedBase .plan b)
      (planCheckpoint (before ++ b :: (settled ++ (w ++ x :: z))) b.messageId)
      (deltasOf .plan settled (w ++ x :: z)) limits).checkpoint with _ | first
  · rw [hcp] at hrev
    exact absurd hrev (by simp)
  · obtain ⟨heq, hfull, -⟩ := projection_eq_checkpointed hcp
    rcases hfits with hfits | hfits | hfits
    · rw [hfits] at hlt
      exact absurd hlt (by simp)
    · rw [hfull] at hfits
      exact absurd hfits (by simp)
    · have hkept := keptCount_eq_length hfits
      obtain ⟨rest, hrest⟩ := checkpointedProjection_text .plan (approvedBase .plan b)
        (prefoldOf settled) (deltasOf .plan settled (w ++ x :: z)) limits
      obtain ⟨rest', hrest'⟩ := checkpointedProjection_text .plan (approvedBase .plan b)
        (planCheckpoint (before ++ b :: (settled ++ (w ++ x :: z))) b.messageId)
        (deltasOf .plan settled (w ++ x :: z)) limits
      rw [heq, projectionOf, hchecked, hrest, hrest'] at htext
      have hfolded := header_shows_folded htext
      rw [hkept, hcount] at hfolded
      omega

theorem same_of_agree
    (hcount : prefoldCount (planCheckpoint (before ++ b :: (settled ++ (w ++ x :: z)))
      b.messageId) = prefoldCount (prefoldOf settled))
    (hfits : ¬ fitsBeside (before ++ b :: (settled ++ (w ++ x :: z))) b
      (planCheckpoint (before ++ b :: (settled ++ (w ++ x :: z))) b.messageId) limits) :
    projectCurrentPlan (before ++ b :: (settled ++ (w ++ x :: z))) limits =
      projectCurrentPlan (before ++ b :: (settledOf .plan b settled w ++
        checkpointOf .plan b settled w x provenance :: z)) limits := by
  obtain ⟨version, hbase⟩ := h.base
  have hnew : 0 < provenance.foldedDeltas - prefoldCount (prefoldOf settled) := by
    rw [h.count]
    omega
  have hlt := kept_lt_length h.checkpoint hnew
  obtain ⟨hchecked, -, -⟩ := projection_eq_checkpointed h.checkpoint
  have hdeltas : projectedDeltas (prefoldCount (prefoldOf settled))
      (updatesOf .plan (w ++ x :: z)) = deltasOf .plan settled (w ++ x :: z) := rfl
  rw [fitsBeside, hcount, updates_before hfront hearly, hdeltas] at hfits
  obtain ⟨hfirst, hlt'⟩ := folds_of_not_fits hfits
  rw [projection_after h hfront hearly, projectCurrentPlan_eq (currentBase_of_isBase hbase),
    hcount, updates_before hfront hearly, hdeltas, hfirst, projectionOf, hchecked,
    checkpointedProjection_congr hcount hlt' hlt]

end Agreement

theorem sameProjection_iff {before settled recent : List (ChatMessage F)} {b : ChatMessage F}
    {version : ℕ} (limits : ProjectionLimits)
    (hbase : IsBase .plan before b (settled ++ recent) version)
    (parts : Parts .plan (approvedBase .plan b) (settled ++ recent) settled recent)
    (hfollow : UpdatesFollow (before ++ b :: (settled ++ recent)) b before.length) :
    SameProjection (projectCurrentPlan (before ++ b :: (settled ++ recent)) limits)
        (projectCurrentPlan
          (foldRoleMessages .plan (before ++ b :: (settled ++ recent)) limits) limits) ↔
      CheckpointsAgree (before ++ b :: (settled ++ recent)) b before.length limits := by
  have hset := (parts_split parts.settled _ parts.recent).1
  rw [UpdatesFollow, take_base, drop_base, hset] at hfollow
  obtain ⟨hfront, hearly⟩ := hfollow
  have hlast : lastCheckpoint (before ++ b :: (settled ++ recent)) b before.length =
      prefoldOf settled := by
    rw [lastCheckpoint, drop_base, hset]
  have hbeside : fitsBeside (before ++ b :: (settled ++ recent)) b (prefoldOf settled) limits ↔
      Fits .plan (approvedBase .plan b) (prefoldOf settled) (deltasOf .plan settled recent)
        limits := by
    rw [fitsBeside, updates_before hfront hearly, deltasOf]
  rw [CheckpointsAgree, hlast, hbeside]
  by_cases hfits : Fits .plan (approvedBase .plan b) (prefoldOf settled)
      (deltasOf .plan settled recent) limits
  · have hsame : foldRoleMessages .plan (before ++ b :: (settled ++ recent)) limits =
        before ++ b :: (settled ++ recent) :=
      fold_unchanged hbase parts fun _ hcheck => no_folds_of_fits hfits hcheck
    rw [hsame]
    exact ⟨fun _ => .inl hfits, fun _ => SameProjection.refl _⟩
  · obtain ⟨w, x, z, provenance, rfl, h⟩ := exists_folding hbase parts hfits
    rw [h.fold_eq]
    constructor
    · intro hsame
      exact .inr ⟨count_of_same h hfront hearly hsame, not_fits_of_same h hfront hearly hsame⟩
    · rintro (hfits' | ⟨hcount, hfits'⟩)
      · exact absurd hfits' hfits
      · rw [same_of_agree h hfront hearly hcount hfits']
        exact SameProjection.refl _

/-- The rendered plan is that of the current base, before and after a fold, exactly if no update or
checkpoint stands before the base, no update before its last checkpoint, and the checkpoints
agree. -/
theorem plan_belongs_iff (messages : List (ChatMessage F)) (limits : ProjectionLimits) :
    PlanBelongs messages limits ↔ ∀ b i, currentBase .plan messages = some (b, i) →
      UpdatesFollow messages b i ∧ CheckpointsAgree messages b i limits := by
  rw [PlanBelongs]
  refine forall₂_congr fun b i => forall_congr' fun hcurrent => ?_
  obtain ⟨before, behind, version, rfl, rfl, hbase⟩ := (currentBase_spec messages).2 b i hcurrent
  obtain ⟨settled, recent, parts⟩ := exists_parts .plan (approvedBase .plan b) behind
  have hbehind := parts.parts
  subst hbehind
  rw [notesBelong_iff parts hbase limits]
  exact and_congr_right fun hfollow => sameProjection_iff limits hbase parts hfollow

def replannedHistory : List (ChatMessage Empty) :=
  [planMessage "p" 1, planUpdate "1", planMessage "q" 2]

theorem old_update_rendered : ¬ PlanBelongs replannedHistory ⟨24, 32768⟩ := by
  intro h
  have hcurrent : currentBase .plan replannedHistory = some (planMessage "q" 2, 2) := rfl
  have hhistory := (h _ _ hcurrent).1.history
  exact absurd hhistory (by decide)

end PlanRole
