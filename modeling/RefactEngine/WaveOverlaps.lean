import RefactEngine.WaveSafety

/-! # Overlaps only reorder a schedule

Ordering by overlaps submits as many cards, and the groups that are submitted together keep cards
apart that share a declared file or share an observed one.
-/
namespace WaveOverlaps

open TaskBoards BoardValidation OverlapOrder Waves WaveLevels WaveDispatch WaveSafety List

variable (inputs : OverlapInputs)

def Declares (cardId : Text) (key : String) : Prop :=
  ∃ files, inputs.declared.lookup cardId = some files ∧ key ∈ files

def Observes (cardId : Text) (key : String) : Prop :=
  ∃ files, inputs.observed.lookup cardId = some files ∧ key ∈ files

def TouchSame (left right : Text) : Prop :=
  ∃ key, (Declares inputs left key ∨ Observes inputs left key) ∧
    (Declares inputs right key ∨ Observes inputs right key)

def SharesSource (left right : Text) : Prop :=
  (∃ key, Declares inputs left key ∧ Declares inputs right key) ∨
    ∃ key, Observes inputs left key ∧ Observes inputs right key

theorem SharesSource.symm {inputs : OverlapInputs} {left right : Text}
    (h : SharesSource inputs left right) : SharesSource inputs right left := by
  rcases h with ⟨key, hleft, hright⟩ | ⟨key, hleft, hright⟩
  · exact .inl ⟨key, hright, hleft⟩
  · exact .inr ⟨key, hright, hleft⟩

variable {files : ByCard (SortedSet String)}

theorem shared_ne_none {left right : Text} : shared files left right ≠ none ↔ ∃ key,
      (∃ keys, files.lookup left = some keys ∧ key ∈ keys) ∧
        ∃ keys, files.lookup right = some keys ∧ key ∈ keys := by
  rw [shared]
  cases hleft : files.lookup left with
  | none => simp
  | some leftKeys =>
    cases hright : files.lookup right with
    | none => simp
    | some rightKeys =>
      have hfilt : leftKeys.elems.filter (fun key => key ∈ rightKeys.elems) = [] ↔
          ¬ ∃ key, key ∈ leftKeys ∧ key ∈ rightKeys := by
        rw [filter_eq_nil_iff, not_exists]
        exact forall_congr' fun key => by simp [SortedSet.mem_def]
      simp only [hfilt, Option.some.injEq, exists_eq_left', ne_eq, ite_eq_left_iff, not_not,
        reduceCtorEq, imp_false]

theorem edgesTo_ne_nil {inputs : OverlapInputs} {cardId earlier : Text} :
    edgesTo inputs cardId earlier ≠ [] ↔ SharesSource inputs cardId earlier := by
  have hnil : edgesTo inputs cardId earlier = [] ↔
      shared inputs.declared cardId earlier = none ∧
        shared inputs.observed cardId earlier = none := by
    rw [edgesTo, append_eq_nil_iff]
    simp
  rw [ne_eq, hnil, not_and_or, ← ne_eq, ← ne_eq, shared_ne_none, shared_ne_none]
  rfl

theorem exists_free (taken : List ℕ) {bound : ℕ} (h : taken.length ≤ bound) :
    ∃ rank ∈ List.range (bound + 1), rank ∉ taken := by
  by_contra hfull
  push Not at hfull
  have hle := (nodup_range.subperm hfull).length_le
  rw [length_range] at hle
  omega

theorem rankCard_free (inputs : OverlapInputs) (cards : List OrderedCard) (cardId : Text) :
    ∃ card, rankCard inputs cards cardId = cards ++ [card] ∧ card.cardId = cardId ∧
      ∀ earlier ∈ cards, SharesSource inputs cardId earlier.cardId →
        earlier.serialRank ≠ card.serialRank := by
  refine ⟨_, rfl, rfl, fun earlier hearly hshares heq => ?_⟩
  have htaken : earlier.serialRank ∈ (cards.filter fun earlier =>
      edgesTo inputs cardId earlier.cardId ≠ []).map OrderedCard.serialRank := by
    refine mem_map_of_mem (mem_filter.mpr ⟨hearly, decide_eq_true ?_⟩)
    exact edgesTo_ne_nil.mpr hshares
  obtain ⟨free, hrange, hfree⟩ := exists_free ((cards.filter fun earlier =>
    edgesTo inputs cardId earlier.cardId ≠ []).map OrderedCard.serialRank)
    ((length_map _).trans_le (length_filter_le _ _))
  cases hfind : (List.range (cards.length + 1)).find? fun rank =>
      rank ∉ (cards.filter fun earlier => edgesTo inputs cardId earlier.cardId ≠ []).map
        OrderedCard.serialRank with
  | none =>
    have hnot := List.find?_eq_none.mp hfind free hrange
    exact hnot (decide_eq_true hfree)
  | some rank =>
    rw [hfind] at heq
    have hnot := List.find?_some hfind
    have hrank : earlier.serialRank = rank := heq
    rw [decide_eq_true_eq, ← hrank] at hnot
    exact hnot htaken

def Separated (cards : List OrderedCard) : Prop :=
  cards.Pairwise fun earlier later => SharesSource inputs later.cardId earlier.cardId →
    earlier.serialRank ≠ later.serialRank

theorem separated_foldl (inputs : OverlapInputs) (cardIds : List Text) (cards : List OrderedCard)
    (h : Separated inputs cards) :
    Separated inputs (cardIds.foldl (rankCard inputs) cards) ∧
      (cardIds.foldl (rankCard inputs) cards).map OrderedCard.cardId =
        cards.map OrderedCard.cardId ++ cardIds := by
  induction cardIds generalizing cards with
  | nil => exact ⟨h, (append_nil _).symm⟩
  | cons cardId rest ih =>
    obtain ⟨card, heq, rfl, hfree⟩ := rankCard_free inputs cards cardId
    rw [foldl_cons, heq]
    have hnext : Separated inputs (cards ++ [card]) := by
      refine pairwise_append.mpr ⟨h, pairwise_singleton _ _, fun earlier hearly => ?_⟩
      rintro later hlater hshares
      obtain rfl := mem_singleton.mp hlater
      exact hfree earlier hearly hshares
    obtain ⟨hseparated, hids⟩ := ih (cards ++ [card]) hnext
    exact ⟨hseparated, hids.trans (by simp)⟩

theorem orderWave_separates {wave : ℕ} {cardIds : List Text} {inputs : OverlapInputs}
    {left right : Text} {rank : ℕ} (hleft : (left, rank) ∈ (orderWave wave cardIds inputs).ranks)
    (hright : (right, rank) ∈ (orderWave wave cardIds inputs).ranks) (hne : left ≠ right) :
    ¬ SharesSource inputs left right := by
  intro hshares
  obtain ⟨one, hone, heq⟩ := mem_map.mp hleft
  obtain ⟨other, hother, heq'⟩ := mem_map.mp hright
  cases heq
  obtain ⟨rfl, hrank⟩ := Prod.mk.inj heq'
  have hone := (mem_insertionSort _).mp hone
  have hother := (mem_insertionSort _).mp hother
  have hseparated := (separated_foldl inputs cardIds [] List.Pairwise.nil).1
  have hboth : (cardIds.foldl (rankCard inputs) []).Pairwise fun one other =>
      SharesSource inputs one.cardId other.cardId → one.serialRank ≠ other.serialRank :=
    hseparated.imp fun h hshares => h hshares.symm
  have : Std.Symm fun one other : OrderedCard =>
      SharesSource inputs one.cardId other.cardId → one.serialRank ≠ other.serialRank :=
    ⟨fun _ _ h hshares => (h hshares.symm).symm⟩
  exact hboth.forall hone hother (fun heq => hne (congrArg _ heq)) hshares hrank.symm

theorem mem_ranks {wave : ℕ} {cardIds : List Text} {inputs : OverlapInputs} {cardId : Text} :
    (∃ rank, (cardId, rank) ∈ (orderWave wave cardIds inputs).ranks) ↔ cardId ∈ cardIds := by
  have hids := (separated_foldl inputs cardIds [] List.Pairwise.nil).2
  rw [map_nil, nil_append] at hids
  conv_rhs => rw [← hids]
  rw [mem_map]
  constructor
  · rintro ⟨rank, hin⟩
    obtain ⟨card, hcard, heq⟩ := mem_map.mp hin
    exact ⟨card, (mem_insertionSort _).mp hcard, (Prod.mk.inj heq).1⟩
  · rintro ⟨card, hcard, rfl⟩
    exact ⟨card.serialRank, mem_map.mpr ⟨card, (mem_insertionSort _).mpr hcard, rfl⟩⟩

variable (ranks : List (Text × ℕ × ℕ))

theorem submit_flatten (grouping : Grouping) (cardId : Text) :
    (submit ranks grouping cardId).groups.flatten = grouping.groups.flatten ++ [cardId] := by
  rw [submit]
  cases hlast : grouping.groups.getLast? with
  | none => simp
  | some group =>
    obtain ⟨front, hfront⟩ := List.getLast?_eq_some_iff.mp hlast
    dsimp only
    split_ifs
    · simp [hfront]
    · simp

theorem foldl_submit_flatten (cards : List Text) (grouping : Grouping) :
    (cards.foldl (submit ranks) grouping).groups.flatten =
      grouping.groups.flatten ++ cards := by
  induction cards generalizing grouping with
  | nil => exact (append_nil _).symm
  | cons cardId rest ih => rw [foldl_cons, ih, submit_flatten, append_assoc]; rfl

structure Keyed (ranks : List (Text × ℕ × ℕ)) (grouping : Grouping) : Prop where
  groups : ∀ group ∈ grouping.groups, ∃ key, ∀ cardId ∈ group, keyOf ranks cardId = key
  current : ∀ group, grouping.groups.getLast? = some group →
    ∀ cardId ∈ group, keyOf ranks cardId = grouping.current

theorem Keyed.submit {ranks : List (Text × ℕ × ℕ)} {grouping : Grouping} (h : Keyed ranks grouping)
    (cardId : Text) : Keyed ranks (Waves.submit ranks grouping cardId) := by
  have hnew : Keyed ranks ⟨grouping.groups ++ [[cardId]], keyOf ranks cardId⟩ := by
    constructor
    · intro group hgroup
      rcases mem_append.mp hgroup with hgroup | hgroup
      · exact h.groups group hgroup
      · obtain rfl := mem_singleton.mp hgroup
        exact ⟨_, fun other hother => by rw [mem_singleton.mp hother]⟩
    · intro group hgroup other hother
      rw [List.getLast?_concat] at hgroup
      cases hgroup
      rw [mem_singleton.mp hother]
  rw [Waves.submit]
  cases hlast : grouping.groups.getLast? with
  | none => exact hnew
  | some last =>
    dsimp only
    split_ifs with hkey
    · have hjoined : ∀ other ∈ last ++ [cardId], keyOf ranks other = grouping.current := by
        intro other hother
        rcases mem_append.mp hother with hother | hother
        · exact h.current last hlast other hother
        · rw [mem_singleton.mp hother, hkey]
      constructor
      · intro group hgroup
        rcases mem_append.mp hgroup with hgroup | hgroup
        · exact h.groups group (mem_of_mem_dropLast hgroup)
        · obtain rfl := mem_singleton.mp hgroup
          exact ⟨_, hjoined⟩
      · intro group hgroup
        rw [List.getLast?_concat] at hgroup
        cases hgroup
        exact hjoined
    · exact hnew

theorem keyed_foldl {ranks : List (Text × ℕ × ℕ)} (cards : List Text) {grouping : Grouping}
    (h : Keyed ranks grouping) : Keyed ranks (cards.foldl (submit ranks) grouping) := by
  induction cards generalizing grouping with
  | nil => exact h
  | cons cardId rest ih => exact ih (h.submit cardId)

variable (schedule : WaveSchedule)

theorem submissionGroups_keyed : ∀ group ∈ schedule.submissionGroups, ∃ key, ∀ cardId ∈ group,
      keyOf (stageRanks schedule) cardId = key := by
  have hstart : Keyed (stageRanks schedule) ⟨[], none⟩ :=
    ⟨fun _ hgroup => absurd hgroup not_mem_nil, fun _ hlast => by cases hlast⟩
  exact (keyed_foldl schedule.dispatch hstart).groups

theorem submissionGroups_flatten : schedule.submissionGroups.flatten = schedule.dispatch :=
  foldl_submit_flatten _ _ _

def waveCards (board : TaskBoard) (lanes : List Lane) (wave : ℕ) : List Text :=
  ((((decided board lanes).flatMap LaneOutcome.stages).filter StageOutcome.isDispatch).filter
    fun stage => stage.wave = wave).map StageOutcome.cardId

section Schedule

variable {board : TaskBoard} {lanes : List Lane} {inputs : OverlapInputs} {cardId : Text}

def waveOn (board : TaskBoard) (cardId : Text) : ℕ := waveOf (levelWaves (cardLinks board)) cardId

theorem wave_of_decided {stage : StageOutcome}
    (h : stage ∈ (decided board lanes).flatMap LaneOutcome.stages) :
    stage.wave = waveOn board stage.cardId ∧ stage.serialRank = none := by
  obtain ⟨outcome, hout, hstage⟩ := mem_flatMap.mp h
  obtain ⟨lane, -, rfl⟩ := mem_map.mp hout
  obtain ⟨entry, -, rfl⟩ := mem_map.mp hstage
  exact ⟨rfl, rfl⟩

theorem mem_waveCards {wave : ℕ} : cardId ∈ waveCards board lanes wave ↔
    cardId ∈ runnable (decided board lanes) ∧ waveOn board cardId = wave := by
  rw [waveCards, runnable, mem_map, mem_map]
  constructor
  · rintro ⟨stage, hfilt, rfl⟩
    obtain ⟨hin, hwave⟩ := mem_filter.mp hfilt
    refine ⟨⟨stage, hin, rfl⟩, ?_⟩
    exact (wave_of_decided (mem_filter.mp hin).1).1.symm.trans (of_decide_eq_true hwave)
  · rintro ⟨⟨stage, hin, rfl⟩, hwave⟩
    refine ⟨stage, mem_filter.mpr ⟨hin, decide_eq_true ?_⟩, rfl⟩
    exact (wave_of_decided (mem_filter.mp hin).1).1.trans hwave

def allRanks (board : TaskBoard) (lanes : List Lane) (inputs : OverlapInputs) :
    List (Text × ℕ) :=
  (orderDispatchByWave (decided board lanes) inputs).flatMap WaveOrder.ranks

theorem overlapOrderOf_some (h : inputs.isEmpty = false) :
    overlapOrderOf board lanes (some inputs) =
      orderDispatchByWave (decided board lanes) inputs := by
  rw [overlapOrderOf, Option.filter_some, if_pos (by rw [h]; rfl)]

theorem mem_allRanks {rank : ℕ} : (cardId, rank) ∈ allRanks board lanes inputs ↔
    (cardId, rank) ∈
      (orderWave (waveOn board cardId) (waveCards board lanes (waveOn board cardId))
        inputs).ranks := by
  rw [allRanks, mem_flatMap]
  constructor
  · rintro ⟨order, horder, hrank⟩
    obtain ⟨wave, -, rfl⟩ := mem_map.mp horder
    have hin : cardId ∈ waveCards board lanes wave := mem_ranks.mp ⟨rank, hrank⟩
    rw [(mem_waveCards.mp hin).2]
    exact hrank
  · intro hrank
    refine ⟨_, mem_map_of_mem ?_, hrank⟩
    have hin : cardId ∈ waveCards board lanes (waveOn board cardId) := mem_ranks.mp ⟨rank, hrank⟩
    obtain ⟨stage, hstage, rfl⟩ := mem_map.mp hin
    obtain ⟨hruns, hwave⟩ := mem_filter.mp hstage
    apply SortedSet.mem_ofList.mpr
    exact mem_map.mpr ⟨stage, hruns, of_decide_eq_true hwave⟩

variable {ranks : List (Text × ℕ)}

theorem mem_of_rankOf {rank : ℕ} (h : rankOf ranks cardId = some rank) :
    (cardId, rank) ∈ ranks := by
  obtain ⟨entry, hfind, rfl⟩ := Option.map_eq_some_iff.mp h
  have hid : entry.1 = cardId := by simpa using List.find?_some hfind
  exact hid ▸ mem_reverse.mp (List.mem_of_find?_eq_some hfind)

theorem rankOf_isSome {rank : ℕ} (h : (cardId, rank) ∈ ranks) :
    ∃ rank', rankOf ranks cardId = some rank' := by
  rw [rankOf]
  cases hfind : ranks.reverse.find? fun entry => entry.1 = cardId with
  | none =>
    have hnot := List.find?_eq_none.mp hfind _ (mem_reverse.mpr h)
    exact absurd (decide_eq_true rfl) hnot
  | some entry => exact ⟨entry.2, rfl⟩

theorem exists_rank (h : cardId ∈ runnable (decided board lanes)) :
    ∃ rank, rankOf (allRanks board lanes inputs) cardId = some rank := by
  obtain ⟨rank, hrank⟩ := @mem_ranks (waveOn board cardId)
    (waveCards board lanes (waveOn board cardId)) inputs cardId |>.mpr (mem_waveCards.mpr ⟨h, rfl⟩)
  exact rankOf_isSome (mem_allRanks.mpr hrank)

def orderedLanes (board : TaskBoard) (lanes : List Lane) (inputs : OverlapInputs)
    (maxWaveWidth : ℕ) : List LaneOutcome :=
  (throttleWaveWidth (stampRanks (decided board lanes) (overlapOrderOf board lanes (some inputs))).1
    (submissionOrder board lanes (some inputs)) maxWaveWidth).map stampStatus

theorem stampStatus_stages (outcomes : List LaneOutcome) :
    (outcomes.map stampStatus).flatMap LaneOutcome.stages =
      outcomes.flatMap LaneOutcome.stages := by
  rw [flatMap_map]
  apply congrArg (List.flatMap · outcomes)
  funext outcome
  rw [stampStatus]
  split_ifs <;> rfl

variable {outcomes : List LaneOutcome}

theorem mem_stages {stage : StageOutcome} :
    stage ∈ outcomes.flatMap LaneOutcome.stages ↔ ∃ place, stageAt outcomes place = some stage := by
  rw [← indexedStages_fst, mem_map]
  constructor
  · rintro ⟨⟨stage, place⟩, hin, rfl⟩
    exact ⟨place, mem_indexedStages.mp hin⟩
  · rintro ⟨place, hat⟩
    exact ⟨(stage, place), mem_indexedStages.mpr hat, rfl⟩

variable {maxWaveWidth : ℕ} {key : Text × ℕ × Option ℕ}

theorem mem_throttled {order : List (StageOutcome × ℕ × ℕ)} :
    (∃ stage ∈ (throttleWaveWidth outcomes order maxWaveWidth).flatMap LaneOutcome.stages,
        (stage.cardId, stage.wave, stage.serialRank) = key) ↔
      ∃ stage ∈ outcomes.flatMap LaneOutcome.stages,
        (stage.cardId, stage.wave, stage.serialRank) = key := by
  constructor
  · rintro ⟨stage, hin, rfl⟩
    obtain ⟨place, hat⟩ := mem_stages.mp hin
    rw [stageAt_throttle] at hat
    obtain ⟨stage, hstage, rfl⟩ := Option.map_eq_some_iff.mp hat
    exact ⟨stage, mem_stages.mpr ⟨place, hstage⟩, by split_ifs <;> rfl⟩
  · rintro ⟨stage, hin, rfl⟩
    obtain ⟨place, hat⟩ := mem_stages.mp hin
    have hthrottled : stageAt (throttleWaveWidth outcomes order maxWaveWidth) place =
        some (if place ∈ (order.drop maxWaveWidth).map Prod.snd then
          { stage with decision := .notRun (widthReason maxWaveWidth) } else stage) := by
      rw [stageAt_throttle, hat]
      rfl
    refine ⟨_, mem_stages.mpr ⟨place, hthrottled⟩, ?_⟩
    split_ifs <;> rfl

theorem mem_orderedLanes (h : inputs.isEmpty = false) :
    (∃ stage ∈ (orderedLanes board lanes inputs maxWaveWidth).flatMap LaneOutcome.stages,
        (stage.cardId, stage.wave, stage.serialRank) = key) ↔
      ∃ stage ∈ (decided board lanes).flatMap LaneOutcome.stages,
        (stage.cardId, waveOn board stage.cardId,
          rankOf (allRanks board lanes inputs) stage.cardId) = key := by
  rw [orderedLanes, stampStatus_stages, mem_throttled, stampRanks_stages, overlapOrderOf_some h]
  have hranks : ∀ stage ∈ (decided board lanes).flatMap LaneOutcome.stages,
      (if orderDispatchByWave (decided board lanes) inputs = [] then stage.serialRank
        else rankOf (allRanks board lanes inputs) stage.cardId) =
      rankOf (allRanks board lanes inputs) stage.cardId := by
    intro stage hin
    split_ifs with hnil
    · rw [allRanks, hnil, (wave_of_decided hin).2]
      rfl
    · rfl
  constructor
  · rintro ⟨stamped, hin, rfl⟩
    obtain ⟨stage, hstage, rfl⟩ := mem_map.mp hin
    refine ⟨stage, hstage, ?_⟩
    rw [← hranks stage hstage, ← (wave_of_decided hstage).1]
    split_ifs <;> rfl
  · rintro ⟨stage, hstage, rfl⟩
    refine ⟨_, mem_map_of_mem hstage, ?_⟩
    rw [← hranks stage hstage, ← (wave_of_decided hstage).1]
    split_ifs <;> rfl

theorem keyOf_runnable (h : inputs.isEmpty = false) {schedule : WaveSchedule}
    (hlanes : schedule.lanes = orderedLanes board lanes inputs maxWaveWidth)
    (hruns : cardId ∈ runnable (decided board lanes)) :
    ∃ rank, (cardId, rank) ∈ allRanks board lanes inputs ∧
      keyOf (stageRanks schedule) cardId = some (waveOn board cardId, rank) := by
  obtain ⟨rank, hrank⟩ := @exists_rank board lanes inputs cardId hruns
  refine ⟨rank, mem_of_rankOf hrank, ?_⟩
  have hents : ∀ key, (cardId, key) ∈ stageRanks schedule ↔
      ∃ stage ∈ schedule.lanes.flatMap LaneOutcome.stages,
        (stage.cardId, stage.wave, stage.serialRank) = (cardId, key.1, some key.2) := by
    intro key
    rw [stageRanks, mem_filterMap]
    refine exists_congr fun stage => and_congr_right fun _ => ?_
    rw [Option.map_eq_some_iff]
    constructor
    · rintro ⟨found, hfound, heq⟩
      cases heq
      rw [hfound]
    · intro heq
      obtain ⟨hid, hrest⟩ := Prod.mk.inj heq
      obtain ⟨hwave, hfound⟩ := Prod.mk.inj hrest
      exact ⟨key.2, hfound, by rw [hid, hwave]⟩
  have hmem : ∀ key, (cardId, key) ∈ stageRanks schedule ↔ key = (waveOn board cardId, rank) := by
    intro key
    rw [hents, hlanes, mem_orderedLanes h]
    constructor
    · rintro ⟨stage, -, heq⟩
      obtain ⟨rfl, hrest⟩ := Prod.mk.inj heq
      obtain ⟨hwave, hfound⟩ := Prod.mk.inj hrest
      exact Prod.ext hwave.symm (Option.some.inj (hfound.symm.trans hrank))
    · rintro rfl
      obtain ⟨stage, hstage, rfl⟩ := mem_map.mp hruns
      exact ⟨stage, (mem_filter.mp hstage).1, by rw [hrank]⟩
  rw [keyOf]
  cases hfind : (stageRanks schedule).reverse.find? fun entry => entry.1 = cardId with
  | none =>
    have hnot := List.find?_eq_none.mp hfind _ (mem_reverse.mpr ((hmem _).mpr rfl))
    exact absurd (decide_eq_true rfl) hnot
  | some entry =>
    have hid : entry.1 = cardId := by simpa using List.find?_some hfind
    have hentry := mem_reverse.mp (List.mem_of_find?_eq_some hfind)
    exact congrArg some ((hmem entry.2).mp (hid ▸ hentry))

theorem orderOf_ascending (h : overlapOrderOf board lanes (some inputs) ≠ []) :
    ((submissionOrder board lanes (some inputs)).map fun entry => entry.1.cardId).Pairwise
      fun earlier later => waveOn board earlier ≤ waveOn board later := by
  have hwave : ∀ entry ∈ submissionOrder board lanes (some inputs),
      entry.1.wave = waveOn board entry.1.cardId := by
    intro entry hentry
    have hin := mem_stages.mpr ⟨entry.2, (mem_dispatchOrder.mp hentry).1⟩
    rw [stampRanks_stages] at hin
    obtain ⟨stage, hstage, heq⟩ := mem_map.mp hin
    rw [← heq, if_neg h]
    exact (wave_of_decided hstage).1
  have hsort : (submissionOrder board lanes (some inputs)).Pairwise fun one other =>
      one.1.wave ≤ other.1.wave := by
    have hranks : (stampRanks (decided board lanes) (overlapOrderOf board lanes (some inputs))).2 =
        some ((overlapOrderOf board lanes (some inputs)).flatMap WaveOrder.ranks) := by
      rw [stampRanks, if_neg h]
    rw [submissionOrder, hranks]
    refine (pairwise_insertionSort _ _).imp fun {one other} hle => ?_
    rcases Prod.Lex.le_iff.mp hle with hlt | ⟨heq, -⟩
    · exact le_of_lt hlt
    · exact le_of_eq heq
  rw [pairwise_map]
  refine hsort.imp_of_mem fun {one other} hone hother hle => ?_
  rw [← hwave one hone, ← hwave other hother]
  exact hle

end Schedule

structure OverlapOrdered (board : TaskBoard) (lanes : List Lane) (limits : WaveLimits)
    (inputs : OverlapInputs) (plain ordered : WaveSchedule) : Prop where
  count : ordered.dispatch.length = plain.dispatch.length
  same : (runnable (decided board lanes)).length ≤ limits.maxWaveWidth →
    ordered.dispatch.Perm plain.dispatch
  ascending : ordered.overlapOrder ≠ [] → ordered.dispatch.Pairwise fun earlier later =>
    waveOf ordered.waves earlier ≤ waveOf ordered.waves later
  groups : ordered.submissionGroups.flatten = ordered.dispatch
  apart : ∀ group ∈ ordered.submissionGroups, ∀ left ∈ group, ∀ right ∈ group, left ≠ right →
    ¬ TouchSame inputs left right

def OnlyReorders (board : TaskBoard) (lanes : List Lane) (limits : WaveLimits)
    (inputs : OverlapInputs) : Prop :=
  ∀ plain, planSchedule board lanes limits = .ok plain →
    ∃ ordered, planScheduleWithOverlap board lanes limits (some inputs) = .ok ordered ∧
      OverlapOrdered board lanes limits inputs plain ordered

def OneSource (inputs : OverlapInputs) (cards : Set Text) : Prop :=
  ∀ left ∈ cards, ∀ right ∈ cards, left ≠ right → TouchSame inputs left right →
    SharesSource inputs left right

/-- Of the cards that run in one wave of an accepted schedule with room for two, two that touch a
common file share one that both declare or that is observed of both. -/
def OneSourceInWaves (board : TaskBoard) (lanes : List Lane) (limits : WaveLimits)
    (inputs : OverlapInputs) : Prop :=
  validateDependencies board = .ok () → validateLanes board lanes limits = .ok () →
    1 < limits.maxWaveWidth → ∀ wave, OneSource inputs {cardId | cardId ∈ waveCards board lanes wave}

theorem notMem_of_isEmpty (h : (files.entries.all fun entry => entry.2.elems = []) = true)
    {cardId : Text} {keys : SortedSet String} (hlook : files.lookup cardId = some keys)
    (key : String) : key ∉ keys := by
  have hall := all_eq_true.mp h _ (AList.mem_lookup_iff.mp hlook)
  rw [decide_eq_true_eq] at hall
  rw [SortedSet.mem_def, hall]
  exact not_mem_nil

theorem not_touch_of_isEmpty {inputs : OverlapInputs} (h : inputs.isEmpty = true)
    (left right : Text) : ¬ TouchSame inputs left right := by
  obtain ⟨hdeclared, hobserved⟩ := (Bool.and_eq_true _ _).mp h
  rintro ⟨key, ⟨files, hfiles, hkey⟩ | ⟨files, hfiles, hkey⟩, -⟩
  · exact notMem_of_isEmpty hdeclared hfiles key hkey
  · exact notMem_of_isEmpty hobserved hfiles key hkey

theorem runnable_placed {board : TaskBoard} {lanes : List Lane} {cardId : Text}
    (h : cardId ∈ runnable (decided board lanes)) : cardId ∈ placedCards lanes := by
  obtain ⟨lane, hlane, position, stage, hstage, rfl, -⟩ := mem_runnable.mp h
  exact mem_flatMap.mpr ⟨lane, hlane, mem_map_of_mem (mem_of_getElem? hstage)⟩

theorem validated_of_plan {board : TaskBoard} {lanes : List Lane} {limits : WaveLimits}
    {overlap : Option OverlapInputs} {schedule : WaveSchedule}
    (h : planScheduleWithOverlap board lanes limits overlap = .ok schedule) :
    validateDependencies board = .ok () ∧ validateLanes board lanes limits = .ok () := by
  rw [planScheduleWithOverlap] at h
  cases hwaves : deriveWaves board with
  | error reason => rw [hwaves] at h; cases h
  | ok waves =>
    rw [hwaves] at h
    cases hlanes : validateLanes board lanes limits with
    | error reason => rw [hlanes] at h; cases h
    | ok u =>
      refine ⟨?_, rfl⟩
      rw [deriveWaves] at hwaves
      cases hboard : validateDependencies board with
      | error reason => rw [hboard] at hwaves; cases hwaves
      | ok u => rfl

theorem groups_share_nothing {board : TaskBoard} {lanes : List Lane} {inputs : OverlapInputs}
    (hinputs : inputs.isEmpty = false) {schedule : WaveSchedule} {maxWaveWidth : ℕ}
    (hlanes : schedule.lanes = orderedLanes board lanes inputs maxWaveWidth)
    (hruns : ∀ cardId ∈ schedule.dispatch, cardId ∈ runnable (decided board lanes))
    {group : List Text} (hgroup : group ∈ schedule.submissionGroups) {left right : Text}
    (hleft : left ∈ group) (hright : right ∈ group) (hne : left ≠ right) :
    waveOn board left = waveOn board right ∧ ¬ SharesSource inputs left right := by
  have hin : ∀ cardId ∈ group, cardId ∈ runnable (decided board lanes) := fun cardId hcard =>
    hruns cardId (submissionGroups_flatten schedule ▸ mem_flatten_of_mem hgroup hcard)
  obtain ⟨key, hkey⟩ := submissionGroups_keyed schedule group hgroup
  obtain ⟨rank, hrank, heq⟩ := keyOf_runnable hinputs hlanes (hin left hleft)
  obtain ⟨rank', hrank', heq'⟩ := keyOf_runnable hinputs hlanes (hin right hright)
  have hsame : some (waveOn board left, rank) = some (waveOn board right, rank') :=
    heq.symm.trans ((hkey left hleft).trans ((hkey right hright).symm.trans heq'))
  obtain ⟨hwave, rfl⟩ := Prod.mk.inj (Option.some.inj hsame)
  rw [mem_allRanks] at hrank hrank'
  rw [← hwave] at hrank'
  exact ⟨hwave, orderWave_separates hrank hrank' hne⟩

theorem onlyReorders_of_oneSource {board : TaskBoard} {lanes : List Lane} {limits : WaveLimits}
    {inputs : OverlapInputs} (h : OneSourceInWaves board lanes limits inputs) :
    OnlyReorders board lanes limits inputs := by
  intro plain hplain
  obtain ⟨hboard, hlanes⟩ := validated_of_plan hplain
  obtain ⟨plain', hplain', -, -, -, hplain_dispatch⟩ := planSchedule_ok none hboard hlanes
  obtain rfl := Except.ok.inj (hplain'.symm.trans hplain)
  obtain ⟨ordered, hordered, hwaves, horder, hordered_lanes, hdispatch⟩ :=
    planSchedule_ok (some inputs) hboard hlanes
  have hperm := orderOf_perm board lanes (some inputs)
  have hperm_plain := orderOf_perm board lanes none
  have hruns : ∀ cardId ∈ ordered.dispatch, cardId ∈ runnable (decided board lanes) := by
    intro cardId hcard
    rw [hdispatch] at hcard
    exact hperm.mem_iff.mp (((take_sublist _ _).map _).subset hcard)
  refine ⟨ordered, hordered, ?_⟩
  constructor
  case count =>
    have hlen := hperm.length_eq.trans hperm_plain.length_eq.symm
    rw [length_map, length_map] at hlen
    rw [hdispatch, hplain_dispatch, length_map, length_map, length_take,
      length_take, hlen]
  case same =>
    intro hwidth
    have hall : ∀ overlap, (submissionOrder board lanes overlap).take limits.maxWaveWidth =
        submissionOrder board lanes overlap := by
      intro overlap
      apply take_of_length_le
      have hlen := (orderOf_perm board lanes overlap).length_eq
      rw [length_map] at hlen
      omega
    rw [hdispatch, hplain_dispatch, hall, hall]
    exact hperm.trans hperm_plain.symm
  case ascending =>
    intro hran
    rw [hwaves, hdispatch]
    rw [horder] at hran
    exact (orderOf_ascending hran).sublist ((take_sublist _ _).map _)
  case groups => exact submissionGroups_flatten ordered
  case apart =>
    intro group hgroup left hleft right hright hne htouch
    cases hinputs : inputs.isEmpty with
    | true => exact not_touch_of_isEmpty hinputs left right htouch
    | false =>
      have hsent : ∀ cardId ∈ group, cardId ∈ ordered.dispatch := fun cardId hcard =>
        submissionGroups_flatten ordered ▸ mem_flatten_of_mem hgroup hcard
      have hwidth : 1 < limits.maxWaveWidth := by
        have hpair : [left, right] ⊆ ordered.dispatch :=
          cons_subset.mpr ⟨hsent left hleft, cons_subset.mpr ⟨hsent right hright, nil_subset _⟩⟩
        have htwo := ((show [left, right].Nodup by simpa using hne).subperm hpair).length_le
        rw [hdispatch, length_map] at htwo
        exact lt_of_lt_of_le htwo (length_take_le _ _)
      have hin := fun cardId hcard => hruns cardId (hsent cardId hcard)
      obtain ⟨hwave, hshares⟩ :=
        groups_share_nothing hinputs hordered_lanes hruns hgroup hleft hright hne
      exact hshares (h hboard hlanes hwidth (waveOn board right) left
        (mem_waveCards.mpr ⟨hin left hleft, hwave⟩) right
        (mem_waveCards.mpr ⟨hin right hright, rfl⟩) hne htouch)

def pairBoard (left right : Text) : TaskBoard :=
  { TaskBoard.empty none [] .independentRequired with
    cards := [chainCard left planned [], chainCard right planned []] }

def pairLane (left right : Text) : Lane :=
  ⟨['l'], .parallel, [⟨left, none, false⟩, ⟨right, none, false⟩], false⟩

section Pair

variable {left right : Text}

theorem pair_dependencies (hne : left ≠ right) :
    validateDependencies (pairBoard left right) = .ok () := by
  have hlinks : cardLinks (pairBoard left right) = [⟨left, []⟩, ⟨right, []⟩] := rfl
  have hcycle : cycleError [⟨left, []⟩, ⟨right, []⟩] = none := rfl
  rw [validateDependencies, refuse_ok_iff, hlinks, dependencyError]
  simp [firstRepeat, linkError, hcycle, hne.symm]

theorem pair_lanes (hne : left ≠ right) :
    validateLanes (pairBoard left right) [pairLane left right] ⟨2, 2⟩ = .ok () := by
  have htrim : trim ['l'] ≠ [] := by decide
  simp [validateLanes, validateLanesFrom, pairLane, htrim, placeStages, getCard, pairBoard,
    chainCard, hne.symm]

theorem pair_waves : levelWaves (cardLinks (pairBoard left right)) = [⟨0, [left, right]⟩] := rfl

theorem decideStage_zero (board : TaskBoard) (gate : WaveGate) (lane : Lane)
    (cursor : Option PipelineCursor) (position : ℕ) (stage : LaneStage) :
    decideStage board gate lane cursor position stage 0 =
      decideInLane board lane cursor position stage := by
  rw [decideStage]
  cases gate.blockedAt <;> simp [decideBehindFrontier]

theorem pair_decided (hne : left ≠ right) :
    (decided (pairBoard left right) [pairLane left right]).flatMap LaneOutcome.stages =
      [⟨left, none, 0, 0, .dispatch, none⟩, ⟨right, none, 1, 0, .dispatch, none⟩] := by
  have hcolumn : columnOf (pairBoard left right) left = planned ∧
      columnOf (pairBoard left right) right = planned := by
    simp [columnOf, getCard, pairBoard, chainCard, hne]
  have hwave : waveOf (levelWaves (cardLinks (pairBoard left right))) left = 0 ∧
      waveOf (levelWaves (cardLinks (pairBoard left right))) right = 0 := by
    simp [pair_waves, waveOf]
  have hplanned : isTerminalColumn planned = false := by decide
  simp [decided, decideLane, pairLane, hwave, decideStage_zero, decideInLane,
    LaneKind.advancesOnePositionAtATime, terminalOrDispatch, hcolumn, hplanned]

theorem pair_ranks {inputs : OverlapInputs} (h : ¬ SharesSource inputs left right) (wave : ℕ) :
    (orderWave wave [left, right] inputs).ranks = [(left, 0), (right, 0)] := by
  have hedges : edgesTo inputs right left = [] := by
    by_contra hedges
    exact h (edgesTo_ne_nil.mp hedges).symm
  simp [orderWave, rankCard, hedges, WaveOrder.ranks, range_succ]

/-- Where a collision is known across sources only, two planned cards are submitted together. -/
theorem pair_together (hne : left ≠ right) {inputs : OverlapInputs}
    (htouch : TouchSame inputs left right) (hshares : ¬ SharesSource inputs left right) :
    ¬ OnlyReorders (pairBoard left right) [pairLane left right] ⟨2, 2⟩ inputs := by
  intro hreorders
  have hinputs : inputs.isEmpty = false :=
    Bool.eq_false_iff.mpr fun hempty => not_touch_of_isEmpty hempty left right htouch
  obtain ⟨plain, hplain, -⟩ := planSchedule_ok none (pair_dependencies hne) (pair_lanes hne)
  obtain ⟨ordered, hordered, hordered'⟩ := hreorders plain hplain
  obtain ⟨ordered', heq, -, -, hlanes, hdispatch⟩ :=
    planSchedule_ok (some inputs) (pair_dependencies hne) (pair_lanes hne)
  obtain rfl := Except.ok.inj (heq.symm.trans hordered)
  have hrunnable : runnable (decided (pairBoard left right) [pairLane left right]) =
      [left, right] := by
    rw [runnable, pair_decided hne]
    rfl
  have hperm := orderOf_perm (pairBoard left right) [pairLane left right] (some inputs)
  rw [hrunnable] at hperm
  have hlen := hperm.length_eq
  rw [length_map] at hlen
  have hall : (submissionOrder (pairBoard left right) [pairLane left right] (some inputs)).take 2 =
      submissionOrder (pairBoard left right) [pairLane left right] (some inputs) :=
    take_of_length_le (le_of_eq hlen)
  rw [hall] at hdispatch
  rw [← hdispatch] at hperm
  have hkeys : ∀ cardId ∈ [left, right],
      keyOf (stageRanks ordered') cardId = some (0, 0) := by
    intro cardId hcard
    obtain ⟨rank, hrank, hkey⟩ := keyOf_runnable hinputs hlanes (hrunnable.symm ▸ hcard)
    have hwave : waveOn (pairBoard left right) cardId = 0 := by
      rcases mem_pair.mp hcard with rfl | rfl <;> simp [waveOn, pair_waves, waveOf]
    have hcards : waveCards (pairBoard left right) [pairLane left right] 0 = [left, right] := by
      rw [waveCards, pair_decided hne]
      rfl
    rw [mem_allRanks, hwave, hcards, pair_ranks hshares] at hrank
    rw [hkey, hwave]
    rcases mem_pair.mp hrank with heq | heq <;> rw [(Prod.mk.inj heq).2]
  obtain ⟨one, other, hpair⟩ := length_eq_two.mp hperm.length_eq
  have hin : ∀ cardId ∈ [one, other], cardId ∈ [left, right] := fun cardId hcard =>
    hperm.mem_iff.mp (hpair ▸ hcard)
  have hsame := (hkeys one (hin one mem_cons_self)).trans (hkeys other (hin other (by simp))).symm
  have hgroups : ordered'.submissionGroups = [[one, other]] := by
    simp [WaveSchedule.submissionGroups, hpair, submit, hsame]
  have hgroup : [one, other] ∈ ordered'.submissionGroups := hgroups ▸ mem_cons_self
  have hmem : ∀ cardId ∈ [left, right], cardId ∈ [one, other] := fun cardId hcard =>
    hpair ▸ hperm.mem_iff.mpr hcard
  exact hordered'.apart _ hgroup left (hmem left mem_cons_self) right
    (hmem right (by simp)) hne htouch

end Pair

/-- Ordering only reorders every schedule in whose waves no two cards collide across sources only,
and for a set of cards it only reorders all schedules of them exactly when no two of them do. -/
theorem only_reorders_unless_across_sources (inputs : OverlapInputs) :
    (∀ board lanes limits, OneSourceInWaves board lanes limits inputs →
      OnlyReorders board lanes limits inputs) ∧
    ∀ cards : Set Text,
      (∀ board lanes limits, (∀ cardId ∈ placedCards lanes, cardId ∈ cards) →
        OnlyReorders board lanes limits inputs) ↔ OneSource inputs cards := by
  refine ⟨fun board lanes limits => onlyReorders_of_oneSource, fun cards => ⟨?_, ?_⟩⟩
  · intro h left hleft right hright hne htouch
    by_contra hshares
    refine pair_together hne htouch hshares (h _ _ _ ?_)
    intro cardId hcard
    rcases mem_pair.mp (show cardId ∈ [left, right] from hcard) with rfl | rfl
    · exact hleft
    · exact hright
  · intro h board lanes limits hplaced
    apply onlyReorders_of_oneSource
    intro _ _ _ wave left hleft right hright
    have hcards : ∀ cardId ∈ waveCards board lanes wave, cardId ∈ cards := fun cardId hcard =>
      hplaced cardId (runnable_placed (mem_waveCards.mp hcard).1)
    exact h left (hcards left hleft) right (hcards right hright)

def crossInputs : OverlapInputs :=
  (OverlapInputs.new.declare "T-1".toList ["/repo/src/lib.rs"]).observe "T-2".toList
    ["/repo/src/lib.rs"]

theorem declared_and_observed_together :
    (∃ schedule, planScheduleWithOverlap (pairBoard "T-1".toList "T-2".toList)
        [pairLane "T-1".toList "T-2".toList] ⟨2, 2⟩ (some crossInputs) = .ok schedule ∧
      schedule.submissionGroups = [["T-1".toList, "T-2".toList]]) ∧
      TouchSame crossInputs "T-1".toList "T-2".toList ∧
      ¬ OnlyReorders (pairBoard "T-1".toList "T-2".toList) [pairLane "T-1".toList "T-2".toList]
        ⟨2, 2⟩ crossInputs := by
  have hne : "T-1".toList ≠ "T-2".toList := by decide
  have htouch : TouchSame crossInputs "T-1".toList "T-2".toList :=
    ⟨"/repo/src/lib.rs", .inl ⟨_, AList.lookup_insert _, SortedSet.mem_insert.mpr (.inl rfl)⟩,
      .inr ⟨_, AList.lookup_insert _, SortedSet.mem_insert.mpr (.inl rfl)⟩⟩
  refine ⟨⟨_, rfl, by decide⟩, htouch, pair_together hne htouch ?_⟩
  rintro (⟨key, -, files, hfiles, -⟩ | ⟨key, ⟨files, hfiles, -⟩, -⟩)
  · cases hfiles
  · cases hfiles

end WaveOverlaps
