import RefactEngine.WaveLevels

/-! # What a schedule submits

The stages that are decided to run are put into an order, and the first ones of it are submitted. An
order by overlaps is a permutation of the order of the lanes.
-/
namespace WaveDispatch

open TaskBoards BoardValidation OverlapOrder Waves WaveLevels List

def runnable (outcomes : List LaneOutcome) : List Text :=
  ((outcomes.flatMap LaneOutcome.stages).filter StageOutcome.isDispatch).map StageOutcome.cardId

variable (board : TaskBoard) (lanes : List Lane)

def gateOf : WaveGate :=
  waveGate board (levelWaves (cardLinks board)) (optionalCards lanes)

def decided : List LaneOutcome :=
  lanes.map (decideLane board (levelWaves (cardLinks board)) (gateOf board lanes))

def overlapOrderOf (overlap : Option OverlapInputs) :
    List WaveOrder :=
  match overlap.filter fun inputs => !inputs.isEmpty with
  | some inputs => orderDispatchByWave (decided board lanes) inputs
  | none => []

/-- The stages of all lanes in the order of their ranks. -/
def submissionOrder (overlap : Option OverlapInputs) :
    List (StageOutcome × ℕ × ℕ) :=
  let stamped := stampRanks (decided board lanes) (overlapOrderOf board lanes overlap)
  dispatchOrder stamped.1 stamped.2

theorem mem_indexedStages {outcomes : List LaneOutcome} {stage : StageOutcome} {place : ℕ × ℕ} :
    (stage, place) ∈ indexedStages outcomes ↔ stageAt outcomes place = some stage := by
  rw [indexedStages, mem_flatMap, stageAt, Option.bind_eq_some_iff]
  constructor
  · rintro ⟨⟨outcome, lane⟩, hlane, hstage⟩
    obtain ⟨⟨found, index⟩, hfound, heq⟩ := mem_map.mp hstage
    cases heq
    exact ⟨outcome, List.mk_mem_zipIdx_iff_getElem?.mp hlane,
      List.mk_mem_zipIdx_iff_getElem?.mp hfound⟩
  · rintro ⟨outcome, hlane, hstage⟩
    exact ⟨(outcome, place.1), List.mk_mem_zipIdx_iff_getElem?.mpr hlane,
      mem_map.mpr ⟨(stage, place.2), List.mk_mem_zipIdx_iff_getElem?.mpr hstage, rfl⟩⟩

theorem nodup_zipIdx {α : Type} (l : List α) : (l.zipIdx.map Prod.snd).Nodup := by
  rw [zipIdx_map_snd]
  exact nodup_range'

variable (outcomes : List LaneOutcome)

theorem indexedStages_nodup : ((indexedStages outcomes).map Prod.snd).Nodup := by
  rw [indexedStages, map_flatMap]
  apply nodup_flatMap.mpr
  refine ⟨fun lane _ => ?_, ?_⟩
  · rw [map_map]
    refine List.Nodup.of_map Prod.snd ?_
    rw [map_map]
    exact nodup_zipIdx lane.1.stages
  · refine (pairwise_map.mp (nodup_zipIdx outcomes)).imp fun hne => ?_
    intro place hplace hplace'
    obtain ⟨stage, hstage, rfl⟩ := mem_map.mp hplace
    obtain ⟨stage', hstage', heq⟩ := mem_map.mp hplace'
    obtain ⟨_, -, rfl⟩ := mem_map.mp hstage
    obtain ⟨_, -, rfl⟩ := mem_map.mp hstage'
    exact hne (congrArg Prod.fst heq).symm

theorem indexedStages_fst :
    (indexedStages outcomes).map Prod.fst = outcomes.flatMap LaneOutcome.stages := by
  rw [indexedStages, map_flatMap]
  conv_rhs => rw [← zipIdx_map_fst 0 outcomes, flatMap_map]
  apply congrArg (List.flatMap · _)
  funext lane
  rw [map_map]
  exact zipIdx_map_fst 0 lane.1.stages

variable (ranks : Option (List (Text × ℕ)))

theorem dispatchOrder_perm : (dispatchOrder outcomes ranks).Perm
      ((indexedStages outcomes).filter fun entry => entry.1.isDispatch) := by
  cases ranks with
  | none => exact List.Perm.refl _
  | some ranks => exact perm_insertionSort _ _

theorem mem_dispatchOrder {outcomes : List LaneOutcome} {ranks : Option (List (Text × ℕ))}
    {entry : StageOutcome × ℕ × ℕ} : entry ∈ dispatchOrder outcomes ranks ↔
      stageAt outcomes entry.2 = some entry.1 ∧ entry.1.isDispatch = true := by
  rw [(dispatchOrder_perm outcomes ranks).mem_iff, mem_filter, ← mem_indexedStages]

theorem dispatchOrder_nodup : ((dispatchOrder outcomes ranks).map Prod.snd).Nodup := by
  rw [((dispatchOrder_perm outcomes ranks).map Prod.snd).nodup_iff]
  exact (indexedStages_nodup outcomes).sublist (filter_sublist.map _)

theorem stageAt_throttle (order : List (StageOutcome × ℕ × ℕ)) (maxWaveWidth : ℕ) (place : ℕ × ℕ) :
    stageAt (throttleWaveWidth outcomes order maxWaveWidth) place =
      (stageAt outcomes place).map fun stage =>
        if place ∈ (order.drop maxWaveWidth).map Prod.snd then
          { stage with decision := .notRun (widthReason maxWaveWidth) }
        else stage := by
  rw [stageAt, throttleWaveWidth, List.getElem?_map, List.getElem?_zipIdx, stageAt]
  cases outcomes[place.1]? with
  | none => rfl
  | some outcome =>
    simp only [Option.map_some, Option.bind_some, List.getElem?_map, List.getElem?_zipIdx,
      Nat.zero_add, Option.map_map]
    rfl

theorem filterMap_throttled {outcomes : List LaneOutcome} {order : List (StageOutcome × ℕ × ℕ)}
    (hnodup : (order.map Prod.snd).Nodup)
    (horder : ∀ entry ∈ order, stageAt outcomes entry.2 = some entry.1 ∧ entry.1.isDispatch = true)
    (maxWaveWidth : ℕ) :
    (order.filterMap fun entry =>
      ((stageAt (throttleWaveWidth outcomes order maxWaveWidth) entry.2).filter
        StageOutcome.isDispatch).map StageOutcome.cardId) =
      (order.take maxWaveWidth).map fun entry => entry.1.cardId := by
  have hsplit : order = order.take maxWaveWidth ++ order.drop maxWaveWidth :=
    (take_append_drop ..).symm
  have hdisj : ∀ entry ∈ order.take maxWaveWidth,
      entry.2 ∉ (order.drop maxWaveWidth).map Prod.snd := by
    rw [hsplit, map_append, nodup_append] at hnodup
    intro entry hentry hdrop
    exact hnodup.2.2 _ (mem_map_of_mem hentry) _ hdrop rfl
  have hstage : ∀ entry ∈ order,
      ((stageAt (throttleWaveWidth outcomes order maxWaveWidth) entry.2).filter
        StageOutcome.isDispatch).map StageOutcome.cardId =
      if entry.2 ∈ (order.drop maxWaveWidth).map Prod.snd then none else some entry.1.cardId := by
    intro entry hentry
    obtain ⟨hat, hruns⟩ := horder entry hentry
    rw [stageAt_throttle, hat, Option.map_some]
    split_ifs
    · rfl
    · rw [Option.filter_some, if_pos hruns]
      rfl
  rw [filterMap_congr hstage]
  conv_lhs => rw [hsplit, filterMap_append]
  have hdrop : (order.drop maxWaveWidth).filterMap (fun entry =>
      if entry.2 ∈ (order.drop maxWaveWidth).map Prod.snd then none
      else some entry.1.cardId) = [] := by
    apply filterMap_eq_nil_iff.mpr
    exact fun entry hentry => if_pos (mem_map_of_mem hentry)
  have htake : (order.take maxWaveWidth).filterMap (fun entry =>
      if entry.2 ∈ (order.drop maxWaveWidth).map Prod.snd then none
      else some entry.1.cardId) = (order.take maxWaveWidth).map fun entry => entry.1.cardId := by
    have hkept : (order.take maxWaveWidth).filterMap (fun entry =>
        if entry.2 ∈ (order.drop maxWaveWidth).map Prod.snd then none
        else some entry.1.cardId) =
        (order.take maxWaveWidth).filterMap (some ∘ fun entry => entry.1.cardId) :=
      filterMap_congr fun entry hentry => if_neg (hdisj entry hentry)
    rw [hkept, filterMap_eq_map]
  rw [← hsplit, hdrop, htake, append_nil]

variable (overlapOrder : List WaveOrder)

theorem stampRanks_stages : ((stampRanks outcomes overlapOrder).1.flatMap LaneOutcome.stages) =
      (outcomes.flatMap LaneOutcome.stages).map fun stage =>
        if overlapOrder = [] then stage
        else { stage with
          serialRank := rankOf (overlapOrder.flatMap WaveOrder.ranks) stage.cardId } := by
  rw [stampRanks]
  split_ifs
  · exact (map_id _).symm
  · rw [flatMap_map, map_flatMap]
    rfl

theorem runnable_stampRanks :
    runnable (stampRanks outcomes overlapOrder).1 = runnable outcomes := by
  rw [runnable, stampRanks_stages, filter_map, map_map, runnable]
  have hruns : (StageOutcome.isDispatch ∘ fun stage : StageOutcome =>
      if overlapOrder = [] then stage
      else { stage with
        serialRank := rankOf (overlapOrder.flatMap WaveOrder.ranks) stage.cardId }) =
      StageOutcome.isDispatch := by
    funext stage
    simp only [Function.comp]
    split_ifs <;> rfl
  rw [hruns]
  apply map_congr_left
  intro stage _
  simp only [Function.comp]
  split_ifs <;> rfl

theorem orderOf_perm (board : TaskBoard) (lanes : List Lane) (overlap : Option OverlapInputs) :
    ((submissionOrder board lanes overlap).map fun entry => entry.1.cardId).Perm
      (runnable (decided board lanes)) := by
  rw [← runnable_stampRanks _ (overlapOrderOf board lanes overlap), runnable, ← indexedStages_fst,
    filter_map, map_map]
  exact (dispatchOrder_perm _ _).map _

theorem planSchedule_ok {board : TaskBoard} {lanes : List Lane} {limits : WaveLimits}
    (overlap : Option OverlapInputs) (hboard : validateDependencies board = .ok ())
    (hlanes : validateLanes board lanes limits = .ok ()) :
    ∃ schedule, planScheduleWithOverlap board lanes limits overlap = .ok schedule ∧
      schedule.waves = levelWaves (cardLinks board) ∧
      schedule.overlapOrder = overlapOrderOf board lanes overlap ∧
      schedule.lanes = ((throttleWaveWidth
        (stampRanks (decided board lanes) (overlapOrderOf board lanes overlap)).1
        (submissionOrder board lanes overlap) limits.maxWaveWidth).map stampStatus) ∧
      schedule.dispatch = ((submissionOrder board lanes overlap).take limits.maxWaveWidth).map
        fun entry => entry.1.cardId := by
  rw [planScheduleWithOverlap, deriveWaves_ok hboard, hlanes]
  refine ⟨_, rfl, rfl, rfl, rfl, ?_⟩
  apply filterMap_throttled (dispatchOrder_nodup _ _)
  exact fun entry hentry => mem_dispatchOrder.mp hentry

end WaveDispatch
