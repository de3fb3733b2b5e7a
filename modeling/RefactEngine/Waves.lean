import RefactEngine.BoardValidation
import RefactEngine.KahnLevels
import RefactEngine.OverlapOrder

/-! # Waves and lanes of a board

The waves of a board are the levels of its dependencies. Lanes name cards to submit; a stage is
dispatched where the cards of the earlier waves and of its own lane allow it.
-/
namespace Waves

open TaskBoards BoardValidation OverlapOrder

def isTerminalColumn (column : Text) : Bool :=
  column = "done".toList || column = "failed".toList || column = "regressed".toList

def isFailedColumn (column : Text) : Bool :=
  column = "failed".toList || column = "regressed".toList

structure Wave where
  index : ℕ
  cards : List Text
  deriving DecidableEq

def startLeveling (cards : List CardLinks) : KahnLevels.Leveling :=
  let indegree := cards.map fun card => card.dependsOn.length
  ⟨indegree, List.replicate cards.length 0,
    (List.range cards.length).filter fun index => indegree.getD index 0 = 0⟩

def cardLevels (cards : List CardLinks) : List ℕ :=
  (KahnLevels.run (dependents cards) cards.length (startLeveling cards)).levels

variable (board : TaskBoard)

def deriveWaves : Except Text (List Wave) :=
  match validateDependencies board with
  | .error reason => .error reason
  | .ok () =>
    let cards := cardLinks board
    let levels := cardLevels cards
    let depth := (levels.max?.map (· + 1)).getD 0
    .ok ((List.range depth).map fun index =>
      ⟨index, (cards.zipIdx.filter fun entry => levels.getD entry.2 0 = index).map
        fun entry => entry.1.id⟩)

inductive LaneKind where
  | parallel
  | sequential
  | pipeline
  deriving DecidableEq

def LaneKind.asStr : LaneKind → Text
  | .parallel => "parallel".toList
  | .sequential => "sequential".toList
  | .pipeline => "pipeline".toList

def LaneKind.advancesOnePositionAtATime : LaneKind → Bool
  | .parallel => false
  | .sequential => true
  | .pipeline => true

structure LaneStage where
  cardId : Text
  agentId : Option Text
  optional : Bool
  deriving DecidableEq

structure Lane where
  name : Text
  kind : LaneKind
  stages : List LaneStage
  optional : Bool
  deriving DecidableEq

structure WaveLimits where
  maxWaveWidth : ℕ
  maxPipelineDepth : ℕ
  deriving DecidableEq

inductive PipelineCursor where
  | «at» (position : ℕ)
  | blocked (position : ℕ) (cardId : Text)
  | complete
  deriving DecidableEq

def columnOf (cardId : Text) : Text :=
  ((getCard board cardId).map BoardCard.column).getD []

def cursorFrom (board : TaskBoard) : ℕ → List LaneStage → PipelineCursor
  | _, [] => .complete
  | position, stage :: rest =>
    let column := columnOf board stage.cardId
    if isFailedColumn column then .blocked position stage.cardId
    else if !isTerminalColumn column then .at position
    else cursorFrom board (position + 1) rest

def pipelineCursor (stages : List LaneStage) : PipelineCursor :=
  cursorFrom board 0 stages

inductive StageDecision where
  | dispatch
  | notRun (reason : Text)
  | blocked (reason : Text)
  deriving DecidableEq

structure StageOutcome where
  cardId : Text
  agentId : Option Text
  position : ℕ
  wave : ℕ
  decision : StageDecision
  serialRank : Option ℕ
  deriving DecidableEq

inductive LaneStatus where
  | dispatched
  | notRun
  deriving DecidableEq

structure LaneOutcome where
  lane : Text
  kind : LaneKind
  status : LaneStatus
  reason : Option Text
  optional : Bool
  stages : List StageOutcome
  deriving DecidableEq

structure WaveGate where
  frontier : ℕ
  holding : List (List Text)
  failed : List (List Text)
  blockedAt : Option ℕ

variable (waves : List Wave)

def waveGate (optional : List Text) : WaveGate :=
  let holding := waves.map fun wave => wave.cards.filter fun cardId =>
    cardId ∉ optional && !isFailedColumn (columnOf board cardId) &&
      !isTerminalColumn (columnOf board cardId)
  let failed := waves.map fun wave => wave.cards.filter fun cardId =>
    cardId ∉ optional && isFailedColumn (columnOf board cardId)
  ⟨(holding.findIdx? fun cards => cards ≠ []).getD waves.length, holding, failed,
    failed.findIdx? fun cards => cards ≠ []⟩

def number (n : ℕ) : Text := (toString n).toList

def quoted (text : Text) : Text := '\'' :: text ++ ['\'']

def placeStages (board : TaskBoard) (lane : Text) : List Text → List LaneStage →
    Except Text (List Text)
  | placed, [] => .ok placed
  | placed, stage :: rest =>
    if (getCard board stage.cardId).isNone then
      .error ("lane ".toList ++ quoted lane ++ " stage references unknown card ".toList ++
        stage.cardId)
    else if stage.cardId ∈ placed then
      .error ("card ".toList ++ stage.cardId ++ " is placed in more than one lane stage".toList)
    else placeStages board lane (stage.cardId :: placed) rest

def validateLanesFrom (board : TaskBoard) (limits : WaveLimits) :
    List Text → List Text → List Lane → Except Text Unit
  | _, _, [] => .ok ()
  | names, placed, lane :: rest =>
    if trim lane.name = [] then .error "lane name cannot be empty".toList
    else if lane.name ∈ names then
      .error ("lane ".toList ++ quoted lane.name ++ " is declared more than once".toList)
    else if lane.kind = .pipeline ∧ limits.maxPipelineDepth < lane.stages.length then
      .error ("pipeline lane ".toList ++ quoted lane.name ++ " declares ".toList ++
        number lane.stages.length ++
        " stages, exceeding the configured maximum pipeline depth of ".toList ++
        number limits.maxPipelineDepth)
    else
      match placeStages board lane.name placed lane.stages with
      | .error reason => .error reason
      | .ok placed => validateLanesFrom board limits (lane.name :: names) placed rest

variable (lanes : List Lane) (limits : WaveLimits)

def validateLanes :
    Except Text Unit :=
  validateLanesFrom board limits [] [] lanes

def terminalOrDispatch (stage : LaneStage) : StageDecision :=
  let column := columnOf board stage.cardId
  if isTerminalColumn column then
    .notRun ("card ".toList ++ stage.cardId ++ " is already in ".toList ++ quoted column)
  else .dispatch

def laneLabel (lane : Lane) : Text := lane.kind.asStr ++ " lane ".toList ++ quoted lane.name

def decideAt (lane : Lane) (cursor : PipelineCursor) (position : ℕ) : StageDecision :=
  match cursor with
  | .complete => .notRun (laneLabel lane ++ " has no remaining stage".toList)
  | .blocked failedPosition cardId =>
    .blocked (laneLabel lane ++ " stopped at position ".toList ++ number failedPosition ++
      ": card ".toList ++ cardId ++ " failed".toList)
  | .at currentPosition =>
    if position = currentPosition then .dispatch
    else if position < currentPosition then
      .notRun (laneLabel lane ++ " already passed position ".toList ++ number position)
    else .notRun (laneLabel lane ++ " is at position ".toList ++ number currentPosition)

def commaJoin (cards : List Text) : Text := ", ".toList.intercalate cards

def decideInLane (lane : Lane) (cursor : Option PipelineCursor)
    (position : ℕ) (stage : LaneStage) : StageDecision :=
  match cursor with
  | some cursor => decideAt lane cursor position
  | none => terminalOrDispatch board stage

variable (gate : WaveGate)

def decideBehindFrontier (lane : Lane)
    (cursor : Option PipelineCursor) (position : ℕ) (stage : LaneStage) (wave : ℕ) :
    StageDecision :=
  if gate.frontier < wave then
    .notRun ("wave ".toList ++ number gate.frontier ++ " is still running required card(s) ".toList
      ++ ((gate.holding[gate.frontier]?).map commaJoin).getD [])
  else decideInLane board lane cursor position stage

def decideStage (lane : Lane)
    (cursor : Option PipelineCursor) (position : ℕ) (stage : LaneStage) (wave : ℕ) :
    StageDecision :=
  match gate.blockedAt with
  | some blocked =>
    if blocked < wave then
      .blocked ("wave ".toList ++ number blocked ++ " required card(s) ".toList ++
        commaJoin (gate.failed.getD blocked []) ++ " failed".toList)
    else decideBehindFrontier board gate lane cursor position stage wave
  | none => decideBehindFrontier board gate lane cursor position stage wave

structure WaveSchedule where
  waves : List Wave
  admittedWave : Option ℕ
  lanes : List LaneOutcome
  dispatch : List Text
  overlapOrder : List WaveOrder
  deriving DecidableEq

def optionalCards : List Text :=
  lanes.flatMap fun lane =>
    (lane.stages.filter fun stage => lane.optional || stage.optional).map LaneStage.cardId

def waveOf (cardId : Text) : ℕ :=
  ((waves.reverse.find? fun wave => cardId ∈ wave.cards).map Wave.index).getD 0

def decideLane (lane : Lane) :
    LaneOutcome :=
  let cursor :=
    if lane.kind.advancesOnePositionAtATime then some (pipelineCursor board lane.stages) else none
  { lane := lane.name
    kind := lane.kind
    status := .notRun
    reason := none
    optional := lane.optional
    stages := lane.stages.zipIdx.map fun entry =>
      let wave := waveOf waves entry.1.cardId
      { cardId := entry.1.cardId
        agentId := entry.1.agentId
        position := entry.2
        wave := wave
        decision := decideStage board gate lane cursor entry.2 entry.1 wave
        serialRank := none } }

def StageOutcome.isDispatch (stage : StageOutcome) : Bool := stage.decision = .dispatch

variable (outcomes : List LaneOutcome)

def orderDispatchByWave (inputs : OverlapInputs) :
    List WaveOrder :=
  let stages := (outcomes.flatMap LaneOutcome.stages).filter StageOutcome.isDispatch
  let waves := (stages.map StageOutcome.wave).foldl SortedSet.insert SortedSet.empty
  waves.elems.map fun wave =>
    orderWave wave ((stages.filter fun stage => stage.wave = wave).map StageOutcome.cardId) inputs

def stampLane (ranks : List (Text × ℕ)) (outcome : LaneOutcome) : LaneOutcome :=
  { outcome with
    stages := outcome.stages.map fun stage =>
      { stage with serialRank := rankOf ranks stage.cardId } }

def stampRanks (overlapOrder : List WaveOrder) :
    List LaneOutcome × Option (List (Text × ℕ)) :=
  if overlapOrder = [] then (outcomes, none)
  else
    let ranks := overlapOrder.flatMap WaveOrder.ranks
    (outcomes.map (stampLane ranks), some ranks)

def indexedStages : List (StageOutcome × ℕ × ℕ) :=
  outcomes.zipIdx.flatMap fun lane => lane.1.stages.zipIdx.map fun stage =>
    (stage.1, lane.2, stage.2)

def submissionKey (ranks : List (Text × ℕ)) (stage : StageOutcome) : ℕ ×ₗ ℕ :=
  toLex (stage.wave, (rankOf ranks stage.cardId).getD 0)

def dispatchOrder (ranks : Option (List (Text × ℕ))) :
    List (StageOutcome × ℕ × ℕ) :=
  let order := (indexedStages outcomes).filter fun entry => entry.1.isDispatch
  match ranks with
  | none => order
  | some ranks => order.insertionSort fun one other =>
    submissionKey ranks one.1 ≤ submissionKey ranks other.1

def widthReason (maxWaveWidth : ℕ) : Text :=
  "wave width limit of ".toList ++ number maxWaveWidth ++
    " card(s) per submission was reached".toList

def throttleWaveWidth (order : List (StageOutcome × ℕ × ℕ))
    (maxWaveWidth : ℕ) : List LaneOutcome :=
  outcomes.zipIdx.map fun lane =>
    { lane.1 with
      stages := lane.1.stages.zipIdx.map fun stage =>
        if (lane.2, stage.2) ∈ (order.drop maxWaveWidth).map Prod.snd then
          { stage.1 with decision := .notRun (widthReason maxWaveWidth) }
        else stage.1 }

def laneNotRunReason (outcome : LaneOutcome) : Option Text :=
  match outcome.stages with
  | [] => some ("lane ".toList ++ quoted outcome.lane ++ " declares no stages".toList)
  | stage :: _ =>
    match stage.decision with
    | .notRun reason => some reason
    | .blocked reason => some reason
    | .dispatch => none

def stampStatus (outcome : LaneOutcome) : LaneOutcome :=
  if outcome.stages.any StageOutcome.isDispatch then
    { outcome with status := .dispatched, reason := none }
  else { outcome with status := .notRun, reason := laneNotRunReason outcome }

def stageAt (place : ℕ × ℕ) : Option StageOutcome :=
  (outcomes[place.1]?).bind fun outcome => outcome.stages[place.2]?

def planScheduleWithOverlap
    (overlap : Option OverlapInputs) : Except Text WaveSchedule :=
  match deriveWaves board with
  | .error reason => .error reason
  | .ok waves =>
    match validateLanes board lanes limits with
    | .error reason => .error reason
    | .ok () =>
      let gate := waveGate board waves (optionalCards lanes)
      let decided := lanes.map (decideLane board waves gate)
      let overlapOrder :=
        match overlap.filter fun inputs => !inputs.isEmpty with
        | some inputs => orderDispatchByWave decided inputs
        | none => []
      let (stamped, ranks) := stampRanks decided overlapOrder
      let order := dispatchOrder stamped ranks
      let throttled := throttleWaveWidth stamped order limits.maxWaveWidth
      let dispatch := order.filterMap fun entry =>
        ((stageAt throttled entry.2).filter StageOutcome.isDispatch).map StageOutcome.cardId
      let admitted :=
        match gate.blockedAt with
        | none => gate.frontier
        | some blocked => min gate.frontier blocked
      .ok ⟨waves, if admitted < waves.length then some admitted else none,
        throttled.map stampStatus, dispatch, overlapOrder⟩

def planSchedule :
    Except Text WaveSchedule :=
  planScheduleWithOverlap board lanes limits none

def stageRanks (schedule : WaveSchedule) : List (Text × ℕ × ℕ) :=
  (schedule.lanes.flatMap LaneOutcome.stages).filterMap fun stage =>
    stage.serialRank.map fun rank => (stage.cardId, stage.wave, rank)

def keyOf (ranks : List (Text × ℕ × ℕ)) (cardId : Text) : Option (ℕ × ℕ) :=
  (ranks.reverse.find? fun entry => entry.1 = cardId).map Prod.snd

structure Grouping where
  groups : List (List Text)
  current : Option (ℕ × ℕ)

/-- A card joins the last group if it has the key of that group, or both have none. -/
def submit (ranks : List (Text × ℕ × ℕ)) (grouping : Grouping) (cardId : Text) : Grouping :=
  let key := keyOf ranks cardId
  match grouping.groups.getLast? with
  | some group =>
    if grouping.current = key then
      { grouping with groups := grouping.groups.dropLast ++ [group ++ [cardId]] }
    else ⟨grouping.groups ++ [[cardId]], key⟩
  | none => ⟨grouping.groups ++ [[cardId]], key⟩

def WaveSchedule.submissionGroups (schedule : WaveSchedule) : List (List Text) :=
  (schedule.dispatch.foldl (submit (stageRanks schedule)) ⟨[], none⟩).groups

end Waves
