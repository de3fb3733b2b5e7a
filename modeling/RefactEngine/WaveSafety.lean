import RefactEngine.WaveDispatch

/-! # What is submitted is ready

A card is submitted when the required cards of the earlier waves and the earlier stages of its lane
are done.
-/
namespace WaveSafety

open TaskBoards BoardValidation OverlapOrder Waves WaveLevels WaveDispatch List

def placedCards (lanes : List Lane) : List Text :=
  lanes.flatMap fun lane => lane.stages.map LaneStage.cardId

variable {stages : List LaneStage}

theorem placeStages_ok {board : TaskBoard} {lane : Text} {placed placed' : List Text}
    (h : placeStages board lane placed stages = .ok placed') :
    (stages.map LaneStage.cardId).Nodup ∧ (∀ stage ∈ stages, stage.cardId ∉ placed) ∧
      ∀ cardId, cardId ∈ placed' ↔ cardId ∈ placed ∨ cardId ∈ stages.map LaneStage.cardId := by
  induction stages generalizing placed with
  | nil =>
    cases h
    exact ⟨nodup_nil, fun _ hin => absurd hin not_mem_nil, fun cardId => by simp⟩
  | cons stage rest ih =>
    rw [placeStages] at h
    split_ifs at h with hunk hplaced
    obtain ⟨hnodup, hnew, hmem⟩ := ih h
    refine ⟨nodup_cons.mpr ⟨fun hin => ?_, hnodup⟩, ?_, fun cardId => ?_⟩
    · obtain ⟨other, hother, heq⟩ := mem_map.mp hin
      exact hnew other hother (heq ▸ mem_cons_self)
    · rintro other hother hin
      rcases mem_cons.mp hother with rfl | hother
      · exact hplaced hin
      · exact hnew other hother (mem_cons_of_mem _ hin)
    · rw [hmem, mem_cons, map_cons, mem_cons]
      tauto

theorem validateLanesFrom_ok {board : TaskBoard} {limits : WaveLimits} {names placed : List Text}
    {lanes : List Lane} (h : validateLanesFrom board limits names placed lanes = .ok ()) :
    (placedCards lanes).Nodup ∧ ∀ cardId ∈ placedCards lanes, cardId ∉ placed := by
  induction lanes generalizing names placed with
  | nil => exact ⟨nodup_nil, fun _ hin => absurd hin not_mem_nil⟩
  | cons lane rest ih =>
    rw [validateLanesFrom] at h
    split_ifs at h
    cases hstages : placeStages board lane.name placed lane.stages with
    | error reason => simp [hstages] at h
    | ok placed' =>
      rw [hstages] at h
      obtain ⟨hnodup, hnew, hmem⟩ := placeStages_ok hstages
      obtain ⟨hrest, hdisj⟩ := ih h
      have hsplit : placedCards (lane :: rest) =
          lane.stages.map LaneStage.cardId ++ placedCards rest := flatMap_cons
      rw [hsplit]
      refine ⟨hnodup.append hrest fun cardId hin hin' => ?_, fun cardId hin hplaced => ?_⟩
      · exact hdisj cardId hin' ((hmem cardId).mpr (.inr hin))
      · rcases mem_append.mp hin with hin | hin
        · obtain ⟨stage, hstage, rfl⟩ := mem_map.mp hin
          exact hnew stage hstage hplaced
        · exact hdisj cardId hin ((hmem cardId).mpr (.inl hplaced))

variable {stage : LaneStage} {position : ℕ} {lane : Lane}

theorem place_unique {lanes : List Lane} (hnodup : (placedCards lanes).Nodup) {lane' : Lane}
    (hlane : lane ∈ lanes) (hlane' : lane' ∈ lanes) {position' : ℕ} {stage' : LaneStage}
    (hstage : lane.stages[position]? = some stage)
    (hstage' : lane'.stages[position']? = some stage') (heq : stage.cardId = stage'.cardId) :
    lane = lane' ∧ position = position' := by
  obtain ⟨hstages, hdisj⟩ := nodup_flatMap.mp hnodup
  have hmem : stage.cardId ∈ lane.stages.map LaneStage.cardId :=
    mem_map_of_mem (mem_of_getElem? hstage)
  have hmem' : stage.cardId ∈ lane'.stages.map LaneStage.cardId :=
    heq ▸ mem_map_of_mem (mem_of_getElem? hstage')
  have hsame : lane = lane' := by
    by_contra hne
    have : Std.Symm (Function.onFun List.Disjoint fun lane : Lane =>
        lane.stages.map LaneStage.cardId) := ⟨fun _ _ h => List.Disjoint.symm h⟩
    exact hdisj.forall hlane hlane' hne hmem hmem'
  subst hsame
  refine ⟨rfl, ?_⟩
  have hget : (lane.stages.map LaneStage.cardId)[position]? = some stage.cardId := by
    rw [List.getElem?_map, hstage]
    rfl
  have hget' : (lane.stages.map LaneStage.cardId)[position']? = some stage.cardId := by
    rw [List.getElem?_map, hstage', heq]
    rfl
  obtain ⟨hlt, hat⟩ := List.getElem?_eq_some_iff.mp hget
  obtain ⟨hlt', hat'⟩ := List.getElem?_eq_some_iff.mp hget'
  exact ((hstages lane hlane).getElem_inj_iff).mp (hat.trans hat'.symm)

theorem done_of_terminal {column : Text} (hterm : isTerminalColumn column = true)
    (hfailed : isFailedColumn column = false) : column = done := by
  simp only [isTerminalColumn, isFailedColumn, Bool.or_eq_true, Bool.or_eq_false_iff,
    decide_eq_true_eq, decide_eq_false_iff_not] at hterm hfailed
  rcases hterm with (hdone | hother) | hother
  · exact hdone
  · exact absurd hother hfailed.1
  · exact absurd hother hfailed.2

theorem findIdx_le {α : Type} {p : α → Bool} {l : List α} {k : ℕ}
    (h : k < (l.findIdx? p).getD l.length) {a : α} (hat : l[k]? = some a) : p a = false := by
  obtain ⟨hlt, rfl⟩ := List.getElem?_eq_some_iff.mp hat
  cases hfind : l.findIdx? p with
  | none => exact List.findIdx?_eq_none_iff.mp hfind _ (getElem_mem hlt)
  | some index =>
    rw [hfind] at h
    obtain ⟨_, _, hbef⟩ := List.findIdx?_eq_some_iff_getElem.mp hfind
    simpa using hbef k h

def Open (gate : WaveGate) (wave : ℕ) : Prop :=
  wave ≤ gate.frontier ∧ ∀ blocked, gate.blockedAt = some blocked → wave ≤ blocked

variable {waves : List Wave} {wave : Wave}

theorem kept_eq_nil (kept : Wave → List Text) {k : ℕ} (hwave : waves[k]? = some wave)
    (hbef : ∀ first, (waves.map kept).findIdx? (· ≠ []) = some first → k < first) :
    kept wave = [] := by
  have hlt : k < (waves.map kept).length := by
    rw [length_map]
    exact (List.getElem?_eq_some_iff.mp hwave).1
  have hat : (waves.map kept)[k]? = some (kept wave) := by
    rw [List.getElem?_map, hwave, Option.map_some]
  have hk : k < ((waves.map kept).findIdx? (· ≠ [])).getD (waves.map kept).length := by
    cases hfirst : (waves.map kept).findIdx? (· ≠ []) with
    | none => exact hlt
    | some first => exact hbef first hfirst
  simpa using findIdx_le hk hat

theorem waveGate_done {board : TaskBoard} {optional : List Text}
    {index : ℕ} (hopen : Open (waveGate board waves optional) index) {k : ℕ}
    (hwave : waves[k]? = some wave) (hk : k < index) {cardId : Text} (hcard : cardId ∈ wave.cards)
    (hreq : cardId ∉ optional) : columnOf board cardId = done := by
  have hholding := kept_eq_nil (fun wave => wave.cards.filter fun cardId =>
      cardId ∉ optional && !isFailedColumn (columnOf board cardId) &&
        !isTerminalColumn (columnOf board cardId)) hwave (by
    intro first hfirst
    have hfrontier : (waveGate board waves optional).frontier = first := by
      rw [waveGate]
      dsimp only
      rw [hfirst, Option.getD_some]
    have hle := hopen.1
    omega)
  have hfailed := kept_eq_nil (fun wave => wave.cards.filter fun cardId =>
      cardId ∉ optional && isFailedColumn (columnOf board cardId)) hwave (by
    intro first hfirst
    have hblocked : index ≤ first := hopen.2 first hfirst
    omega)
  have hnot_failed : isFailedColumn (columnOf board cardId) = false := by
    have hnot := filter_eq_nil_iff.mp hfailed cardId hcard
    simpa [hreq] using hnot
  apply done_of_terminal _ hnot_failed
  have hnot := filter_eq_nil_iff.mp hholding cardId hcard
  simpa [hreq, hnot_failed] using hnot

theorem cursorFrom_at {board : TaskBoard} {start : ℕ}
    (h : cursorFrom board start stages = .at position) : ∃ before, position = start + before ∧
      (∀ stage, stages[before]? = some stage →
        isTerminalColumn (columnOf board stage.cardId) = false) ∧
      ∀ j < before, ∀ earlier, stages[j]? = some earlier →
        columnOf board earlier.cardId = done := by
  induction stages generalizing start with
  | nil => cases h
  | cons first rest ih =>
    rw [cursorFrom] at h
    by_cases hfailed : isFailedColumn (columnOf board first.cardId) = true
    · rw [if_pos hfailed] at h
      cases h
    · rw [if_neg hfailed] at h
      cases hterm : isTerminalColumn (columnOf board first.cardId) with
      | false =>
        rw [if_pos (by rw [hterm]; rfl)] at h
        cases h
        refine ⟨0, rfl, fun stage hstage => ?_, fun j hj => absurd hj (Nat.not_lt_zero j)⟩
        cases hstage
        exact hterm
      | true =>
        rw [if_neg (by rw [hterm]; exact Bool.false_ne_true)] at h
        obtain ⟨before, hposition, hlive, hdone⟩ := ih h
        refine ⟨before + 1, by omega, hlive, fun j hj earlier hearly => ?_⟩
        cases j with
        | zero =>
          cases hearly
          exact done_of_terminal hterm (Bool.eq_false_iff.mpr hfailed)
        | succ j => exact hdone j (by omega) earlier hearly

theorem open_of_dispatch {board : TaskBoard} {gate : WaveGate} {cursor : Option PipelineCursor}
    {wave : ℕ} (h : decideStage board gate lane cursor position stage wave = .dispatch) :
    Open gate wave ∧ decideInLane board lane cursor position stage = .dispatch := by
  have hbehind : ∀ {decision}, decideBehindFrontier board gate lane cursor position stage wave =
      decision → decision = .dispatch →
      wave ≤ gate.frontier ∧ decideInLane board lane cursor position stage = .dispatch := by
    rintro _ rfl hdispatch
    rw [decideBehindFrontier] at hdispatch
    split_ifs at hdispatch with hfrontier
    exact ⟨not_lt.mp hfrontier, hdispatch⟩
  rw [decideStage] at h
  cases hblocked : gate.blockedAt with
  | none =>
    rw [hblocked] at h
    obtain ⟨hfrontier, hlane⟩ := hbehind rfl h
    exact ⟨⟨hfrontier, fun blocked hat => by rw [hblocked] at hat; cases hat⟩, hlane⟩
  | some first =>
    simp only [hblocked] at h
    split_ifs at h with hlate
    obtain ⟨hfrontier, hlane⟩ := hbehind rfl h
    refine ⟨⟨hfrontier, fun blocked hat => ?_⟩, hlane⟩
    obtain rfl := Option.some.inj (hblocked.symm.trans hat)
    exact not_lt.mp hlate

theorem cursor_of_dispatch {board : TaskBoard} {cursor : PipelineCursor}
    (h : decideInLane board lane (some cursor) position stage = .dispatch) :
    cursor = .at position := by
  cases cursor with
  | complete => cases h
  | blocked failedPosition cardId => cases h
  | «at» currentPosition =>
    simp only [decideInLane, decideAt] at h
    split_ifs at h with hposition
    rw [hposition]

def laneCursor (board : TaskBoard) (lane : Lane) : Option PipelineCursor :=
  if lane.kind.advancesOnePositionAtATime then some (pipelineCursor board lane.stages) else none

theorem live_of_dispatch {board : TaskBoard} (hstage : lane.stages[position]? = some stage)
    (h : decideInLane board lane (laneCursor board lane) position stage = .dispatch) :
    isTerminalColumn (columnOf board stage.cardId) = false := by
  rw [laneCursor] at h
  split_ifs at h
  · obtain ⟨before, hposition, hlive, -⟩ := cursorFrom_at (cursor_of_dispatch h)
    obtain rfl : position = before := by omega
    exact hlive stage hstage
  · simp only [decideInLane, terminalOrDispatch] at h
    split_ifs at h with hterm
    exact Bool.eq_false_iff.mpr hterm

def decisionOf (board : TaskBoard) (lanes : List Lane) (lane : Lane) (position : ℕ)
    (stage : LaneStage) : StageDecision :=
  decideStage board (gateOf board lanes) lane (laneCursor board lane) position stage
    (waveOf (levelWaves (cardLinks board)) stage.cardId)

theorem mem_runnable {board : TaskBoard} {lanes : List Lane} {cardId : Text} :
    cardId ∈ runnable (decided board lanes) ↔ ∃ lane ∈ lanes, ∃ position stage,
      lane.stages[position]? = some stage ∧ stage.cardId = cardId ∧
        decisionOf board lanes lane position stage = .dispatch := by
  rw [runnable, mem_map]
  constructor
  · rintro ⟨outcome, hfilt, rfl⟩
    obtain ⟨hin, hruns⟩ := mem_filter.mp hfilt
    obtain ⟨lane', hlane', hstage⟩ := mem_flatMap.mp hin
    obtain ⟨lane, hlane, rfl⟩ := mem_map.mp hlane'
    obtain ⟨⟨stage, position⟩, hentry, rfl⟩ := mem_map.mp hstage
    exact ⟨lane, hlane, position, stage, List.mk_mem_zipIdx_iff_getElem?.mp hentry, rfl,
      of_decide_eq_true hruns⟩
  · rintro ⟨lane, hlane, position, stage, hstage, rfl, hruns⟩
    refine ⟨_, mem_filter.mpr ⟨mem_flatMap.mpr ⟨_, mem_map_of_mem hlane,
      mem_map_of_mem (List.mk_mem_zipIdx_iff_getElem?.mpr hstage)⟩, ?_⟩, rfl⟩
    exact decide_eq_true hruns

theorem runnable_nodup {board : TaskBoard} {lanes : List Lane}
    (hnodup : (placedCards lanes).Nodup) : (runnable (decided board lanes)).Nodup := by
  have hids : ((decided board lanes).flatMap LaneOutcome.stages).map StageOutcome.cardId =
      placedCards lanes := by
    rw [decided, flatMap_map, map_flatMap, placedCards]
    apply congrArg (List.flatMap · lanes)
    funext lane
    simp only [decideLane, map_map]
    conv_rhs => rw [← zipIdx_map_fst 0 lane.stages, map_map]
    rfl
  rw [← hids] at hnodup
  exact hnodup.sublist (filter_sublist.map _)

structure ScheduleSafe (board : TaskBoard) (lanes : List Lane) (limits : WaveLimits)
    (schedule : WaveSchedule) : Prop where
  width : schedule.dispatch.length ≤ limits.maxWaveWidth
  once : schedule.dispatch.Nodup
  live : ∀ cardId ∈ schedule.dispatch, isTerminalColumn (columnOf board cardId) = false
  waves : ∀ cardId ∈ schedule.dispatch, ∀ wave ∈ schedule.waves,
    wave.index < waveOf schedule.waves cardId → ∀ other ∈ wave.cards,
      other ∉ optionalCards lanes → columnOf board other = done
  dependencies : ∀ card ∈ board.cards, card.id ∈ schedule.dispatch →
    ∀ dependency ∈ card.dependsOn, dependency ∉ optionalCards lanes →
      columnOf board dependency = done
  single : ∀ lane ∈ lanes, lane.kind.advancesOnePositionAtATime = true →
    ∀ (position position' : ℕ) (stage stage' : LaneStage), lane.stages[position]? = some stage →
      lane.stages[position']? = some stage' → stage.cardId ∈ schedule.dispatch →
        stage'.cardId ∈ schedule.dispatch → position = position'
  inOrder : ∀ lane ∈ lanes, lane.kind.advancesOnePositionAtATime = true →
    ∀ (position before : ℕ) (stage earlier : LaneStage), lane.stages[position]? = some stage →
      stage.cardId ∈ schedule.dispatch → before < position →
        lane.stages[before]? = some earlier → columnOf board earlier.cardId = done

section Submitted

variable {board : TaskBoard} {lanes : List Lane} {cardId : Text}

theorem waves_done (h : cardId ∈ runnable (decided board lanes)) {wave : Wave}
    (hwave : wave ∈ levelWaves (cardLinks board))
    (hlt : wave.index < waveOf (levelWaves (cardLinks board)) cardId) {other : Text}
    (hother : other ∈ wave.cards) (hreq : other ∉ optionalCards lanes) :
    columnOf board other = done := by
  obtain ⟨lane, -, position, stage, -, rfl, hruns⟩ := mem_runnable.mp h
  obtain ⟨k, hk⟩ := List.getElem?_of_mem hwave
  have hindex : wave.index = k := by
    have hmap : ((levelWaves (cardLinks board)).map Wave.index)[k]? = some wave.index := by
      rw [List.getElem?_map, hk]
      rfl
    rw [index_levelWaves] at hmap
    obtain ⟨hlt, hget⟩ := List.getElem?_eq_some_iff.mp hmap
    exact hget.symm.trans (getElem_range _)
  exact waveGate_done (open_of_dispatch hruns).1 hk (hindex ▸ hlt) hother hreq

theorem dependencies_done (hacc : Accepted (cardLinks board)) {card : BoardCard}
    (hcard : card ∈ board.cards) (h : card.id ∈ runnable (decided board lanes)) {dependency : Text}
    (hdep : dependency ∈ card.dependsOn) (hreq : dependency ∉ optionalCards lanes) :
    columnOf board dependency = done := by
  have hknown := hacc.dependency_known hcard hdep
  obtain ⟨wave, hwave, hin⟩ := hacc.exists_wave hknown
  refine waves_done h hwave ?_ hin hreq
  have hin_card := mem_ids.mpr ⟨card, hcard, rfl⟩
  rw [hacc.waveOf_eq hin_card, ← ((hacc.mem_wave hwave).mp hin).2]
  exact (hacc.longest_chain hin_card).2
    (.succ hcard hdep (hacc.longest_chain hknown).1)

theorem decision_at (hnodup : (placedCards lanes).Nodup) {lane : Lane} (hlane : lane ∈ lanes)
    {position : ℕ} {stage : LaneStage} (hstage : lane.stages[position]? = some stage)
    (h : stage.cardId ∈ runnable (decided board lanes)) :
    decideInLane board lane (laneCursor board lane) position stage = .dispatch := by
  obtain ⟨lane', hlane', position', stage', hstage', heq, hruns⟩ := mem_runnable.mp h
  obtain ⟨rfl, rfl⟩ := place_unique hnodup hlane' hlane hstage' hstage heq
  obtain rfl := Option.some.inj (hstage'.symm.trans hstage)
  exact (open_of_dispatch hruns).2

theorem cursor_at (hnodup : (placedCards lanes).Nodup) {lane : Lane} (hlane : lane ∈ lanes)
    (hkind : lane.kind.advancesOnePositionAtATime = true) {position : ℕ} {stage : LaneStage}
    (hstage : lane.stages[position]? = some stage)
    (h : stage.cardId ∈ runnable (decided board lanes)) :
    pipelineCursor board lane.stages = .at position := by
  have hruns := decision_at hnodup hlane hstage h
  rw [laneCursor, if_pos hkind] at hruns
  exact cursor_of_dispatch hruns

end Submitted

/-- A schedule submits no card before the required cards it waits for, with overlaps or without. -/
theorem scheduleSafe {board : TaskBoard} {lanes : List Lane} {limits : WaveLimits}
    (overlap : Option OverlapInputs) (hboard : validateDependencies board = .ok ())
    (hlanes : validateLanes board lanes limits = .ok ()) :
    ∃ schedule, planScheduleWithOverlap board lanes limits overlap = .ok schedule ∧
      ScheduleSafe board lanes limits schedule := by
  obtain ⟨schedule, hok, hwaves, -, -, hdispatch⟩ := planSchedule_ok overlap hboard hlanes
  have hacc := accepted_of_validate hboard
  have hnodup := (validateLanesFrom_ok hlanes).1
  have hperm := orderOf_perm board lanes overlap
  have hsublist : schedule.dispatch.Sublist
      ((submissionOrder board lanes overlap).map fun entry => entry.1.cardId) :=
    hdispatch ▸ (take_sublist _ _).map _
  have hruns : ∀ {cardId}, cardId ∈ schedule.dispatch →
      cardId ∈ runnable (decided board lanes) := fun h => hperm.mem_iff.mp (hsublist.subset h)
  refine ⟨schedule, hok, ?_⟩
  constructor
  case width =>
    rw [hdispatch, length_map, length_take]
    exact Nat.min_le_left _ _
  case once => exact (hperm.nodup_iff.mpr (runnable_nodup hnodup)).sublist hsublist
  case live =>
    intro cardId h
    obtain ⟨lane, hlane, position, stage, hstage, rfl, -⟩ := mem_runnable.mp (hruns h)
    exact live_of_dispatch hstage (decision_at hnodup hlane hstage (hruns h))
  case waves =>
    intro cardId h wave hwave hlt other hother hreq
    rw [hwaves] at hwave hlt
    exact waves_done (hruns h) hwave hlt hother hreq
  case dependencies =>
    intro card hcard h dependency hdep hreq
    exact dependencies_done hacc hcard (hruns h) hdep hreq
  case single =>
    intro lane hlane hkind position position' stage stage' hstage hstage' h h'
    have hat := cursor_at hnodup hlane hkind hstage (hruns h)
    have hat' := cursor_at hnodup hlane hkind hstage' (hruns h')
    exact PipelineCursor.at.inj (hat.symm.trans hat')
  case inOrder =>
    intro lane hlane hkind position before stage earlier hstage h hbef hearly
    obtain ⟨count, hposition, -, hdone⟩ :=
      cursorFrom_at (cursor_at hnodup hlane hkind hstage (hruns h))
    exact hdone before (by omega) earlier hearly

/-- The waves of a board follow its dependencies, and no schedule runs ahead of them. -/
theorem plans_respect_dependencies {board : TaskBoard}
    (hboard : validateDependencies board = .ok ()) :
    (∃ waves, deriveWaves board = .ok waves ∧ WavesByChains board waves) ∧
      ∀ lanes limits, validateLanes board lanes limits = .ok () →
        ∃ schedule, planSchedule board lanes limits = .ok schedule ∧
          ScheduleSafe board lanes limits schedule :=
  ⟨⟨_, deriveWaves_ok hboard, wavesByChains (accepted_of_validate hboard)⟩,
    fun _ _ hlanes => scheduleSafe none hboard hlanes⟩

def chainCard (id column : Text) (dependsOn : List Text) : BoardCard :=
  ⟨id, id, column, dependsOn, [], none, none, none⟩

def chainBoard : TaskBoard :=
  { TaskBoard.empty none [] .independentRequired with
    cards := [chainCard ['c'] planned [['b']], chainCard ['a'] done [],
      chainCard ['b'] planned [['a']]] }

def chainLane : Lane :=
  ⟨['l'], .sequential, [⟨['a'], none, false⟩, ⟨['b'], none, false⟩, ⟨['c'], none, false⟩], false⟩

theorem chain_plan_safe :
    (∃ waves, deriveWaves chainBoard = .ok waves ∧ WavesByChains chainBoard waves) ∧
      ∃ schedule, planSchedule chainBoard [chainLane] ⟨4, 4⟩ = .ok schedule ∧
        ScheduleSafe chainBoard [chainLane] ⟨4, 4⟩ schedule := by
  have hboard : validateDependencies chainBoard = .ok () := by decide
  obtain ⟨hwaves, hplan⟩ := plans_respect_dependencies hboard
  exact ⟨hwaves, hplan [chainLane] ⟨4, 4⟩ (by decide)⟩

example : (planSchedule chainBoard [chainLane] ⟨4, 4⟩).toOption.map WaveSchedule.dispatch =
    some [['b']] := by
  decide

structure ReadyCardsResult where
  ready : List Text
  blocked : List Text
  inProgress : List Text
  completed : List Text
  failed : List Text

def ReadyCardsResult.push (doneCards : List Text) (result : ReadyCardsResult) (card : BoardCard) :
    ReadyCardsResult :=
  if card.column = done then { result with completed := result.completed ++ [card.id] }
  else if isFailedColumn card.column then { result with failed := result.failed ++ [card.id] }
  else if card.column = doing then { result with inProgress := result.inProgress ++ [card.id] }
  else if card.column = planned then
    if card.dependsOn.all (· ∈ doneCards) then { result with ready := result.ready ++ [card.id] }
    else { result with blocked := result.blocked ++ [card.id] }
  else result

def doneCards (board : TaskBoard) : List Text :=
  (board.cards.filter fun card => card.column = done).map BoardCard.id

def getReadyCards (board : TaskBoard) : ReadyCardsResult :=
  board.cards.foldl (ReadyCardsResult.push (doneCards board)) ⟨[], [], [], [], []⟩

theorem mem_foldl_push {doneIds : List Text} {cardId : Text} (cards : List BoardCard)
    (result : ReadyCardsResult) :
    cardId ∈ (cards.foldl (ReadyCardsResult.push doneIds) result).blocked ↔
      cardId ∈ result.blocked ∨ ∃ card ∈ cards, card.id = cardId ∧ card.column = planned ∧
        ∃ dependency ∈ card.dependsOn, dependency ∉ doneIds := by
  induction cards generalizing result with
  | nil => simp
  | cons card cards ih =>
    rw [foldl_cons, ih, exists_mem_cons_iff, ← or_assoc]
    refine or_congr_left ?_
    unfold ReadyCardsResult.push
    split_ifs with hdone hfailed hdoing hplanned hall
    · exact (or_iff_left fun h => absurd (h.2.1.symm.trans hdone) (by decide)).symm
    · refine (or_iff_left fun h => ?_).symm
      rw [h.2.1] at hfailed
      exact absurd hfailed (by decide)
    · exact (or_iff_left fun h => absurd (h.2.1.symm.trans hdoing) (by decide)).symm
    · refine (or_iff_left ?_).symm
      rintro ⟨-, -, dependency, hin, hopen⟩
      exact hopen (by simpa using all_eq_true.mp hall dependency hin)
    · simp only [mem_append, mem_singleton, hplanned, true_and, eq_comm]
      refine or_congr_right (and_iff_left ?_).symm
      simpa using hall
    · exact (or_iff_left fun h => hplanned h.2.1).symm

def DependsOn (board : TaskBoard) (cardId dependency : Text) : Prop :=
  ∃ card ∈ board.cards, card.id = cardId ∧ dependency ∈ card.dependsOn

theorem Accepted.level_lt {board : TaskBoard} (h : Accepted (cardLinks board))
    {cardId dependency : Text} (hdep : DependsOn board cardId dependency) :
    level (cardLinks board) dependency < level (cardLinks board) cardId := by
  obtain ⟨card, hcard, rfl, hin⟩ := hdep
  exact (KahnLevels.levels_spec h.graph (fun _ _ => h.deps_lt) h.start h.acyclic).2 _
    (indexOf_lt (mem_ids.mpr ⟨card, hcard, rfl⟩)) |>.1 _
      ((h.mem_deps hcard).mpr ⟨dependency, hin, rfl⟩)

/-- On a board that passes the dependency check no card is blocked by blocked cards alone: its
dependencies lead to a card that is not done and not blocked either. -/
theorem blocked_leads_to_unblocked {board : TaskBoard} (hboard : validateDependencies board = .ok ())
    {cardId : Text} (hblocked : cardId ∈ (getReadyCards board).blocked) :
    ∃ card ∈ board.cards, Relation.TransGen (DependsOn board) cardId card.id ∧
      card.column ≠ done ∧ card.id ∉ (getReadyCards board).blocked := by
  have hacc := accepted_of_validate hboard
  induction hlevel : level (cardLinks board) cardId using Nat.strong_induction_on
    generalizing cardId with
  | _ n ih =>
    subst hlevel
    obtain hnil | ⟨card, hcard, hid, -, dependency, hin, hopen⟩ := (mem_foldl_push _ _).mp hblocked
    · cases hnil
    have hdep : DependsOn board cardId dependency := ⟨card, hcard, hid, hin⟩
    obtain ⟨below, hbelow, rfl⟩ := mem_ids.mp (hacc.dependency_known hcard hin)
    by_cases hagain : below.id ∈ (getReadyCards board).blocked
    · obtain ⟨last, hlast, hway, hrest⟩ := ih _ (Accepted.level_lt hacc hdep) hagain rfl
      exact ⟨last, hlast, .head hdep hway, hrest⟩
    · refine ⟨below, hbelow, .single hdep, fun hdone => hopen ?_, hagain⟩
      exact mem_map.mpr ⟨below, mem_filter.mpr ⟨hbelow, by simpa using hdone⟩, rfl⟩

theorem chain_leads_to_ready : ∃ card ∈ chainBoard.cards,
    Relation.TransGen (DependsOn chainBoard) ['c'] card.id ∧ card.column ≠ done ∧
      card.id ∉ (getReadyCards chainBoard).blocked :=
  blocked_leads_to_unblocked (by decide) (by decide)

end WaveSafety
