import RefactEngine.StackSearch
import RefactEngine.WorkIdentity
import Mathlib.Data.List.Sort

/-! # Causal traces

`reconstruct` walks from one event back through the recorded causes. The events come from a bounded
ring, so a cause may name an event that is no longer held.
-/
namespace CausalTraces

open WorkIdentity List

inductive CausalKind where
  | delivery
  | spawn
  | completion
  | question
  | evidence
  | decision
  deriving DecidableEq

inductive CausalCause where
  | event (id : String)
  | unknown
  deriving DecidableEq

def CausalCause.eventId : CausalCause → Option String
  | .event id => some id
  | .unknown => none

structure CausalEventRecord where
  project : ProjectKey
  eventId : String
  seq : ℤ
  kind : CausalKind
  work : WorkKey
  scope : String
  causes : List CausalCause
  recordedAtMs : ℤ
  paths : List String
  deriving DecidableEq

variable (event : CausalEventRecord)

def CausalEventRecord.causesOrUnknown : List CausalCause :=
  if event.causes = [] then [.unknown] else event.causes

structure CausalTrace where
  root : String
  events : List CausalEventRecord
  complete : Bool
  gaps : List String
  deriving DecidableEq

variable (events : List CausalEventRecord) (id : String)

def held : Option CausalEventRecord :=
  events.find? fun event => event.eventId = id

/-- The loop of `reconstruct` between two events; the end of the frontier is its head. -/
structure Walk where
  seen : List String
  frontier : List CausalEventRecord
  events : List CausalEventRecord
  complete : Bool
  gaps : List String

def unknownGap : String := event.eventId ++ ":unknown"

def followCause (event : CausalEventRecord) (walk : Walk)
    (cause : CausalCause) : Walk :=
  match cause.eventId with
  | none => { walk with complete := false, gaps := walk.gaps ++ [unknownGap event] }
  | some id =>
    if id ∈ walk.seen then walk
    else
      match held events id with
      | some parent =>
        { walk with seen := parent.eventId :: walk.seen, frontier := parent :: walk.frontier }
      | none => { walk with complete := false, gaps := walk.gaps ++ [id] }

def walkEvent (walk : Walk) (event : CausalEventRecord)
    (rest : List CausalEventRecord) : Walk :=
  let followed := event.causesOrUnknown.foldl (followCause events event)
    { walk with frontier := rest }
  { followed with events := followed.events ++ [event] }

def walkAll (events : List CausalEventRecord) : ℕ → Walk → Option Walk
  | steps, walk =>
    match walk.frontier with
    | [] => some walk
    | event :: rest =>
      match steps with
      | 0 => none
      | steps + 1 => walkAll events steps (walkEvent events walk event rest)

def traceOrder : ℤ ×ₗ String := toLex (event.seq, event.eventId)

def sortTrace : List CausalEventRecord :=
  events.insertionSort fun left right => traceOrder right ≤ traceOrder left

def reconstruct (steps : ℕ) (events : List CausalEventRecord) (root : String) :
    Option CausalTrace :=
  match held events root with
  | none => some ⟨root, [], false, [root]⟩
  | some start =>
    (walkAll events steps ⟨[start.eventId], [start], [], true, []⟩).map fun walk =>
      ⟨root, sortTrace walk.events, walk.complete, walk.gaps⟩

def CausedBy (event parent : CausalEventRecord) : Prop :=
  parent ∈ events ∧ .event parent.eventId ∈ event.causes

def Reachable (root : String) (event : CausalEventRecord) :
    Prop :=
  ∃ start ∈ events, start.eventId = root ∧ Relation.ReflTransGen (CausedBy events) start event

def Held : Prop :=
  ∃ event ∈ events, event.eventId = id

structure Exact (events : List CausalEventRecord) (root : String) (trace : CausalTrace) :
    Prop where
  root_eq : trace.root = root
  events_iff : ∀ event, event ∈ trace.events ↔ Reachable events root event
  once : (trace.events.map CausalEventRecord.eventId).Nodup
  sorted : trace.events.Pairwise fun left right => traceOrder right < traceOrder left
  complete_iff : trace.complete = true ↔ ∀ event, Reachable events root event →
    ∀ cause ∈ event.causesOrUnknown, ∃ id, cause = .event id ∧ Held events id
  gaps_iff : ∀ gap, gap ∈ trace.gaps ↔ ∃ event, Reachable events root event ∧
    (.unknown ∈ event.causesOrUnknown ∧ gap = unknownGap event ∨
      .event gap ∈ event.causesOrUnknown ∧ ¬ Held events gap)

variable {events : List CausalEventRecord}

def parents (events : List CausalEventRecord) (event : CausalEventRecord) :
    List CausalEventRecord :=
  event.causesOrUnknown.filterMap fun cause => cause.eventId.bind (held events)

def gapOf (events : List CausalEventRecord) (event : CausalEventRecord) :
    CausalCause → Option String
  | .unknown => some (unknownGap event)
  | .event id => if (held events id).isSome then none else some id

def gapsOf (events : List CausalEventRecord) (event : CausalEventRecord) : List String :=
  event.causesOrUnknown.filterMap (gapOf events event)

def Walk.search (walk : Walk) : StackSearch.State CausalEventRecord String :=
  ⟨walk.seen, walk.frontier, walk.events⟩

theorem held_spec {id : String} {event : CausalEventRecord} (h : held events id = some event) :
    event ∈ events ∧ event.eventId = id :=
  ⟨List.mem_of_find?_eq_some h, of_decide_eq_true
    (List.find?_some (p := fun event : CausalEventRecord => decide (event.eventId = id)) h)⟩

theorem held_isSome_iff {id : String} : (held events id).isSome = true ↔ Held events id := by
  simp only [held, Held, List.find?_isSome, decide_eq_true_eq]

theorem held_of_mem (hids : (events.map CausalEventRecord.eventId).Nodup)
    {event : CausalEventRecord} (h : event ∈ events) : held events event.eventId = some event := by
  obtain ⟨found, hfound⟩ := Option.isSome_iff_exists.mp (held_isSome_iff.mpr ⟨event, h, rfl⟩)
  obtain ⟨hmem, heq⟩ := held_spec hfound
  rw [hfound, inj_on_of_nodup_map hids hmem h heq]

variable (event : CausalEventRecord) (walk : Walk)

theorem search_followCause (cause : CausalCause) : (followCause events event walk cause).search =
      ((cause.eventId.bind (held events)).toList).foldl
        (StackSearch.push CausalEventRecord.eventId) walk.search := by
  unfold followCause
  cases cause with
  | unknown => rfl
  | event id =>
    simp only [CausalCause.eventId, Option.bind_some]
    cases hheld : held events id with
    | none => split_ifs <;> rfl
    | some parent =>
      obtain ⟨-, rfl⟩ := held_spec hheld
      unfold StackSearch.push Walk.search
      split_ifs with hseen
      · simp [hseen]
      · simp [hseen]

variable (causes : List CausalCause)

theorem search_foldl (walk : Walk) : (causes.foldl (followCause events event) walk).search =
      (causes.filterMap fun cause => cause.eventId.bind (held events)).foldl
        (StackSearch.push CausalEventRecord.eventId) walk.search := by
  induction causes generalizing walk with
  | nil => rfl
  | cons cause causes ih =>
    rw [foldl_cons, ih, search_followCause, filterMap_cons]
    cases cause.eventId.bind (held events) <;> rfl

theorem search_walkEvent (event : CausalEventRecord) (rest : List CausalEventRecord) :
    (walkEvent events walk event rest).search =
      StackSearch.visit CausalEventRecord.eventId (parents events) walk.search event rest := by
  have hfollowed : (event.causesOrUnknown.foldl (followCause events event)
        { walk with frontier := rest }).search = (parents events event).foldl
          (StackSearch.push CausalEventRecord.eventId) { walk.search with stack := rest } :=
    search_foldl event event.causesOrUnknown { walk with frontier := rest }
  have hevents := congrArg StackSearch.State.visited hfollowed
  rw [StackSearch.foldl_push_visited] at hevents
  calc (walkEvent events walk event rest).search
      = { (event.causesOrUnknown.foldl (followCause events event)
            { walk with frontier := rest }).search with
          visited := (event.causesOrUnknown.foldl (followCause events event)
            { walk with frontier := rest }).search.visited ++ [event] } := rfl
    _ = { (parents events event).foldl (StackSearch.push CausalEventRecord.eventId)
            { walk.search with stack := rest } with visited := walk.events ++ [event] } := by
      rw [hevents, hfollowed]
      rfl
    _ = StackSearch.visit CausalEventRecord.eventId (parents events) walk.search event rest :=
      (StackSearch.foldl_push_with _ _ _).symm

theorem search_walkAll (steps : ℕ) (walk : Walk) :
    (walkAll events steps walk).map Walk.search =
      StackSearch.run CausalEventRecord.eventId (parents events) steps walk.search := by
  induction steps generalizing walk with
  | zero =>
    rw [walkAll, StackSearch.run]
    cases hfrontier : walk.frontier <;> simp [Walk.search, hfrontier]
  | succ steps ih =>
    rw [walkAll, StackSearch.run]
    cases hfrontier : walk.frontier with
    | nil => simp [Walk.search, hfrontier]
    | cons event rest =>
      simp only [ih, search_walkEvent]
      simp only [Walk.search, hfrontier]

/-- The gaps are those of the visited events, and a walk without gaps is complete. -/
structure Recorded (events : List CausalEventRecord) (walk : Walk) : Prop where
  gaps_eq : walk.gaps = walk.events.flatMap (gapsOf events)
  complete_eq : walk.complete = walk.gaps.isEmpty
  seen_held : ∀ id ∈ walk.seen, Held events id

structure Follows (events : List CausalEventRecord) (gaps : List String) (walk walk' : Walk) :
    Prop where
  events_eq : walk'.events = walk.events
  gaps_eq : walk'.gaps = walk.gaps ++ gaps
  complete_eq : walk'.complete = (walk.complete && gaps.isEmpty)
  seen_held : (∀ id ∈ walk.seen, Held events id) → ∀ id ∈ walk'.seen, Held events id

theorem isEmpty_append (one other : List String) :
    (one ++ other).isEmpty = (one.isEmpty && other.isEmpty) := by
  cases one <;> rfl

theorem followCause_follows (cause : CausalCause) (hseen : ∀ id ∈ walk.seen, Held events id) :
    Follows events (gapOf events event cause).toList walk
      (followCause events event walk cause) := by
  unfold followCause gapOf
  cases cause with
  | unknown => exact ⟨rfl, rfl, (Bool.and_false _).symm, fun h => h⟩
  | event id =>
    simp only [CausalCause.eventId]
    by_cases hin : id ∈ walk.seen
    · rw [if_pos hin, if_pos (held_isSome_iff.mpr (hseen id hin))]
      exact ⟨rfl, (append_nil _).symm, (Bool.and_true _).symm, fun h => h⟩
    · rw [if_neg hin]
      cases hheld : held events id with
      | none => exact ⟨rfl, rfl, (Bool.and_false _).symm, fun h => h⟩
      | some parent =>
        refine ⟨rfl, (append_nil _).symm, (Bool.and_true _).symm, fun h other hother => ?_⟩
        rcases mem_cons.mp hother with rfl | hother
        · exact ⟨parent, (held_spec hheld).1, rfl⟩
        · exact h other hother

theorem foldl_follows (walk : Walk) (hseen : ∀ id ∈ walk.seen, Held events id) :
    Follows events (causes.filterMap (gapOf events event)) walk
      (causes.foldl (followCause events event) walk) := by
  induction causes generalizing walk with
  | nil => exact ⟨rfl, (append_nil _).symm, (Bool.and_true _).symm, fun h => h⟩
  | cons cause causes ih =>
    have hfirst := followCause_follows event walk cause hseen
    have hrest := ih (followCause events event walk cause) (hfirst.seen_held hseen)
    have hgaps : (cause :: causes).filterMap (gapOf events event) =
        (gapOf events event cause).toList ++ causes.filterMap (gapOf events event) := by
      rw [filterMap_cons]
      cases gapOf events event cause <;> rfl
    rw [hgaps]
    constructor
    case events_eq => exact hrest.events_eq.trans hfirst.events_eq
    case gaps_eq =>
      rw [foldl_cons, hrest.gaps_eq, hfirst.gaps_eq, append_assoc]
    case complete_eq =>
      rw [foldl_cons, hrest.complete_eq, hfirst.complete_eq, isEmpty_append, Bool.and_assoc]
    case seen_held => exact fun h => hrest.seen_held (hfirst.seen_held h)

theorem Recorded.walkEvent {walk : Walk} (h : Recorded events walk) (event : CausalEventRecord)
    (rest : List CausalEventRecord) : Recorded events (walkEvent events walk event rest) := by
  have hfollows := foldl_follows event event.causesOrUnknown { walk with frontier := rest }
    h.seen_held
  constructor
  case gaps_eq =>
    calc (CausalTraces.walkEvent events walk event rest).gaps
        = walk.gaps ++ gapsOf events event := hfollows.gaps_eq
      _ = (walk.events ++ [event]).flatMap (gapsOf events) := by
        rw [h.gaps_eq, flatMap_append, List.flatMap_singleton]
      _ = (CausalTraces.walkEvent events walk event rest).events.flatMap (gapsOf events) := by
        rw [← hfollows.events_eq]
        rfl
  case complete_eq =>
    calc (CausalTraces.walkEvent events walk event rest).complete
        = (walk.complete && (gapsOf events event).isEmpty) := hfollows.complete_eq
      _ = (walk.gaps ++ gapsOf events event).isEmpty := by
        rw [h.complete_eq, isEmpty_append]
      _ = (CausalTraces.walkEvent events walk event rest).gaps.isEmpty :=
        congrArg List.isEmpty hfollows.gaps_eq.symm
  case seen_held => exact hfollows.seen_held h.seen_held

theorem Recorded.walkAll {steps : ℕ} {walk walk' : Walk} (h : Recorded events walk)
    (hwalk : walkAll events steps walk = some walk') : Recorded events walk' := by
  induction steps generalizing walk with
  | zero =>
    rw [CausalTraces.walkAll] at hwalk
    split at hwalk
    · cases hwalk
      exact h
    · cases hwalk
  | succ steps ih =>
    rw [CausalTraces.walkAll] at hwalk
    split at hwalk
    · cases hwalk
      exact h
    · exact ih (h.walkEvent _ _) hwalk

/-- An event with no recorded cause has an unknown one. -/
theorem unknown_mem_causesOrUnknown {event : CausalEventRecord} :
    .unknown ∈ event.causesOrUnknown ↔ event.causes = [] ∨ .unknown ∈ event.causes := by
  unfold CausalEventRecord.causesOrUnknown
  split_ifs with hnone <;> simp [hnone]

theorem mem_gapsOf {event : CausalEventRecord} {gap : String} :
    gap ∈ gapsOf events event ↔ .unknown ∈ event.causesOrUnknown ∧ gap = unknownGap event ∨
      .event gap ∈ event.causesOrUnknown ∧ ¬ Held events gap := by
  unfold gapsOf
  rw [mem_filterMap]
  constructor
  · rintro ⟨cause, hcause, hgap⟩
    cases cause with
    | unknown => exact .inl ⟨hcause, (Option.some.inj hgap).symm⟩
    | event id =>
      simp only [gapOf] at hgap
      split_ifs at hgap with hheld
      obtain rfl := Option.some.inj hgap
      exact .inr ⟨hcause, fun h => hheld (held_isSome_iff.mpr h)⟩
  · rintro (⟨hcause, rfl⟩ | ⟨hcause, hmissing⟩)
    · exact ⟨.unknown, hcause, rfl⟩
    · exact ⟨.event gap, hcause, if_neg (fun h => hmissing (held_isSome_iff.mp h))⟩

theorem gapsOf_eq_nil_iff {event : CausalEventRecord} :
    gapsOf events event = [] ↔
      ∀ cause ∈ event.causesOrUnknown, ∃ id, cause = .event id ∧ Held events id := by
  unfold gapsOf
  rw [filterMap_eq_nil_iff]
  apply forall₂_congr
  intro cause _
  cases cause with
  | unknown => simp [gapOf]
  | event id => simp [gapOf, held_isSome_iff]

theorem mem_parents_iff (hids : (events.map CausalEventRecord.eventId).Nodup)
    {event parent : CausalEventRecord} :
    parent ∈ parents events event ↔ CausedBy events event parent := by
  have hcauses : ∀ id, CausalCause.event id ∈ event.causesOrUnknown ↔
      CausalCause.event id ∈ event.causes := by
    intro id
    unfold CausalEventRecord.causesOrUnknown
    split_ifs with hnone
    · simp [hnone]
    · rfl
  unfold parents CausedBy
  rw [mem_filterMap, ← hcauses]
  constructor
  · rintro ⟨cause, hcause, hparent⟩
    cases cause with
    | unknown => cases hparent
    | event id =>
      obtain ⟨hmem, rfl⟩ := held_spec hparent
      exact ⟨hmem, hcause⟩
  · rintro ⟨hmem, hcause⟩
    exact ⟨_, hcause, held_of_mem hids hmem⟩

theorem pairwise_sortTrace {visited : List CausalEventRecord}
    (hnodup : (visited.map CausalEventRecord.eventId).Nodup) :
    (sortTrace visited).Pairwise fun left right => traceOrder right < traceOrder left := by
  have hperm : (sortTrace visited).Perm visited := perm_insertionSort _ _
  have hsort : (sortTrace visited).Pairwise fun left right =>
      traceOrder right ≤ traceOrder left := pairwise_insertionSort _ _
  have hdist : (sortTrace visited).Pairwise fun left right =>
      left.eventId ≠ right.eventId :=
    pairwise_map.mp (((hperm.map CausalEventRecord.eventId).nodup_iff).mpr hnodup)
  refine (hsort.and hdist).imp ?_
  rintro left right ⟨hle, hne⟩
  apply lt_of_le_of_ne hle
  intro heq
  exact hne (congrArg (fun order => (ofLex order).2) heq).symm

/-- For every list of events with distinct ids and every root in it, cyclic or not: one step for
each event suffices, and the trace is exact. -/
theorem reconstruct_exact {events : List CausalEventRecord} {root : String}
    (hids : (events.map CausalEventRecord.eventId).Nodup) (hroot : Held events root) {steps : ℕ}
    (hsteps : events.length ≤ steps) :
    ∃ trace, reconstruct steps events root = some trace ∧ Exact events root trace := by
  obtain ⟨start, hstart, rfl⟩ := hroot
  have hheld : ∀ event ∈ events, ∀ parent ∈ parents events event, parent ∈ events :=
    fun event _ parent hparent => ((mem_parents_iff hids).mp hparent).1
  obtain ⟨s, hrun, hnodup, hmem⟩ := StackSearch.run_start hids hheld hstart hsteps
  have hwalk : (walkAll events steps ⟨[start.eventId], [start], [], true, []⟩).map Walk.search =
      some s := (search_walkAll steps _).trans hrun
  rw [Option.map_eq_some_iff] at hwalk
  obtain ⟨walk, hwalk, rfl⟩ := hwalk
  have hrecorded : Recorded events walk := by
    refine Recorded.walkAll ⟨rfl, rfl, fun id hid => ?_⟩ hwalk
    exact ⟨start, hstart, (mem_singleton.mp hid).symm⟩
  have hnext : (fun event parent => parent ∈ parents events event) = CausedBy events := by
    funext event parent
    exact propext (mem_parents_iff hids)
  have hreach : ∀ event, event ∈ walk.events ↔ Reachable events start.eventId event := by
    intro event
    rw [show walk.events = walk.search.visited from rfl, hmem, StackSearch.Reaches, hnext]
    constructor
    · intro h
      exact ⟨start, hstart, rfl, h⟩
    · rintro ⟨other, hother, hid, h⟩
      obtain rfl := inj_on_of_nodup_map hids hother hstart hid
      exact h
  refine ⟨⟨start.eventId, sortTrace walk.events, walk.complete, walk.gaps⟩, ?_, ?_⟩
  · simp only [reconstruct, held_of_mem hids hstart, hwalk, Option.map_some]
  · have hperm : (sortTrace walk.events).Perm walk.events := perm_insertionSort _ _
    constructor
    case root_eq => rfl
    case events_iff =>
      intro event
      rw [← hreach]
      exact hperm.mem_iff
    case once => exact ((hperm.map CausalEventRecord.eventId).nodup_iff).mpr hnodup
    case sorted => exact pairwise_sortTrace hnodup
    case complete_iff =>
      rw [hrecorded.complete_eq, hrecorded.gaps_eq, List.isEmpty_iff, flatMap_eq_nil_iff]
      apply forall_congr'
      intro event
      rw [hreach, gapsOf_eq_nil_iff]
    case gaps_iff =>
      intro gap
      rw [hrecorded.gaps_eq, mem_flatMap]
      apply exists_congr
      intro event
      rw [hreach, mem_gapsOf]

def recorded (seq : ℤ) (causes : List CausalCause) : CausalEventRecord :=
  ⟨"p", id, seq, .spawn, ⟨.trajectory, id⟩, "chat", causes, 0, []⟩

/-- Two events that cause each other, one of them caused also by an event that is not held. -/
def cyclicEvents : List CausalEventRecord :=
  [recorded "a" 1 [.event "b", .event "gone"], recorded "b" 2 [.event "a", .event "a"]]

theorem reconstruct_cyclic : ∃ trace, reconstruct 2 cyclicEvents "a" = some trace ∧
    Exact cyclicEvents "a" trace :=
  reconstruct_exact (by decide) ⟨_, mem_cons_self, rfl⟩ (by decide)

example : (reconstruct 2 cyclicEvents "a").map (fun trace =>
    (trace.events.map CausalEventRecord.eventId, trace.complete, trace.gaps)) =
      some (["b", "a"], false, ["gone"]) := by decide

end CausalTraces
