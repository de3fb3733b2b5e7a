import RefactEngine.PeerGrants
import RefactEngine.TaskBoards

/-! # Team rosters

A member claims the seat of a role, keeps it by heartbeats and gives it up; a seat whose member went
silent may be taken over. What happens to the seats is also written to a log of bounded length.
-/
namespace TeamRosters

open PeerGrants (RoleSpec)
open List
open TaskBoards (ClaimOutcome)

abbrev Text := List Char

structure TeamSpec where
  name : Text
  roles : List RoleSpec
  deriving DecidableEq

inductive MissionEvent where
  | memberJoined (role member : Text)
  | memberLeft (role member : Text)
  | memberReclaimed (role evicted taker : Text)
  | assignmentMade (role member subject : Text)
  | outcomeRecorded (role member outcome : Text)
  deriving DecidableEq

structure MissionEntry where
  seq : ℕ
  atMs : ℕ
  event : MissionEvent
  deriving DecidableEq

structure MissionLog where
  entries : List MissionEntry
  capacity : ℕ
  nextSeq : ℕ
  dropped : ℕ
  deriving DecidableEq

def MissionLog.withCapacity (capacity : ℕ) : MissionLog := ⟨[], max capacity 1, 1, 0⟩

def popFront (capacity : ℕ) : List MissionEntry → ℕ → List MissionEntry × ℕ
  | [], dropped => ([], dropped)
  | entry :: entries, dropped =>
    if capacity < (entry :: entries).length then popFront capacity entries (dropped + 1)
    else (entry :: entries, dropped)

def MissionLog.append (log : MissionLog) (atMs : ℕ) (event : MissionEvent) : MissionLog × ℕ :=
  let kept := popFront log.capacity (log.entries ++ [⟨log.nextSeq, atMs, event⟩]) log.dropped
  ({ log with entries := kept.1, nextSeq := log.nextSeq + 1, dropped := kept.2 }, log.nextSeq)

structure Seat where
  role : Text
  memberChatId : Text
  idempotencyKey : Text
  branch : Option Text
  status : Option Text
  claimedAtMs : ℕ
  lastHeartbeatMs : ℕ
  deriving DecidableEq

def Seat.silentForMs (seat : Seat) (nowMs : ℕ) : ℕ := nowMs - seat.lastHeartbeatMs

inductive RosterRefusal where
  | unknownRole (role : Text)
  | rosterFull (limit : ℕ)
  | alreadyClaimed (role holder : Text)
  | notClaimed (role : Text)
  | notTheHolder (role holder : Text)
  | stillAlive (role holder : Text) (silentForMs : ℕ)
  deriving DecidableEq

structure TeamRoster where
  team : Text
  roles : List Text
  seats : AList fun _ : Text => Seat
  log : MissionLog
  maxMembers : ℕ
  heartbeatTtlMs : ℕ

def withBounds (team : TeamSpec) (maxMembers missionLogCapacity heartbeatTtlMs : ℕ) :
    TeamRoster where
  team := team.name
  roles := team.roles.map (·.name)
  seats := ∅
  log := .withCapacity missionLogCapacity
  maxMembers := max maxMembers 1
  heartbeatTtlMs := heartbeatTtlMs

namespace TeamRoster

variable (roster : TeamRoster)

def seatList : List Seat := roster.seats.entries.map (·.2)

def knownRole (role : Text) : Except RosterRefusal Unit :=
  if role ∈ roster.roles then .ok () else .error (.unknownRole role)

def heldSeat (role memberChatId : Text) : Except RosterRefusal Seat :=
  match roster.seats.lookup role with
  | none => .error (.notClaimed role)
  | some seat =>
    if seat.memberChatId ≠ memberChatId then .error (.notTheHolder role seat.memberChatId)
    else .ok seat

variable (role memberChatId idempotencyKey : Text) (branch : Option Text) (nowMs : ℕ)

def takenSeat : Seat :=
  ⟨role, memberChatId, idempotencyKey, branch, none, nowMs, nowMs⟩

def logged (event : MissionEvent) : TeamRoster :=
  { roster with log := (roster.log.append nowMs event).1 }

def withSeat (role : Text) (seat : Seat) : TeamRoster :=
  { roster with seats := roster.seats.insert role seat }

def claim : TeamRoster × Except RosterRefusal ClaimOutcome :=
  match roster.knownRole role with
  | .error refusal => (roster, .error refusal)
  | .ok () =>
    match roster.seats.lookup role with
    | some existing =>
      if existing.memberChatId = memberChatId ∧ existing.idempotencyKey = idempotencyKey then
        (roster, .ok .alreadyHeld)
      else (roster, .error (.alreadyClaimed role existing.memberChatId))
    | none =>
      if roster.maxMembers ≤ roster.seats.entries.length then
        (roster, .error (.rosterFull roster.maxMembers))
      else
        ((roster.withSeat role (takenSeat role memberChatId idempotencyKey branch nowMs)).logged
          nowMs (.memberJoined role memberChatId), .ok .claimed)

def heartbeat (role memberChatId : Text) (nowMs : ℕ) :
    TeamRoster × Except RosterRefusal Unit :=
  match roster.heldSeat role memberChatId with
  | .error refusal => (roster, .error refusal)
  | .ok seat => (roster.withSeat role { seat with lastHeartbeatMs := nowMs }, .ok ())

def release (role memberChatId : Text) (nowMs : ℕ) :
    TeamRoster × Except RosterRefusal Unit :=
  match roster.heldSeat role memberChatId with
  | .error refusal => (roster, .error refusal)
  | .ok _ =>
    (({ roster with seats := roster.seats.erase role } : TeamRoster).logged nowMs
      (.memberLeft role memberChatId), .ok ())

def reclaim : TeamRoster × Except RosterRefusal ClaimOutcome :=
  match roster.knownRole role with
  | .error refusal => (roster, .error refusal)
  | .ok () =>
    match roster.seats.lookup role with
    | none => (roster, .error (.notClaimed role))
    | some existing =>
      if existing.memberChatId = memberChatId ∧ existing.idempotencyKey = idempotencyKey then
        (roster, .ok .alreadyHeld)
      else if existing.silentForMs nowMs ≤ roster.heartbeatTtlMs then
        (roster, .error (.stillAlive role existing.memberChatId (existing.silentForMs nowMs)))
      else
        ((roster.withSeat role (takenSeat role memberChatId idempotencyKey branch nowMs)).logged
          nowMs (.memberReclaimed role existing.memberChatId memberChatId), .ok .claimed)

def recordAssignment (role memberChatId subject : Text) (nowMs : ℕ) :
    TeamRoster × Except RosterRefusal ℕ :=
  match roster.heldSeat role memberChatId with
  | .error refusal => (roster, .error refusal)
  | .ok _ =>
    (roster.logged nowMs (.assignmentMade role memberChatId subject),
      .ok (roster.log.append nowMs (.assignmentMade role memberChatId subject)).2)

def recordOutcome (role memberChatId outcome : Text) (nowMs : ℕ) :
    TeamRoster × Except RosterRefusal ℕ :=
  match roster.heldSeat role memberChatId with
  | .error refusal => (roster, .error refusal)
  | .ok seat =>
    ((roster.withSeat role { seat with status := some outcome }).logged nowMs
        (.outcomeRecorded role memberChatId outcome),
      .ok (roster.log.append nowMs (.outcomeRecorded role memberChatId outcome)).2)

end TeamRoster

inductive Op where
  | claim (role memberChatId idempotencyKey : Text) (branch : Option Text)
  | heartbeat (role memberChatId : Text)
  | release (role memberChatId : Text)
  | reclaim (role memberChatId idempotencyKey : Text) (branch : Option Text)
  | recordAssignment (role memberChatId subject : Text)
  | recordOutcome (role memberChatId outcome : Text)
  deriving DecidableEq

inductive Answer where
  | claim (outcome : ClaimOutcome)
  | done
  | recorded (seq : ℕ)
  deriving DecidableEq

def step (roster : TeamRoster) (nowMs : ℕ) : Op → TeamRoster × Except RosterRefusal Answer
  | .claim role member key branch =>
    let result := roster.claim role member key branch nowMs
    (result.1, result.2.map .claim)
  | .heartbeat role member =>
    let result := roster.heartbeat role member nowMs
    (result.1, result.2.map fun _ => .done)
  | .release role member =>
    let result := roster.release role member nowMs
    (result.1, result.2.map fun _ => .done)
  | .reclaim role member key branch =>
    let result := roster.reclaim role member key branch nowMs
    (result.1, result.2.map .claim)
  | .recordAssignment role member subject =>
    let result := roster.recordAssignment role member subject nowMs
    (result.1, result.2.map .recorded)
  | .recordOutcome role member outcome =>
    let result := roster.recordOutcome role member outcome nowMs
    (result.1, result.2.map .recorded)

def run (roster : TeamRoster) (ops : List (ℕ × Op)) : TeamRoster :=
  ops.foldl (fun roster entry => (step roster entry.1 entry.2).1) roster

structure Call where
  nowMs : ℕ
  op : Op
  answer : Except RosterRefusal Answer
  deriving DecidableEq

def calls : TeamRoster → List (ℕ × Op) → List Call
  | _, [] => []
  | roster, (nowMs, op) :: ops =>
    ⟨nowMs, op, (step roster nowMs op).2⟩ :: calls (step roster nowMs op).1 ops

abbrev Members := Text → Option Text

def TeamRoster.members (roster : TeamRoster) : Members :=
  fun role => (roster.seats.lookup role).map (·.memberChatId)

/-- What an entry says of the members; `none` if it does not fit what was said before. -/
def rejoin (members : Members) : MissionEvent → Option Members
  | .memberJoined role member =>
    if members role = none then some (Function.update members role (some member)) else none
  | .memberLeft role member =>
    if members role = some member then some (Function.update members role none) else none
  | .memberReclaimed role evicted taker =>
    if members role = some evicted then some (Function.update members role (some taker)) else none
  | .assignmentMade role member _ => if members role = some member then some members else none
  | .outcomeRecorded role member _ => if members role = some member then some members else none

def replay (entries : List MissionEntry) : Option Members :=
  entries.foldlM (fun members entry => rejoin members entry.event) fun _ => none

/-- A heartbeat is not logged, nor is a claim by the member that already holds the seat. -/
def Call.appends (call : Call) : Bool :=
  match call.op, call.answer with
  | _, .error _ => false
  | .heartbeat _ _, _ => false
  | _, .ok (.claim .alreadyHeld) => false
  | _, .ok _ => true

def Call.Beats (call : Call) (role member : Text) : Prop :=
  (call.op = .heartbeat role member ∧ call.answer = .ok .done) ∨
    ∃ key branch, (call.op = .claim role member key branch ∨
      call.op = .reclaim role member key branch) ∧ call.answer = .ok (.claim .claimed)

structure LogExplains (start : TeamRoster) (ops : List (ℕ × Op)) : Prop where
  one_member : ∀ a ∈ (run start ops).seatList, ∀ b ∈ (run start ops).seatList,
    a.role = b.role → a = b
  known : ∀ seat ∈ (run start ops).seatList, seat.role ∈ start.roles
  bounded : (run start ops).seatList.length ≤ start.maxMembers
  refused : ∀ nowMs op refusal, (step (run start ops) nowMs op).2 = .error refusal →
    (step (run start ops) nowMs op).1 = run start ops
  consecutive : (run start ops).log.entries.map (·.seq) =
    List.range' ((run start ops).log.dropped + 1) (run start ops).log.entries.length
  capped : (run start ops).log.entries.length ≤ start.log.capacity
  counted : (run start ops).log.dropped + (run start ops).log.entries.length =
    (calls start ops).countP Call.appends
  replayed : (run start ops).log.dropped = 0 →
    replay (run start ops).log.entries = some (run start ops).members
  /-- While the clock does not go back, a member loses a role by its own release or after it was
  silent for longer than the time to live. -/
  held : ∀ before nowMs op after, ops = before ++ (nowMs, op) :: after →
    ((before ++ [(nowMs, op)]).map (·.1)).Pairwise (· ≤ ·) →
    ∀ role member, (run start before).members role = some member →
      (run start (before ++ [(nowMs, op)])).members role ≠ some member →
      op = .release role member ∨
        (∃ taker key branch, op = .reclaim role taker key branch) ∧
          ∀ call ∈ calls start before, call.Beats role member →
            call.nowMs + start.heartbeatTtlMs < nowMs

theorem popFront_eq (capacity : ℕ) (entries : List MissionEntry) :
    ∀ dropped, popFront capacity entries dropped =
      (entries.drop (entries.length - capacity), dropped + (entries.length - capacity)) := by
  induction entries with
  | nil => simp [popFront]
  | cons entry entries ih =>
    intro dropped
    rw [popFront, length_cons]
    split_ifs with h
    · have hsub : entries.length + 1 - capacity = entries.length - capacity + 1 := by omega
      rw [ih, hsub, drop_succ_cons]
      congr 1
      omega
    · have hsub : entries.length + 1 - capacity = 0 := by omega
      simp [hsub]

structure Window (log : MissionLog) (full : List MissionEntry) : Prop where
  entries : log.entries = full.drop log.dropped
  dropped : log.dropped = full.length - log.capacity
  nextSeq : log.nextSeq = full.length + 1
  numbered : full.map (·.seq) = List.range' 1 full.length

variable {full : List MissionEntry} {log : MissionLog}

theorem Window.append (h : Window log full) (atMs : ℕ) (event : MissionEvent) :
    Window (log.append atMs event).1 (full ++ [⟨log.nextSeq, atMs, event⟩]) := by
  have hdrop := h.dropped
  have hpop : popFront log.capacity (log.entries ++ [MissionEntry.mk log.nextSeq atMs event]) log.dropped =
      ((full ++ [MissionEntry.mk log.nextSeq atMs event]).drop (full.length + 1 - log.capacity),
        full.length + 1 - log.capacity) := by
    have hjoin : log.entries ++ [MissionEntry.mk log.nextSeq atMs event] =
        (full ++ [MissionEntry.mk log.nextSeq atMs event]).drop log.dropped := by
      rw [drop_append_of_le_length (by omega), h.entries]
    have hmore : log.dropped + (full.length + 1 - log.dropped - log.capacity) =
        full.length + 1 - log.capacity := by omega
    rw [popFront_eq, hjoin, drop_drop]
    simp only [length_drop, length_append, length_singleton, hmore]
  unfold MissionLog.append
  rw [hpop]
  refine ⟨rfl, ?_, ?_, ?_⟩
  · simp
  · simp [h.nextSeq]
  · rw [map_append, h.numbered, length_append, length_singleton,
      range'_concat]
    simp [h.nextSeq, Nat.add_comm]

theorem Window.consecutive (h : Window log full) :
    log.entries.map (·.seq) = List.range' (log.dropped + 1) log.entries.length := by
  have hdrop := h.dropped
  rw [h.entries, map_drop, h.numbered, length_drop, drop_range']
  simp [Nat.add_comm]

theorem Window.counted (h : Window log full) : log.dropped + log.entries.length = full.length := by
  have hdrop := h.dropped
  rw [h.entries, length_drop]
  omega

theorem Window.capped (h : Window log full) : log.entries.length ≤ log.capacity := by
  have hdrop := h.dropped
  have hcounted := h.counted
  omega

/-- Each way that an operation can go, with the roster and the answer that it leaves. -/
inductive Effect (roster : TeamRoster) (nowMs : ℕ) :
    Op → TeamRoster → Except RosterRefusal Answer → Prop where
  | refused {op : Op} (refusal : RosterRefusal) :
      Effect roster nowMs op roster (.error refusal)
  | alreadyHeld {op : Op} : Effect roster nowMs op roster (.ok (.claim .alreadyHeld))
  | joined {role member key : Text} {branch : Option Text} : role ∈ roster.roles →
      roster.seats.lookup role = none → roster.seats.entries.length < roster.maxMembers →
      Effect roster nowMs (.claim role member key branch)
        ((roster.withSeat role (TeamRoster.takenSeat role member key branch nowMs)).logged nowMs
          (.memberJoined role member)) (.ok (.claim .claimed))
  | beat {role : Text} {seat : Seat} : roster.seats.lookup role = some seat →
      Effect roster nowMs (.heartbeat role seat.memberChatId)
        (roster.withSeat role { seat with lastHeartbeatMs := nowMs }) (.ok .done)
  | left {role : Text} {seat : Seat} : roster.seats.lookup role = some seat →
      Effect roster nowMs (.release role seat.memberChatId)
        (({ roster with seats := roster.seats.erase role } : TeamRoster).logged nowMs
          (.memberLeft role seat.memberChatId)) (.ok .done)
  | reclaimed {role member key : Text} {branch : Option Text} {seat : Seat} :
      role ∈ roster.roles → roster.seats.lookup role = some seat →
      roster.heartbeatTtlMs < seat.silentForMs nowMs →
      Effect roster nowMs (.reclaim role member key branch)
        ((roster.withSeat role (TeamRoster.takenSeat role member key branch nowMs)).logged nowMs
          (.memberReclaimed role seat.memberChatId member)) (.ok (.claim .claimed))
  | assigned {role subject : Text} {seat : Seat} : roster.seats.lookup role = some seat →
      Effect roster nowMs (.recordAssignment role seat.memberChatId subject)
        (roster.logged nowMs (.assignmentMade role seat.memberChatId subject))
        (.ok (.recorded (roster.log.append nowMs
          (.assignmentMade role seat.memberChatId subject)).2))
  | outcome {role outcome : Text} {seat : Seat} : roster.seats.lookup role = some seat →
      Effect roster nowMs (.recordOutcome role seat.memberChatId outcome)
        ((roster.withSeat role { seat with status := some outcome }).logged nowMs
          (.outcomeRecorded role seat.memberChatId outcome))
        (.ok (.recorded (roster.log.append nowMs
          (.outcomeRecorded role seat.memberChatId outcome)).2))

variable {roster : TeamRoster} {nowMs : ℕ}

theorem heldSeat_cases (roster : TeamRoster) (role member : Text) :
    (∃ refusal, roster.heldSeat role member = .error refusal) ∨
      ∃ seat, roster.heldSeat role member = .ok seat ∧ roster.seats.lookup role = some seat ∧
        seat.memberChatId = member := by
  unfold TeamRoster.heldSeat
  cases hl : roster.seats.lookup role with
  | none => exact Or.inl ⟨_, rfl⟩
  | some seat =>
    dsimp only
    by_cases hmember : seat.memberChatId = member
    · rw [if_neg (not_not_intro hmember)]
      exact Or.inr ⟨seat, rfl, rfl, hmember⟩
    · rw [if_pos hmember]
      exact Or.inl ⟨_, rfl⟩

theorem effect_claim (roster : TeamRoster) (nowMs : ℕ) (role member key : Text)
    (branch : Option Text) :
    Effect roster nowMs (.claim role member key branch)
      (step roster nowMs (.claim role member key branch)).1
      (step roster nowMs (.claim role member key branch)).2 := by
  simp only [step, TeamRoster.claim, TeamRoster.knownRole]
  by_cases hrole : role ∈ roster.roles
  · simp only [if_pos hrole]
    cases hl : roster.seats.lookup role with
    | none =>
      dsimp only
      split_ifs with hfull
      · exact .refused _
      · exact .joined hrole hl (by omega)
    | some existing =>
      dsimp only
      split_ifs
      · exact .alreadyHeld
      · exact .refused _
  · simp only [if_neg hrole]
    exact .refused _

theorem effect_reclaim (roster : TeamRoster) (nowMs : ℕ) (role member key : Text)
    (branch : Option Text) :
    Effect roster nowMs (.reclaim role member key branch)
      (step roster nowMs (.reclaim role member key branch)).1
      (step roster nowMs (.reclaim role member key branch)).2 := by
  simp only [step, TeamRoster.reclaim, TeamRoster.knownRole]
  by_cases hrole : role ∈ roster.roles
  · simp only [if_pos hrole]
    cases hl : roster.seats.lookup role with
    | none => exact .refused _
    | some existing =>
      dsimp only
      split_ifs with hsame hsilent
      · exact .alreadyHeld
      · exact .refused _
      · exact .reclaimed hrole hl (by omega)
  · simp only [if_neg hrole]
    exact .refused _

theorem effect_step (roster : TeamRoster) (nowMs : ℕ) (op : Op) :
    Effect roster nowMs op (step roster nowMs op).1 (step roster nowMs op).2 := by
  cases op with
  | claim role member key branch => exact effect_claim roster nowMs role member key branch
  | reclaim role member key branch => exact effect_reclaim roster nowMs role member key branch
  | heartbeat role member =>
    rcases heldSeat_cases roster role member with ⟨refusal, h⟩ | ⟨seat, h, hl, rfl⟩
    · simp only [step, TeamRoster.heartbeat, h]
      exact .refused _
    · simp only [step, TeamRoster.heartbeat, h]
      exact .beat hl
  | release role member =>
    rcases heldSeat_cases roster role member with ⟨refusal, h⟩ | ⟨seat, h, hl, rfl⟩
    · simp only [step, TeamRoster.release, h]
      exact .refused _
    · simp only [step, TeamRoster.release, h]
      exact .left hl
  | recordAssignment role member subject =>
    rcases heldSeat_cases roster role member with ⟨refusal, h⟩ | ⟨seat, h, hl, rfl⟩
    · simp only [step, TeamRoster.recordAssignment, h]
      exact .refused _
    · simp only [step, TeamRoster.recordAssignment, h]
      exact .assigned hl
  | recordOutcome role member outcome =>
    rcases heldSeat_cases roster role member with ⟨refusal, h⟩ | ⟨seat, h, hl, rfl⟩
    · simp only [step, TeamRoster.recordOutcome, h]
      exact .refused _
    · simp only [step, TeamRoster.recordOutcome, h]
      exact .outcome hl

/-- Every seat stands under its role, which is one of the team, and there are not too many. -/
structure Seated (roster : TeamRoster) : Prop where
  role : ∀ role seat, roster.seats.lookup role = some seat → seat.role = role ∧ role ∈ roster.roles
  bounded : roster.seats.entries.length ≤ roster.maxMembers

structure Explained (roster : TeamRoster) (full : List MissionEntry) : Prop where
  window : Window roster.log full
  seated : Seated roster
  replayed : replay full = some roster.members

theorem members_withSeat (roster : TeamRoster) (role : Text) (seat : Seat) :
    (roster.withSeat role seat).members =
      Function.update roster.members role (some seat.memberChatId) := by
  funext other
  unfold TeamRoster.members TeamRoster.withSeat
  rw [Function.update_apply, AList.lookup_insert_if]
  split_ifs <;> rfl

theorem members_erase (roster : TeamRoster) (role : Text) :
    ({ roster with seats := roster.seats.erase role } : TeamRoster).members =
      Function.update roster.members role none := by
  funext other
  unfold TeamRoster.members
  rw [Function.update_apply, AList.lookup_erase_if]
  split_ifs <;> rfl

variable {role : Text} {seat : Seat}

theorem members_of_lookup (hl : roster.seats.lookup role = some seat) :
    roster.members role = some seat.memberChatId := by
  rw [TeamRoster.members, hl]
  rfl

theorem members_rewrite (hl : roster.seats.lookup role = some seat) (seat' : Seat)
    (hmember : seat'.memberChatId = seat.memberChatId) :
    (roster.withSeat role seat').members = roster.members := by
  rw [members_withSeat, hmember, ← members_of_lookup hl]
  exact Function.update_eq_self role roster.members

theorem role_withSeat (h : Seated roster) (hrole : role ∈ roster.roles) (hseat : seat.role = role) :
    ∀ other found,
      (roster.withSeat role seat).seats.lookup other = some found →
        found.role = other ∧ other ∈ roster.roles := by
  intro other found hl
  rw [TeamRoster.withSeat, AList.lookup_insert_if] at hl
  split_ifs at hl with heq
  · obtain rfl := Option.some.inj hl
    subst heq
    exact ⟨hseat, hrole⟩
  · exact h.role other found hl

theorem seated_new (h : Seated roster) (hrole : role ∈ roster.roles) (hseat : seat.role = role)
    (hfree : roster.seats.lookup role = none)
    (hroom : roster.seats.entries.length < roster.maxMembers) :
    Seated (roster.withSeat role seat) := by
  refine ⟨role_withSeat h hrole hseat, ?_⟩
  have habsent : role ∉ roster.seats := AList.lookup_eq_none.mp hfree
  show (roster.seats.insert role seat).entries.length ≤ roster.maxMembers
  rw [AList.entries_insert_of_notMem habsent, length_cons]
  omega

theorem seated_rewrite (h : Seated roster) (hl : roster.seats.lookup role = some seat)
    (seat' : Seat) (hseat : seat'.role = role) : Seated (roster.withSeat role seat') := by
  refine ⟨role_withSeat h (h.role role seat hl).2 hseat, ?_⟩
  show (roster.seats.insert role seat').entries.length ≤ roster.maxMembers
  rw [AList.length_insert_old seat' hl]
  exact h.bounded

theorem seated_erase (h : Seated roster) (role : Text) :
    Seated { roster with seats := roster.seats.erase role } := by
  refine ⟨fun other found hl => ?_, ?_⟩
  · rw [AList.lookup_erase_if] at hl
    split_ifs at hl
    exact h.role other found hl
  · have hlen : (roster.seats.erase role).entries.length ≤ roster.seats.entries.length :=
      (kerase_sublist role roster.seats.entries).length_le
    exact hlen.trans h.bounded

theorem replay_concat (full : List MissionEntry) (entry : MissionEntry) {members : Members}
    (h : replay full = some members) : replay (full ++ [entry]) = rejoin members entry.event := by
  unfold replay at h ⊢
  rw [foldlM_append, h]
  cases hrejoin : rejoin members entry.event <;> simp [hrejoin]

variable {roster' : TeamRoster}

theorem Explained.logged (h : Explained roster full) (hseated : Seated roster')
    (hlog : roster'.log = roster.log) {atMs : ℕ} {event : MissionEvent}
    (hrejoin : rejoin roster.members event = some roster'.members) :
    Explained (roster'.logged atMs event) (full ++ [⟨roster.log.nextSeq, atMs, event⟩]) := by
  refine ⟨?_, ⟨hseated.role, hseated.bounded⟩, ?_⟩
  · show Window (roster'.log.append atMs event).1 _
    rw [hlog]
    exact h.window.append atMs event
  · rw [replay_concat _ _ h.replayed]
    exact hrejoin

variable {answer : Except RosterRefusal Answer} {op : Op}

theorem explained_effect (h : Explained roster full)
    (heffect : Effect roster nowMs op roster' answer) : ∃ full', Explained roster' full' ∧
      full'.length = full.length + if Call.appends ⟨nowMs, op, answer⟩ then 1 else 0 := by
  cases heffect with
  | refused refusal => exact ⟨full, h, by cases op <;> rfl⟩
  | alreadyHeld => exact ⟨full, h, by cases op <;> rfl⟩
  | @joined role _ _ _ hrole hfree hroom =>
    refine ⟨_, h.logged (seated_new h.seated hrole rfl hfree hroom) rfl ?_, length_append⟩
    have hnone : roster.members role = none := by
      rw [TeamRoster.members, hfree]
      rfl
    rw [rejoin, if_pos hnone, members_withSeat]
    rfl
  | @beat role seat hl =>
    have hseat := (h.seated.role role seat hl).1
    have hmems := members_rewrite hl { seat with lastHeartbeatMs := nowMs } rfl
    refine ⟨full, ⟨h.window, seated_rewrite h.seated hl _ hseat, ?_⟩, rfl⟩
    rw [hmems]
    exact h.replayed
  | left hl =>
    refine ⟨_, h.logged (seated_erase h.seated _) rfl ?_, length_append⟩
    rw [rejoin, if_pos (members_of_lookup hl), members_erase]
  | reclaimed hrole hl _ =>
    refine ⟨_, h.logged (seated_rewrite h.seated hl _ rfl) rfl ?_, length_append⟩
    rw [rejoin, if_pos (members_of_lookup hl), members_withSeat]
    rfl
  | assigned hl =>
    refine ⟨_, h.logged h.seated rfl ?_, length_append⟩
    rw [rejoin, if_pos (members_of_lookup hl)]
  | @outcome role outcome seat hl =>
    have hseat := (h.seated.role role seat hl).1
    have hmems := members_rewrite hl { seat with status := some outcome } rfl
    refine ⟨_, h.logged (seated_rewrite h.seated hl { seat with status := some outcome } hseat) rfl
      ?_, length_append⟩
    rw [rejoin, if_pos (members_of_lookup hl), hmems]

/-- The bounds of a roster never change. -/
theorem bounds_effect (heffect : Effect roster nowMs op roster' answer) :
    roster'.roles = roster.roles ∧ roster'.maxMembers = roster.maxMembers ∧
      roster'.heartbeatTtlMs = roster.heartbeatTtlMs ∧
      roster'.log.capacity = roster.log.capacity := by
  cases heffect <;> exact ⟨rfl, rfl, rfl, rfl⟩

theorem bounds_run (ops : List (ℕ × Op)) : ∀ start : TeamRoster,
    (run start ops).roles = start.roles ∧ (run start ops).maxMembers = start.maxMembers ∧
      (run start ops).heartbeatTtlMs = start.heartbeatTtlMs ∧
      (run start ops).log.capacity = start.log.capacity := by
  induction ops with
  | nil => exact fun _ => ⟨rfl, rfl, rfl, rfl⟩
  | cons entry ops ih =>
    intro start
    obtain ⟨hroles, hmax, httl, hcapacity⟩ := bounds_effect (effect_step start entry.1 entry.2)
    have hrest := ih (step start entry.1 entry.2).1
    rw [hroles, hmax, httl, hcapacity] at hrest
    exact hrest

theorem explained_run (ops : List (ℕ × Op)) : ∀ (start : TeamRoster) (full : List MissionEntry),
    Explained start full → ∃ full', Explained (run start ops) full' ∧
      full'.length = full.length + (calls start ops).countP Call.appends := by
  induction ops with
  | nil => exact fun start full h => ⟨full, h, rfl⟩
  | cons entry ops ih =>
    intro start full h
    obtain ⟨nowMs, op⟩ := entry
    obtain ⟨full₁, h₁, hlength₁⟩ := explained_effect h (effect_step start nowMs op)
    obtain ⟨full₂, h₂, hlength₂⟩ := ih _ full₁ h₁
    refine ⟨full₂, h₂, ?_⟩
    rw [calls, countP_cons, hlength₂, hlength₁]
    omega

theorem explained_withBounds (team : TeamSpec) (maxMembers capacity ttlMs : ℕ) :
    Explained (withBounds team maxMembers capacity ttlMs) [] :=
  ⟨⟨rfl, by simp [withBounds, MissionLog.withCapacity], rfl, rfl⟩,
    ⟨fun _ _ hl => (by cases hl), Nat.zero_le _⟩, rfl⟩

variable {refusal : RosterRefusal}

theorem refused_unchanged (h : (step roster nowMs op).2 = .error refusal) :
    (step roster nowMs op).1 = roster := by
  have heffect := effect_step roster nowMs op
  rw [h] at heffect
  generalize (step roster nowMs op).1 = roster' at heffect ⊢
  cases heffect
  rfl

variable {member : Text}

theorem not_beats_error : ¬ Call.Beats ⟨nowMs, op, .error refusal⟩ role member := by
  rintro (⟨-, h⟩ | ⟨-, -, -, h⟩)
  · cases h
  · cases h

theorem not_beats_alreadyHeld :
    ¬ Call.Beats ⟨nowMs, op, .ok (.claim .alreadyHeld)⟩ role member := by
  rintro (⟨-, h⟩ | ⟨-, -, -, h⟩)
  · cases h
  · cases h

/-- A seat was written at this moment, or it keeps its member and its heartbeat and none came. -/
theorem effect_seat (heffect : Effect roster nowMs op roster' answer)
    (hl : roster'.seats.lookup role = some seat) :
    seat.lastHeartbeatMs = nowMs ∨ ∃ old, roster.seats.lookup role = some old ∧
      old.memberChatId = seat.memberChatId ∧ old.lastHeartbeatMs = seat.lastHeartbeatMs ∧
      ¬ Call.Beats ⟨nowMs, op, answer⟩ role seat.memberChatId := by
  cases heffect with
  | refused refusal => exact Or.inr ⟨seat, hl, rfl, rfl, not_beats_error⟩
  | alreadyHeld => exact Or.inr ⟨seat, hl, rfl, rfl, not_beats_alreadyHeld⟩
  | @joined taken =>
    have hlook := (AList.lookup_insert_if _ _ _ _).symm.trans hl
    split_ifs at hlook with heq
    · obtain rfl := Option.some.inj hlook
      exact Or.inl rfl
    · refine Or.inr ⟨seat, hlook, rfl, rfl, ?_⟩
      rintro (⟨h, -⟩ | ⟨key, branch, h | h, -⟩)
      · cases h
      · cases h
        exact heq rfl
      · cases h
  | @beat beaten =>
    have hlook := (AList.lookup_insert_if _ _ _ _).symm.trans hl
    split_ifs at hlook with heq
    · obtain rfl := Option.some.inj hlook
      exact Or.inl rfl
    · refine Or.inr ⟨seat, hlook, rfl, rfl, ?_⟩
      rintro (⟨h, -⟩ | ⟨key, branch, h | h, -⟩)
      · injection h with hrole
        exact heq hrole.symm
      · cases h
      · cases h
  | @left left =>
    have hlook := (AList.lookup_erase_if _ _ _).symm.trans hl
    split_ifs at hlook
    refine Or.inr ⟨seat, hlook, rfl, rfl, ?_⟩
    rintro (⟨h, -⟩ | ⟨key, branch, h | h, -⟩) <;> cases h
  | @reclaimed taken =>
    have hlook := (AList.lookup_insert_if _ _ _ _).symm.trans hl
    split_ifs at hlook with heq
    · obtain rfl := Option.some.inj hlook
      exact Or.inl rfl
    · refine Or.inr ⟨seat, hlook, rfl, rfl, ?_⟩
      rintro (⟨h, -⟩ | ⟨key, branch, h | h, -⟩)
      · cases h
      · cases h
      · cases h
        exact heq rfl
  | assigned =>
    refine Or.inr ⟨seat, hl, rfl, rfl, ?_⟩
    rintro (⟨h, -⟩ | ⟨key, branch, h | h, -⟩) <;> cases h
  | @outcome noted outcome old hold =>
    have hbeats : ¬ Call.Beats ⟨nowMs, .recordOutcome noted old.memberChatId outcome,
        .ok (.recorded (roster.log.append nowMs
          (.outcomeRecorded noted old.memberChatId outcome)).2)⟩ role seat.memberChatId := by
      rintro (⟨h, -⟩ | ⟨key, branch, h | h, -⟩) <;> cases h
    have hlook := (AList.lookup_insert_if _ _ _ _).symm.trans hl
    split_ifs at hlook with heq
    · subst heq
      obtain rfl := Option.some.inj hlook
      exact Or.inr ⟨old, hold, rfl, rfl, hbeats⟩
    · exact Or.inr ⟨seat, hlook, rfl, rfl, hbeats⟩

theorem effect_lost (heffect : Effect roster nowMs op roster' answer)
    (hheld : roster.members role = some member) (hlost : roster'.members role ≠ some member) :
    op = .release role member ∨
      (∃ taker key branch, op = .reclaim role taker key branch) ∧
        ∃ seat, roster.seats.lookup role = some seat ∧ seat.memberChatId = member ∧
          roster.heartbeatTtlMs < seat.silentForMs nowMs := by
  cases heffect with
  | refused => exact absurd hheld hlost
  | alreadyHeld => exact absurd hheld hlost
  | assigned => exact absurd hheld hlost
  | @joined taken _ _ _ _ hfree =>
    by_cases heq : role = taken
    · subst heq
      rw [TeamRoster.members, hfree] at hheld
      cases hheld
    · refine absurd ?_ hlost
      show (roster.withSeat _ _).members role = some member
      rw [members_withSeat, Function.update_of_ne heq]
      exact hheld
  | @beat beaten seat hl =>
    refine absurd ?_ hlost
    rw [members_rewrite hl { seat with lastHeartbeatMs := nowMs } rfl]
    exact hheld
  | @outcome noted outcome seat hl =>
    refine absurd ?_ hlost
    show (roster.withSeat _ _).members role = some member
    rw [members_rewrite hl { seat with status := some outcome } rfl]
    exact hheld
  | @left left seat hl =>
    by_cases heq : role = left
    · subst heq
      rw [members_of_lookup hl] at hheld
      obtain rfl := Option.some.inj hheld
      exact Or.inl rfl
    · refine absurd ?_ hlost
      show ({ roster with seats := roster.seats.erase left } : TeamRoster).members role = _
      rw [members_erase, Function.update_of_ne heq]
      exact hheld
  | @reclaimed taken taker key branch seat _ hl hsilent =>
    by_cases heq : role = taken
    · subst heq
      rw [members_of_lookup hl] at hheld
      exact Or.inr ⟨⟨taker, key, branch, rfl⟩, seat, hl, Option.some.inj hheld, hsilent⟩
    · refine absurd ?_ hlost
      show (roster.withSeat _ _).members role = some member
      rw [members_withSeat, Function.update_of_ne heq]
      exact hheld

/-- No call came after the clock, and no heartbeat of a member after the one its seat notes. -/
structure Fresh (roster : TeamRoster) (past : List Call) (clockMs : ℕ) : Prop where
  clock : ∀ call ∈ past, call.nowMs ≤ clockMs
  beats : ∀ role seat, roster.seats.lookup role = some seat → ∀ call ∈ past,
    call.Beats role seat.memberChatId → call.nowMs ≤ seat.lastHeartbeatMs

theorem Fresh.effect {past : List Call} {clockMs : ℕ} (h : Fresh roster past clockMs)
    (hclock : clockMs ≤ nowMs) (heffect : Effect roster nowMs op roster' answer) :
    Fresh roster' (past ++ [⟨nowMs, op, answer⟩]) nowMs := by
  have hnow : ∀ call ∈ past ++ [⟨nowMs, op, answer⟩], call.nowMs ≤ nowMs := by
    intro call hmem
    rcases mem_append.mp hmem with hpast | hlast
    · exact (h.clock call hpast).trans hclock
    · obtain rfl := mem_singleton.mp hlast
      exact le_rfl
  refine ⟨hnow, fun role seat hl call hmem hbeats => ?_⟩
  rcases effect_seat heffect hl with hlast | ⟨old, hold, hmember, hsame, hnone⟩
  · rw [hlast]
    exact hnow call hmem
  · rcases mem_append.mp hmem with hpast | hcall
    · rw [← hmember] at hbeats
      rw [← hsame]
      exact h.beats role old hold call hpast hbeats
    · obtain rfl := mem_singleton.mp hcall
      exact absurd hbeats hnone

theorem run_concat (start : TeamRoster) (ops : List (ℕ × Op)) (nowMs : ℕ) (op : Op) :
    run start (ops ++ [(nowMs, op)]) = (step (run start ops) nowMs op).1 := foldl_concat ..

theorem calls_concat (nowMs : ℕ) (op : Op) (ops : List (ℕ × Op)) : ∀ start : TeamRoster,
    calls start (ops ++ [(nowMs, op)]) =
      calls start ops ++ [⟨nowMs, op, (step (run start ops) nowMs op).2⟩] := by
  induction ops with
  | nil => exact fun _ => rfl
  | cons entry ops ih =>
    intro start
    show _ :: calls _ (ops ++ [(nowMs, op)]) = _
    rw [ih]
    rfl

theorem fresh_run (start : TeamRoster) (hstart : start.seats = ∅) (ops : List (ℕ × Op)) :
    ∀ nowMs, ((ops.map (·.1)) ++ [nowMs]).Pairwise (· ≤ ·) →
      Fresh (run start ops) (calls start ops) nowMs := by
  induction ops using List.reverseRecOn with
  | nil =>
    refine fun nowMs _ => ⟨fun call hmem => absurd hmem not_mem_nil, fun role seat hl => ?_⟩
    rw [run, foldl_nil, hstart] at hl
    cases hl
  | append_singleton ops entry ih =>
    intro nowMs hordered
    rw [map_append, map_singleton] at hordered
    obtain ⟨hbef, -, hlast⟩ := pairwise_append.mp hordered
    have hfresh := (ih entry.1 hbef).effect le_rfl (effect_step (run start ops) entry.1 entry.2)
    have hle : entry.1 ≤ nowMs := hlast entry.1 (by simp) nowMs (mem_singleton_self _)
    rw [run_concat, calls_concat]
    exact ⟨fun call hmem => (hfresh.clock call hmem).trans hle, hfresh.beats⟩

/-- In every run of a roster, its log explains who holds which role. -/
theorem log_explains_roster (team : TeamSpec) (maxMembers capacity ttlMs : ℕ)
    (ops : List (ℕ × Op)) : LogExplains (withBounds team maxMembers capacity ttlMs) ops := by
  obtain ⟨full, hfull, hcount⟩ := explained_run ops _ []
    (explained_withBounds team maxMembers capacity ttlMs)
  obtain ⟨hroles, hmax, httl, hcapacity⟩ :=
    bounds_run ops (withBounds team maxMembers capacity ttlMs)
  have hseat : ∀ seat ∈ (run (withBounds team maxMembers capacity ttlMs) ops).seatList,
      (run (withBounds team maxMembers capacity ttlMs) ops).seats.lookup seat.role = some seat ∧
        seat.role ∈ (withBounds team maxMembers capacity ttlMs).roles := by
    intro seat hmem
    obtain ⟨⟨role, found⟩, hentry, rfl⟩ := mem_map.mp hmem
    have hl := AList.mem_entries_iff.mp hentry
    obtain ⟨hrole, hknown⟩ := hfull.seated.role role found hl
    rw [hroles] at hknown
    rw [hrole]
    exact ⟨hl, hknown⟩
  refine
    { one_member := fun a ha b hb heq => ?_
      known := fun seat hmem => (hseat seat hmem).2
      bounded := ?_
      refused := fun nowMs op refusal h => refused_unchanged h
      consecutive := hfull.window.consecutive
      capped := ?_
      counted := ?_
      replayed := fun hdropped => ?_
      held := ?_ }
  · have hla := (hseat a ha).1
    rw [heq, (hseat b hb).1] at hla
    exact (Option.some.inj hla).symm
  · rw [TeamRoster.seatList, length_map, ← hmax]
    exact hfull.seated.bounded
  · rw [← hcapacity]
    exact hfull.window.capped
  · rw [hfull.window.counted, hcount, length_nil, Nat.zero_add]
  · rw [hfull.window.entries, hdropped, drop_zero]
    exact hfull.replayed
  · rintro before nowMs op after - hordered role member hheld hlost
    rw [map_append, map_singleton] at hordered
    have hfresh := fresh_run (withBounds team maxMembers capacity ttlMs) rfl before nowMs hordered
    rw [run_concat] at hlost
    rcases effect_lost (effect_step _ nowMs op) hheld hlost with
      hrelease | ⟨hreclaim, seat, hl, rfl, hsilent⟩
    · exact Or.inl hrelease
    · refine Or.inr ⟨hreclaim, fun call hmem hbeats => ?_⟩
      have hbeat := hfresh.beats role seat hl call hmem hbeats
      rw [(bounds_run before (withBounds team maxMembers capacity ttlMs)).2.2.1,
        Seat.silentForMs] at hsilent
      omega

end TeamRosters
