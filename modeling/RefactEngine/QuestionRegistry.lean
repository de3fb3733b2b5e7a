import RefactEngine.CoordinationSettings
import RefactEngine.FiniteMap

/-! # The question registry

A question waits for its answerer until it is settled or its deadline passes. Every operation that
takes a clock first runs the deadline pass; registering and expiring also drop the oldest settled
questions beyond the bound. Times are in nanoseconds.
-/
namespace QuestionRegistry

open CoordinationSettings

inductive QuestionKind where
  | userInput
  | agentParent
  | boardPlanner
  | planApproval
  | permissionEscalation
  deriving DecidableEq

inductive QuestionState where
  | pending
  | answered
  | defaulted
  | rejected
  | cancelled
  | withdrawn
  | expired
  deriving DecidableEq

structure QuestionContract where
  id : String
  kind : QuestionKind
  asker : String
  answerer : String
  correlationId : String
  text : String
  options : Option (List String)
  state : QuestionState
  askedAt : ℤ
  expiresAt : Option ℤ
  irreversible : Bool
  defaultAnswer : Option String
  answer : Option String
  answeredAt : Option ℤ
  deriving DecidableEq

def QuestionKind.forcesIrreversible : QuestionKind → Bool
  | .planApproval => true
  | .permissionEscalation => true
  | _ => false

variable (question : QuestionContract)

def QuestionContract.isIrreversible : Bool :=
  question.irreversible || question.kind.forcesIrreversible

def QuestionContract.defaultable : Option String :=
  if question.isIrreversible then none else question.defaultAnswer

def isBlank (text : String) : Bool := text.toList.all isWhitespace

def QuestionContract.validate : Except String Unit :=
  if [question.id, question.asker, question.answerer, question.correlationId,
      question.text].any isBlank then
    .error "question identity, principals, correlation and text must be nonempty"
  else if question.expiresAt.any fun expiresAt => expiresAt ≤ question.askedAt then
    .error "question expiry must be after creation"
  else if question.state = .answered ∧
      (question.answer.all String.isEmpty ∨ question.answeredAt = none) then
    .error "answered questions require answer text and timestamp"
  else if question.defaultAnswer.any isBlank then
    .error "a defaultable question needs nonempty default text"
  else if question.defaultAnswer.isSome ∧ question.isIrreversible then
    .error ("approvals, permission escalations and irreversible questions cannot carry " ++
      "a default")
  else if question.state = .defaulted ∧ (question.defaultAnswer = none ∨
      question.answer ≠ question.defaultAnswer ∨ question.answeredAt = none) then
    .error "defaulted questions require the stored default and its timestamp"
  else .ok ()

structure QuestionLimits where
  maxPending : ℕ
  defaultExpirySecs : ℕ
  maxExpirySecs : ℕ

def questionMaxExpirySecs : ℕ := 31536000

variable (limits : QuestionLimits)

def QuestionLimits.validate : Except String Unit :=
  if limits.maxPending = 0 then .error "question max_pending must be at least 1"
  else if limits.defaultExpirySecs = 0 ∨ limits.maxExpirySecs = 0 then
    .error "question expiry bounds must be at least 1 second"
  else if questionMaxExpirySecs < limits.maxExpirySecs then
    .error s!"question max expiry must not exceed {questionMaxExpirySecs} seconds"
  else if limits.maxExpirySecs < limits.defaultExpirySecs then
    .error "question default expiry must not exceed the maximum"
  else .ok ()

inductive QuestionError where
  | invalid (reason : String)
  | capacity
  | duplicate
  | notFound
  | notAsker
  | notAnswerer
  | alreadyAnswered
  | alreadySettled (state : QuestionState)
  deriving DecidableEq

inductive QuestionSettlement where
  | answered (answer : String)
  | defaulted (answer : String)
  | rejected
  | cancelled
  | withdrawn
  | expired
  deriving DecidableEq

def settlementOf (entry : QuestionContract) : Option QuestionSettlement :=
  match entry.state with
  | .pending => none
  | .answered => some (.answered (entry.answer.getD ""))
  | .defaulted => some (.defaulted (entry.answer.getD ""))
  | .rejected => some .rejected
  | .cancelled => some .cancelled
  | .withdrawn => some .withdrawn
  | .expired => some .expired

variable {entry : QuestionContract}

theorem settlementOf_eq_none_iff : settlementOf entry = none ↔ entry.state = .pending := by
  rw [settlementOf]
  cases entry.state <;> simp

theorem exists_settlementOf (h : entry.state ≠ .pending) : ∃ x, settlementOf entry = some x :=
  Option.ne_none_iff_exists'.mp fun hnone => h (settlementOf_eq_none_iff.mp hnone)

variable {x : QuestionSettlement}

theorem settled_of_settlementOf (h : settlementOf entry = some x) :
    entry.state ≠ .pending := fun hp => by
  rw [settlementOf_eq_none_iff.mpr hp] at h
  cases h

abbrev Entries := AList fun _ : String => QuestionContract

def QuestionContract.due (entry : QuestionContract) (now : ℤ) : Bool :=
  decide (entry.state = .pending) && entry.expiresAt.any fun expiresAt => expiresAt ≤ now

def QuestionContract.expire (entry : QuestionContract) (now : ℤ) : QuestionContract :=
  if entry.due now then
    match entry.defaultable with
    | some text =>
      { entry with state := .defaulted, answer := some text, answeredAt := some now }
    | none => { entry with state := .expired }
  else entry

variable (entries : Entries)

def expireLocked (now : ℤ) : Entries :=
  entries.mapValues fun _ entry => entry.expire now

def settledInOrder : List (ℤ ×ₗ String) :=
  ((entries.entries.filter fun entry => entry.2.state ≠ .pending).map fun entry =>
    toLex (entry.2.askedAt, entry.2.id)).insertionSort (· ≤ ·)

def prunedIds (entries : Entries) : List String :=
  let settled := settledInOrder entries
  (settled.take (settled.length - limits.maxPending)).map fun key => (ofLex key).2

def pruneLocked (entries : Entries) : Entries :=
  entries.eraseAll (prunedIds limits entries)

def pendingCount : ℕ :=
  entries.countValues fun entry => entry.state = .pending

theorem lookup_expireLocked (entries : Entries) (now : ℤ) (id : String) :
    (expireLocked entries now).lookup id = (entries.lookup id).map fun entry => entry.expire now :=
  AList.lookup_mapValues _ entries id

variable (limits : QuestionLimits)

theorem lookup_pruneLocked (entries : Entries) (id : String) :
    (pruneLocked limits entries).lookup id =
      if id ∈ prunedIds limits entries then none else entries.lookup id :=
  AList.lookup_eraseAll _ entries id

theorem expire_cases (entry : QuestionContract) (now : ℤ) :
    entry.expire now = entry ∨
      entry.state = .pending ∧ (∃ at_, entry.expiresAt = some at_ ∧ at_ ≤ now) ∧
        ((∃ text, entry.defaultable = some text ∧ entry.expire now =
            { entry with state := .defaulted, answer := some text, answeredAt := some now }) ∨
          entry.defaultable = none ∧ entry.expire now = { entry with state := .expired }) := by
  rw [QuestionContract.expire]
  by_cases hdue : entry.due now = true
  · rw [if_pos hdue]
    rw [QuestionContract.due, Bool.and_eq_true, decide_eq_true_eq, Option.any_eq_true] at hdue
    obtain ⟨hpend, at_, hat, hle⟩ := hdue
    refine Or.inr ⟨hpend, ⟨at_, hat, of_decide_eq_true hle⟩, ?_⟩
    cases hd : entry.defaultable with
    | some text => exact Or.inl ⟨text, rfl, rfl⟩
    | none => exact Or.inr ⟨rfl, rfl⟩
  · rw [if_neg hdue]
    exact Or.inl rfl

/-- The deadline pass changes nothing but the outcome. -/
structure SameQuestion (entry after : QuestionContract) : Prop where
  id : after.id = entry.id
  kind : after.kind = entry.kind
  asker : after.asker = entry.asker
  answerer : after.answerer = entry.answerer
  correlation : after.correlationId = entry.correlationId
  askedAt : after.askedAt = entry.askedAt
  expiresAt : after.expiresAt = entry.expiresAt
  irreversible : after.irreversible = entry.irreversible
  defaultAnswer : after.defaultAnswer = entry.defaultAnswer

theorem SameQuestion.refl (entry : QuestionContract) : SameQuestion entry entry :=
  ⟨rfl, rfl, rfl, rfl, rfl, rfl, rfl, rfl, rfl⟩

theorem SameQuestion.isIrreversible {after : QuestionContract} (h : SameQuestion entry after) :
    after.isIrreversible = entry.isIrreversible := by
  rw [QuestionContract.isIrreversible, QuestionContract.isIrreversible, h.irreversible, h.kind]

theorem sameQuestion_expire (entry : QuestionContract) (now : ℤ) :
    SameQuestion entry (entry.expire now) := by
  rcases expire_cases entry now with h | ⟨-, -, ⟨text, -, h⟩ | ⟨-, h⟩⟩ <;> rw [h] <;>
    exact ⟨rfl, rfl, rfl, rfl, rfl, rfl, rfl, rfl, rfl⟩

theorem expire_of_settled (h : entry.state ≠ .pending) (now : ℤ) : entry.expire now = entry :=
  (expire_cases entry now).resolve_right fun hcase => h hcase.1

theorem expire_of_pending {now : ℤ} (h : (entry.expire now).state = .pending) :
    entry.expire now = entry := by
  rcases expire_cases entry now with hsame | ⟨-, -, ⟨text, -, hset⟩ | ⟨-, hset⟩⟩
  · exact hsame
  · rw [hset] at h
    cases h
  · rw [hset] at h
    cases h

theorem settled_expire {at_ now : ℤ} (h : entry.expiresAt = some at_) (hle : at_ ≤ now) :
    (entry.expire now).state ≠ .pending := by
  by_cases hpend : entry.state = .pending
  · have hdue : entry.due now = true := by
      rw [QuestionContract.due, h, Bool.and_eq_true]
      exact ⟨decide_eq_true hpend, decide_eq_true hle⟩
    rw [QuestionContract.expire, if_pos hdue]
    cases entry.defaultable <;> exact nofun
  · rw [expire_of_settled hpend]
    exact hpend

variable {id : String}

theorem settled_of_mem_prunedIds {limits : QuestionLimits} {entries : Entries}
    (hkeyed : ∀ id entry, entries.lookup id = some entry → entry.id = id)
    (hl : entries.lookup id = some entry) (h : id ∈ prunedIds limits entries) :
    entry.state ≠ .pending := by
  obtain ⟨key, hkey, rfl⟩ := List.mem_map.mp h
  have hmem : key ∈ settledInOrder entries := List.mem_of_mem_take hkey
  rw [settledInOrder, List.mem_insertionSort, List.mem_map] at hmem
  obtain ⟨e, he, rfl⟩ := hmem
  obtain ⟨hstored, hset⟩ := List.mem_filter.mp he
  have hfound : entries.lookup e.1 = some e.2 := AList.mem_entries_iff.mp hstored
  have hid : e.2.id = e.1 := hkeyed e.1 e.2 hfound
  simp only [ofLex_toLex] at hl
  rw [hid, hfound] at hl
  cases hl
  exact of_decide_eq_true hset

def admits (limits : QuestionLimits) (entries : Entries) (contract : QuestionContract) :
    Except QuestionError Unit :=
  if (entries.lookup contract.id).isSome then .error .duplicate
  else if contract.state = .pending ∧ entries.entries.any (fun entry =>
      entry.2.state = .pending ∧ entry.2.correlationId = contract.correlationId) then
    .error .duplicate
  else if contract.state = .pending ∧ limits.maxPending ≤ pendingCount entries then
    .error .capacity
  else .ok ()

def register (limits : QuestionLimits) (entries : Entries) (contract : QuestionContract)
    (now : ℤ) : Entries × Except QuestionError Unit :=
  match contract.validate with
  | .error reason => (entries, .error (.invalid reason))
  | .ok () =>
    let entries := expireLocked entries now
    match admits limits entries contract with
    | .error err => (entries, .error err)
    | .ok () => (pruneLocked limits (entries.insert contract.id contract), .ok ())

structure AskQuestion where
  id : Option String
  kind : QuestionKind
  asker : String
  answerer : String
  correlationId : String
  text : String
  options : Option (List String)
  expiresInSecs : Option ℕ
  irreversible : Bool
  defaultAnswer : Option String
  deriving DecidableEq

def AskQuestion.pending (request : AskQuestion) (freshId : String) (seconds : ℕ) (now : ℤ) :
    QuestionContract where
  id := request.id.getD freshId
  kind := request.kind
  asker := request.asker
  answerer := request.answerer
  correlationId := request.correlationId
  text := request.text
  options := request.options
  state := .pending
  askedAt := now
  expiresAt := some (now + seconds * 1000000000)
  irreversible := false
  defaultAnswer := none
  answer := none
  answeredAt := none

def withStakes (contract : QuestionContract) (irreversible : Bool)
    (defaultAnswer : Option String) : QuestionContract :=
  { contract with irreversible := irreversible, defaultAnswer := defaultAnswer }

def askContract (limits : QuestionLimits) (request : AskQuestion) (freshId : String) (now : ℤ) :
    Except QuestionError QuestionContract :=
  let seconds := request.expiresInSecs.getD limits.defaultExpirySecs
  if seconds = 0 ∨ limits.maxExpirySecs < seconds then
    .error (.invalid (s!"question expiry must be between 1 and {limits.maxExpirySecs} seconds, " ++
      s!"got {seconds}"))
  else
    let contract := request.pending freshId seconds now
    match contract.validate with
    | .error reason => .error (.invalid reason)
    | .ok () =>
      let contract := withStakes contract request.irreversible request.defaultAnswer
      match contract.validate with
      | .error reason => .error (.invalid reason)
      | .ok () => .ok contract

def ask (limits : QuestionLimits) (entries : Entries) (request : AskQuestion) (freshId : String)
    (now : ℤ) : Entries × Except QuestionError QuestionContract :=
  match askContract limits request freshId now with
  | .error err => (entries, .error err)
  | .ok contract =>
    match register limits entries contract now with
    | (entries, .error err) => (entries, .error err)
    | (entries, .ok ()) => (entries, .ok contract)

def restore (limits : QuestionLimits) (entries : Entries) (now : ℤ) :
    List QuestionContract → Entries × ℕ
  | [] => (entries, 0)
  | contract :: contracts =>
    match register limits entries contract now with
    | (entries, .error _) => restore limits entries now contracts
    | (entries, .ok ()) =>
      let rest := restore limits entries now contracts
      (rest.1, rest.2 + 1)

def settleEntry (principal : String) (requireAsker : Bool) (target : QuestionState)
    (answer : Option String) (now : ℤ) (entry : QuestionContract) :
    Except QuestionError QuestionContract :=
  let owner := if requireAsker then entry.asker else entry.answerer
  if owner ≠ principal then .error (if requireAsker then .notAsker else .notAnswerer)
  else
    match entry.state with
    | .pending =>
      if target = .answered then
        .ok { entry with state := target, answer := answer, answeredAt := some now }
      else .ok { entry with state := target }
    | .answered => .error .alreadyAnswered
    | other => .error (.alreadySettled other)

def settle (id principal : String) (requireAsker : Bool)
    (target : QuestionState) (answer : Option String) (now : ℤ) :
    Entries × Except QuestionError QuestionContract :=
  let entries := expireLocked entries now
  match entries.lookup id with
  | none => (entries, .error .notFound)
  | some entry =>
    match settleEntry principal requireAsker target answer now entry with
    | .error err => (entries, .error err)
    | .ok settled => (entries.insert id settled, .ok settled)

def answer (entries : Entries) (id answerer answer : String) (now : ℤ) :
    Entries × Except QuestionError QuestionContract :=
  if isBlank answer then (entries, .error (.invalid "answer text must be nonempty"))
  else settle entries id answerer false .answered (some answer) now

def reject (id answerer : String) (now : ℤ) :
    Entries × Except QuestionError QuestionContract :=
  settle entries id answerer false .rejected none now

def cancel (id asker : String) (now : ℤ) :
    Entries × Except QuestionError QuestionContract :=
  settle entries id asker true .cancelled none now

def withdraw (id asker : String) (now : ℤ) :
    Entries × Except QuestionError QuestionContract :=
  settle entries id asker true .withdrawn none now

def expire (limits : QuestionLimits) (entries : Entries) (now : ℤ) : Entries :=
  pruneLocked limits (expireLocked entries now)

variable {contract : QuestionContract}

theorem validate_ok (h : contract.validate = .ok ()) :
    (contract.defaultAnswer.isSome = true → contract.isIrreversible = false) ∧
      (contract.state = .defaulted → contract.defaultAnswer.isSome = true) := by
  rw [QuestionContract.validate] at h
  split_ifs at h with _ _ _ _ hstakes hdefaulted
  constructor
  · intro hsome
    exact Bool.eq_false_iff.mpr fun hirr => hstakes ⟨hsome, hirr⟩
  · intro hstate
    apply Option.isSome_iff_ne_none.mpr
    exact fun hnone => hdefaulted ⟨hstate, Or.inl hnone⟩

theorem admits_ok {limits : QuestionLimits} {entries : Entries}
    (h : admits limits entries contract = .ok ()) : entries.lookup contract.id = none ∧
      (contract.state = .pending →
        (∀ id entry, entries.lookup id = some entry → entry.state = .pending →
          entry.correlationId ≠ contract.correlationId) ∧
        pendingCount entries < limits.maxPending) := by
  rw [admits] at h
  split_ifs at h with hid hcorr hcap
  refine ⟨by simpa using hid, fun hpend => ⟨fun id entry hl hstate heq => hcorr ⟨hpend, ?_⟩, ?_⟩⟩
  · apply List.any_eq_true.mpr
    exact ⟨⟨id, entry⟩, AList.mem_entries_iff.mpr hl, decide_eq_true ⟨hstate, heq⟩⟩
  · exact Nat.lt_of_not_le fun hle => hcap ⟨hpend, hle⟩

theorem register_cases (entries : Entries) (contract : QuestionContract) (now : ℤ) :
    (∃ err, register limits entries contract now = (entries, .error err)) ∨
      (∃ err, register limits entries contract now = (expireLocked entries now, .error err)) ∨
      contract.validate = .ok () ∧ admits limits (expireLocked entries now) contract = .ok () ∧
        register limits entries contract now =
          (pruneLocked limits ((expireLocked entries now).insert contract.id contract),
            .ok ()) := by
  rw [register]
  cases hv : contract.validate with
  | error reason => exact Or.inl ⟨.invalid reason, rfl⟩
  | ok _ =>
    cases ha : admits limits (expireLocked entries now) contract with
    | error err => exact Or.inr (Or.inl ⟨err, by simp only [ha]⟩)
    | ok _ => exact Or.inr (Or.inr ⟨rfl, rfl, by simp only [ha]⟩)

theorem ask_cases (entries : Entries) (request : AskQuestion) (freshId : String) (now : ℤ) :
    (∃ err, ask limits entries request freshId now = (entries, .error err)) ∨
      ∃ contract, askContract limits request freshId now = .ok contract ∧
        ((∃ err, ask limits entries request freshId now =
            ((register limits entries contract now).1, .error err) ∧
              (register limits entries contract now).2 = .error err) ∨
          ask limits entries request freshId now =
            ((register limits entries contract now).1, .ok contract) ∧
              (register limits entries contract now).2 = .ok ()) := by
  rw [ask]
  cases hc : askContract limits request freshId now with
  | error err => exact Or.inl ⟨err, rfl⟩
  | ok contract =>
    refine Or.inr ⟨contract, rfl, ?_⟩
    rcases hr : register limits entries contract now with ⟨after, err | _⟩
    · exact Or.inl ⟨err, by simp only [hr], rfl⟩
    · exact Or.inr ⟨by simp only [hr], rfl⟩

inductive Cause where
  | deadline
  | answer (principal text : String)
  | reject (principal : String)
  | cancel (principal : String)
  | withdraw (principal : String)

inductive SettledAs (entry : QuestionContract) : Cause → QuestionSettlement → Prop
  | answer (text : String) : SettledAs entry (.answer entry.answerer text) (.answered text)
  | reject : SettledAs entry (.reject entry.answerer) .rejected
  | cancel : SettledAs entry (.cancel entry.asker) .cancelled
  | withdraw : SettledAs entry (.withdraw entry.asker) .withdrawn
  | defaulted {text : String} (h : entry.defaultable = some text) :
      SettledAs entry .deadline (.defaulted text)
  | expired (h : entry.defaultable = none) : SettledAs entry .deadline .expired

def Settles (allowed : Cause → Prop) (entry after : QuestionContract) : Prop :=
  entry.state = .pending ∧ SameQuestion entry after ∧
    ∃ cause x, allowed cause ∧ SettledAs entry cause x ∧ settlementOf after = some x

def Progress (allowed : String → Cause → Prop) (entries after : Entries) : Prop :=
  ∀ id, (entries.lookup id = none ∧ after.lookup id = none) ∨
    ∃ entry next, entries.lookup id = some entry ∧ after.lookup id = some next ∧
      (next = entry ∨ Settles (allowed id) entry next)

theorem Progress.refl (allowed : String → Cause → Prop) (entries : Entries) :
    Progress allowed entries entries := fun id => by
  cases hl : entries.lookup id with
  | none => exact Or.inl ⟨rfl, rfl⟩
  | some entry => exact Or.inr ⟨entry, entry, rfl, rfl, Or.inl rfl⟩

variable {next : QuestionContract}

theorem Settles.settled {allowed : Cause → Prop} (h : Settles allowed entry next) :
    next.state ≠ .pending := by
  obtain ⟨-, -, -, x, -, -, hx⟩ := h
  exact settled_of_settlementOf hx

variable {allowed : String → Cause → Prop} {after : Entries}

theorem Progress.source {entries : Entries} (hp : Progress allowed entries after)
    (hl : after.lookup id = some next) : ∃ entry, entries.lookup id = some entry ∧
      (next = entry ∨ Settles (allowed id) entry next) := by
  rcases hp id with ⟨-, hnone⟩ | ⟨entry, next', hentry, hnext, hcase⟩
  · rw [hnone] at hl
    cases hl
  · rw [hnext] at hl
    cases hl
    exact ⟨entry, hentry, hcase⟩

theorem Progress.same {entries : Entries} (hp : Progress allowed entries after)
    (hl : after.lookup id = some next) :
    ∃ entry, entries.lookup id = some entry ∧ SameQuestion entry next := by
  obtain ⟨entry, hentry, rfl | hsettles⟩ := hp.source hl
  · exact ⟨next, hentry, SameQuestion.refl next⟩
  · exact ⟨entry, hentry, hsettles.2.1⟩

theorem Progress.pending {entries : Entries} (hp : Progress allowed entries after)
    (hl : after.lookup id = some next) (h : next.state = .pending) :
    entries.lookup id = some next := by
  obtain ⟨entry, hentry, rfl | hsettles⟩ := hp.source hl
  · exact hentry
  · exact absurd h hsettles.settled

theorem settles_expire {allowed : Cause → Prop} (h : allowed .deadline)
    (entry : QuestionContract) (now : ℤ) :
    entry.expire now = entry ∨ Settles allowed entry (entry.expire now) := by
  have hsame := sameQuestion_expire entry now
  rcases expire_cases entry now with hkeep | ⟨hpend, -, ⟨text, hd, hset⟩ | ⟨hd, hset⟩⟩
  · exact Or.inl hkeep
  · refine Or.inr ⟨hpend, hsame, .deadline, .defaulted text, h, .defaulted hd, ?_⟩
    rw [hset]
    rfl
  · refine Or.inr ⟨hpend, hsame, .deadline, .expired, h, .expired hd, ?_⟩
    rw [hset]
    rfl

theorem progress_expireLocked (h : ∀ id, allowed id .deadline) (entries : Entries) (now : ℤ) :
    Progress allowed entries (expireLocked entries now) := fun id => by
  rw [lookup_expireLocked]
  cases hl : entries.lookup id with
  | none => exact Or.inl ⟨rfl, rfl⟩
  | some entry =>
    exact Or.inr ⟨entry, entry.expire now, rfl, rfl, settles_expire (h id) entry now⟩

variable {target : QuestionState}

variable {principal : String} {requireAsker : Bool}

theorem settleEntry_ok {answer : Option String} {now : ℤ} {settled : QuestionContract}
    (h : settleEntry principal requireAsker target answer now entry = .ok settled) :
    (if requireAsker then entry.asker else entry.answerer) = principal ∧
      entry.state = .pending ∧
      settled = if target = .answered then
          { entry with state := target, answer := answer, answeredAt := some now }
        else { entry with state := target } := by
  rw [settleEntry] at h
  by_cases howner : (if requireAsker then entry.asker else entry.answerer) = principal
  · rw [if_neg (not_not_intro howner)] at h
    cases hs : entry.state with
    | pending =>
      rw [hs] at h
      refine ⟨howner, rfl, ?_⟩
      by_cases ht : target = .answered
      · rw [if_pos ht] at h ⊢
        exact (Except.ok.inj h).symm
      · rw [if_neg ht] at h ⊢
        exact (Except.ok.inj h).symm
    | _ =>
      rw [hs] at h
      cases h
  · rw [if_pos howner] at h
    cases h

theorem progress_settle (hdeadline : ∀ id, allowed id .deadline) (entries : Entries)
    {answer : Option String} (now : ℤ) {cause : Cause}
    (hallow : allowed id cause)
    (hcause : ∀ entry : QuestionContract,
      (if requireAsker then entry.asker else entry.answerer) = principal →
        SettledAs entry cause x)
    (hset : ∀ entry : QuestionContract, settlementOf
      (if target = .answered then
        { entry with state := target, answer := answer, answeredAt := some now }
      else { entry with state := target }) = some x) :
    Progress allowed entries (settle entries id principal requireAsker target answer now).1 := by
  have hexp := progress_expireLocked hdeadline entries now
  rw [settle]
  cases hl : (expireLocked entries now).lookup id with
  | none => simpa only [hl] using hexp
  | some entry =>
    cases hs : settleEntry principal requireAsker target answer now entry with
    | error err => simpa only [hl, hs] using hexp
    | ok settled =>
      obtain ⟨howner, hpend, hsettled⟩ := settleEntry_ok hs
      simp only [hs]
      intro other
      rw [AList.lookup_insert_if]
      by_cases hid : other = id
      · subst hid
        rw [lookup_expireLocked] at hl
        obtain ⟨old, hold, rfl⟩ := Option.map_eq_some_iff.mp hl
        rw [expire_of_pending hpend] at hsettled howner hpend
        refine Or.inr ⟨old, settled, hold, if_pos rfl, Or.inr ⟨hpend, ?_, cause, x, hallow,
          hcause old howner, ?_⟩⟩
        · rw [hsettled]
          split_ifs
          · exact ⟨rfl, rfl, rfl, rfl, rfl, rfl, rfl, rfl, rfl⟩
          · exact ⟨rfl, rfl, rfl, rfl, rfl, rfl, rfl, rfl, rfl⟩
        · rw [hsettled]
          exact hset old
      · rw [if_neg hid]
        exact hexp other

def before (left right : QuestionContract) : Prop :=
  toLex (left.askedAt, left.id) ≤ toLex (right.askedAt, right.id)

instance : DecidableRel before := fun left right =>
  inferInstanceAs (Decidable (toLex (left.askedAt, left.id) ≤ toLex (right.askedAt, right.id)))

def sorted (contracts : List QuestionContract) : List QuestionContract :=
  contracts.insertionSort before

def list (kind : Option QuestionKind) (now : ℤ) :
    Entries × List QuestionContract :=
  let entries := expireLocked entries now
  (entries, sorted ((entries.entries.map Sigma.snd).filter fun entry =>
    kind.all fun kind => entry.kind = kind))

def pendingForAsker (asker : String) (now : ℤ) :
    Entries × List QuestionContract :=
  let entries := expireLocked entries now
  (entries, sorted ((entries.entries.map Sigma.snd).filter fun entry =>
    entry.state = .pending ∧ entry.asker = asker))

def settlement (id : String) (now : ℤ) :
    Entries × Option QuestionSettlement :=
  let entries := expireLocked entries now
  (entries, (entries.lookup id).bind settlementOf)

/-- The entry is the question the snapshot was taken of, as far as a waiter can tell. -/
def Matches (snapshot entry : QuestionContract) : Prop :=
  entry.correlationId = snapshot.correlationId ∧ entry.askedAt = snapshot.askedAt

instance (snapshot entry : QuestionContract) : Decidable (Matches snapshot entry) :=
  inferInstanceAs (Decidable (_ ∧ _))

def observe (id : String) (snapshot : QuestionContract) (now : ℤ) :
    Entries × Option QuestionSettlement :=
  let entries := expireLocked entries now
  (entries,
    match entries.lookup id with
    | none => some .expired
    | some entry => if Matches snapshot entry then settlementOf entry else some .expired)

end QuestionRegistry
