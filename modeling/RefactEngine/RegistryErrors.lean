import RefactEngine.AgentSafety

/-! # Errors of registry operations

Every operation that changes one record changes it in memory first and then waits for the disk. An
operation is run to its end here, with any answer of the disk: what an error leaves behind, and
whether the agents that have ended are without a runner.
-/
namespace AgentRegistry

open AgentDeliveries QuestionRegistry

structure RecordUpdate where
  apply : BackgroundAgent → Except String BackgroundAgent
  status : ∀ r r', apply r = .ok r' → r'.status = r.status
  generation : ∀ r r', apply r = .ok r' → r'.runGeneration = r.runGeneration
  seq : ∀ r r', apply r = .ok r' → r'.changeSeq = r.changeSeq

structure LiveUpdate where
  apply : BackgroundAgent → BackgroundAgent
  live : ∀ r : BackgroundAgent, r.terminal = false → (apply r).terminal = false
  generation : ∀ r, (apply r).runGeneration = r.runGeneration
  seq : ∀ r, (apply r).changeSeq = r.changeSeq

theorem map_ok {α β : Type} {x : Except String α} {f : α → β} {b : β} (h : x.map f = .ok b) :
    ∃ a, x = .ok a ∧ f a = b := by
  cases x with
  | error error => cases h
  | ok a => exact ⟨a, rfl, Except.ok.inj h⟩

/-- A change of the deliveries only. -/
def listsUpdate (change : BackgroundAgent → Except String DeliveryLists) : RecordUpdate where
  apply r := (change r).map fun lists => { r with toDeliveryLists := lists }
  status r r' h := by
    obtain ⟨lists, -, rfl⟩ := map_ok h
    rfl
  generation r r' h := by
    obtain ⟨lists, -, rfl⟩ := map_ok h
    rfl
  seq r r' h := by
    obtain ⟨lists, -, rfl⟩ := map_ok h
    rfl

section Changes

variable (cfg : RegistrySettings) (now : ℤ)

def recipientOf (r : BackgroundAgent) (runner : Option RunnerDeliveryState) : Recipient :=
  { r.toDeliveryLists with
    status := r.status
    runGeneration := r.runGeneration
    runtime := runner }

def enqueueDelivery (runner : Option RunnerDeliveryState) (delivery : PendingDelivery)
    (allowFollowup : Bool) : RecordUpdate :=
  listsUpdate fun r =>
    ((recipientOf r runner).enqueueDelivery cfg.deliveries cfg.followupBytes delivery
      allowFollowup (nowMs now)).map fun accepted => accepted.1.toDeliveryLists

def pushQuestion (question : QuestionContract) : RecordUpdate where
  apply r :=
    if r.terminal then .error "agent already finished"
    else .ok { r with questions := r.questions ++ [question] }
  status r r' h := by
    split_ifs at h
    cases h
    rfl
  generation r r' h := by
    split_ifs at h
    cases h
    rfl
  seq r r' h := by
    split_ifs at h
    cases h
    rfl

def replaceQuestion (settled : QuestionContract) : RecordUpdate where
  apply r :=
    if r.questions.any (·.id = settled.id) then
      .ok { r with
        questions := r.questions.replaceF fun question =>
          if question.id = settled.id then some settled else none }
    else .error "question not found"
  status r r' h := by
    split_ifs at h
    cases h
    rfl
  generation r r' h := by
    split_ifs at h
    cases h
    rfl
  seq r r' h := by
    split_ifs at h
    cases h
    rfl

end Changes

/-- `scheduled` tells that a debounced write only has to wait for the next flush. The other changes
of live records are `updateLive` too. -/
inductive RegistryOp where
  | update (agentId : String) (change : RecordUpdate)
  | updateLive (agentId : String) (change : LiveUpdate) (scheduled : Bool)
  | addQuestion (agentId text freshId : String)
  | answerQuestion (agentId questionId answer : String)
  | markCompleted (agentId : String) (completion : AgentCompletion)
  | markFailed (agentId error : String)
  | markCancelled (agentId : String) (reason : Option String)
  | markInterrupted (agentId reason : String)
  | markClosed (agentId : String) (parentChatId : Option String)
      (expectedRunGeneration : Option ℕ) (reason : Option String)

structure Disk where
  payload : Except String Unit
  flush : Except String Unit

/-- The registry after an operation, what it returned, and whose waiters it notified. -/
structure Outcome where
  registry : Registry
  answer : Except String Unit
  notified : List String

def waiters (g : Registry) (agentId : String) : List String :=
  if (g.runtime.lookup agentId).isSome then [agentId] else []

variable (result : Registry × Written) (agentId : String) (flush : Except String Unit)

def finishUpdate :
    Outcome :=
  match result.2 with
  | .refused error => ⟨result.1, .error error, []⟩
  | .unchanged _ => ⟨result.1, .ok (), []⟩
  | .written _ =>
    match flush with
    | .error error => ⟨result.1, .error error, []⟩
    | .ok () => ⟨result.1, .ok (), waiters result.1 agentId⟩

def finishMark :
    Outcome :=
  match result.2 with
  | .refused error => ⟨result.1, .error error, []⟩
  | .unchanged _ => ⟨result.1, .ok (), []⟩
  | .written record =>
    match flush with
    | .error error => ⟨result.1, .error error, []⟩
    | .ok () =>
      ⟨retireRuntime result.1 agentId record.runGeneration, .ok (), waiters result.1 agentId⟩

def finishClose :
    Outcome :=
  match result.2 with
  | .refused error => ⟨result.1, .error error, []⟩
  | .unchanged _ => ⟨result.1, .ok (), []⟩
  | .written record =>
    ⟨retireRuntime result.1 agentId record.runGeneration, flush, waiters result.1 agentId⟩

section Perform

variable (cfg : RegistrySettings) (limits : QuestionLimits) (now : ℤ) (g : Registry)
  (disk : Disk)

def askAgentParent (agentId answerer text freshId : String) : AskQuestion where
  id := some freshId
  kind := .agentParent
  asker := agentId
  answerer := answerer
  correlationId := agentId ++ ":" ++ freshId
  text := text
  options := none
  expiresInSecs := none
  irreversible := false
  defaultAnswer := none

def stateText : QuestionState → String
  | .pending => "Pending"
  | .answered => "Answered"
  | .defaulted => "Defaulted"
  | .rejected => "Rejected"
  | .cancelled => "Cancelled"
  | .withdrawn => "Withdrawn"
  | .expired => "Expired"

def errorText : QuestionError → String
  | .invalid reason => "invalid_question: " ++ reason
  | .capacity => "question_capacity: too many pending questions"
  | .duplicate => "duplicate_question: correlation is already pending"
  | .notFound => "question_not_found"
  | .notAsker => "not_question_asker"
  | .notAnswerer => "not_question_answerer"
  | .alreadyAnswered => "already_answered"
  | .alreadySettled state => "already_settled: question is " ++ stateText state

def answerErrorText : QuestionError → String
  | .alreadyAnswered => "question already answered"
  | .notFound => "question not found"
  | error => errorText error

def addQuestion (agentId text freshId : String) : Outcome :=
  match g.records.get agentId with
  | none => ⟨g, .error "agent not found", []⟩
  | some record =>
    if record.terminal then ⟨g, .error "agent already finished", []⟩
    else
      match ask limits g.questions (askAgentParent agentId record.parentChatId text freshId)
          freshId now with
      | (questions, .error error) =>
        ⟨{ g with questions := questions }, .error (errorText error), []⟩
      | (questions, .ok question) =>
        let updated := finishUpdate (updateRecord { g with questions := questions } agentId now
          (pushQuestion question).apply) agentId disk.flush
        match updated.answer with
        | .ok () => updated
        | .error _ =>
          { updated with
            registry := { updated.registry with
              questions := (cancel updated.registry.questions freshId agentId now).1 } }

def answerQuestion (agentId questionId answer : String) : Outcome :=
  match g.records.get agentId with
  | none => ⟨g, .error "agent not found", []⟩
  | some record =>
    if record.terminal then
      ⟨g, .error "question was withdrawn when the agent finished; nothing was delivered", []⟩
    else
      match QuestionRegistry.answer g.questions questionId record.parentChatId answer now with
      | (questions, .error error) =>
        ⟨{ g with questions := questions }, .error (answerErrorText error), []⟩
      | (questions, .ok settled) =>
        finishUpdate (updateRecord { g with questions := questions } agentId now
          (replaceQuestion settled).apply) agentId disk.flush

def perform : RegistryOp → Outcome
  | .update agentId change =>
    finishUpdate (updateRecord g agentId now change.apply) agentId disk.flush
  | .updateLive agentId change scheduled =>
    finishUpdate (updateRecordIfNotTerminal g agentId now change.apply) agentId
      (if scheduled then .ok () else disk.flush)
  | .addQuestion agentId text freshId => addQuestion limits now g disk agentId text freshId
  | .answerQuestion agentId questionId answer => answerQuestion now g disk agentId questionId answer
  | .markCompleted agentId completion =>
    finishMark (markCompleted cfg g agentId now completion disk.payload) agentId disk.flush
  | .markFailed agentId error =>
    finishMark (markFailed cfg g agentId now error disk.payload) agentId disk.flush
  | .markCancelled agentId reason =>
    finishMark (markCancelled cfg g agentId now reason disk.payload) agentId disk.flush
  | .markInterrupted agentId reason =>
    finishMark (markInterrupted cfg g agentId now reason) agentId disk.flush
  | .markClosed agentId parentChatId expected reason =>
    finishClose (markClosed cfg g agentId now parentChatId expected reason) agentId disk.flush

end Perform

def Retired (g : Registry) : Prop :=
  ∀ agentId r, g.records.get agentId = some r → r.terminal = true →
    g.runtime.lookup agentId = none

def SameQuestions (now : ℤ) (questions after : Entries) : Prop :=
  ∀ id, after.lookup id = questions.lookup id ∨
    after.lookup id = (questions.lookup id).map fun entry => entry.expire now

/-- An error leaves no effect; agents that have ended have no runner; and whoever waited for the
end of one was notified. -/
structure Promised (now : ℤ) (g : Registry) (o : Outcome) : Prop where
  effect : ∀ error, o.answer = .error error →
    (∀ agentId, o.registry.records.get agentId = g.records.get agentId) ∧
      SameQuestions now g.questions o.registry.questions
  retired : Retired o.registry
  notified : ∀ agentId r r', g.records.get agentId = some r → r.terminal = false →
    o.registry.records.get agentId = some r' → r'.terminal = true →
      (g.runtime.lookup agentId).isSome → agentId ∈ o.notified

def IsLive (g : Registry) (agentId : String) : Prop :=
  ∃ r, g.records.get agentId = some r ∧ r.terminal = false

def RegistryOp.writes (limits : QuestionLimits) (now : ℤ) (g : Registry) (disk : Disk) :
    RegistryOp → Prop
  | .update agentId change => ∃ r r', g.records.get agentId = some r ∧ change.apply r = .ok r'
  | .updateLive agentId _ scheduled => scheduled = false ∧ IsLive g agentId
  | .addQuestion agentId text freshId =>
    ∃ r, g.records.get agentId = some r ∧ r.terminal = false ∧ ∃ question,
      (ask limits g.questions (askAgentParent agentId r.parentChatId text freshId) freshId
        now).2 = .ok question
  | .answerQuestion agentId questionId answer =>
    ∃ r, g.records.get agentId = some r ∧ r.terminal = false ∧ ∃ settled,
      (QuestionRegistry.answer g.questions questionId r.parentChatId answer now).2 = .ok settled ∧
        r.questions.any (·.id = settled.id) = true
  | .markCompleted agentId _ | .markFailed agentId _ | .markCancelled agentId _ =>
    IsLive g agentId ∧ disk.payload = .ok ()
  | .markInterrupted agentId _ => IsLive g agentId
  | .markClosed agentId parentChatId expected _ =>
    ∃ r, g.records.get agentId = some r ∧ r.terminal = false ∧
      (∀ parent, parentChatId = some parent → r.parentChatId = parent) ∧
      ∀ generation, expected = some generation → r.runGeneration = generation

/-- An answer that the service accepts is for a question that the record does not list. -/
def RegistryOp.loses (now : ℤ) (g : Registry) : RegistryOp → Prop
  | .answerQuestion agentId questionId answer =>
    ∃ r, g.records.get agentId = some r ∧ r.terminal = false ∧ ∃ settled,
      (QuestionRegistry.answer g.questions questionId r.parentChatId answer now).2 = .ok settled ∧
        r.questions.any (·.id = settled.id) = false
  | _ => False

/-- What an operation has done under the lock. With `ends` it ends a live run, else it leaves a
record live or terminal. -/
inductive Wrote (g : Registry) (agentId : String) (ends : Bool) : Registry × Written → Prop where
  | refused (error : String) : Wrote g agentId ends (g, .refused error)
  | unchanged (r : BackgroundAgent) : Wrote g agentId ends (g, .unchanged r)
  | written {r r' : BackgroundAgent} {g' : Registry} (hget : g.records.get agentId = some r)
      (hrecords : ∀ other, g'.records.get other =
        if other = agentId then some r' else g.records.get other)
      (hruntime : g'.runtime = g.runtime) (hseq : r.changeSeq < r'.changeSeq)
      (hends : ends = true → r.terminal = false ∧ r'.terminal = true)
      (hkeeps : ends = false → r'.terminal = r.terminal) :
      Wrote g agentId ends (g', .written r')

def Written.isWritten : Written → Prop
  | .written _ => True
  | .refused _ | .unchanged _ => False

section Sections

variable {cfg : RegistrySettings} {limits : QuestionLimits} {now : ℤ} {g : Registry}
  {agentId : String}

theorem wrote_updateRecord (change : RecordUpdate) :
    Wrote g agentId false (updateRecord g agentId now change.apply) ∧
      ((updateRecord g agentId now change.apply).2.isWritten ↔
        ∃ r r', g.records.get agentId = some r ∧ change.apply r = .ok r') := by
  rw [updateRecord]
  cases hget : g.records.get agentId with
  | none =>
    refine ⟨.refused _, False.elim, ?_⟩
    rintro ⟨_, _, h, _⟩
    cases h
  | some r =>
    cases happly : change.apply r with
    | error error =>
      simp only [happly]
      refine ⟨.refused _, False.elim, ?_⟩
      rintro ⟨_, r', ⟨⟩, h⟩
      rw [happly] at h
      cases h
    | ok r' =>
      simp only [happly]
      refine ⟨.written hget (fun other => get_insert _ _ _ _) rfl ?_ (fun h => by cases h) fun _ => ?_,
        fun _ => ⟨r, r', rfl, happly⟩, fun _ => trivial⟩
      · rw [touch_changeSeq, change.seq r r' happly]
        exact Nat.lt_succ_self _
      · exact congrArg BgAgentStatus.isTerminal (change.status r r' happly)

theorem wrote_updateRecordIfNotTerminal (change : LiveUpdate) :
    Wrote g agentId false (updateRecordIfNotTerminal g agentId now change.apply) ∧
      ((updateRecordIfNotTerminal g agentId now change.apply).2.isWritten ↔
        IsLive g agentId) := by
  rw [updateRecordIfNotTerminal, IsLive]
  cases hget : g.records.get agentId with
  | none =>
    refine ⟨.refused _, False.elim, ?_⟩
    rintro ⟨_, h, _⟩
    cases h
  | some r =>
    simp only
    split_ifs with hdone
    · refine ⟨.unchanged _, False.elim, ?_⟩
      rintro ⟨_, ⟨⟩, hlive⟩
      rw [hdone] at hlive
      cases hlive
    · rw [Bool.not_eq_true] at hdone
      refine ⟨.written hget (fun other => get_insert _ _ _ _) rfl ?_ (fun h => by cases h) fun _ => ?_,
        fun _ => ⟨r, rfl, hdone⟩, fun _ => trivial⟩
      · rw [touch_changeSeq, change.seq]
        exact Nat.lt_succ_self _
      · exact (change.live r hdone).trans hdone.symm

theorem records_storeSettled (cfg : RegistrySettings) (g : Registry) (agentId other : String)
    (r : BackgroundAgent) (now : ℤ) :
    (g.storeSettled cfg agentId r now).1.records.get other =
      if other = agentId then some (g.storeSettled cfg agentId r now).2
      else g.records.get other := by
  rw [Registry.storeSettled, Registry.store, get_insert]

theorem wrote_markTerminal {payload : Except String Unit}
    {outcome : BackgroundAgent → BackgroundAgent} (h : ∀ r, Ends r (outcome r) r.changeSeq) :
    Wrote g agentId true (markTerminal cfg g agentId now payload outcome) ∧
      ((markTerminal cfg g agentId now payload outcome).2.isWritten ↔
        IsLive g agentId ∧ payload = .ok ()) := by
  rw [markTerminal, IsLive]
  cases hget : g.records.get agentId with
  | none =>
    refine ⟨.refused _, False.elim, ?_⟩
    rintro ⟨⟨_, h, _⟩, _⟩
    cases h
  | some r =>
    simp only
    split_ifs with hdone
    · refine ⟨.unchanged _, False.elim, ?_⟩
      rintro ⟨⟨_, ⟨⟩, hlive⟩, -⟩
      rw [hdone] at hlive
      cases hlive
    · rw [Bool.not_eq_true] at hdone
      cases payload with
      | error error =>
        refine ⟨.refused _, False.elim, ?_⟩
        rintro ⟨-, h⟩
        cases h
      | ok _ =>
        have hset := (h r).settled cfg g.questions now
        exact ⟨.written hget (fun other => records_storeSettled _ _ _ _ _ _) rfl
          (hset.seq ▸ Nat.lt_succ_self _) (fun _ => ⟨hdone, hset.done⟩) (fun h => by cases h),
          fun _ => ⟨⟨r, rfl, hdone⟩, rfl⟩, fun _ => trivial⟩

theorem wrote_markClosed (parentChatId : Option String) (expected : Option ℕ)
    (reason : Option String) (disk : Disk) :
    Wrote g agentId true (markClosed cfg g agentId now parentChatId expected reason) ∧
      ((markClosed cfg g agentId now parentChatId expected reason).2.isWritten ↔
        RegistryOp.writes limits now g disk
          (.markClosed agentId parentChatId expected reason)) := by
  rw [markClosed, RegistryOp.writes]
  cases hget : (g.records.get agentId).filter fun record =>
      parentChatId.all fun parent => record.parentChatId = parent with
  | none =>
    refine ⟨.refused _, False.elim, ?_⟩
    rintro ⟨r, hr, -, hparent, -⟩
    rw [hr, Option.filter_eq_none_iff] at hget
    refine absurd ?_ (hget r rfl)
    cases parentChatId with
    | none => rfl
    | some parent => exact decide_eq_true (hparent parent rfl)
  | some r =>
    obtain ⟨hr, hparent⟩ := Option.filter_eq_some_iff.mp hget
    have hchat : ∀ parent, parentChatId = some parent → r.parentChatId = parent := by
      rintro parent rfl
      exact of_decide_eq_true hparent
    simp only
    split_ifs with hmoved hclosed hdone
    · refine ⟨.refused _, False.elim, ?_⟩
      rintro ⟨r', hr', -, -, hgen⟩
      cases hr.symm.trans hr'
      obtain ⟨generation, hexpected, hne⟩ := (Option.any_eq_true _ _).mp hmoved
      exact absurd (hgen generation hexpected).symm (of_decide_eq_true hne)
    · refine ⟨.unchanged _, False.elim, ?_⟩
      rintro ⟨r', hr', hlive, -⟩
      cases hr.symm.trans hr'
      rw [BackgroundAgent.terminal, hclosed] at hlive
      cases hlive
    · refine ⟨.refused _, False.elim, ?_⟩
      rintro ⟨r', hr', hlive, -⟩
      cases hr.symm.trans hr'
      rw [hdone] at hlive
      cases hlive
    · rw [Bool.not_eq_true] at hdone
      have hset := (ends_closed now reason r).settled cfg g.questions now
      refine ⟨.written hr (fun other => ?_) (runtime_abortRuntime _ _)
        (hset.seq ▸ Nat.lt_succ_self _) (fun _ => ⟨hdone, hset.done⟩) (fun h => by cases h),
        fun _ => ⟨r, hr, hdone, hchat, fun generation hexpected => ?_⟩, fun _ => trivial⟩
      · have hrecs : ∀ g' : Registry, (g'.abortRuntime agentId).records = g'.records := by
          intro g'
          rcases abortRuntime_eq g' agentId with h | ⟨handle, h⟩ <;> rw [h]
          rfl
        rw [hrecs]
        exact records_storeSettled _ _ _ _ _ _
      · rw [hexpected, Option.any_some, decide_eq_true_eq, not_not] at hmoved
        exact hmoved.symm

theorem sameQuestions_refl (now : ℤ) (questions : Entries) : SameQuestions now questions questions
      :=
  fun _ => Or.inl rfl

variable {g' : Registry}

variable {r r' : BackgroundAgent}

theorem not_effect (hget : g.records.get agentId = some r)
    (hget' : g'.records.get agentId = some r') (hseq : r.changeSeq < r'.changeSeq)
    (hsame : ∀ other, g'.records.get other = g.records.get other) : False := by
  have h := (hget'.symm.trans (hsame agentId)).trans hget
  cases h
  exact lt_irrefl _ hseq

variable {o : Outcome}

theorem promised_unwritten (hregistry : o.registry = g) : Promised now g o ↔ Retired g := by
  constructor
  · intro h
    rw [← hregistry]
    exact h.retired
  · intro h
    refine ⟨fun _ _ => ?_, ?_, ?_⟩
    · rw [hregistry]
      exact ⟨fun _ => rfl, sameQuestions_refl now _⟩
    · rw [hregistry]
      exact h
    · intro other r r' hr hlive hr' hdone
      rw [hregistry] at hr'
      cases hr.symm.trans hr'
      rw [hlive] at hdone
      cases hdone

theorem and_of_not {P Q R : Prop} (h : ¬ Q) : P ↔ P ∧ (Q → R) :=
  ⟨fun hP => ⟨hP, fun hQ => absurd hQ h⟩, And.left⟩

variable {result : Registry × Written}

theorem promised_finishUpdate (h : Wrote g agentId false result) (flush : Except String Unit) :
    Promised now g (finishUpdate result agentId flush) ↔
      Retired g ∧ (result.2.isWritten → flush = .ok ()) := by
  cases h with
  | refused error =>
    refine Iff.trans (promised_unwritten ?_) (and_of_not id)
    rfl
  | unchanged r =>
    refine Iff.trans (promised_unwritten ?_) (and_of_not id)
    rfl
  | @written r r' g' hget hrecs hrun hseq hends hkeeps =>
    have hget' : g'.records.get agentId = some r' := (hrecs agentId).trans (if_pos rfl)
    -- terminal records stay where they are
    have hterm : ∀ other q q', g.records.get other = some q → g'.records.get other = some q' →
        q'.terminal = q.terminal := by
      intro other q q' hq hq'
      rw [hrecs other] at hq'
      split_ifs at hq' with hid
      · cases hq'
        rw [hid] at hq
        cases hget.symm.trans hq
        exact hkeeps rfl
      · cases hq.symm.trans hq'
        rfl
    have hknown : ∀ other q', g'.records.get other = some q' →
        ∃ q, g.records.get other = some q := by
      intro other q' hq'
      rw [hrecs other] at hq'
      split_ifs at hq' with hid
      · exact ⟨r, hid ▸ hget⟩
      · exact ⟨q', hq'⟩
    have hknown' : ∀ other q, g.records.get other = some q →
        ∃ q', g'.records.get other = some q' := by
      intro other q hq
      by_cases hid : other = agentId
      · exact ⟨r', hid ▸ hget'⟩
      · exact ⟨q, (hrecs other).trans ((if_neg hid).trans hq)⟩
    have hretired : Retired g' ↔ Retired g := by
      constructor
      · intro hr other q hq hdone
        obtain ⟨q', hq'⟩ := hknown' other q hq
        rw [← hrun]
        exact hr other q' hq' ((hterm other q q' hq hq').trans hdone)
      · intro hr other q' hq' hdone
        obtain ⟨q, hq⟩ := hknown other q' hq'
        rw [hrun]
        exact hr other q hq ((hterm other q q' hq hq').symm.trans hdone)
    cases flush with
    | error error =>
      constructor
      · intro h
        exact (not_effect hget hget' hseq (h.effect error rfl).1).elim
      · intro h
        cases h.2 trivial
    | ok _ =>
      constructor
      · intro h
        exact ⟨hretired.mp h.retired, fun _ => rfl⟩
      · intro h
        refine ⟨nofun, hretired.mpr h.1, ?_⟩
        intro other q q' hq hlive hq' hdone
        rw [hterm other q q' hq hq', hlive] at hdone
        cases hdone

theorem retireRuntime_ended (hget' : g'.records.get agentId = some r') (hdone : r'.terminal =
      true) :
    (∀ other, (retireRuntime g' agentId r'.runGeneration).records.get other =
        g'.records.get other) ∧
      ∀ other, (retireRuntime g' agentId r'.runGeneration).runtime.lookup other =
        if other = agentId then none else g'.runtime.lookup other := by
  rw [retireRuntime, hget']
  simp only [ne_eq, not_true_eq_false, hdone, or_self, if_false]
  cases hlook : g'.runtime.lookup agentId with
  | none =>
    refine ⟨fun _ => rfl, fun other => ?_⟩
    split_ifs with hid
    · rw [hid]
      exact hlook
    · rfl
  | some runtime =>
    simp only
    split_ifs
    · exact ⟨fun _ => rfl, fun other => AList.lookup_erase_if _ _ _⟩
    · exact ⟨fun _ => rfl, fun other => AList.lookup_erase_if _ _ _⟩

theorem promised_ended (hget : g.records.get agentId = some r) (hlive : r.terminal = false)
    (hrecs : ∀ other, g'.records.get other =
      if other = agentId then some r' else g.records.get other)
    (hruntime : g'.runtime = g.runtime) (hdone : r'.terminal = true)
    (hregistry : o.registry = retireRuntime g' agentId r'.runGeneration)
    (hans : o.answer = .ok ()) (hnotified : o.notified = waiters g' agentId) :
    Promised now g o ↔ Retired g := by
  have hget' : g'.records.get agentId = some r' := (hrecs agentId).trans (if_pos rfl)
  obtain ⟨hrec, hrun⟩ := retireRuntime_ended hget' hdone
  rw [← hregistry] at hrec hrun
  have hothers : ∀ other, other ≠ agentId →
      o.registry.records.get other = g.records.get other := fun other hne =>
    (hrec other).trans ((hrecs other).trans (if_neg hne))
  constructor
  · intro h other q hq hq'
    by_cases hid : other = agentId
    · rw [hid] at hq
      cases hget.symm.trans hq
      rw [hlive] at hq'
      cases hq'
    · have hret := h.retired other q ((hothers other hid).trans hq) hq'
      rw [hrun other, if_neg hid, hruntime] at hret
      exact hret
  · intro h
    refine ⟨fun error herror => ?_, fun other q hq hq' => ?_, ?_⟩
    · rw [hans] at herror
      cases herror
    · rw [hrun other]
      split_ifs with hid
      · rfl
      · rw [hruntime]
        exact h other q ((hothers other hid).symm.trans hq) hq'
    · intro other q q' hq hqlive hq' hqdone hsome
      by_cases hid : other = agentId
      · rw [hnotified, waiters, hruntime, ← hid, if_pos hsome]
        exact List.mem_singleton_self _
      · cases hq.symm.trans ((hothers other hid).symm.trans hq')
        rw [hqlive] at hqdone
        cases hqdone

theorem promised_finishMark (h : Wrote g agentId true result) (flush : Except String Unit) :
    Promised now g (finishMark result agentId flush) ↔
      Retired g ∧ (result.2.isWritten → flush = .ok ()) := by
  cases h with
  | refused error =>
    refine Iff.trans (promised_unwritten ?_) (and_of_not id)
    rfl
  | unchanged r =>
    refine Iff.trans (promised_unwritten ?_) (and_of_not id)
    rfl
  | @written r r' g' hget hrecs hrun hseq hends hkeeps =>
    obtain ⟨hlive, hdone⟩ := hends rfl
    cases flush with
    | error error =>
      constructor
      · intro h
        have hget' : g'.records.get agentId = some r' := (hrecs agentId).trans (if_pos rfl)
        exact (not_effect hget hget' hseq (h.effect error rfl).1).elim
      · intro h
        cases h.2 trivial
    | ok _ =>
      rw [promised_ended hget hlive hrecs hrun hdone rfl rfl rfl]
      exact ⟨fun h => ⟨h, fun _ => rfl⟩, fun h => h.1⟩

theorem promised_finishClose (h : Wrote g agentId true result) (flush : Except String Unit) :
    Promised now g (finishClose result agentId flush) ↔
      Retired g ∧ (result.2.isWritten → flush = .ok ()) := by
  cases h with
  | refused error =>
    refine Iff.trans (promised_unwritten ?_) (and_of_not id)
    rfl
  | unchanged r =>
    refine Iff.trans (promised_unwritten ?_) (and_of_not id)
    rfl
  | @written r r' g' hget hrecs hrun hseq hends hkeeps =>
    obtain ⟨hlive, hdone⟩ := hends rfl
    have hget' : g'.records.get agentId = some r' := (hrecs agentId).trans (if_pos rfl)
    cases flush with
    | error error =>
      constructor
      · intro h
        have hsame := (h.effect error rfl).1
        have hrec := (retireRuntime_ended hget' hdone).1
        exact (not_effect hget ((hrec agentId).trans hget') hseq hsame).elim
      · intro h
        cases h.2 trivial
    | ok _ =>
      rw [promised_ended hget hlive hrecs hrun hdone rfl rfl rfl]
      exact ⟨fun h => ⟨h, fun _ => rfl⟩, fun h => h.1⟩

variable {questions after : Entries}

theorem sameQuestions_ask {request : AskQuestion} {freshId : String}
    {error : QuestionError} (h : ask limits questions request freshId now = (after, .error error)) :
    SameQuestions now questions after := by
  rcases ask_cases limits questions request freshId now with ⟨err, hask⟩ |
    ⟨contract, -, ⟨err, hask, hregister⟩ | ⟨hask, -⟩⟩
  · cases h.symm.trans hask
    exact sameQuestions_refl now questions
  · cases h.symm.trans hask
    rcases register_cases limits questions contract now with ⟨e, hr⟩ | ⟨e, hr⟩ | ⟨-, -, hr⟩
    · rw [hr]
      exact sameQuestions_refl now questions
    · rw [hr]
      exact fun id => Or.inr (lookup_expireLocked questions now id)
    · rw [hr] at hregister
      cases hregister
  · cases h.symm.trans hask

theorem answer_cases (questions : Entries) (id answerer answer : String) (now : ℤ) :
    (∃ after error, QuestionRegistry.answer questions id answerer answer now =
        (after, .error error) ∧ SameQuestions now questions after) ∨
      ∃ entry settled after, QuestionRegistry.answer questions id answerer answer now =
        (after, .ok settled) ∧ questions.lookup id = some entry ∧ entry.state = .pending ∧
          settled.state = .answered ∧ entry.expire now = entry ∧
          after.lookup id = some settled := by
  rw [QuestionRegistry.answer]
  split_ifs
  · exact Or.inl ⟨_, _, rfl, sameQuestions_refl now questions⟩
  · have hexp : SameQuestions now questions (expireLocked questions now) := fun other =>
      Or.inr (lookup_expireLocked questions now other)
    rw [settle]
    cases hlook : (expireLocked questions now).lookup id with
    | none => exact Or.inl ⟨_, _, rfl, hexp⟩
    | some entry =>
      simp only
      cases hsettle : settleEntry answerer false .answered (some answer) now entry with
      | error error => exact Or.inl ⟨_, _, rfl, hexp⟩
      | ok settled =>
        obtain ⟨-, hpend, hset⟩ := settleEntry_ok hsettle
        rw [if_pos rfl] at hset
        rw [lookup_expireLocked] at hlook
        obtain ⟨stored, hstored, rfl⟩ := Option.map_eq_some_iff.mp hlook
        have hsame := expire_of_pending hpend
        rw [hsame] at hpend
        refine Or.inr ⟨stored, settled, _, rfl, hstored, hpend, ?_, hsame, ?_⟩
        · rw [hset]
        · rw [AList.lookup_insert]

theorem not_sameQuestions {id : String}
    {entry settled : QuestionContract} (hentry : questions.lookup id = some entry)
    (hpend : entry.state = .pending) (hset : settled.state = .answered)
    (hexpire : entry.expire now = entry) (hafter : after.lookup id = some settled) :
    ¬ SameQuestions now questions after := by
  intro h
  have hsame : settled = entry := by
    rcases h id with hid | hid
    · rw [hentry, hafter] at hid
      exact Option.some.inj hid
    · rw [hentry, hafter, Option.map_some, hexpire] at hid
      exact Option.some.inj hid
  rw [hsame, hpend] at hset
  cases hset

theorem promised_refused (hrecs : o.registry.records = g.records)
    (hrun : o.registry.runtime = g.runtime)
    (hquestions : SameQuestions now g.questions o.registry.questions) :
    Promised now g o ↔ Retired g := by
  have hretired : Retired o.registry ↔ Retired g := by
    rw [Retired, Retired, hrecs, hrun]
  constructor
  · exact fun h => hretired.mp h.retired
  · intro h
    refine ⟨fun _ _ => ⟨fun other => ?_, hquestions⟩, hretired.mpr h, ?_⟩
    · rw [hrecs]
    · intro other q q' hq hlive hq' hdone
      rw [hrecs] at hq'
      cases hq.symm.trans hq'
      rw [hlive] at hdone
      cases hdone

theorem updateRecord_pushQuestion (now : ℤ) (questions : Entries) (question : QuestionContract)
    (hget : g.records.get agentId = some r) (hlive : r.terminal = false) :
    updateRecord { g with questions := questions } agentId now (pushQuestion question).apply =
      (Registry.store { g with questions := questions } agentId
        ({ r with questions := r.questions ++ [question] }.touch now),
        .written ({ r with questions := r.questions ++ [question] }.touch now)) := by
  have hpush : (pushQuestion question).apply r =
      .ok { r with questions := r.questions ++ [question] } := by
    simp only [pushQuestion, hlive, Bool.false_eq_true, if_false]
  rw [updateRecord]
  simp only [hget, hpush]

theorem promised_ok (questions : Entries) (hans : o.answer = .ok ()) :
    Promised now g o ↔ Promised now { g with questions := questions } o := by
  have hnone : ∀ error, o.answer ≠ .error error := by
    intro error herror
    rw [hans] at herror
    cases herror
  constructor
  · exact fun h => ⟨fun error herror => absurd herror (hnone error), h.retired, h.notified⟩
  · exact fun h => ⟨fun error herror => absurd herror (hnone error), h.retired, h.notified⟩

/-- A question that the record now lists is an effect, even if the service has cancelled it. -/
theorem promised_pushed (question : QuestionContract) (error : String)
    (hget : g.records.get agentId = some r)
    (hrecs : o.registry.records.get agentId =
      some ({ r with questions := r.questions ++ [question] }.touch now))
    (hans : o.answer = .error error) : ¬ Promised now g o := by
  intro h
  exact not_effect hget hrecs (Nat.lt_succ_self _) (h.effect error hans).1

theorem ends_markCancelled (cfg : RegistrySettings) (agentId : String) (now : ℤ)
    (reason : Option String) (r : BackgroundAgent) :
    Ends r { cancelled now reason r with resultPayloadPath := some (cfg.resultPath agentId) }
      r.changeSeq :=
  ⟨rfl, rfl, rfl, rfl⟩

theorem promised_addQuestion (disk : Disk) (text freshId : String) :
    Promised now g (addQuestion limits now g disk agentId text freshId) ↔
      Retired g ∧ (RegistryOp.writes limits now g disk (.addQuestion agentId text freshId) →
        disk.flush = .ok ()) := by
  rw [addQuestion, RegistryOp.writes]
  cases hget : g.records.get agentId with
  | none =>
    refine Iff.trans (promised_unwritten ?_) (and_of_not ?_)
    · rfl
    · exact fun ⟨_, h, _⟩ => nomatch h
  | some r =>
    simp only
    split_ifs with hdone
    · refine Iff.trans (promised_unwritten ?_) (and_of_not ?_)
      · rfl
      · rintro ⟨_, ⟨⟩, hlive, -⟩
        rw [hdone] at hlive
        cases hlive
    · rw [Bool.not_eq_true] at hdone
      rcases hask : ask limits g.questions (askAgentParent agentId r.parentChatId text freshId)
        freshId now with ⟨questions, error | question⟩
      · refine Iff.trans (promised_refused ?_ ?_ (sameQuestions_ask hask)) (and_of_not ?_)
        · rfl
        · rfl
        · rintro ⟨_, ⟨⟩, -, question, hq⟩
          rw [hask] at hq
          cases hq
      · have hwrites : ∃ r', some r = some r' ∧ r'.terminal = false ∧ ∃ question,
            (ask limits g.questions (askAgentParent agentId r'.parentChatId text freshId) freshId
              now).2 = .ok question := ⟨r, rfl, hdone, question, by rw [hask]⟩
        have hpushed := updateRecord_pushQuestion now questions question hget hdone
        have hwrote : Wrote { g with questions := questions } agentId false
            (updateRecord _ agentId now (pushQuestion question).apply) :=
          (wrote_updateRecord (pushQuestion question)).1
        rw [hpushed] at hwrote
        simp only [hpushed]
        cases hflush : disk.flush with
        | ok _ =>
          have h : Promised now _ _ ↔ _ := promised_finishUpdate hwrote (.ok ())
          refine Iff.trans (promised_ok questions ?_) (h.trans ?_)
          · rfl
          · exact ⟨fun h => ⟨h.1, fun _ => rfl⟩, fun h => ⟨h.1, fun _ => rfl⟩⟩
        | error error =>
          constructor
          · intro h
            refine absurd h (promised_pushed question error hget ?_ ?_)
            · exact (get_insert _ _ _ _).trans (if_pos rfl)
            · rfl
          · intro h
            cases h.2 hwrites

theorem updateRecord_replaceQuestion (now : ℤ) (questions : Entries) (settled : QuestionContract)
    (hget : g.records.get agentId = some r) :
    updateRecord { g with questions := questions } agentId now (replaceQuestion settled).apply =
      if r.questions.any (·.id = settled.id) then
        let updated := { r with
          questions := r.questions.replaceF fun question =>
            if question.id = settled.id then some settled else none }.touch now
        (Registry.store { g with questions := questions } agentId updated, .written updated)
      else ({ g with questions := questions }, .refused "question not found") := by
  rw [updateRecord]
  simp only [hget, replaceQuestion]
  by_cases hany : r.questions.any (·.id = settled.id) = true
  · simp only [hany, if_true]
  · simp only [hany, Bool.false_eq_true, if_false]

theorem promised_answerQuestion (disk : Disk) (questionId answer : String) :
    Promised now g (answerQuestion now g disk agentId questionId answer) ↔
      Retired g ∧ ((RegistryOp.writes limits now g disk
          (.answerQuestion agentId questionId answer) → disk.flush = .ok ()) ∧
        ¬ RegistryOp.loses now g (.answerQuestion agentId questionId answer)) := by
  -- nothing is written and nothing is lost by an answer that the service refuses
  have hnone : ¬ RegistryOp.writes limits now g disk (.answerQuestion agentId questionId answer) →
      ¬ RegistryOp.loses now g (.answerQuestion agentId questionId answer) →
      (Retired g ↔ Retired g ∧ ((RegistryOp.writes limits now g disk
          (.answerQuestion agentId questionId answer) → disk.flush = .ok ()) ∧
        ¬ RegistryOp.loses now g (.answerQuestion agentId questionId answer))) := by
    intro hwrites hloses
    exact ⟨fun h => ⟨h, fun h' => absurd h' hwrites, hloses⟩, And.left⟩
  rw [answerQuestion]
  cases hget : g.records.get agentId with
  | none =>
    refine Iff.trans (promised_unwritten ?_) (hnone ?_ ?_)
    · rfl
    · rintro ⟨r, hr, -⟩
      cases hget.symm.trans hr
    · rintro ⟨r, hr, -⟩
      cases hget.symm.trans hr
  | some r =>
    simp only
    split_ifs with hdone
    · refine Iff.trans (promised_unwritten ?_) (hnone ?_ ?_)
      · rfl
      · rintro ⟨r', hr, hlive, -⟩
        cases hget.symm.trans hr
        rw [hdone] at hlive
        cases hlive
      · rintro ⟨r', hr, hlive, -⟩
        cases hget.symm.trans hr
        rw [hdone] at hlive
        cases hlive
    · rw [Bool.not_eq_true] at hdone
      rcases answer_cases g.questions questionId r.parentChatId answer now with
        ⟨after, error, hans, hsame⟩ |
          ⟨entry, settled, after, hans, hentry, hpend, hset, hexpire, hafter⟩
      · rw [hans]
        refine Iff.trans (promised_refused ?_ ?_ hsame) (hnone ?_ ?_)
        · rfl
        · rfl
        · rintro ⟨r', hr, -, settled, hok, -⟩
          cases hget.symm.trans hr
          rw [hans] at hok
          cases hok
        · rintro ⟨r', hr, -, settled, hok, -⟩
          cases hget.symm.trans hr
          rw [hans] at hok
          cases hok
      · have hchanged := not_sameQuestions hentry hpend hset hexpire hafter
        rw [hans]
        simp only [updateRecord_replaceQuestion now after settled hget]
        by_cases hany : r.questions.any (·.id = settled.id) = true
        · have hloses : ¬ RegistryOp.loses now g
              (.answerQuestion agentId questionId answer) := by
            rintro ⟨r', hr, -, settled', hok, hlacks⟩
            cases hget.symm.trans hr
            rw [hans] at hok
            cases hok
            rw [hany] at hlacks
            cases hlacks
          have hwrites : RegistryOp.writes limits now g disk
              (.answerQuestion agentId questionId answer) :=
            ⟨r, hget, hdone, settled, by rw [hans], hany⟩
          have hwrote : Wrote { g with questions := after } agentId false
              (updateRecord _ agentId now (replaceQuestion settled).apply) :=
            (wrote_updateRecord (replaceQuestion settled)).1
          rw [updateRecord_replaceQuestion now after settled hget, if_pos hany] at hwrote
          rw [if_pos hany]
          cases hflush : disk.flush with
          | ok _ =>
            have h : Promised now _ _ ↔ _ := promised_finishUpdate hwrote (.ok ())
            refine Iff.trans (promised_ok after ?_) (h.trans ?_)
            · rfl
            · exact ⟨fun h => ⟨h.1, fun _ => rfl, hloses⟩, fun h => ⟨h.1, fun _ => rfl⟩⟩
          | error error =>
            constructor
            · intro h
              exact absurd (h.effect error rfl).2 hchanged
            · intro h
              cases h.2.1 hwrites
        · rw [if_neg hany]
          constructor
          · intro h
            exact absurd (h.effect _ rfl).2 hchanged
          · intro h
            refine absurd ⟨r, hget, hdone, settled, ?_, ?_⟩ h.2.2
            · rw [hans]
            · rw [Bool.not_eq_true] at hany
              exact hany

/-- An operation keeps the promise exactly if no agent that had ended was left a runner, the disk
takes what the operation writes, and no answer is lost. -/
theorem promised_perform_iff (cfg : RegistrySettings) (limits : QuestionLimits) (now : ℤ)
    (g : Registry) (disk : Disk) (op : RegistryOp) :
    Promised now g (perform cfg limits now g disk op) ↔
      Retired g ∧ ((op.writes limits now g disk → disk.flush = .ok ()) ∧ ¬ op.loses now g) := by
  -- only an answer can be lost
  have hkeep : ∀ {P Q : Prop}, (P ↔ Retired g ∧ Q) → (P ↔ Retired g ∧ (Q ∧ ¬ False)) := by
    intro P Q h
    rw [h, not_false_eq_true, and_true]
  cases op with
  | update agentId change =>
    obtain ⟨hwrote, hwrites⟩ := wrote_updateRecord (g := g) change
    exact hkeep ((promised_finishUpdate hwrote disk.flush).trans
      (and_congr_right fun _ => imp_congr_left hwrites))
  | updateLive agentId change scheduled =>
    obtain ⟨hwrote, hwrites⟩ := wrote_updateRecordIfNotTerminal (g := g) change
    cases scheduled with
    | false =>
      refine hkeep ((promised_finishUpdate hwrote disk.flush).trans ?_)
      refine and_congr_right fun _ => imp_congr_left (hwrites.trans ?_)
      exact ⟨fun h => ⟨rfl, h⟩, And.right⟩
    | true =>
      refine hkeep ((promised_finishUpdate hwrote (.ok ())).trans ?_)
      refine and_congr_right fun _ => ?_
      exact ⟨fun _ h => absurd h.1 nofun, fun _ _ => rfl⟩
  | addQuestion agentId text freshId => exact hkeep (promised_addQuestion disk text freshId)
  | answerQuestion agentId questionId answer =>
    exact promised_answerQuestion disk questionId answer
  | markCompleted agentId completion =>
    obtain ⟨hwrote, hwrites⟩ := wrote_markTerminal (g := g)
      (ends_completed cfg agentId now completion)
    exact hkeep ((promised_finishMark hwrote disk.flush).trans
      (and_congr_right fun _ => imp_congr_left hwrites))
  | markFailed agentId error =>
    obtain ⟨hwrote, hwrites⟩ := wrote_markTerminal (g := g) (ends_failed cfg agentId now error)
    exact hkeep ((promised_finishMark hwrote disk.flush).trans
      (and_congr_right fun _ => imp_congr_left hwrites))
  | markCancelled agentId reason =>
    obtain ⟨hwrote, hwrites⟩ := wrote_markTerminal (g := g)
      (ends_markCancelled cfg agentId now reason)
    exact hkeep ((promised_finishMark hwrote disk.flush).trans
      (and_congr_right fun _ => imp_congr_left hwrites))
  | markInterrupted agentId reason =>
    obtain ⟨hwrote, hwrites⟩ := wrote_markTerminal (g := g) (ends_interrupted now reason)
    refine hkeep ((promised_finishMark hwrote disk.flush).trans ?_)
    refine and_congr_right fun _ => imp_congr_left (hwrites.trans ?_)
    exact ⟨And.left, fun h => ⟨h, rfl⟩⟩
  | markClosed agentId parentChatId expected reason =>
    obtain ⟨hwrote, hwrites⟩ := wrote_markClosed parentChatId expected reason disk
    exact hkeep ((promised_finishClose hwrote disk.flush).trans
      (and_congr_right fun _ => imp_congr_left hwrites))

end Sections

def runningAgents : Registry :=
  (run sampleSettings sampleStart
    [⟨0, .parent (.create ⟨"root", none, none⟩ "A" none)⟩, done 0,
      ⟨0, .parent (.create ⟨"root", none, none⟩ "B" none)⟩, done 1,
      ⟨0, .runner "A" 1 (.markRunning "c1")⟩, done 2]).registry

def failedWrite (op : RegistryOp) : Outcome :=
  perform sampleSettings ⟨8, 60, 60⟩ 0 runningAgents ⟨.ok (), .error "disk full"⟩ op

/-- A refused delivery will be drained, a run that has failed to complete is over and keeps its
runner, and the answer to a question that another agent has asked settles it and is refused. -/
theorem errors_with_effects :
    let delivery : PendingDelivery := ⟨['d'], [], .append, false, 0, none, none⟩
    let enqueued := failedWrite (.update "A"
      (enqueueDelivery sampleSettings 0 (some .empty) delivery false))
    let completed := failedWrite
      (.markCompleted "A" ⟨"done", [], none, none, none, none, none⟩)
    let asked := (perform sampleSettings ⟨8, 60, 60⟩ 0 runningAgents ⟨.ok (), .ok ()⟩
      (.addQuestion "B" "why" "q")).registry
    let answered := perform sampleSettings ⟨8, 60, 60⟩ 0 asked ⟨.ok (), .ok ()⟩
      (.answerQuestion "A" "q" "because")
    enqueued.answer = .error "disk full" ∧
      (runningAgents.records.get "A").map (·.pendingDeliveries.length) = some 0 ∧
      (enqueued.registry.records.get "A").map (·.pendingDeliveries.length) = some 1 ∧
      completed.answer = .error "disk full" ∧ completed.notified = [] ∧
      (completed.registry.records.get "A").map (·.status) = some .completed ∧
      (completed.registry.runtime.lookup "A").isSome = true ∧
      answered.answer = .error "question not found" ∧
      (asked.questions.lookup "q").map (·.state) = some .pending ∧
      (answered.registry.questions.lookup "q").map (·.state) = some .answered := by
  decide

end AgentRegistry
