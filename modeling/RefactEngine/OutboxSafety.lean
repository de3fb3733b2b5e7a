import RefactEngine.DeliveryOutbox

/-! # Settled messages stay settled

The second store call of an operation does not check that the row is still the one that the
first call read. The results are about the runs in which it is.
-/
namespace DeliveryOutbox

open WorkIdentity CoordinationStore

variable {w w' : World} {a : Action} {key : ProjectKey × String}

/-- The row that is written over is as the operation read it: still absent for
`persistAccepted`, in the same state or gone for a transition. -/
def Unstale (w : World) : Action → Prop
  | .persistPut i => ∀ project recipient delivery dispatch,
      w.phase i = .persisting project recipient delivery dispatch →
      w.table.lookup (project, delivery.id) = none
  | .transitionPut i => ∀ read state bumpAttempts, w.phase i = .writing read state bumpAttempts →
      ∀ held, w.table.lookup (read.project, read.messageId) = some held → held.state = read.state
  | .other => True

inductive UnstaleRun (w : World) : World → Prop where
  | refl : UnstaleRun w w
  | tail {w₁ w₂ : World} {a : Action} : UnstaleRun w w₁ → Step w₁ a w₂ → Unstale w₁ a →
      UnstaleRun w w₂

inductive KeptRun (key : ProjectKey × String) (w : World) : World → Prop where
  | refl : KeptRun key w w
  | tail {w₁ w₂ : World} {a : Action} : KeptRun key w w₁ → Step w₁ a w₂ → Unstale w₁ a →
      w₂.table.lookup key ≠ none → KeptRun key w w₂

theorem putOutboxMessage_lookup (table : OutboxTable) (record : DeliveryOutboxRecord)
    (key : ProjectKey × String) (held : DeliveryOutboxRecord)
    (h : (putOutboxMessage table record).lookup key = some held) :
    (key = (record.project, record.messageId) ∧ held.state = record.state ∧
      held.project = record.project ∧ held.messageId = record.messageId) ∨
    (key ≠ (record.project, record.messageId) ∧ table.lookup key = some held) := by
  unfold putOutboxMessage at h
  by_cases hkey : key = (record.project, record.messageId)
  · left
    subst hkey
    split at h <;> rw [AList.lookup_insert, Option.some.injEq] at h <;> subst h <;> simp
  · right
    refine ⟨hkey, ?_⟩
    split at h <;> rwa [AList.lookup_insert_ne hkey] at h

inductive RowOrigin (w : World) (key : ProjectKey × String) (held : DeliveryOutboxRecord) :
    Action → Prop where
  | kept (a : Action) : w.table.lookup key = some held → RowOrigin w key held a
  | persisted (i : ℕ) (project : ProjectKey) (recipient : String) (delivery : PendingDelivery)
      (dispatch : Bool) : w.phase i = .persisting project recipient delivery dispatch →
      key = (project, delivery.id) → held.project = project → held.messageId = delivery.id →
      RowOrigin w key held (.persistPut i)
  | written (i : ℕ) (read : DeliveryOutboxRecord) (state : DeliveryState) (bumpAttempts : Bool) :
      w.phase i = .writing read state bumpAttempts → key = (read.project, read.messageId) →
      held.project = read.project → held.messageId = read.messageId →
      RowOrigin w key held (.transitionPut i)

variable {held : DeliveryOutboxRecord}

theorem row_origin (h : Step w a w')
    (hrow : w'.table.lookup key = some held) : RowOrigin w key held a := by
  cases h with
  | persistSees => exact .kept _ hrow
  | persistMisses => exact .kept _ hrow
  | persistPut i project recipient delivery dispatch nowMs hphase =>
    rcases putOutboxMessage_lookup _ _ _ _ hrow with ⟨hkey, -, hproj, hid⟩ | ⟨-, hold⟩
    · exact .persisted i project recipient delivery dispatch hphase hkey hproj hid
    · exact .kept _ hold
  | transitionMisses => exact .kept _ hrow
  | transitionSkips => exact .kept _ hrow
  | transitionReads => exact .kept _ hrow
  | transitionPut i read state bumpAttempts nowMs hphase =>
    rcases putOutboxMessage_lookup _ _ _ _ hrow with ⟨hkey, -, hproj, hid⟩ | ⟨-, hold⟩
    · exact .written i read state bumpAttempts hphase hkey hproj hid
    · exact .kept _ hold
  | stop => exact .kept _ hrow
  | prune keys hkeys =>
    simp only [AList.lookup_eraseAll] at hrow
    split at hrow
    · cases hrow
    · exact .kept _ hrow

/-- Rows are stored under their own names, and a transition only ever writes over a row that it
read unsettled. -/
structure Invariant (w : World) : Prop where
  keyed : ∀ key held, w.table.lookup key = some held → (held.project, held.messageId) = key
  unsettled : ∀ i read state bumpAttempts, w.phase i = .writing read state bumpAttempts →
    read.state.isTerminal = false

theorem Invariant.initial : Invariant World.initial where
  keyed _ _ hrow := by cases hrow
  unsettled _ _ _ _ hphase := by cases hphase

theorem afterPersist_ne_writing (project : ProjectKey) (messageId : String) (dispatch : Bool)
    (read : DeliveryOutboxRecord) (state : DeliveryState) (bumpAttempts : Bool) :
    afterPersist project messageId dispatch ≠ .writing read state bumpAttempts := by
  unfold afterPersist
  split <;> exact Phase.noConfusion

theorem writing_origin (h : Step w a w') {i : ℕ} {read : DeliveryOutboxRecord}
    {state : DeliveryState} {bumpAttempts : Bool}
    (hphase : w'.phase i = .writing read state bumpAttempts) :
    w.phase i = .writing read state bumpAttempts ∨ read.state.isTerminal = false := by
  have hupd : ∀ (j : ℕ) (phase : Phase), phase ≠ .writing read state bumpAttempts →
      Function.update w.phase j phase i = .writing read state bumpAttempts →
      w.phase i = .writing read state bumpAttempts := by
    intro j phase hne heq
    rw [Function.update_apply] at heq
    split at heq
    · exact absurd heq hne
    · exact heq
  cases h with
  | persistSees j => exact .inl (hupd j _ (afterPersist_ne_writing _ _ _ _ _ _) hphase)
  | persistMisses j => exact .inl (hupd j _ Phase.noConfusion hphase)
  | persistPut j => exact .inl (hupd j _ (afterPersist_ne_writing _ _ _ _ _ _) hphase)
  | transitionMisses j => exact .inl (hupd j _ Phase.noConfusion hphase)
  | transitionSkips j => exact .inl (hupd j _ Phase.noConfusion hphase)
  | transitionReads j project messageId next bump held hbegins hheld hskips =>
    simp only [Function.update_apply] at hphase
    split at hphase
    · cases hphase
      right
      simp only [skipsTransition, Bool.or_eq_false_iff] at hskips
      exact hskips.1
    · exact .inl hphase
  | transitionPut j => exact .inl (hupd j _ Phase.noConfusion hphase)
  | stop j => exact .inl (hupd j _ Phase.noConfusion hphase)
  | prune => exact .inl hphase

theorem Invariant.step (h : Invariant w) (hstep : Step w a w') : Invariant w' := by
  constructor
  · intro key held hrow
    cases row_origin hstep hrow with
    | kept _ hold => exact h.keyed key held hold
    | persisted i project recipient delivery dispatch hphase hkey hproj hid =>
      rw [hkey, hproj, hid]
    | written i read state bumpAttempts hphase hkey hproj hid => rw [hkey, hproj, hid]
  · intro i read state bumpAttempts hphase
    rcases writing_origin hstep hphase with hold | hread
    · exact h.unsettled i read state bumpAttempts hold
    · exact hread

theorem Invariant.run (h : Invariant w) (hrun : UnstaleRun w w') : Invariant w' := by
  induction hrun with
  | refl => exact h
  | tail _ hstep _ ih => exact ih.step hstep

theorem KeptRun.unstaleRun (h : KeptRun key w w') : UnstaleRun w w' := by
  induction h with
  | refl => exact .refl
  | tail _ hstep hunstale _ ih => exact ih.tail hstep hunstale

structure OutboxSafe (w : World) : Prop where
  settled : ∀ key held w', w.table.lookup key = some held → held.state.isTerminal = true →
    KeptRun key w w' → ∃ held', w'.table.lookup key = some held' ∧ held'.state = held.state
  inFlight : ∀ key held i w', w.table.lookup key = some held → held.state = .inFlight →
    Unstale w (.persistPut i) → Step w (.persistPut i) w' → w'.table.lookup key = some held
  /-- Whatever is redelivered comes from a row that is pending. -/
  redelivered : ∀ decode project limit, ∀ entry ∈ (recover decode w.table project limit).redeliver,
    ∃ record, w.table.lookup (record.project, record.messageId) = some record ∧
      record.state = .pending ∧ decode record.payload = some entry.2

theorem Invariant.settled_step (h : Invariant w) (hstep : Step w a w') (hunstale : Unstale w a)
    {held' : DeliveryOutboxRecord} (hrow : w.table.lookup key = some held)
    (hterm : held.state.isTerminal = true) (hrow' : w'.table.lookup key = some held') :
    held'.state = held.state := by
  cases row_origin hstep hrow' with
  | kept _ hold => rw [Option.some.inj (hold.symm.trans hrow)]
  | persisted i project recipient delivery dispatch hphase hkey =>
    have habsent := hunstale project recipient delivery dispatch hphase
    rw [← hkey, hrow] at habsent
    cases habsent
  | written i read state bumpAttempts hphase hkey =>
    have hsame : held.state = read.state :=
      hunstale read state bumpAttempts hphase held (hkey ▸ hrow)
    rw [hsame, h.unsettled i read state bumpAttempts hphase] at hterm
    cases hterm

theorem Invariant.settled_run (h : Invariant w)
    (hrow : w.table.lookup key = some held) (hterm : held.state.isTerminal = true)
    (hrun : KeptRun key w w') :
    ∃ held', w'.table.lookup key = some held' ∧ held'.state = held.state := by
  induction hrun with
  | refl => exact ⟨held, hrow, rfl⟩
  | tail hrun hstep hunstale hkept ih =>
    obtain ⟨middle, hmiddle, hstate⟩ := ih
    obtain ⟨after, hafter⟩ := Option.ne_none_iff_exists'.mp hkept
    have hinv := h.run hrun.unstaleRun
    refine ⟨after, hafter, ?_⟩
    rw [← hstate]
    apply hinv.settled_step hstep hunstale hmiddle _ hafter
    rw [hstate]
    exact hterm

theorem persistPut_kept {i : ℕ}
    (hrow : w.table.lookup key = some held) (hunstale : Unstale w (.persistPut i))
    (hstep : Step w (.persistPut i) w') : w'.table.lookup key = some held := by
  cases hstep with
  | persistPut _ project recipient delivery dispatch nowMs hphase =>
    have habsent := hunstale project recipient delivery dispatch hphase
    have hkey : key ≠ (project, delivery.id) := by
      rintro rfl
      rw [habsent] at hrow
      cases hrow
    refine Eq.trans ?_ hrow
    unfold putOutboxMessage
    split <;> exact AList.lookup_insert_ne hkey

variable {project : ProjectKey} {limit : ℕ}

theorem listed_row {table : OutboxTable} {states : List DeliveryState} {record : DeliveryOutboxRecord}
    (h : record ∈ listOutboxMessagesInStates table project states limit) :
    ∃ key, table.lookup key = some record ∧ record.state ∈ states := by
  have hrow := (List.mem_insertionSort _).mp (List.mem_of_mem_take h)
  obtain ⟨row, hmem, rfl⟩ := List.mem_map.mp hrow
  obtain ⟨hentry, hcond⟩ := List.mem_filter.mp hmem
  simp only [decide_eq_true_eq] at hcond
  exact ⟨row.1, AList.mem_entries_iff.mp hentry, hcond.2⟩

theorem Invariant.redelivered (h : Invariant w) {decode : String → Option PendingDelivery}
    {entry : String × PendingDelivery}
    (hentry : entry ∈ (recover decode w.table project limit).redeliver) :
    ∃ record, w.table.lookup (record.project, record.messageId) = some record ∧
      record.state = .pending ∧ decode record.payload = some entry.2 := by
  obtain ⟨record, hlisted, hdecoded⟩ := List.mem_filterMap.mp hentry
  obtain ⟨key, hkey, hstate⟩ := listed_row hlisted
  obtain ⟨delivery, hdel, rfl⟩ := Option.map_eq_some_iff.mp hdecoded
  refine ⟨record, ?_, List.mem_singleton.mp hstate, hdel⟩
  rw [h.keyed key record hkey]
  exact hkey

/-- In a run without stale writes a settled row keeps its state and is not redelivered. -/
theorem outbox_safety (w : World) (hrun : UnstaleRun World.initial w) : OutboxSafe w := by
  have hinv : Invariant w := Invariant.initial.run hrun
  constructor
  · intro key held w' hrow hterminal hkept
    exact hinv.settled_run hrow hterminal hkept
  · intro key held i w' hrow _ hunstale hstep
    exact persistPut_kept hrow hunstale hstep
  · intro decode project limit entry hentry
    exact hinv.redelivered hentry

def greeting : PendingDelivery := ⟨"m1", "hello"⟩

def greetingRecord (state : DeliveryState) (attempts : ℤ) (updatedAtMs : ℤ) :
    DeliveryOutboxRecord :=
  ⟨"alpha", "m1", "chat-1", state, attempts, 1, updatedAtMs, "hello"⟩

theorem delivered_message_safe : ∃ w held, UnstaleRun World.initial w ∧
    w.table.lookup ("alpha", "m1") = some held ∧ held.state = .delivered ∧ OutboxSafe w := by
  have hmiss : UnstaleRun World.initial _ :=
    .tail .refl (.persistMisses 0 "alpha" "chat-1" greeting false rfl rfl) trivial
  have hput := hmiss.tail (.persistPut 0 "alpha" "chat-1" greeting false 1 rfl) (by
    intro project recipient delivery dispatch hphase
    cases hphase
    rfl)
  have hread := hput.tail (.transitionReads 0 "alpha" "m1" .delivered false
    (greetingRecord .pending 0 1) (.recordStatus "alpha" "m1" .delivered .delivered rfl) rfl rfl)
    trivial
  have hwrite := hread.tail
    (.transitionPut 0 (greetingRecord .pending 0 1) .delivered false 2 rfl) (by
      intro read state bumpAttempts hphase held hheld
      cases hphase
      cases hheld
      rfl)
  exact ⟨_, greetingRecord .delivered 0 2, hwrite, rfl, rfl, outbox_safety _ hwrite⟩

abbrev Run : World → World → Prop := Relation.ReflTransGen fun w w' => ∃ a, Step w a w'

theorem lagging_persist_reached : ∃ w, Run World.initial w ∧
    w.phase 0 = .persisting "alpha" "chat-1" greeting false ∧ w.phase 1 = .idle ∧
    w.table = (∅ : OutboxTable).insert ("alpha", "m1") (greetingRecord .inFlight 1 2) := by
  have hlag : Run World.initial _ :=
    .single ⟨_, .persistMisses 0 "alpha" "chat-1" greeting false rfl rfl⟩
  have hmiss := hlag.tail ⟨_, .persistMisses 1 "alpha" "chat-1" greeting true rfl rfl⟩
  have hput := hmiss.tail ⟨_, .persistPut 1 "alpha" "chat-1" greeting true 1 rfl⟩
  have hread := hput.tail ⟨_, .transitionReads 1 "alpha" "m1" .inFlight true
    (greetingRecord .pending 0 1) (.acceptForDispatch "alpha" "m1") rfl rfl⟩
  have hwrite := hread.tail
    ⟨_, .transitionPut 1 (greetingRecord .pending 0 1) .inFlight true 2 rfl⟩
  exact ⟨_, hwrite, rfl, rfl, rfl⟩

theorem stale_persist_resurrects :
    (∃ w w' held, Run World.initial w ∧ (∃ a, Step w a w') ∧
      w.table.lookup ("alpha", "m1") = some held ∧ held.state = .delivered ∧
      (recover (fun _ => some greeting) w'.table "alpha" 10).redeliver =
        [("chat-1", greeting)]) ∧
    ∃ w w' held held', Run World.initial w ∧ Step w (.persistPut 0) w' ∧
      w.table.lookup ("alpha", "m1") = some held ∧ held.state = .inFlight ∧
      w'.table.lookup ("alpha", "m1") = some held' ∧ held'.state = .pending := by
  obtain ⟨w, hrun, hlag, hidle, htable⟩ := lagging_persist_reached
  constructor
  · have hread := hrun.tail ⟨_, .transitionReads 1 "alpha" "m1" .delivered false
      (greetingRecord .inFlight 1 2)
      (hidle ▸ .recordStatus "alpha" "m1" .delivered .delivered rfl) (by rw [htable]; rfl) rfl⟩
    have hwrite := hread.tail
      ⟨_, .transitionPut 1 (greetingRecord .inFlight 1 2) .delivered false 3 rfl⟩
    refine ⟨_, _, greetingRecord .delivered 1 3, hwrite,
      ⟨_, .persistPut 0 "alpha" "chat-1" greeting false 4 hlag⟩, ?_, rfl, ?_⟩
    · simp only [htable]
      decide
    · simp only [htable]
      decide
  · refine ⟨w, _, greetingRecord .inFlight 1 2, greetingRecord .pending 0 4, hrun,
      .persistPut 0 "alpha" "chat-1" greeting false 4 hlag, by rw [htable]; rfl, rfl, ?_, rfl⟩
    simp only [htable]
    decide

end DeliveryOutbox
