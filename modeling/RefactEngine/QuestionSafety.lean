import RefactEngine.QuestionRegistry
import Mathlib.Data.List.Induction

/-! # What the observers of a question learn

A run interleaves the operations of a registry with any number of waiters. A question is an accepted
registration of an id, counted by the `generation` of that id; `settled` and `told` record, beside
the code's state, every settlement and every outcome handed out. No operation reads them.
-/
namespace QuestionSafety

open QuestionRegistry List

abbrev Question := String × ℕ

inductive Phase where
  | looping
  | waiting
  deriving DecidableEq

structure Waiter where
  id : String
  snapshot : QuestionContract
  started : ℤ
  phase : Phase
  generation : ℕ


def Waiter.question (waiter : Waiter) : Question := (waiter.id, waiter.generation)

def Waiter.current (waiter : Waiter) (elapsed : ℕ) : ℤ :=
  waiter.started + (min elapsed (2 ^ 63 - 1) : ℕ) * 1000000

structure State where
  entries : Entries
  waiters : AList fun _ : ℕ => Waiter
  generation : String → ℕ
  settled : List (Question × QuestionSettlement)
  told : List (Question × QuestionSettlement)

def initial : State := ⟨∅, ∅, fun _ => 0, [], []⟩

inductive Op where
  | ask (request : AskQuestion) (freshId : String) (now : ℤ)
  | register (contract : QuestionContract) (now : ℤ)
  | answer (id principal text : String) (now : ℤ)
  | reject (id principal : String) (now : ℤ)
  | cancel (id principal : String) (now : ℤ)
  | withdraw (id principal : String) (now : ℤ)
  | expire (now : ℤ)
  | list (kind : Option QuestionKind) (now : ℤ)
  | pendingForAsker (asker : String) (now : ℤ)
  | settlement (id : String) (now : ℤ)
  | wait (waiter : ℕ) (id : String) (now : ℤ)
  | observe (waiter elapsed : ℕ)
  | notified (waiter : ℕ)
  | timeout (waiter : ℕ)
  | abandon (waiter : ℕ)

def newlySettled (generation : String → ℕ) (entries after : Entries) :
    List (Question × QuestionSettlement) :=
  entries.entries.filterMap fun entry =>
    if entry.2.state = .pending then
      ((after.lookup entry.1).bind settlementOf).map fun x => ((entry.1, generation entry.1), x)
    else none

variable (s : State)

def State.logged (after : Entries) : State :=
  { s with
    entries := after
    settled := s.settled ++ newlySettled s.generation s.entries after }

def State.admitted (contract : QuestionContract) (after : Entries) : State :=
  { s with
    entries := after
    generation := Function.update s.generation contract.id (s.generation contract.id + 1)
    settled := s.settled ++ ((settlementOf contract).map fun x =>
      ((contract.id, s.generation contract.id + 1), x)).toList }

def State.tell (question : Question) (x : Option QuestionSettlement) : State :=
  { s with told := s.told ++ (x.map fun x => (question, x)).toList }

def State.observe (s : State) (waiter : ℕ) (w : Waiter) (elapsed : ℕ) : State :=
  let seen := QuestionRegistry.observe s.entries w.id w.snapshot (w.current elapsed)
  let s := (s.logged seen.1).tell w.question seen.2
  match seen.2 with
  | some _ => { s with waiters := s.waiters.erase waiter }
  | none => { s with waiters := s.waiters.insert waiter { w with phase := .waiting } }

def State.timeout (waiter : ℕ) (w : Waiter) (expiry : ℤ) : State :=
  let seen := QuestionRegistry.observe s.entries w.id w.snapshot expiry
  { (s.logged seen.1).tell w.question (some (seen.2.getD .expired)) with
    waiters := s.waiters.erase waiter }

def step (limits : QuestionLimits) (s : State) : Op → State
  | .ask request freshId now =>
    match ask limits s.entries request freshId now with
    | (after, .error _) => s.logged after
    | (after, .ok contract) => (s.logged (expireLocked s.entries now)).admitted contract after
  | .register contract now =>
    match register limits s.entries contract now with
    | (after, .error _) => s.logged after
    | (after, .ok ()) => (s.logged (expireLocked s.entries now)).admitted contract after
  | .answer id principal text now => s.logged (answer s.entries id principal text now).1
  | .reject id principal now => s.logged (reject s.entries id principal now).1
  | .cancel id principal now => s.logged (cancel s.entries id principal now).1
  | .withdraw id principal now => s.logged (withdraw s.entries id principal now).1
  | .expire now =>
    { s.logged (expireLocked s.entries now) with entries := expire limits s.entries now }
  | .list kind now => s.logged (list s.entries kind now).1
  | .pendingForAsker asker now => s.logged (pendingForAsker s.entries asker now).1
  | .settlement id now =>
    let seen := settlement s.entries id now
    (s.logged seen.1).tell (id, s.generation id) seen.2
  | .wait waiter id now =>
    match s.entries.lookup id, s.waiters.lookup waiter with
    | some snapshot, none =>
      { s with waiters :=
          s.waiters.insert waiter ⟨id, snapshot, now, .looping, s.generation id⟩ }
    | _, _ => s
  | .observe waiter elapsed =>
    match s.waiters.lookup waiter with
    | some w => if w.phase = .looping then s.observe waiter w elapsed else s
    | none => s
  | .notified waiter =>
    { s with waiters := s.waiters.modify waiter fun w => { w with phase := .looping } }
  | .timeout waiter =>
    match s.waiters.lookup waiter with
    | some w =>
      match w.phase, w.snapshot.expiresAt with
      | .waiting, some expiry => s.timeout waiter w expiry
      | _, _ => s
    | none => s
  | .abandon waiter => { s with waiters := s.waiters.erase waiter }

def run (limits : QuestionLimits) (ops : List Op) : State := ops.foldl (step limits) initial

inductive Allows : Op → String → Cause → Prop
  | deadline (op : Op) (id : String) : Allows op id .deadline
  | answer (id principal text : String) (now : ℤ) :
      Allows (.answer id principal text now) id (.answer principal text)
  | reject (id principal : String) (now : ℤ) : Allows (.reject id principal now) id (.reject principal)
  | cancel (id principal : String) (now : ℤ) : Allows (.cancel id principal now) id (.cancel principal)
  | withdraw (id principal : String) (now : ℤ) :
      Allows (.withdraw id principal now) id (.withdraw principal)

variable (entries : Entries)

theorem progress_answer (id principal text : String) (now : ℤ) :
    Progress (Allows (.answer id principal text now)) entries
      (answer entries id principal text now).1 := by
  rw [answer]
  by_cases hblank : isBlank text = true
  · rw [if_pos hblank]
    exact Progress.refl _ entries
  · rw [if_neg hblank]
    apply progress_settle (Allows.deadline _) entries now (Allows.answer id principal text now)
    · rintro entry rfl
      exact SettledAs.answer text
    · exact fun _ => rfl

theorem progress_reject (id principal : String) (now : ℤ) :
    Progress (Allows (.reject id principal now)) entries
      (reject entries id principal now).1 := by
  apply progress_settle (Allows.deadline _) entries now (Allows.reject id principal now)
  · rintro entry rfl
    exact SettledAs.reject
  · exact fun _ => rfl

theorem progress_cancel (id principal : String) (now : ℤ) :
    Progress (Allows (.cancel id principal now)) entries
      (cancel entries id principal now).1 := by
  apply progress_settle (Allows.deadline _) entries now (Allows.cancel id principal now)
  · rintro entry rfl
    exact SettledAs.cancel
  · exact fun _ => rfl

theorem progress_withdraw (id principal : String) (now : ℤ) :
    Progress (Allows (.withdraw id principal now)) entries
      (withdraw entries id principal now).1 := by
  apply progress_settle (Allows.deadline _) entries now (Allows.withdraw id principal now)
  · rintro entry rfl
    exact SettledAs.withdraw
  · exact fun _ => rfl

theorem mem_newlySettled {generation : String → ℕ} {entries after : Entries} {q : Question}
    {x : QuestionSettlement} :
    (q, x) ∈ newlySettled generation entries after ↔
      q.2 = generation q.1 ∧ ∃ entry, entries.lookup q.1 = some entry ∧
        entry.state = .pending ∧ (after.lookup q.1).bind settlementOf = some x := by
  rw [newlySettled, mem_filterMap]
  constructor
  · rintro ⟨e, he, hsome⟩
    have hl : entries.lookup e.1 = some e.2 := AList.mem_entries_iff.mp he
    by_cases hpend : e.2.state = .pending
    · rw [if_pos hpend] at hsome
      obtain ⟨y, hy, hpair⟩ := Option.map_eq_some_iff.mp hsome
      obtain ⟨rfl, rfl⟩ := Prod.mk.inj hpair
      exact ⟨rfl, e.2, hl, hpend, hy⟩
    · rw [if_neg hpend] at hsome
      cases hsome
  · obtain ⟨id, n⟩ := q
    rintro ⟨hgen, entry, hl, hpend, hx⟩
    refine ⟨⟨id, entry⟩, AList.mem_entries_iff.mpr hl, ?_⟩
    rw [if_pos hpend, hx]
    exact congrArg (fun n => some ((id, n), x)) hgen.symm

theorem nodup_newlySettled (generation : String → ℕ) (entries after : Entries) :
    ((newlySettled generation entries after).map Prod.fst).Nodup := by
  rw [newlySettled, map_filterMap]
  have hkeys : entries.entries.Pairwise fun a b => a.1 ≠ b.1 :=
    pairwise_map.mp entries.nodupKeys
  refine hkeys.filterMap _ fun a b hab q hq r hr => ?_
  have hfirst : ∀ e : (Σ _ : String, QuestionContract), ∀ q : Question,
      (if e.2.state = .pending then
        ((after.lookup e.1).bind settlementOf).map fun x => ((e.1, generation e.1), x)
        else none).map Prod.fst = some q → q.1 = e.1 := by
    intro e q h
    obtain ⟨y, hy, rfl⟩ := Option.map_eq_some_iff.mp h
    by_cases hpend : e.2.state = .pending
    · rw [if_pos hpend] at hy
      obtain ⟨x, -, rfl⟩ := Option.map_eq_some_iff.mp hy
      rfl
    · rw [if_neg hpend] at hy
      cases hy
  intro heq
  exact hab ((hfirst a q hq).symm.trans ((congrArg Prod.fst heq).trans (hfirst b r hr)))

structure Invariant (limits : QuestionLimits) (s : State) : Prop where
  keyed : ∀ id entry, s.entries.lookup id = some entry → entry.id = id
  reversible : ∀ id entry, s.entries.lookup id = some entry → entry.state = .defaulted →
    entry.isIrreversible = false
  recorded : ∀ id entry x, s.entries.lookup id = some entry → settlementOf entry = some x →
    ((id, s.generation id), x) ∈ s.settled
  unsettled : ∀ id entry, s.entries.lookup id = some entry → entry.state = .pending →
    ∀ x, ((id, s.generation id), x) ∉ s.settled
  past : ∀ q x, (q, x) ∈ s.settled → q.2 ≤ s.generation q.1
  once : (s.settled.map Prod.fst).Nodup
  correlated : ∀ id entry id' entry', s.entries.lookup id = some entry →
    s.entries.lookup id' = some entry' → entry.state = .pending → entry'.state = .pending →
    entry.correlationId = entry'.correlationId → id = id'
  bounded : pendingCount s.entries ≤ limits.maxPending

theorem invariant_initial (limits : QuestionLimits) : Invariant limits initial where
  keyed := fun _ _ h => by cases h
  reversible := fun _ _ h => by cases h
  recorded := fun _ _ _ h => by cases h
  unsettled := fun _ _ h => by cases h
  past := fun _ _ h => by cases h
  once := nodup_nil
  correlated := fun _ _ _ _ h => by cases h
  bounded := Nat.zero_le _

section Progress

variable {limits : QuestionLimits} {s : State} {allowed : String → Cause → Prop} {after : Entries}

theorem mem_logged {q : Question} {x : QuestionSettlement} :
    (q, x) ∈ (s.logged after).settled ↔ (q, x) ∈ s.settled ∨
      q.2 = s.generation q.1 ∧ ∃ entry, s.entries.lookup q.1 = some entry ∧
        entry.state = .pending ∧ (after.lookup q.1).bind settlementOf = some x := by
  rw [State.logged, mem_append, mem_newlySettled]

theorem Invariant.logged (h : Invariant limits s) (hp : Progress allowed s.entries after) :
    Invariant limits (s.logged after) where
  keyed id next hl := by
    obtain ⟨entry, hentry, hsame⟩ := hp.same hl
    exact hsame.id.trans (h.keyed id entry hentry)
  reversible id next hl hdefaulted := by
    obtain ⟨entry, hentry, rfl | ⟨-, hsame, cause, x, -, hby, hx⟩⟩ := hp.source hl
    · exact h.reversible id next hentry hdefaulted
    · rw [hsame.isIrreversible]
      rw [settlementOf, hdefaulted] at hx
      cases hx
      cases hby with
      | defaulted hd =>
        rw [QuestionContract.defaultable] at hd
        exact Bool.eq_false_iff.mpr fun hirr => by
          rw [if_pos hirr] at hd
          cases hd
  recorded id next x hl hx := by
    obtain ⟨entry, hentry, hcase⟩ := hp.source hl
    by_cases hpend : entry.state = .pending
    · refine mem_logged.mpr (Or.inr ⟨rfl, entry, hentry, hpend, ?_⟩)
      exact (congrArg (Option.bind · settlementOf) hl).trans hx
    · obtain rfl | hsettles := hcase
      · exact mem_logged.mpr (Or.inl (h.recorded id next x hentry hx))
      · exact absurd hsettles.1 hpend
  unsettled id next hl hpend x hmem := by
    have hold := hp.pending hl hpend
    rcases mem_logged.mp hmem with hmem | ⟨-, -, -, -, hx⟩
    · exact h.unsettled id next hold hpend x hmem
    · have hnone : (after.lookup id).bind settlementOf = none :=
        (congrArg (Option.bind · settlementOf) hl).trans (settlementOf_eq_none_iff.mpr hpend)
      cases hnone.symm.trans hx
  past q x hmem := by
    rcases mem_logged.mp hmem with hmem | ⟨hgen, -⟩
    · exact h.past q x hmem
    · exact hgen.le
  once := by
    rw [State.logged, map_append]
    refine h.once.append (nodup_newlySettled _ _ _) fun q hq hnew => ?_
    obtain ⟨⟨q, x⟩, hx, rfl⟩ := mem_map.mp hq
    obtain ⟨⟨q', y⟩, hy, rfl⟩ := mem_map.mp hnew
    obtain ⟨hgen, entry, hentry, hpend, -⟩ := mem_newlySettled.mp hy
    apply h.unsettled _ entry hentry hpend x
    rwa [← hgen]
  correlated id entry id' entry' hl hl' hpend hpend' hcorr :=
    h.correlated id entry id' entry' (hp.pending hl hpend) (hp.pending hl' hpend') hpend
      hpend' hcorr
  bounded := by
    refine le_trans (AList.countValues_le _ fun id next hl hpend => ?_) h.bounded
    exact ⟨next, hp.pending hl (of_decide_eq_true hpend), hpend⟩

end Progress

section Admission

variable {limits : QuestionLimits} {s : State} {contract : QuestionContract}

theorem lookup_admitted {entries : Entries} {id : String} {entry : QuestionContract}
    (hl : (entries.insert contract.id contract).lookup id = some entry) :
    (id = contract.id ∧ entry = contract) ∨
      id ≠ contract.id ∧ entries.lookup id = some entry := by
  rw [AList.lookup_insert_if] at hl
  by_cases hid : id = contract.id
  · rw [if_pos hid] at hl
    exact Or.inl ⟨hid, (Option.some.inj hl).symm⟩
  · rw [if_neg hid] at hl
    exact Or.inr ⟨hid, hl⟩

theorem generation_admitted_of_ne {id : String} (hne : id ≠ contract.id) (after : Entries) :
    (s.admitted contract after).generation id = s.generation id :=
  Function.update_of_ne hne _ _

theorem generation_admitted (s : State) (contract : QuestionContract) (after : Entries) :
    (s.admitted contract after).generation contract.id = s.generation contract.id + 1 :=
  Function.update_self _ _ _

theorem mem_admitted {q : Question} {x : QuestionSettlement} {after : Entries} :
    (q, x) ∈ (s.admitted contract after).settled ↔ (q, x) ∈ s.settled ∨
      settlementOf contract = some x ∧ q = (contract.id, s.generation contract.id + 1) := by
  rw [State.admitted, mem_append, Option.mem_toList, Option.map_eq_some_iff]
  constructor
  · rintro (hold | ⟨y, hy, heq⟩)
    · exact Or.inl hold
    · cases heq
      exact Or.inr ⟨hy, rfl⟩
  · rintro (hold | ⟨hx, rfl⟩)
    · exact Or.inl hold
    · exact Or.inr ⟨x, hx, rfl⟩

theorem Invariant.unseen (h : Invariant limits s) (id : String) (x : QuestionSettlement) :
    ((id, s.generation id + 1), x) ∉ s.settled := fun hx => by
  have hle := h.past _ x hx
  simp only at hle
  omega

theorem Invariant.admitted (h : Invariant limits s) (hvalid : contract.validate = .ok ())
    (hadmits : admits limits s.entries contract = .ok ()) :
    Invariant limits (s.admitted contract (s.entries.insert contract.id contract)) := by
  obtain ⟨hfree, hroom⟩ := admits_ok hadmits
  refine ⟨?_, ?_, ?_, ?_, ?_, ?_, ?_, ?_⟩
  · intro id entry hl
    rcases lookup_admitted hl with ⟨rfl, rfl⟩ | ⟨-, hold⟩
    · rfl
    · exact h.keyed id entry hold
  · intro id entry hl hdefaulted
    rcases lookup_admitted hl with ⟨rfl, rfl⟩ | ⟨-, hold⟩
    · obtain ⟨hstakes, hdefault⟩ := validate_ok hvalid
      exact hstakes (hdefault hdefaulted)
    · exact h.reversible id entry hold hdefaulted
  · intro id entry x hl hx
    rcases lookup_admitted hl with ⟨rfl, rfl⟩ | ⟨hne, hold⟩
    · exact mem_admitted.mpr (Or.inr ⟨hx, by rw [generation_admitted]⟩)
    · rw [generation_admitted_of_ne hne]
      exact mem_admitted.mpr (Or.inl (h.recorded id entry x hold hx))
  · intro id entry hl hpend x hx
    rcases lookup_admitted hl with ⟨rfl, rfl⟩ | ⟨hne, hold⟩
    · rw [generation_admitted] at hx
      rcases mem_admitted.mp hx with hx | ⟨hx, -⟩
      · exact h.unseen _ x hx
      · exact settled_of_settlementOf hx hpend
    · rw [generation_admitted_of_ne hne] at hx
      rcases mem_admitted.mp hx with hx | ⟨-, hq⟩
      · exact h.unsettled id entry hold hpend x hx
      · exact hne (congrArg Prod.fst hq)
  · intro q x hx
    rcases mem_admitted.mp hx with hx | ⟨-, rfl⟩
    · by_cases hid : q.1 = contract.id
      · have hle := h.past q x hx
        rw [hid] at hle ⊢
        rw [generation_admitted]
        omega
      · rw [generation_admitted_of_ne hid]
        exact h.past q x hx
    · exact (generation_admitted s contract _).ge
  · rw [State.admitted, map_append]
    refine h.once.append ?_ fun q hq hnew => ?_
    · cases settlementOf contract with
      | none => exact nodup_nil
      | some x => exact nodup_singleton _
    · obtain ⟨⟨q, y⟩, hy, rfl⟩ := mem_map.mp hq
      obtain ⟨⟨q', z⟩, hz, hqq⟩ := mem_map.mp hnew
      obtain ⟨w, -, hw⟩ := Option.map_eq_some_iff.mp (Option.mem_toList.mp hz)
      cases hw
      cases hqq
      exact h.unseen _ y hy
  · intro id entry id' entry' hl hl' hpend hpend' hcorr
    rcases lookup_admitted hl with ⟨rfl, rfl⟩ | ⟨-, hold⟩
    · rcases lookup_admitted hl' with ⟨rfl, rfl⟩ | ⟨-, hold'⟩
      · rfl
      · exact absurd hcorr.symm ((hroom hpend).1 id' entry' hold' hpend')
    · rcases lookup_admitted hl' with ⟨rfl, rfl⟩ | ⟨-, hold'⟩
      · exact absurd hcorr ((hroom hpend').1 id entry hold hpend)
      · exact h.correlated id entry id' entry' hold hold' hpend hpend' hcorr
  · have hcount := AList.countValues_insert_new (fun entry => decide (entry.state = .pending))
      contract hfree
    have hbound := h.bounded
    change AList.countValues _ (s.entries.insert contract.id contract) ≤ _
    rw [hcount]
    by_cases hpend : contract.state = .pending
    · have hlt := (hroom hpend).2
      rw [pendingCount] at hlt
      rw [if_pos (decide_eq_true hpend)]
      omega
    · rw [if_neg (by simpa using hpend)]
      exact hbound

def State.pruned (limits : QuestionLimits) (s : State) : State :=
  { s with entries := pruneLocked limits s.entries }

theorem Invariant.pruned (h : Invariant limits s) : Invariant limits (s.pruned limits) := by
  have hlook : ∀ {id : String} {entry : QuestionContract},
      (s.pruned limits).entries.lookup id = some entry → s.entries.lookup id = some entry := by
    intro id entry hl
    rw [State.pruned, lookup_pruneLocked] at hl
    split_ifs at hl
    exact hl
  exact {
    keyed := fun id entry hl => h.keyed id entry (hlook hl)
    reversible := fun id entry hl => h.reversible id entry (hlook hl)
    recorded := fun id entry x hl => h.recorded id entry x (hlook hl)
    unsettled := fun id entry hl => h.unsettled id entry (hlook hl)
    past := h.past
    once := h.once
    correlated := fun id entry id' entry' hl hl' =>
      h.correlated id entry id' entry' (hlook hl) (hlook hl')
    bounded := le_trans (AList.countValues_le _ fun id entry hl hp => ⟨entry, hlook hl, hp⟩)
      h.bounded }

end Admission

structure SameTable (s t : State) : Prop where
  entries : t.entries = s.entries
  generation : t.generation = s.generation
  settled : t.settled = s.settled

theorem SameTable.rfl {s : State} : SameTable s s := ⟨Eq.refl _, Eq.refl _, Eq.refl _⟩

variable {t : State}

theorem Invariant.congr {limits : QuestionLimits} {s : State} (h : Invariant limits s)
    (hst : SameTable s t) : Invariant limits t := by
  obtain ⟨hents, hgen, hset⟩ := hst
  constructor
  · rw [hents]
    exact h.keyed
  · rw [hents]
    exact h.reversible
  · rw [hents, hgen, hset]
    exact h.recorded
  · rw [hents, hgen, hset]
    exact h.unsettled
  · rw [hgen, hset]
    exact h.past
  · rw [hset]
    exact h.once
  · rw [hents]
    exact h.correlated
  · rw [hents]
    exact h.bounded

def Registers (limits : QuestionLimits) : Op → QuestionContract → ℤ → Prop
  | .ask request freshId now, contract, at_ =>
    askContract limits request freshId now = .ok contract ∧ at_ = now
  | .register contract' now, contract, at_ => contract = contract' ∧ at_ = now
  | _, _, _ => False

inductive Moves (limits : QuestionLimits) (s : State) (op : Op) (t : State) : Prop where
  | same (h : SameTable s t)
  | logged (after : Entries) (hp : Progress (Allows op) s.entries after)
      (h : SameTable (s.logged after) t)
  | pruned (now : ℤ) (hop : op = .expire now)
      (h : SameTable ((s.logged (expireLocked s.entries now)).pruned limits) t)
  | admitted (contract : QuestionContract) (now : ℤ) (hop : Registers limits op contract now)
      (hvalid : contract.validate = .ok ())
      (hadmits : admits limits (expireLocked s.entries now) contract = .ok ())
      (h : SameTable (((s.logged (expireLocked s.entries now)).admitted contract
        ((expireLocked s.entries now).insert contract.id contract)).pruned limits) t)

section Step

variable {limits : QuestionLimits} {s : State}

theorem moves_expired (op : Op) (now : ℤ) {t : State}
    (h : SameTable (s.logged (expireLocked s.entries now)) t) : Moves limits s op t :=
  .logged _ (progress_expireLocked (Allows.deadline op) s.entries now) h

theorem register_moves {op : Op} {contract : QuestionContract} {now : ℤ}
    (hop : Registers limits op contract now) :
    (∃ err, (register limits s.entries contract now).2 = .error err ∧
        Moves limits s op (s.logged (register limits s.entries contract now).1)) ∨
      (register limits s.entries contract now).2 = .ok () ∧
        Moves limits s op ((s.logged (expireLocked s.entries now)).admitted contract
          (register limits s.entries contract now).1) := by
  rcases register_cases limits s.entries contract now with
    ⟨err, h⟩ | ⟨err, h⟩ | ⟨hvalid, hadmits, h⟩
  · rw [h]
    exact Or.inl ⟨err, rfl, .logged _ (Progress.refl _ _) SameTable.rfl⟩
  · rw [h]
    exact Or.inl ⟨err, rfl, moves_expired op now SameTable.rfl⟩
  · rw [h]
    exact Or.inr ⟨rfl, .admitted contract now hop hvalid hadmits SameTable.rfl⟩

theorem step_moves (limits : QuestionLimits) (s : State) (op : Op) :
    Moves limits s op (step limits s op) := by
  cases op with
  | ask request freshId now =>
    rw [step]
    rcases ask_cases limits s.entries request freshId now with
      ⟨err, h⟩ | ⟨contract, hc, ⟨err, h, herr⟩ | ⟨h, hok⟩⟩
    · simp only [h]
      exact .logged _ (Progress.refl _ _) SameTable.rfl
    · simp only [h]
      have hop : Registers limits (.ask request freshId now) contract now := ⟨hc, rfl⟩
      rcases register_moves hop with ⟨-, -, hm⟩ | ⟨hok, -⟩
      · exact hm
      · rw [herr] at hok
        cases hok
    · simp only [h]
      have hop : Registers limits (.ask request freshId now) contract now := ⟨hc, rfl⟩
      rcases register_moves hop with ⟨err, herr, -⟩ | ⟨-, hm⟩
      · rw [herr] at hok
        cases hok
      · exact hm
  | register contract now =>
    rw [step]
    have hop : Registers limits (.register contract now) contract now := ⟨rfl, rfl⟩
    rcases register_moves hop with ⟨err, herr, hm⟩ | ⟨hok, hm⟩
    · rcases hr : register limits s.entries contract now with ⟨after, res⟩
      rw [hr] at herr hm
      cases herr
      exact hm
    · rcases hr : register limits s.entries contract now with ⟨after, res⟩
      rw [hr] at hok hm
      cases hok
      exact hm
  | answer id principal text now =>
    exact .logged _ (progress_answer s.entries id principal text now) SameTable.rfl
  | reject id principal now =>
    exact .logged _ (progress_reject s.entries id principal now) SameTable.rfl
  | cancel id principal now =>
    exact .logged _ (progress_cancel s.entries id principal now) SameTable.rfl
  | withdraw id principal now =>
    exact .logged _ (progress_withdraw s.entries id principal now) SameTable.rfl
  | expire now => exact .pruned now rfl SameTable.rfl
  | list kind now => exact moves_expired _ now SameTable.rfl
  | pendingForAsker asker now => exact moves_expired _ now SameTable.rfl
  | settlement id now => exact moves_expired _ now ⟨rfl, rfl, rfl⟩
  | wait waiter id now =>
    rw [step]
    split
    · exact .same ⟨rfl, rfl, rfl⟩
    · exact .same SameTable.rfl
  | observe waiter elapsed =>
    rw [step]
    cases hw : s.waiters.lookup waiter with
    | none => exact .same SameTable.rfl
    | some w =>
      simp only
      by_cases hphase : w.phase = .looping
      · rw [if_pos hphase]
        refine moves_expired _ (w.current elapsed) ?_
        rw [State.observe]
        split
        · exact ⟨rfl, rfl, rfl⟩
        · exact ⟨rfl, rfl, rfl⟩
      · rw [if_neg hphase]
        exact .same SameTable.rfl
  | notified waiter => exact .same ⟨rfl, rfl, rfl⟩
  | timeout waiter =>
    rw [step]
    cases hw : s.waiters.lookup waiter with
    | none => exact .same SameTable.rfl
    | some w =>
      simp only
      split
      · rename_i expiry _ _
        exact moves_expired _ expiry ⟨rfl, rfl, rfl⟩
      · exact .same SameTable.rfl
  | abandon waiter => exact .same ⟨rfl, rfl, rfl⟩

theorem Invariant.moves {op : Op} {t : State} (h : Invariant limits s)
    (hm : Moves limits s op t) : Invariant limits t := by
  have hexp : ∀ now, Invariant limits (s.logged (expireLocked s.entries now)) := fun now =>
    h.logged (progress_expireLocked (Allows.deadline op) s.entries now)
  cases hm with
  | same hst => exact h.congr hst
  | logged after hp hst => exact (h.logged hp).congr hst
  | pruned now _ hst => exact (hexp now).pruned.congr hst
  | admitted contract now _ hvalid hadmits hst =>
    exact ((hexp now).admitted hvalid hadmits).pruned.congr hst

theorem run_invariant (limits : QuestionLimits) (ops : List Op) :
    Invariant limits (run limits ops) := by
  induction ops using List.reverseRecOn with
  | nil => exact invariant_initial limits
  | append_singleton ops op ih =>
    rw [run, foldl_append]
    exact ih.moves (step_moves limits _ op)

end Step

/-- What a step may make of a stored question: a settled one stays as it is or is dropped, a pending
one stays or is settled, once, by a principal who may settle it so. -/
structure Fate (s : State) (op : Op) (t : State) (id : String) (entry : QuestionContract) :
    Prop where
  generation : t.generation id = s.generation id
  settled : entry.state ≠ .pending →
    t.entries.lookup id = some entry ∨ t.entries.lookup id = none
  pending : entry.state = .pending → t.entries.lookup id = some entry ∨
    ∃ cause x, Allows op id cause ∧ SettledAs entry cause x ∧
      ((id, s.generation id), x) ∈ t.settled ∧
      ∀ next, t.entries.lookup id = some next →
        SameQuestion entry next ∧ settlementOf next = some x

variable {entry : QuestionContract} {id : String} {op : Op}

theorem Fate.congr {s u : State} (h : Fate s op t id entry) (htu : SameTable t u) :
    Fate s op u id entry := by
  obtain ⟨hents, hgen, hset⟩ := htu
  constructor
  · rw [hgen]
    exact h.generation
  · rw [hents]
    exact h.settled
  · rw [hents, hset]
    exact h.pending

theorem fate_logged {s : State} {after : Entries} (hl : s.entries.lookup id = some entry)
    (hp : Progress (Allows op) s.entries after) : Fate s op (s.logged after) id entry := by
  rcases hp id with ⟨hnone, -⟩ | ⟨entry', next, hentry, hnext, hcase⟩
  · rw [hnone] at hl
    cases hl
  · rw [hentry] at hl
    cases hl
    refine ⟨rfl, fun hset => ?_, fun hpend => ?_⟩
    · rcases hcase with rfl | ⟨hpend, -⟩
      · exact Or.inl hnext
      · exact absurd hpend hset
    · rcases hcase with rfl | ⟨-, hsame, cause, x, hallow, hby, hx⟩
      · exact Or.inl hnext
      · refine Or.inr ⟨cause, x, hallow, hby, ?_, fun next' hnext' => ?_⟩
        · refine mem_logged.mpr (Or.inr ⟨rfl, entry, hentry, hpend, ?_⟩)
          exact (congrArg (Option.bind · settlementOf) hnext).trans hx
        · cases hnext.symm.trans hnext'
          exact ⟨hsame, hx⟩

theorem Fate.pruned {limits : QuestionLimits} {s : State} (h : Fate s op t id entry)
    (ht : Invariant limits t) : Fate s op (t.pruned limits) id entry := by
  have hlook : (t.pruned limits).entries.lookup id = t.entries.lookup id ∨
      (t.pruned limits).entries.lookup id = none := by
    rw [State.pruned, lookup_pruneLocked]
    split_ifs
    · exact Or.inr rfl
    · exact Or.inl rfl
  have hkept : t.entries.lookup id = some entry → entry.state = .pending →
      (t.pruned limits).entries.lookup id = some entry := by
    intro hl hpend
    rw [State.pruned, lookup_pruneLocked, if_neg]
    · exact hl
    · exact fun hmem => settled_of_mem_prunedIds ht.keyed hl hmem hpend
  refine ⟨h.generation, fun hset => ?_, fun hpend => ?_⟩
  · rcases hlook with hl | hl
    · rw [hl]
      exact h.settled hset
    · exact Or.inr hl
  · rcases h.pending hpend with hl | ⟨cause, x, hallow, hby, hmem, hnext⟩
    · exact Or.inl (hkept hl hpend)
    · refine Or.inr ⟨cause, x, hallow, hby, hmem, fun next hl' => hnext next ?_⟩
      rcases hlook with hl | hl
      · exact hl.symm.trans hl'
      · rw [hl] at hl'
        cases hl'

variable {contract : QuestionContract}

theorem Fate.admitted {s : State} (h : Fate s op t id entry) (hne : id ≠ contract.id) :
    Fate s op (t.admitted contract (t.entries.insert contract.id contract)) id entry := by
  have hl : (t.entries.insert contract.id contract).lookup id = t.entries.lookup id :=
    AList.lookup_insert_ne hne
  refine ⟨(generation_admitted_of_ne hne _).trans h.generation, fun hset => ?_,
    fun hpend => ?_⟩
  · rw [State.admitted, hl]
    exact h.settled hset
  · rcases h.pending hpend with hkept | ⟨cause, x, hallow, hby, hmem, hnext⟩
    · exact Or.inl (hl.trans hkept)
    · exact Or.inr ⟨cause, x, hallow, hby, mem_admitted.mpr (Or.inl hmem),
        fun next hl' => hnext next (hl.symm.trans hl')⟩

theorem fate_step {limits : QuestionLimits} {s : State} (h : Invariant limits s) (op : Op)
    (hl : s.entries.lookup id = some entry) : Fate s op (step limits s op) id entry := by
  have hdue : ∀ now, Progress (Allows op) s.entries (expireLocked s.entries now) :=
    fun now => progress_expireLocked (Allows.deadline op) s.entries now
  cases step_moves limits s op with
  | same hst =>
    exact Fate.congr ⟨rfl, fun _ => Or.inl hl, fun _ => Or.inl hl⟩ hst
  | logged after hp hst => exact (fate_logged hl hp).congr hst
  | pruned now _ hst =>
    exact ((fate_logged hl (hdue now)).pruned (h.logged (hdue now))).congr hst
  | admitted contract now _ hvalid hadmits hst =>
    have hne : id ≠ contract.id := by
      rintro rfl
      have hfree := (admits_ok hadmits).1
      rw [lookup_expireLocked, hl] at hfree
      cases hfree
    have hfate : Fate s op ((s.logged (expireLocked s.entries now)).admitted contract
        ((expireLocked s.entries now).insert contract.id contract)) id entry :=
      (fate_logged hl (hdue now)).admitted hne
    exact (hfate.pruned ((h.logged (hdue now)).admitted hvalid hadmits)).congr hst

/-- Nobody waits for a question that the pass drops, unless it is settled as expired. -/
def SparesWaiters (limits : QuestionLimits) (s : State) (entries : Entries) : Prop :=
  ∀ k w entry, s.waiters.lookup k = some w → entries.lookup w.id = some entry →
    Matches w.snapshot entry → w.id ∈ prunedIds limits entries →
    settlementOf entry = some .expired

/-- Nobody waits for a question that cannot be told from the contract. -/
def Distinct (s : State) (contract : QuestionContract) : Prop :=
  ∀ k w, s.waiters.lookup k = some w → w.id = contract.id → ¬ Matches w.snapshot contract

structure Keeps (limits : QuestionLimits) (s : State) (op : Op) : Prop where
  expire : ∀ now, op = .expire now → SparesWaiters limits s (expireLocked s.entries now)
  register : ∀ contract now, Registers limits op contract now → contract.validate = .ok () →
    admits limits (expireLocked s.entries now) contract = .ok () →
    Distinct s contract ∧
      SparesWaiters limits s ((expireLocked s.entries now).insert contract.id contract)

def Live (s : State) (w : Waiter) : Prop :=
  ∃ entry, s.entries.lookup w.id = some entry ∧ s.generation w.id = w.generation ∧
    Matches w.snapshot entry ∧ entry.expiresAt = w.snapshot.expiresAt

def Gone (s : State) (w : Waiter) : Prop :=
  (w.question, .expired) ∈ s.settled ∧
    ∀ entry, s.entries.lookup w.id = some entry → ¬ Matches w.snapshot entry

/-- The waiter can still read the outcome of its question, or rightly takes it as expired. -/
def Watches (s : State) (w : Waiter) : Prop := Live s w ∨ Gone s w

theorem SameQuestion.matches_iff {next snapshot : QuestionContract} (h : SameQuestion entry next) :
    Matches snapshot next ↔ Matches snapshot entry := by
  rw [Matches, Matches, h.correlation, h.askedAt]

variable {w : Waiter}

theorem Watches.congr {s : State} (h : Watches s w) (hst : SameTable s t) : Watches t w := by
  obtain ⟨hents, hgen, hset⟩ := hst
  rw [Watches, Live, Gone, hents, hgen, hset]
  exact h

theorem Watches.logged {s : State} {allowed : String → Cause → Prop} {after : Entries}
    (h : Watches s w) (hp : Progress allowed s.entries after) : Watches (s.logged after) w := by
  rcases h with ⟨entry, hl, hgen, hmatch, hexpires⟩ | ⟨hmem, hother⟩
  · rcases hp w.id with ⟨hnone, -⟩ | ⟨entry', next, hentry, hnext, -⟩
    · rw [hnone] at hl
      cases hl
    · cases hentry.symm.trans hl
      obtain ⟨old, hold, hsame⟩ := hp.same hnext
      cases hold.symm.trans hl
      exact Or.inl ⟨next, hnext, hgen, (SameQuestion.matches_iff hsame).mpr hmatch,
        hsame.expiresAt.trans hexpires⟩
  · refine Or.inr ⟨mem_logged.mpr (Or.inl hmem), fun next hnext hmatch => ?_⟩
    obtain ⟨entry, hl, hsame⟩ := hp.same hnext
    exact hother entry hl ((SameQuestion.matches_iff hsame).mp hmatch)

theorem Watches.pruned {limits : QuestionLimits} {s : State} (hs : Invariant limits s)
    (h : Watches s w)
    (hspares : ∀ entry, s.entries.lookup w.id = some entry → Matches w.snapshot entry →
      w.id ∈ prunedIds limits s.entries → settlementOf entry = some .expired) :
    Watches (s.pruned limits) w := by
  have hlook : (s.pruned limits).entries.lookup w.id =
      if w.id ∈ prunedIds limits s.entries then none else s.entries.lookup w.id :=
    lookup_pruneLocked limits s.entries w.id
  rcases h with ⟨entry, hl, hgen, hmatch, hexpires⟩ | ⟨hmem, hother⟩
  · by_cases hdrop : w.id ∈ prunedIds limits s.entries
    · rw [if_pos hdrop] at hlook
      refine Or.inr ⟨?_, fun next hnext => ?_⟩
      · have hrecd := hs.recorded w.id entry _ hl (hspares entry hl hmatch hdrop)
        rw [hgen] at hrecd
        exact hrecd
      · rw [hlook] at hnext
        cases hnext
    · rw [if_neg hdrop] at hlook
      exact Or.inl ⟨entry, hlook.trans hl, hgen, hmatch, hexpires⟩
  · refine Or.inr ⟨hmem, fun next hnext => ?_⟩
    rw [hlook] at hnext
    split_ifs at hnext
    exact hother next hnext

theorem Watches.admitted {s : State} (h : Watches s w) (hfree : s.entries.lookup contract.id = none)
    (hdist : w.id = contract.id → ¬ Matches w.snapshot contract) :
    Watches (s.admitted contract (s.entries.insert contract.id contract)) w := by
  rcases h with ⟨entry, hl, hgen, hmatch, hexpires⟩ | ⟨hmem, hother⟩
  · have hne : w.id ≠ contract.id := by
      intro heq
      rw [heq, hfree] at hl
      cases hl
    exact Or.inl ⟨entry, (AList.lookup_insert_ne hne).trans hl,
      (generation_admitted_of_ne hne _).trans hgen, hmatch, hexpires⟩
  · refine Or.inr ⟨mem_admitted.mpr (Or.inl hmem), fun next hnext => ?_⟩
    rcases lookup_admitted hnext with ⟨heq, rfl⟩ | ⟨-, hold⟩
    · exact hdist heq
    · exact hother next hold

section Told

variable {limits : QuestionLimits} {s : State} {w : Waiter}

theorem Watches.step {op : Op} {k : ℕ} (hs : Invariant limits s) (hkeeps : Keeps limits s op)
    (hw : s.waiters.lookup k = some w) (h : Watches s w) : Watches (step limits s op) w := by
  have hdue : ∀ now, Progress (Allows op) s.entries (expireLocked s.entries now) :=
    fun now => progress_expireLocked (Allows.deadline op) s.entries now
  cases step_moves limits s op with
  | same hst => exact h.congr hst
  | logged after hp hst => exact (h.logged hp).congr hst
  | pruned now hop hst =>
    have hspares := hkeeps.expire now hop
    exact (Watches.pruned (hs.logged (hdue now)) (h.logged (hdue now))
      fun entry => hspares k w entry hw).congr hst
  | admitted contract now hop hvalid hadmits hst =>
    obtain ⟨hdist, hspares⟩ := hkeeps.register contract now hop hvalid hadmits
    have hadm := (h.logged (hdue now)).admitted (admits_ok hadmits).1 (hdist k w hw)
    exact (Watches.pruned ((hs.logged (hdue now)).admitted hvalid hadmits) hadm
      fun entry => hspares k w entry hw).congr hst

variable {x : QuestionSettlement}

theorem observe_told (hs : Invariant limits s) (h : Watches s w) {now : ℤ}
    (hx : (QuestionRegistry.observe s.entries w.id w.snapshot now).2 = some x) :
    (w.question, x) ∈ (s.logged (expireLocked s.entries now)).settled := by
  have hp : Progress (fun _ _ => True) s.entries (expireLocked s.entries now) :=
    progress_expireLocked (fun _ => trivial) s.entries now
  have hlogged := hs.logged hp
  rw [QuestionRegistry.observe] at hx
  rcases h.logged hp with ⟨entry, hl, hgen, hmatch, -⟩ | ⟨hmem, hother⟩
  · have hfound : (expireLocked s.entries now).lookup w.id = some entry := hl
    simp only [hfound, if_pos hmatch] at hx
    have hrecd := hlogged.recorded w.id entry x hl hx
    rw [hgen] at hrecd
    exact hrecd
  · cases hl : (expireLocked s.entries now).lookup w.id with
    | none =>
      simp only [hl] at hx
      cases hx
      exact hmem
    | some entry =>
      simp only [hl, if_neg (hother entry hl)] at hx
      cases hx
      exact hmem

theorem observe_timeout (h : Watches s w) {expiry : ℤ}
    (hexpiry : w.snapshot.expiresAt = some expiry) :
    ∃ x, (QuestionRegistry.observe s.entries w.id w.snapshot expiry).2 = some x := by
  rw [QuestionRegistry.observe]
  cases hl : (expireLocked s.entries expiry).lookup w.id with
  | none => exact ⟨.expired, rfl⟩
  | some next =>
    by_cases hmatch : Matches w.snapshot next
    · have hset : next.state ≠ .pending := by
        rw [lookup_expireLocked] at hl
        obtain ⟨entry, hentry, rfl⟩ := Option.map_eq_some_iff.mp hl
        rcases h with ⟨entry', hentry', -, -, hexpires⟩ | ⟨-, hother⟩
        · cases hentry.symm.trans hentry'
          exact settled_expire (hexpires.trans hexpiry) le_rfl
        · have hsame := sameQuestion_expire entry expiry
          exact absurd ((SameQuestion.matches_iff hsame).mp hmatch) (hother entry hentry)
      obtain ⟨x, hx⟩ := exists_settlementOf hset
      exact ⟨x, by simp only [if_pos hmatch, hx]⟩
    · exact ⟨.expired, by simp only [if_neg hmatch]⟩

structure Served (s : State) : Prop where
  told : ∀ q x, (q, x) ∈ s.told → (q, x) ∈ s.settled
  watches : ∀ k w, s.waiters.lookup k = some w → Watches s w

theorem served_initial : Served initial where
  told := fun _ _ h => by cases h
  watches := fun _ _ h => by cases h

theorem Watches.of_same {w' : Waiter} (h : Watches s w) (hid : w'.id = w.id)
    (hsnapshot : w'.snapshot = w.snapshot) (hgen : w'.generation = w.generation) :
    Watches s w' := by
  rw [Watches, Live, Gone, Waiter.question, hid, hsnapshot, hgen]
  exact h

theorem waiters_step (limits : QuestionLimits) (s : State) (op : Op) {k : ℕ} {w' : Waiter}
    (h : (step limits s op).waiters.lookup k = some w') :
    (∃ w, s.waiters.lookup k = some w ∧ w'.id = w.id ∧ w'.snapshot = w.snapshot ∧
        w'.generation = w.generation) ∨
      Live (step limits s op) w' := by
  have herase : ∀ {waiter : ℕ}, (s.waiters.erase waiter).lookup k = some w' →
      s.waiters.lookup k = some w' := by
    intro waiter hl
    rw [AList.lookup_erase_if] at hl
    split_ifs at hl
    exact hl
  cases op with
  | ask request freshId now =>
    rw [step] at h
    rcases hr : ask limits s.entries request freshId now with ⟨after, err | contract⟩
    · rw [hr] at h
      exact Or.inl ⟨w', h, rfl, rfl, rfl⟩
    · rw [hr] at h
      exact Or.inl ⟨w', h, rfl, rfl, rfl⟩
  | register contract now =>
    rw [step] at h
    rcases hr : register limits s.entries contract now with ⟨after, err | _⟩
    · rw [hr] at h
      exact Or.inl ⟨w', h, rfl, rfl, rfl⟩
    · rw [hr] at h
      exact Or.inl ⟨w', h, rfl, rfl, rfl⟩
  | answer id principal text now => exact Or.inl ⟨w', h, rfl, rfl, rfl⟩
  | reject id principal now => exact Or.inl ⟨w', h, rfl, rfl, rfl⟩
  | cancel id principal now => exact Or.inl ⟨w', h, rfl, rfl, rfl⟩
  | withdraw id principal now => exact Or.inl ⟨w', h, rfl, rfl, rfl⟩
  | expire now => exact Or.inl ⟨w', h, rfl, rfl, rfl⟩
  | list kind now => exact Or.inl ⟨w', h, rfl, rfl, rfl⟩
  | pendingForAsker asker now => exact Or.inl ⟨w', h, rfl, rfl, rfl⟩
  | settlement id now => exact Or.inl ⟨w', h, rfl, rfl, rfl⟩
  | wait waiter id now =>
    rw [step] at h ⊢
    split at h
    · rename_i snapshot hl _
      simp only [AList.lookup_insert_if] at h
      by_cases hk : k = waiter
      · rw [if_pos hk] at h
        cases h
        exact Or.inr ⟨snapshot, hl, rfl, ⟨rfl, rfl⟩, rfl⟩
      · rw [if_neg hk] at h
        exact Or.inl ⟨w', h, rfl, rfl, rfl⟩
    · exact Or.inl ⟨w', h, rfl, rfl, rfl⟩
  | observe waiter elapsed =>
    rw [step] at h
    split at h
    · rename_i w hw
      split_ifs at h
      · rw [State.observe] at h
        split at h
        · exact Or.inl ⟨w', herase h, rfl, rfl, rfl⟩
        · simp only [AList.lookup_insert_if] at h
          by_cases hk : k = waiter
          · rw [if_pos hk] at h
            cases h
            exact Or.inl ⟨w, hk ▸ hw, rfl, rfl, rfl⟩
          · rw [if_neg hk] at h
            exact Or.inl ⟨w', h, rfl, rfl, rfl⟩
      · exact Or.inl ⟨w', h, rfl, rfl, rfl⟩
    · exact Or.inl ⟨w', h, rfl, rfl, rfl⟩
  | notified waiter =>
    simp only [step, AList.lookup_modify] at h
    by_cases hk : k = waiter
    · rw [if_pos hk] at h
      obtain ⟨w, hw, rfl⟩ := Option.map_eq_some_iff.mp h
      exact Or.inl ⟨w, hk ▸ hw, rfl, rfl, rfl⟩
    · rw [if_neg hk] at h
      exact Or.inl ⟨w', h, rfl, rfl, rfl⟩
  | timeout waiter =>
    rw [step] at h
    split at h
    · split at h
      · exact Or.inl ⟨w', herase h, rfl, rfl, rfl⟩
      · exact Or.inl ⟨w', h, rfl, rfl, rfl⟩
    · exact Or.inl ⟨w', h, rfl, rfl, rfl⟩
  | abandon waiter => exact Or.inl ⟨w', herase h, rfl, rfl, rfl⟩

variable {q : Question}

theorem mem_tell {question : Question} {seen : Option QuestionSettlement}
    (h : (q, x) ∈ (s.tell question seen).told) :
    (q, x) ∈ s.told ∨ q = question ∧ seen = some x := by
  rw [State.tell, mem_append, Option.mem_toList, Option.map_eq_some_iff] at h
  rcases h with hold | ⟨y, hy, heq⟩
  · exact Or.inl hold
  · cases heq
    exact Or.inr ⟨rfl, hy⟩

theorem told_step (hs : Invariant limits s) (hserved : Served s) (op : Op)
    (h : (q, x) ∈ (step limits s op).told) :
    (q, x) ∈ s.told ∨ (q, x) ∈ (step limits s op).settled := by
  cases op with
  | ask request freshId now =>
    rw [step] at h
    rcases hr : ask limits s.entries request freshId now with ⟨after, err | contract⟩
    · rw [hr] at h
      exact Or.inl h
    · rw [hr] at h
      exact Or.inl h
  | register contract now =>
    rw [step] at h
    rcases hr : register limits s.entries contract now with ⟨after, err | _⟩
    · rw [hr] at h
      exact Or.inl h
    · rw [hr] at h
      exact Or.inl h
  | settlement id now =>
    rcases mem_tell h with hold | ⟨rfl, hx⟩
    · exact Or.inl hold
    · have hp : Progress (fun _ _ => True) s.entries (expireLocked s.entries now) :=
        progress_expireLocked (fun _ => trivial) s.entries now
      obtain ⟨entry, hl, hx⟩ := Option.bind_eq_some_iff.mp hx
      exact Or.inr ((hs.logged hp).recorded id entry x hl hx)
  | wait waiter id now =>
    rw [step] at h
    split at h
    · exact Or.inl h
    · exact Or.inl h
  | observe waiter elapsed =>
    rw [step] at h ⊢
    cases hw : s.waiters.lookup waiter with
    | none =>
      rw [hw] at h
      exact Or.inl h
    | some w =>
      simp only [hw] at h ⊢
      by_cases hphase : w.phase = .looping
      · rw [if_pos hphase] at h ⊢
        have htold : ∀ {r : Option QuestionSettlement},
            (QuestionRegistry.observe s.entries w.id w.snapshot (w.current elapsed)).2 = r →
            (s.observe waiter w elapsed).told =
              ((s.logged (expireLocked s.entries (w.current elapsed))).tell w.question r).told := by
          rintro r rfl
          rw [State.observe]
          split <;> rfl
        have hset : (s.observe waiter w elapsed).settled =
            (s.logged (expireLocked s.entries (w.current elapsed))).settled := by
          rw [State.observe]
          split <;> rfl
        rw [htold rfl] at h
        rw [hset]
        rcases mem_tell h with hold | ⟨rfl, hx⟩
        · exact Or.inl hold
        · exact Or.inr (observe_told hs (hserved.watches waiter w hw) hx)
      · rw [if_neg hphase] at h
        exact Or.inl h
  | timeout waiter =>
    rw [step] at h ⊢
    cases hw : s.waiters.lookup waiter with
    | none =>
      rw [hw] at h
      exact Or.inl h
    | some w =>
      simp only [hw] at h ⊢
      split at h
      · rename_i expiry _ hexpiry
        have hwatch := hserved.watches waiter w hw
        obtain ⟨y, hy⟩ := observe_timeout hwatch hexpiry
        rcases mem_tell h with hold | ⟨rfl, hx⟩
        · exact Or.inl hold
        · rw [hy] at hx
          cases hx
          exact Or.inr (observe_told hs hwatch hy)
      · exact Or.inl h
  | _ => exact Or.inl h

theorem settled_step (op : Op) (h : (q, x) ∈ s.settled) : (q, x) ∈ (step limits s op).settled := by
  cases step_moves limits s op with
  | same hst => rwa [hst.settled]
  | logged after _ hst =>
    rw [hst.settled]
    exact mem_logged.mpr (Or.inl h)
  | pruned now _ hst =>
    rw [hst.settled]
    exact mem_logged.mpr (Or.inl h)
  | admitted contract now _ _ _ hst =>
    rw [hst.settled]
    exact mem_admitted.mpr (Or.inl (mem_logged.mpr (Or.inl h)))

theorem Served.step {op : Op} (hs : Invariant limits s) (hserved : Served s)
    (hkeeps : Keeps limits s op) : Served (step limits s op) where
  told q x h := by
    rcases told_step hs hserved op h with hold | hnew
    · exact settled_step op (hserved.told q x hold)
    · exact hnew
  watches k w' h := by
    rcases waiters_step limits s op h with ⟨w, hw, hid, hsnapshot, hgen⟩ | hlive
    · exact ((hserved.watches k w hw).step hs hkeeps hw).of_same hid hsnapshot hgen
    · exact Or.inl hlive

end Told

def RunKeeps (limits : QuestionLimits) (ops : List Op) : Prop :=
  ∀ start op rest, ops = start ++ op :: rest → Keeps limits (run limits start) op

theorem run_concat (limits : QuestionLimits) (ops : List Op) (op : Op) :
    run limits (ops ++ [op]) = step limits (run limits ops) op := by
  rw [run, foldl_append]
  rfl

theorem run_served (limits : QuestionLimits) (ops : List Op) (hkeeps : RunKeeps limits ops) :
    Served (run limits ops) := by
  induction ops using List.reverseRecOn with
  | nil => exact served_initial
  | append_singleton ops op ih =>
    have hstart : RunKeeps limits ops := by
      rintro start op' rest rfl
      exact hkeeps start op' (rest ++ [op]) (by simp)
    rw [run_concat]
    exact (ih hstart).step (run_invariant limits ops) (hkeeps ops op [] rfl)

/-- The registry as its observers see it: a question is settled at most once, by its principals and
never by a default it may not take, the pending ones stay few and apart, and as long as no waited
question is dropped everybody is told the outcome with which the question was settled. -/
theorem settled_once_and_told (limits : QuestionLimits) (ops : List Op) :
    ((run limits ops).settled.map Prod.fst).Nodup ∧
    (∀ op id entry, (run limits ops).entries.lookup id = some entry →
      Fate (run limits ops) op (step limits (run limits ops) op) id entry ∧
      (entry.state = .defaulted → entry.isIrreversible = false) ∧
      ∀ x, settlementOf entry = some x →
        ((id, (run limits ops).generation id), x) ∈ (run limits ops).settled) ∧
    (∀ id entry id' entry', (run limits ops).entries.lookup id = some entry →
      (run limits ops).entries.lookup id' = some entry' → entry.state = .pending →
      entry'.state = .pending → entry.correlationId = entry'.correlationId → id = id') ∧
    pendingCount (run limits ops).entries ≤ limits.maxPending ∧
    (RunKeeps limits ops → ∀ q x, (q, x) ∈ (run limits ops).told →
      (q, x) ∈ (run limits ops).settled ∧ ∀ y, (q, y) ∈ (run limits ops).told → y = x) := by
  have hs := run_invariant limits ops
  refine ⟨hs.once, fun op id entry hl => ⟨fate_step hs op hl, hs.reversible id entry hl,
    fun x => hs.recorded id entry x hl⟩, hs.correlated, hs.bounded, fun hkeeps q x hx => ?_⟩
  have htold := (run_served limits ops hkeeps).told
  refine ⟨htold q x hx, fun y hy => ?_⟩
  have heq : (q, y) = (q, x) :=
    inj_on_of_nodup_map hs.once (htold q y hy) (htold q x hx) rfl
  exact congrArg Prod.snd heq

def oneQuestion : QuestionLimits := ⟨1, 1800, 604800⟩

def request (id correlationId : String) : AskQuestion where
  id := some id
  kind := .userInput
  asker := "asker"
  answerer := "answerer"
  correlationId := correlationId
  text := "Continue?"
  options := none
  expiresInSecs := none
  irreversible := false
  defaultAnswer := none

def prompt : List Op :=
  [.ask (request "q1" "c1") "u1" 0, .wait 0 "q1" 0, .observe 0 0,
    .answer "q1" "answerer" "yes" 1, .notified 0, .observe 0 1]

theorem runKeeps_concat {limits : QuestionLimits} {ops : List Op} (h : RunKeeps limits ops)
    (hop : Keeps limits (run limits ops) op) : RunKeeps limits (ops ++ [op]) := by
  rintro start op' rest heq
  rcases eq_nil_or_concat rest with rfl | ⟨rest, last, rfl⟩
  · obtain ⟨rfl, hlast⟩ := append_inj' heq rfl
    cases hlast
    exact hop
  · have heq' : ops ++ [op] = (start ++ op' :: rest) ++ [last] := by
      rw [heq]
      simp
    obtain ⟨rfl, -⟩ := append_inj' heq' rfl
    exact h start op' rest rfl

def Op.quiet : Op → Bool
  | .ask _ _ _ => false
  | .register _ _ => false
  | .expire _ => false
  | _ => true

theorem keeps_of_quiet {limits : QuestionLimits} {s : State} (h : op.quiet = true) :
    Keeps limits s op := by
  constructor
  · rintro now rfl
    cases h
  · intro contract now hop
    cases op with
    | ask => cases h
    | register => cases h
    | _ => exact absurd hop not_false

theorem runKeeps_append_quiet {limits : QuestionLimits} {ops : List Op} (h : RunKeeps limits ops)
    (rest : List Op) (hquiet : ∀ op ∈ rest, op.quiet = true) : RunKeeps limits (ops ++ rest) := by
  induction rest using List.reverseRecOn with
  | nil => rwa [append_nil]
  | append_singleton rest op ih =>
    rw [← append_assoc]
    apply runKeeps_concat
    · exact ih fun op' hmem => hquiet op' (mem_append_left _ hmem)
    · exact keeps_of_quiet (hquiet op (mem_append_right _ (mem_singleton.mpr rfl)))

theorem keeps_of_idle {limits : QuestionLimits} {s : State} (h : ∀ k, s.waiters.lookup k = none) :
    Keeps limits s op where
  expire _ _ k _ _ hw := absurd ((h k).symm.trans hw) nofun
  register _ _ _ _ _ :=
    ⟨fun k _ hw => absurd ((h k).symm.trans hw) nofun,
      fun k _ _ hw => absurd ((h k).symm.trans hw) nofun⟩

theorem prompt_keeps : RunKeeps oneQuestion prompt := by
  have hnil : RunKeeps oneQuestion [] := fun start op rest h => by simp at h
  have hask : RunKeeps oneQuestion [.ask (request "q1" "c1") "u1" 0] :=
    runKeeps_concat hnil (keeps_of_idle fun _ => rfl)
  exact runKeeps_append_quiet hask _ (all_eq_true.mp rfl)

theorem answered_question_told_answered :
    (("q1", 1), .answered "yes") ∈ (run oneQuestion prompt).settled :=
  ((settled_once_and_told oneQuestion prompt).2.2.2.2 prompt_keeps _ _ (by decide)).1

def overtaken : List Op :=
  [.ask (request "q1" "c1") "u1" 0, .wait 0 "q1" 0, .observe 0 0,
    .answer "q1" "answerer" "yes" 1, .ask (request "q2" "c2") "u2" 2,
    .answer "q2" "answerer" "no" 3, .ask (request "q3" "c3") "u3" 4, .notified 0, .observe 0 1]

theorem answered_question_told_expired :
    oneQuestion.validate = .ok () ∧
      (("q1", 1), .answered "yes") ∈ (run oneQuestion overtaken).settled ∧
      (("q1", 1), .expired) ∈ (run oneQuestion overtaken).told ∧
      (("q1", 1), .expired) ∉ (run oneQuestion overtaken).settled := by
  decide

end QuestionSafety
