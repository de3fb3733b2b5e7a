import RefactEngine.AdmissionPump

/-! # Every operation keeps the indexes exact

An operation is a write to the entries, and where the write can free a permit or make a
ticket ready, a run of the pump. `Performed` says which writes there are. The indexes stay
exact through each of them and through every turn, so no operation of a reachable state
can panic.
-/
namespace AdmissionScheduler

open WorkIdentity CoordinationSettings List

namespace State

theorem AdmitStep.found {s s' : State} {a : Admission} {e : Entry} (h : AdmitStep s a e s') :
    s.entries.lookup a.id = some e := h.choice.waiting.1

theorem Rotation.perm {s s' : State} {a : Admission} {pre post : List CheckoutKey}
    (h : Rotation s a pre post s') : s'.roots.Perm s.roots := by
  have hrot : (a.turnRoot :: (post ++ pre)).Perm (pre ++ a.turnRoot :: post) := by
    rw [← cons_append]; exact perm_append_comm
  rw [h.split]
  cases hp : a.preempting with
  | true => rw [(h.preempting hp).1]; exact hrot
  | false =>
    rw [(h.natural hp).2.2]
    split_ifs
    · exact perm_append_comm.trans hrot
    · exact hrot

theorem AdmitStep.consistent {s s' : State} {a : Admission} {e : Entry} (hs : Consistent s)
    (h : AdmitStep s a e s') : Consistent s' := by
  obtain ⟨he, hp, -⟩ := h.choice.waiting
  obtain ⟨pre, post, hrot⟩ := h.rotation
  have hperm := hrot.perm
  have hroots : RootsExact (s.entries.insert a.id { e with state := .active, waiter := none })
      s.roots := hs.roots.replace he rfl
  rw [h.effect] at hperm ⊢
  exact {
    active := hs.active.charge he (by simp [hp]) rfl rfl
    queue := hs.queue.dequeue he (by simp)
    runs := hs.runs.replace he rfl
    roots := ⟨hperm.nodup_iff.mpr hroots.nodup,
      fun root => (hperm.mem_iff).trans (hroots.exact root)⟩
    sequenced := hs.sequenced.replace he rfl rfl }

theorem BreakStep.consistent {s s' : State} (hs : Consistent s) (h : BreakStep s s') :
    Consistent s' := by
  rw [h.effect]
  exact ⟨⟨hs.active, hs.queue, hs.runs, hs.roots⟩, hs.sequenced⟩

inductive Turns : State → List Turn → State → Prop where
  | full {s} : s.settings.maxActiveEngine ≤ s.activeTotal → Turns s [] s
  | idle {s s'} : s.activeTotal < s.settings.maxActiveEngine → BreakStep s s' →
      Turns s [⟨s, none⟩] s'
  | admits {s s' s'' a e turns} : s.activeTotal < s.settings.maxActiveEngine →
      AdmitStep s a e s' → Turns s' turns s'' → Turns s (⟨s, some a⟩ :: turns) s''

theorem AdmitStep.queue_lt {s s' : State} {a : Admission} {e : Entry} (hs : Consistent s)
    (h : AdmitStep s a e s') : s'.queue.elems.length < s.queue.elems.length := by
  have hm : toLex (e.seq, a.id) ∈ s.queue :=
    (hs.queue e.seq a.id).mpr ⟨e, h.found, h.choice.waiting.2.1, rfl⟩
  rw [h.effect]
  exact SortedSet.length_erase_lt hm

theorem pumpLoop_spec (fuel : ℕ) {s : State} (hs : Consistent s)
    (hf : s.queue.elems.length < fuel) :
    ∃ s' turns, pumpLoop fuel s = .ok (s', turns) ∧ Turns s turns s' ∧ Consistent s' := by
  induction fuel generalizing s with
  | zero => omega
  | succ n ih =>
    by_cases hcap : s.activeTotal < s.settings.maxActiveEngine
    · rcases pumpTurn_spec hs with ⟨s', heq, hb⟩ | ⟨s', a, e, heq, ha⟩
      · refine ⟨s', [⟨s, none⟩], ?_, .idle hcap hb, hb.consistent hs⟩
        simp [pumpLoop, hcap, heq, bind, Except.bind, pure, Except.pure]
      · have hlt := ha.queue_lt hs
        obtain ⟨s'', turns, hloop, hturns, hc⟩ := ih (ha.consistent hs) (by omega)
        refine ⟨s'', ⟨s, some a⟩ :: turns, ?_, .admits hcap ha hturns, hc⟩
        simp [pumpLoop, hcap, heq, hloop, bind, Except.bind, pure, Except.pure]
    · exact ⟨s, [], by simp [pumpLoop, hcap, pure, Except.pure], .full (not_lt.mp hcap), hs⟩

theorem pump_spec {s : State} (hs : Consistent s) :
    ∃ s' turns, s.pump = .ok (s', turns) ∧ Turns s turns s' ∧ Consistent s' :=
  pumpLoop_spec _ hs (Nat.lt_succ_self _)

theorem lookup_evictAll (ids : List TicketId) (hnd : ids.Nodup) (entries : Entries)
    (id : TicketId) :
    (ids.foldl (fun entries id => entries.modify id evict) entries).lookup id =
      if id ∈ ids then (entries.lookup id).map evict else entries.lookup id := by
  induction ids generalizing entries with
  | nil => simp
  | cons k ids ih =>
    obtain ⟨hk, hnd⟩ := nodup_cons.mp hnd
    rw [foldl_cons, ih hnd, AList.lookup_modify]
    by_cases hid : id = k
    · subst hid; simp [hk]
    · simp [hid]

theorem mem_parkedByAge {s : State} {slot : Slot} :
    slot ∈ s.parkedByAge ↔ ∃ e, s.entries.lookup (ofLex slot).2 = some e ∧
      e.state = .parked ∧ e.parkedSeq = (ofLex slot).1 := by
  simp only [parkedByAge, mem_insertionSort, mem_filterMap, Option.ite_none_right_eq_some,
    Option.some.injEq]
  constructor
  · rintro ⟨⟨id, e⟩, hm, hp, rfl⟩
    exact ⟨e, AList.mem_entries_iff.mp hm, hp, rfl⟩
  · rintro ⟨e, he, hp, hs⟩
    exact ⟨⟨_, e⟩, AList.mem_entries_iff.mpr he, hp, by rw [hs]; rfl⟩

theorem parkedByAge_ids_nodup (s : State) :
    (s.parkedByAge.map fun slot => (ofLex slot).2).Nodup := by
  have hperm := (perm_insertionSort (· ≤ ·) (s.entries.entries.filterMap fun e =>
    if e.2.state = .parked then some (toLex (e.2.parkedSeq, e.1)) else none)).map
      fun slot : Slot => (ofLex slot).2
  refine (hperm.nodup_iff).mpr (List.Nodup.sublist ?_ s.entries.keys_nodup)
  rw [AList.keys, List.keys]
  induction s.entries.entries with
  | nil => simp
  | cons e l ih =>
    by_cases hp : e.2.state = .parked
    · simpa [filterMap_cons, hp] using ih
    · simpa [filterMap_cons, hp] using ih.cons e.1

theorem evictParkedOverResidency_spec (s : State) :
    ∃ ids : List TicketId, (∀ id ∈ ids, ∃ e, s.entries.lookup id = some e ∧ e.state = .parked) ∧
      ∃ entries : Entries, s.evictParkedOverResidency = { s with entries := entries } ∧
        ∀ id, entries.lookup id =
          if id ∈ ids then (s.entries.lookup id).map evict else s.entries.lookup id := by
  unfold evictParkedOverResidency
  dsimp only
  split_ifs with h0
  · exact ⟨[], by simp, s.entries, rfl, by simp⟩
  · set excess := s.parkedByAge.length - s.settings.maxParkedResidency
    refine ⟨(s.parkedByAge.take excess).map fun slot => (ofLex slot).2, ?_, _, rfl, ?_⟩
    · intro id hid
      obtain ⟨slot, hm, rfl⟩ := mem_map.mp hid
      obtain ⟨e, he, hp, -⟩ := mem_parkedByAge.mp (mem_of_mem_take hm)
      exact ⟨e, he, hp⟩
    · exact lookup_evictAll _ (s.parkedByAge_ids_nodup.sublist
        ((take_sublist _ _).map _)) _

theorem relabelled_evict (s : State) :
    ∃ entries : Entries, s.evictParkedOverResidency = { s with entries := entries } ∧
      Relabelled s.entries entries := by
  obtain ⟨ids, hids, entries, heq, hl⟩ := s.evictParkedOverResidency_spec
  refine ⟨entries, heq, fun id => ?_⟩
  rw [hl id]
  split_ifs with hid
  · obtain ⟨e, he, hp⟩ := hids id hid
    rw [he]
    exact .some ⟨rfl, rfl, rfl, rfl, by simp [evict, hp], by simp [evict, hp]⟩
  · cases s.entries.lookup id with
    | none => exact .none
    | some e => exact .some (.refl e)

theorem Consistent.relabel {s : State} {entries : Entries} (hs : Consistent s)
    (h : Relabelled s.entries entries) : Consistent { s with entries := entries } :=
  ⟨⟨hs.active.relabel h, hs.queue.relabel h, hs.runs.relabel h, hs.roots.relabel h⟩,
    hs.sequenced.relabel h⟩

theorem consistent_evict {s : State} (hs : Consistent s) :
    Consistent s.evictParkedOverResidency := by
  obtain ⟨entries, heq, hr⟩ := relabelled_evict s
  rw [heq]
  exact Consistent.relabel hs hr

variable (s : State) (id : TicketId)

def queued (e : Entry) : State :=
  { s with
    nextSeq := s.nextSeq + 1
    nextChannel := s.nextChannel + 1
    entries := s.entries.insert id
      { e with state := .pending, readySeq := s.nextSeq, waiter := some s.nextChannel }
    channels := s.channels.insert s.nextChannel .waiting
    queue := s.queue.insert (toLex (e.seq, id)) }

/-- A permit is given back and its ticket keeps its place; the counters are the new ones. -/
def unseated (e : Entry)
    (byProject : AList fun _ : ProjectKey => ℕ) (byRoot : AList fun _ : CheckoutKey => ℕ) :
    State :=
  { s with
    nextSeq := s.nextSeq + 1
    entries := s.entries.insert id
      { e with state := .parked, parkCount := e.parkCount + 1, parkedSeq := s.nextSeq }
    activeTotal := s.activeTotal - 1
    activeByProject := byProject
    activeByRoot := byRoot }

/-- The entry is gone from every index but the rotation. -/
def erased (e : Entry) (total : ℕ)
    (byProject : AList fun _ : ProjectKey => ℕ) (byRoot : AList fun _ : CheckoutKey => ℕ) :
    State :=
  { s with
    entries := s.entries.erase id
    byRun := s.byRun.erase e.run
    queue := s.queue.erase (toLex (e.seq, id))
    activeTotal := total
    activeByProject := byProject
    activeByRoot := byRoot }

def configured (settings : Settings) : State :=
  { s with
    settings := settings
    rootCredit := min s.rootCredit ((s.lastRoot.map settings.rootQuantum).getD 0) }

structure Released (s : State) (e : Entry) (total : ℕ)
    (byProject : AList fun _ : ProjectKey => ℕ) (byRoot : AList fun _ : CheckoutKey => ℕ) :
    Prop where
  idle : e.state ≠ .active → total = s.activeTotal ∧ byProject = s.activeByProject ∧
    byRoot = s.activeByRoot
  active : e.state = .active → total = s.activeTotal - 1 ∧
    s.activeByProject.drop1 e.scope.project = some byProject ∧
    s.activeByRoot.drop1 e.scope.root = some byRoot

inductive Edit (s : State) : Op → State → Prop where
  | wait {id e} : s.entries.lookup id = some e →
      e.state = .reserved ∨ e.state = .parked ∨ e.state = .evicted →
      Edit s (.beginWait id) (s.queued id e)
  | park {id e byProject byRoot} : s.entries.lookup id = some e → e.state = .active →
      e.cancelRequested = false →
      s.activeByProject.drop1 e.scope.project = some byProject →
      s.activeByRoot.drop1 e.scope.root = some byRoot →
      Edit s (.park id) (s.unseated id e byProject byRoot).evictParkedOverResidency
  | remove {op id e total byProject byRoot channel} : s.entries.lookup id = some e →
      op = .abandon id ∨ (e.state ≠ .active ∧ (op = .cancel id ∨
        ∃ run, op = .cancelRun run ∧ s.byRun.lookup run = some id)) →
      Released s e total byProject byRoot →
      Edit s op (((s.erased id e total byProject byRoot).forgetRoot e.scope.root).settle
        e.waiter channel)
  | configure {settings} : settings.validate = .ok () →
      Edit s (.configure settings) (s.configured settings).evictParkedOverResidency

inductive Quiet (s : State) : Op → State → Prop where
  | refuse {op nextSeq nextChannel channels} : s.nextSeq ≤ nextSeq →
      Quiet s op { s with nextSeq := nextSeq, nextChannel := nextChannel, channels := channels }
  | reserve {request} : s.byRun.lookup request.run = none →
      Quiet s (.reserve request) (s.reserved request)
  | flag {op id e} : s.entries.lookup id = some e → e.state = .active →
      op = .cancel id ∨ (∃ run, op = .cancelRun run ∧ s.byRun.lookup run = some id) →
      Quiet s op { s with entries := s.entries.insert id { e with cancelRequested := true } }

inductive Performed (s : State) : Op → State → List Turn → Prop where
  | quiet {op s'} : Quiet s op s' → Performed s op s' []
  | pumped {op s₁ s' turns} : Edit s op s₁ → Turns s₁ turns s' → Performed s op s' turns

theorem Sequenced.weaken {entries : Entries} {nextId n m : ℕ} (h : Sequenced entries nextId n)
    (hnm : n ≤ m) : Sequenced entries nextId m :=
  ⟨h.id_lt, fun k x hx => (h.seq_lt k x hx).trans_le hnm,
    fun k x hx => (h.ready_lt k x hx).trans_le hnm, h.seq_inj, h.ready_inj⟩

theorem consistent_queued {s : State} {id : TicketId} {e : Entry} (hs : Consistent s)
    (he : s.entries.lookup id = some e)
    (hst : e.state = .reserved ∨ e.state = .parked ∨ e.state = .evicted) :
    Consistent (s.queued id e) where
  active := hs.active.keep he (by rcases hst with h | h | h <;> simp [h]) (by simp)
  queue := hs.queue.enqueue he rfl rfl
  runs := hs.runs.replace he rfl
  roots := hs.roots.replace he rfl
  sequenced := hs.sequenced.ready he rfl rfl

theorem consistent_unseated {s : State} {id : TicketId} {e : Entry} (hs : Consistent s)
    (he : s.entries.lookup id = some e) (ha : e.state = .active) :
    ∃ byProject byRoot, s.activeByProject.drop1 e.scope.project = some byProject ∧
      s.activeByRoot.drop1 e.scope.root = some byRoot ∧
      Consistent (s.unseated id e byProject byRoot) := by
  obtain ⟨byProject, byRoot, hbp, hbr, hact⟩ := hs.active.discharge_replace he ha
    (show ({ e with state := .parked, parkCount := e.parkCount + 1, parkedSeq := s.nextSeq } :
      Entry).state ≠ .active by simp)
  refine ⟨byProject, byRoot, hbp, hbr, ?_⟩
  exact {
    active := hact
    queue := hs.queue.keep he (by simp [ha]) rfl
    runs := hs.runs.replace he rfl
    roots := hs.roots.replace he rfl
    sequenced := hs.sequenced.mono.replace he rfl rfl }

theorem exists_released {s : State} {id : TicketId} {e : Entry} (hs : Consistent s)
    (he : s.entries.lookup id = some e) :
    ∃ total byProject byRoot, Released s e total byProject byRoot ∧
      ActiveExact (s.entries.erase id) total byProject byRoot := by
  by_cases ha : e.state = .active
  · obtain ⟨byProject, byRoot, hbp, hbr, hact⟩ := hs.active.discharge_erase he ha
    exact ⟨_, byProject, byRoot, ⟨fun h => absurd ha h, fun _ => ⟨rfl, hbp, hbr⟩⟩, hact⟩
  · exact ⟨_, _, _, ⟨fun _ => ⟨rfl, rfl, rfl⟩, fun h => absurd h ha⟩,
      hs.active.erase_idle he ha⟩

theorem Released.unique {s : State} {e : Entry} {t t' : ℕ}
    {p p' : AList fun _ : ProjectKey => ℕ} {r r' : AList fun _ : CheckoutKey => ℕ}
    (h : Released s e t p r) (h' : Released s e t' p' r') : t = t' ∧ p = p' ∧ r = r' := by
  by_cases ha : e.state = .active
  · obtain ⟨ht, hp, hr⟩ := h.active ha
    obtain ⟨ht', hp', hr'⟩ := h'.active ha
    exact ⟨ht.trans ht'.symm, Option.some.inj (hp.symm.trans hp'),
      Option.some.inj (hr.symm.trans hr')⟩
  · obtain ⟨ht, hp, hr⟩ := h.idle ha
    obtain ⟨ht', hp', hr'⟩ := h'.idle ha
    exact ⟨ht.trans ht'.symm, hp.trans hp'.symm, hr.trans hr'.symm⟩

theorem hasRoot_iff {s : State} {root : CheckoutKey} :
    s.hasRoot root = true ↔ ∃ id e, s.entries.lookup id = some e ∧ e.scope.root = root := by
  rw [hasRoot, AList.any_values_iff (fun e : Entry => decide (e.scope.root = root))]
  simp

theorem consistent_erased {s : State} {id : TicketId} {e : Entry} (hs : Consistent s)
    (he : s.entries.lookup id = some e) {total : ℕ} {byProject byRoot}
    (hrel : Released s e total byProject byRoot) (waiter : Option ChannelId)
    (channel : Channel) :
    Consistent (((s.erased id e total byProject byRoot).forgetRoot e.scope.root).settle
      waiter channel) := by
  obtain ⟨t', p', r', hrel', hact⟩ := exists_released hs he
  obtain ⟨rfl, rfl, rfl⟩ := hrel.unique hrel'
  have hq := hs.queue.erase he
  have hr := hs.runs.erase he
  have hseq : Sequenced (s.entries.erase id) s.nextId s.nextSeq := hs.sequenced.erase
  unfold forgetRoot
  split_ifs with hroot
  · exact ⟨⟨hact, hq, hr, hs.roots.erase_shared he (hasRoot_iff.mp hroot)⟩, hseq⟩
  · exact ⟨⟨hact, hq, hr, hs.roots.erase_last he fun hx => hroot (hasRoot_iff.mpr hx)⟩, hseq⟩

theorem consistent_reserved {s : State} {request : AdmissionRequest} (hs : Consistent s)
    (hr : s.byRun.lookup request.run = none) : Consistent (s.reserved request) := by
  have hn : s.entries.lookup s.nextId = none := by
    cases hx : s.entries.lookup s.nextId with
    | none => rfl
    | some e => exact absurd (hs.sequenced.id_lt _ e hx) (lt_irrefl _)
  exact {
    active := hs.active.add hn (by simp [newEntry])
    queue := hs.queue.add hn (by simp [newEntry])
    runs := hs.runs.add (e := s.newEntry request) hn hr
    roots := hs.roots.add (e := s.newEntry request) hn
    sequenced := hs.sequenced.add rfl rfl }

theorem Edit.consistent {s s₁ : State} {op : Op} (hs : Consistent s) (h : Edit s op s₁) :
    Consistent s₁ := by
  cases h with
  | wait he hst => exact consistent_queued hs he hst
  | park he ha _ hbp hbr =>
    obtain ⟨byProject, byRoot, hbp', hbr', hc⟩ := consistent_unseated hs he ha
    obtain rfl := Option.some.inj (hbp.symm.trans hbp')
    obtain rfl := Option.some.inj (hbr.symm.trans hbr')
    exact consistent_evict hc
  | remove he _ hrel => exact consistent_erased hs he hrel _ _
  | configure => exact consistent_evict ⟨⟨hs.active, hs.queue, hs.runs, hs.roots⟩, hs.sequenced⟩

theorem Quiet.consistent {s s' : State} {op : Op} (hs : Consistent s) (h : Quiet s op s') :
    Consistent s' := by
  cases h with
  | refuse hle =>
    exact ⟨⟨hs.active, hs.queue, hs.runs, hs.roots⟩, Sequenced.weaken hs.sequenced hle⟩
  | reserve hr => exact consistent_reserved hs hr
  | flag he _ _ =>
    exact Consistent.relabel hs
      (relabelled_insert he ⟨rfl, rfl, rfl, rfl, Iff.rfl, Iff.rfl⟩)

theorem discharge_eq {s : State} {scope : WorkScope} {byProject byRoot}
    (hp : s.activeByProject.drop1 scope.project = some byProject)
    (hr : s.activeByRoot.drop1 scope.root = some byRoot) :
    s.discharge scope = .ok { s with
      activeTotal := s.activeTotal - 1
      activeByProject := byProject
      activeByRoot := byRoot } := by
  simp [discharge, decrement, hp, hr, bind, Except.bind, pure, Except.pure]

theorem remove_spec {s : State} {id : TicketId} {e : Entry} (hs : Consistent s)
    (he : s.entries.lookup id = some e) :
    ∃ total byProject byRoot, Released s e total byProject byRoot ∧
      s.remove id = .ok ((s.erased id e total byProject byRoot).forgetRoot e.scope.root,
        some e) := by
  obtain ⟨total, byProject, byRoot, hrel, -⟩ := exists_released hs he
  refine ⟨total, byProject, byRoot, hrel, ?_⟩
  by_cases ha : e.state = .active
  · obtain ⟨rfl, hbp, hbr⟩ := hrel.active ha
    simp only [remove, he, ha, if_true, bind, Except.bind]
    rw [discharge_eq (by exact hbp) (by exact hbr)]
    rfl
  · obtain ⟨rfl, rfl, rfl⟩ := hrel.idle ha
    simp only [remove, he, ha, if_false, bind, Except.bind]
    rfl

theorem remove_absent {s : State} {id : TicketId} (he : s.entries.lookup id = none) :
    s.remove id = .ok (s, none) := by
  simp [remove, he]

theorem beginWait_queued {s : State} {id : TicketId} {e : Entry} (hs : Consistent s)
    (he : s.entries.lookup id = some e)
    (hst : e.state = .reserved ∨ e.state = .parked ∨ e.state = .evicted) :
    ∃ s' turns, s.beginWait id = .ok (s', turns, .ok s.nextChannel) ∧
      Turns (s.queued id e) turns s' ∧ Consistent s' := by
  obtain ⟨s', turns, hp, hturns, hc⟩ := pump_spec (consistent_queued hs he hst)
  refine ⟨s', turns, ?_, hturns, hc⟩
  have hp' := hp
  rw [queued] at hp'
  rcases hst with h | h | h <;>
    simp [beginWait, he, h, hp', bind, Except.bind, pure, Except.pure]

theorem beginWait_refused {s : State} {id : TicketId}
    (h : s.entries.lookup id = none ∨
      ∃ e, s.entries.lookup id = some e ∧ e.state = .pending) :
    s.beginWait id = .ok ({ s with
      nextSeq := s.nextSeq + 1
      nextChannel := s.nextChannel + 1 }, [], .error .gone) := by
  rcases h with he | ⟨e, he, hst⟩
  · simp only [beginWait, he]; rfl
  · simp only [beginWait, he, hst]; rfl

theorem park_refused {s : State} {id : TicketId}
    (h : s.entries.lookup id = none ∨
      ∃ e, s.entries.lookup id = some e ∧ (e.state ≠ .active ∨ e.cancelRequested = true)) :
    ∃ err, s.park id = .ok ({ s with nextSeq := s.nextSeq + 1 }, [], .error err) := by
  rcases h with he | ⟨e, he, hst⟩
  · exact ⟨.gone, by simp only [park, he]; rfl⟩
  · by_cases ha : e.state = .active
    · have hc := hst.resolve_left fun h => h ha
      exact ⟨.cancelled, by
        simp only [park, he, ha, hc, ne_eq, not_true, if_false, if_true]; rfl⟩
    · exact ⟨.gone, by simp only [park, he, ha, ne_eq, not_false_iff, if_true]; rfl⟩

theorem park_active {s : State} {id : TicketId} {e : Entry} (hs : Consistent s)
    (he : s.entries.lookup id = some e) (ha : e.state = .active)
    (hc : e.cancelRequested = false) :
    ∃ byProject byRoot, s.activeByProject.drop1 e.scope.project = some byProject ∧
      s.activeByRoot.drop1 e.scope.root = some byRoot ∧
      ∃ s' turns, s.park id = .ok (s', turns, .ok ()) ∧
        Turns (s.unseated id e byProject byRoot).evictParkedOverResidency turns s' ∧
        Consistent s' := by
  obtain ⟨byProject, byRoot, hbp, hbr, hcons⟩ := consistent_unseated hs he ha
  obtain ⟨s', turns, hp, hturns, hc'⟩ := pump_spec (consistent_evict hcons)
  refine ⟨byProject, byRoot, hbp, hbr, s', turns, ?_, hturns, hc'⟩
  have hp' := hp
  simp only [unseated, hc] at hp'
  simp only [park, he, ha, hc, bind, Except.bind, ne_eq, not_true, if_false, Bool.false_eq_true]
  rw [discharge_eq (by exact hbp) (by exact hbr)]
  simp only [hp']
  rfl

theorem abandon_present {s : State} {id : TicketId} {e : Entry} (hs : Consistent s)
    (he : s.entries.lookup id = some e) :
    ∃ total byProject byRoot, Released s e total byProject byRoot ∧
      ∃ s' turns, s.abandon id = .ok (s', turns) ∧
        Turns (((s.erased id e total byProject byRoot).forgetRoot e.scope.root).settle
          e.waiter .closed) turns s' ∧ Consistent s' := by
  obtain ⟨total, byProject, byRoot, hrel, hrem⟩ := remove_spec hs he
  obtain ⟨s', turns, hp, hturns, hc⟩ :=
    pump_spec (consistent_erased hs he hrel e.waiter .closed)
  refine ⟨total, byProject, byRoot, hrel, s', turns, ?_, hturns, hc⟩
  simp [abandon, hrem, hp, bind, Except.bind]

theorem cancelWaiting_present {s : State} {id : TicketId} {e : Entry} (hs : Consistent s)
    (he : s.entries.lookup id = some e) :
    ∃ total byProject byRoot, Released s e total byProject byRoot ∧
      ∃ s' turns, s.cancelWaiting id = .ok (s', turns, true) ∧
        Turns (((s.erased id e total byProject byRoot).forgetRoot e.scope.root).settle
          e.waiter (.sent (.error .cancelled))) turns s' ∧ Consistent s' := by
  obtain ⟨total, byProject, byRoot, hrel, hrem⟩ := remove_spec hs he
  obtain ⟨s', turns, hp, hturns, hc⟩ :=
    pump_spec (consistent_erased hs he hrel e.waiter (.sent (.error .cancelled)))
  refine ⟨total, byProject, byRoot, hrel, s', turns, ?_, hturns, hc⟩
  simp [cancelWaiting, hrem, hp, bind, Except.bind, pure, Except.pure]

theorem Turns.consistent {s s' : State} {turns : List Turn} (h : Turns s turns s')
    (hs : Consistent s) : Consistent s' := by
  induction h with
  | full => exact hs
  | idle _ hb => exact hb.consistent hs
  | admits _ ha _ ih => exact ih (ha.consistent hs)

theorem AdmitStep.lookup {s s' : State} {a : Admission} {e : Entry} (h : AdmitStep s a e s')
    (id : TicketId) : s'.entries.lookup id =
      if id = a.id then some { e with state := .active, waiter := none }
      else s.entries.lookup id := by
  rw [h.effect]
  exact AList.lookup_insert_if _ _ _ _

theorem Turns.lookup {s s' : State} {turns : List Turn} (h : Turns s turns s')
    (id : TicketId) : s'.entries.lookup id = s.entries.lookup id ∨
      ∃ e, s.entries.lookup id = some e ∧ e.state = .pending ∧
        s'.entries.lookup id = some { e with state := .active, waiter := none } ∧
        ∃ turn ∈ turns, ∃ a, turn.admitted = some a ∧ a.id = id ∧
          turn.before.entries.lookup id = some e ∧ turn.before.fits e = true := by
  induction h with
  | full => exact .inl rfl
  | idle _ hb => rw [hb.effect]; exact .inl rfl
  | @admits s s₁ s₂ a e turns _ ha ht ih =>
    obtain ⟨hfound, hpend, hfits⟩ := ha.choice.waiting
    by_cases hid : id = a.id
    · subst hid
      refine .inr ⟨e, hfound, hpend, ?_, _, mem_cons_self, a, rfl, rfl, hfound, hfits⟩
      have h1 := ha.lookup a.id
      rw [if_pos rfl] at h1
      rcases ih with heq | ⟨x, hx, hxp, -⟩
      · rw [heq, h1]
      · rw [h1] at hx
        cases hx
        cases hxp
    · have h1 := ha.lookup id
      rw [if_neg hid] at h1
      rcases ih with heq | ⟨x, hx, hxp, hx', turn, hm, b, hb⟩
      · exact .inl (heq.trans h1)
      · exact .inr ⟨x, h1 ▸ hx, hxp, hx', turn, mem_cons_of_mem _ hm, b, hb⟩

theorem Performed.consistent {s s' : State} {op : Op} {turns : List Turn} (hs : Consistent s)
    (h : Performed s op s' turns) : Consistent s' := by
  cases h with
  | quiet hq => exact hq.consistent hs
  | pumped he ht => exact ht.consistent (he.consistent hs)

theorem reserve_cases (s : State) (request : AdmissionRequest) :
    (s.reserve request).1 = s ∨
    (s.byRun.lookup request.run = none ∧
      s.reserve request = (s.reserved request, .ok s.nextId)) := by
  unfold reserve
  split_ifs with h1 h2 h3 h4
  · exact .inl rfl
  · exact .inl rfl
  · exact .inl rfl
  · exact .inl rfl
  · dsimp only
    split_ifs with h5
    · exact .inl rfl
    · refine .inr ⟨?_, rfl⟩
      simpa using h3

theorem cancel_present {s : State} {id : TicketId} {e : Entry} (hs : Consistent s) (op : Op)
    (hop : op = .cancel id ∨ ∃ run, op = .cancelRun run ∧ s.byRun.lookup run = some id)
    (he : s.entries.lookup id = some e) :
    ∃ s' turns b, s.cancel id = .ok (s', turns, b) ∧ Performed s op s' turns := by
  by_cases ha : e.state = .active
  · by_cases hc : e.cancelRequested = true
    · exact ⟨s, [], false, by simp [cancel, he, ha, hc], .quiet (.refuse (le_refl _))⟩
    · exact ⟨_, [], true, by simp [cancel, he, ha, hc], .quiet (.flag he ha hop)⟩
  · obtain ⟨total, byProject, byRoot, hrel, s', turns, heq, hturns, -⟩ :=
      cancelWaiting_present hs he
    exact ⟨s', turns, true, by simp [cancel, he, ha, heq],
      .pumped (.remove he (.inr ⟨ha, hop⟩) hrel) hturns⟩

theorem cancel_absent {s : State} {id : TicketId} (he : s.entries.lookup id = none) :
    s.cancel id = .ok (s, [], false) := by
  simp [cancel, cancelWaiting, remove_absent he, he, bind, Except.bind, pure, Except.pure]

end State

open State

theorem perform_spec {s : State} (hs : Consistent s) (op : Op) :
    ∃ s' turns, perform s op = .ok (s', turns) ∧ Performed s op s' turns := by
  cases op with
  | reserve request =>
    refine ⟨_, [], rfl, ?_⟩
    rcases s.reserve_cases request with h | ⟨hr, h⟩
    · rw [h]; exact .quiet (.refuse (le_refl _))
    · rw [h]; exact .quiet (.reserve hr)
  | beginWait id =>
    have href : s.entries.lookup id = none ∨
        (∃ e, s.entries.lookup id = some e ∧ e.state = .pending) →
        ∃ s' turns, perform s (.beginWait id) = .ok (s', turns) ∧
          Performed s (.beginWait id) s' turns := fun h =>
      ⟨_, [], by rw [perform, beginWait_refused h]; rfl,
        .quiet (.refuse (Nat.le_succ s.nextSeq))⟩
    have hidle : ∀ e, s.entries.lookup id = some e →
        e.state = .reserved ∨ e.state = .parked ∨ e.state = .evicted →
        ∃ s' turns, perform s (.beginWait id) = .ok (s', turns) ∧
          Performed s (.beginWait id) s' turns := by
      intro e he hst
      obtain ⟨s', turns, heq, hturns, -⟩ := beginWait_queued hs he hst
      exact ⟨s', turns, by rw [perform, heq]; rfl, .pumped (.wait he hst) hturns⟩
    cases he : s.entries.lookup id with
    | none => exact href (.inl he)
    | some e =>
      cases hst : e.state with
      | reserved => exact hidle e he (.inl hst)
      | parked => exact hidle e he (.inr (.inl hst))
      | evicted => exact hidle e he (.inr (.inr hst))
      | pending => exact href (.inr ⟨e, he, hst⟩)
      | active =>
        have heq : s.beginWait id = .ok (({ s with
            nextSeq := s.nextSeq + 1
            nextChannel := s.nextChannel + 1 } : State).settle (some s.nextChannel)
              (.sent (.ok ())), [], .ok s.nextChannel) := by
          simp only [beginWait, he, hst]; rfl
        exact ⟨_, [], by rw [perform, heq]; rfl, .quiet (.refuse (Nat.le_succ s.nextSeq))⟩
  | park id =>
    by_cases hact : ∃ e, s.entries.lookup id = some e ∧ e.state = .active ∧
        e.cancelRequested = false
    · obtain ⟨e, he, ha, hc⟩ := hact
      obtain ⟨byProject, byRoot, hbp, hbr, s', turns, heq, hturns, -⟩ := park_active hs he ha hc
      exact ⟨s', turns, by rw [perform, heq]; rfl, .pumped (.park he ha hc hbp hbr) hturns⟩
    · obtain ⟨err, heq⟩ : ∃ err, s.park id =
          .ok ({ s with nextSeq := s.nextSeq + 1 }, [], .error err) := by
        refine park_refused ?_
        cases he : s.entries.lookup id with
        | none => exact .inl rfl
        | some e =>
          refine .inr ⟨e, rfl, ?_⟩
          by_contra hn
          push Not at hn
          exact hact ⟨e, he, hn.1, by simpa using hn.2⟩
      exact ⟨_, [], by rw [perform, heq]; rfl, .quiet (.refuse (Nat.le_succ s.nextSeq))⟩
  | cancel id =>
    cases he : s.entries.lookup id with
    | none =>
      exact ⟨s, [], by simp [perform, cancel_absent he, Except.map],
        .quiet (.refuse (le_refl _))⟩
    | some e =>
      obtain ⟨s', turns, b, heq, hp⟩ := cancel_present hs (.cancel id) (.inl rfl) he
      exact ⟨s', turns, by simp [perform, heq, Except.map], hp⟩
  | cancelRun run =>
    cases hr : s.byRun.lookup run with
    | none =>
      exact ⟨s, [], by simp [perform, cancelRun, hr, Except.map], .quiet (.refuse (le_refl _))⟩
    | some id =>
      obtain ⟨e, he, -⟩ := (hs.runs run id).mp hr
      obtain ⟨s', turns, b, heq, hp⟩ :=
        cancel_present hs (.cancelRun run) (.inr ⟨run, rfl, hr⟩) he
      exact ⟨s', turns, by simp [perform, cancelRun, hr, heq, Except.map], hp⟩
  | abandon id =>
    cases he : s.entries.lookup id with
    | none =>
      refine ⟨s, [], ?_, .quiet (.refuse (le_refl _))⟩
      simp [perform, abandon, remove_absent he, bind, Except.bind, pure, Except.pure]
    | some e =>
      obtain ⟨total, byProject, byRoot, hrel, s', turns, heq, hturns, -⟩ :=
        abandon_present hs he
      exact ⟨s', turns, heq, .pumped (.remove he (.inl rfl) hrel) hturns⟩
  | configure settings =>
    cases hv : settings.validate with
    | error err =>
      exact ⟨s, [], by simp [perform, configure, hv, Except.map],
        .quiet (.refuse (le_refl _))⟩
    | ok u =>
      have hc : Consistent (s.configured settings) :=
        ⟨⟨hs.active, hs.queue, hs.runs, hs.roots⟩, hs.sequenced⟩
      obtain ⟨s', turns, heq, hturns, -⟩ := pump_spec (consistent_evict hc)
      refine ⟨s', turns, ?_, .pumped (.configure hv) hturns⟩
      rw [configured] at heq
      simp [perform, configure, hv, heq, Except.map, bind, Except.bind, pure, Except.pure]

theorem performed_of_perform {s s' : State} (hs : Consistent s) {op : Op} {turns : List Turn}
    (h : perform s op = .ok (s', turns)) : Performed s op s' turns := by
  obtain ⟨s₁, turns₁, heq, hp⟩ := perform_spec hs op
  rw [h] at heq
  cases heq
  exact hp

inductive Execution : State → List Op → List Turn → State → Prop where
  | nil (s) : Execution s [] [] s
  | cons {s s' s'' op ops turns more} : Performed s op s' turns →
      Execution s' ops more s'' → Execution s (op :: ops) (turns ++ more) s''

theorem consistent_new (settings : Settings) : Consistent (new settings) where
  active := ⟨rfl, fun _ => rfl, fun _ => rfl⟩
  queue := by intro seq id; simp [new]
  runs := by intro run id; simp [new]
  roots := ⟨by simp [new], by simp [new]⟩
  sequenced := by constructor <;> simp [new]

theorem Execution.consistent {s s' : State} {ops : List Op} {turns : List Turn}
    (h : Execution s ops turns s') (hs : Consistent s) : Consistent s' := by
  induction h with
  | nil => exact hs
  | cons hp _ ih => exact ih (hp.consistent hs)

theorem runOps_spec {s : State} (hs : Consistent s) (ops : List Op) :
    ∃ s' turns, runOps s ops = .ok (s', turns) ∧ Execution s ops turns s' := by
  induction ops generalizing s with
  | nil => exact ⟨s, [], rfl, .nil s⟩
  | cons op ops ih =>
    obtain ⟨s', turns, heq, hp⟩ := perform_spec hs op
    obtain ⟨s'', more, heq', hx⟩ := ih (hp.consistent hs)
    refine ⟨s'', turns ++ more, ?_, .cons hp hx⟩
    simp [runOps, heq, heq', bind, Except.bind, pure, Except.pure]

/-- From a new scheduler no sequence of operations panics, and afterwards every index is
exact: the three active counters, the queue, the run index and the rotation. -/
theorem run_accounting (settings : Settings) (ops : List Op) :
    ∃ s turns, runOps (new settings) ops = .ok (s, turns) ∧ Accounting s := by
  obtain ⟨s, turns, heq, hx⟩ := runOps_spec (consistent_new settings) ops
  exact ⟨s, turns, heq, (hx.consistent (consistent_new settings)).toAccounting⟩

end AdmissionScheduler
