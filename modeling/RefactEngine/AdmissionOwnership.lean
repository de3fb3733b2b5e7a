import RefactEngine.AdmissionResumeFairness

/-! # Who owns an entry

Tickets, acquire guards and permits abandon their entry when they are dropped while armed.
The live handles are part of the state here. An acquire call runs from the first poll of its
future to its return, with other calls in between: it begins to wait, receives the message
of its channel, takes the lock once more to look for a cancellation, and an error return
drops the armed guard on the way out.
-/
namespace AdmissionScheduler

open WorkIdentity CoordinationSettings State List

/-- An armed handle. An acquire future that was not polled yet still holds the ticket. -/
inductive Handle where
  | ticket (id : TicketId)
  | guard (id : TicketId) (rx : ChannelId)
  -- the channel said `Ok` and the entry is still to be looked at
  | received (id : TicketId)
  -- a call has decided to return this error and is about to drop its guard or permit
  | failed (id : TicketId) (err : AdmissionError)
  | permit (id : TicketId)

def Handle.id : Handle → TicketId
  | .ticket id => id
  | .guard id _ => id
  | .received id => id
  | .failed id _ => id
  | .permit id => id

structure World where
  state : State
  handles : List Handle

inductive Event where
  | reserve (id : TicketId)
  | acquire (id : TicketId)
  | receive (id : TicketId)
  | permit (id : TicketId)
  | fail (id : TicketId)
  | returnErr (id : TicketId) (err : AdmissionError)
  | park (id : TicketId)
  | drop (id : TicketId)
  | cancel (id : TicketId)
  | other

inductive Step : World → Event → World → Prop where
  | reserve {s s' hs request id} : s.reserve request = (s', .ok id) →
      Step ⟨s, hs⟩ (.reserve id) ⟨s', .ticket id :: hs⟩
  | refuse {s s' hs request err} : s.reserve request = (s', .error err) →
      Step ⟨s, hs⟩ .other ⟨s', hs⟩
  | acquire {s s' pre post id turns rx} : s.beginWait id = .ok (s', turns, .ok rx) →
      Step ⟨s, pre ++ .ticket id :: post⟩ (.acquire id) ⟨s', pre ++ .guard id rx :: post⟩
  | acquireErr {s s' pre post id turns err} : s.beginWait id = .ok (s', turns, .error err) →
      Step ⟨s, pre ++ .ticket id :: post⟩ (.returnErr id err) ⟨s', pre ++ post⟩
  | receive {s pre post id rx} : s.channels.lookup rx = some (.sent (.ok ())) →
      Step ⟨s, pre ++ .guard id rx :: post⟩ (.receive id) ⟨s, pre ++ .received id :: post⟩
  | receiveErr {s pre post id rx err} : s.channels.lookup rx = some (.sent (.error err)) →
      Step ⟨s, pre ++ .guard id rx :: post⟩ (.returnErr id err) ⟨s, pre ++ post⟩
  | receiveClosed {s pre post id rx} : s.channels.lookup rx = some .closed →
      Step ⟨s, pre ++ .guard id rx :: post⟩ (.returnErr id .cancelled) ⟨s, pre ++ post⟩
  | permit {s pre post id e} : s.entries.lookup id = some e → e.cancelRequested = false →
      Step ⟨s, pre ++ .received id :: post⟩ (.permit id) ⟨s, pre ++ .permit id :: post⟩
  | cancelled {s pre post id} :
      (∀ e, s.entries.lookup id = some e → e.cancelRequested = true) →
      Step ⟨s, pre ++ .received id :: post⟩ (.fail id)
        ⟨s, pre ++ .failed id .cancelled :: post⟩
  | park {s s' pre post id turns} : s.park id = .ok (s', turns, .ok ()) →
      Step ⟨s, pre ++ .permit id :: post⟩ (.park id) ⟨s', pre ++ .ticket id :: post⟩
  | parkErr {s s' pre post id turns err} : s.park id = .ok (s', turns, .error err) →
      Step ⟨s, pre ++ .permit id :: post⟩ (.fail id) ⟨s', pre ++ .failed id err :: post⟩
  | dropFailed {s s' pre post id err turns} : s.abandon id = .ok (s', turns) →
      Step ⟨s, pre ++ .failed id err :: post⟩ (.returnErr id err) ⟨s', pre ++ post⟩
  | dropTicket {s s' pre post id turns} : s.abandon id = .ok (s', turns) →
      Step ⟨s, pre ++ .ticket id :: post⟩ (.drop id) ⟨s', pre ++ post⟩
  | dropGuard {s s' pre post id rx turns} : s.abandon id = .ok (s', turns) →
      Step ⟨s, pre ++ .guard id rx :: post⟩ (.drop id) ⟨s', pre ++ post⟩
  | dropPermit {s s' pre post id turns} : s.abandon id = .ok (s', turns) →
      Step ⟨s, pre ++ .permit id :: post⟩ (.drop id) ⟨s', pre ++ post⟩
  | cancelTicket {s s' pre post id turns b} : s.cancel id = .ok (s', turns, b) →
      Step ⟨s, pre ++ .ticket id :: post⟩ (.drop id) ⟨s', pre ++ post⟩
  -- any other party, by the run or by an id it has looked up before
  | cancel {s s' hs id turns b} : s.cancel id = .ok (s', turns, b) →
      Step ⟨s, hs⟩ (.cancel id) ⟨s', hs⟩
  | configure {s s' hs settings turns result} :
      s.configure settings = .ok (s', turns, result) → Step ⟨s, hs⟩ .other ⟨s', hs⟩

inductive Run : World → List Event → World → Prop where
  | nil (w) : Run w [] w
  | snoc {w w' w'' events event} : Run w events w' → Step w' event w'' →
      Run w (events ++ [event]) w''

def Handle.Matches (s : State) : Handle → Prop
  | .ticket id => ∀ e, s.entries.lookup id = some e →
      e.state = .reserved ∨ e.state = .parked ∨ e.state = .evicted
  | .guard id rx =>
      (∃ e, s.entries.lookup id = some e ∧ e.state = .pending ∧ e.waiter = some rx ∧
        s.channels.lookup rx = some .waiting) ∨
      (∃ e, s.entries.lookup id = some e ∧ e.state = .active ∧
        s.channels.lookup rx = some (.sent (.ok ()))) ∨
      (s.entries.lookup id = none ∧ ∃ err, s.channels.lookup rx = some (.sent (.error err)))
  | .received id | .failed id _ | .permit id =>
      ∃ e, s.entries.lookup id = some e ∧ e.state = .active

structure Owned (s : State) (handles : List Handle) : Prop where
  consistent : Consistent s
  unique : (handles.map Handle.id).Nodup
  issued : ∀ h ∈ handles, h.id < s.nextId
  covered : ∀ id e, s.entries.lookup id = some e → ∃ h ∈ handles, h.id = id
  agrees : ∀ h ∈ handles, h.Matches s
  opened : ∀ id rx, .guard id rx ∈ handles → rx < s.nextChannel
  separate : ∀ id id' rx, .guard id rx ∈ handles → .guard id' rx ∈ handles → id = id'
  silent : ∀ id e, s.entries.lookup id = some e → e.state ≠ .pending → e.waiter = none

variable {h : Handle}

variable {s s' : State}

theorem Handle.Matches.frame (hm : h.Matches s)
    (hl : s'.entries.lookup h.id = s.entries.lookup h.id)
    (hc : ∀ id rx, h = .guard id rx → s'.channels.lookup rx = s.channels.lookup rx) :
    h.Matches s' := by
  cases h with
  | ticket id => exact fun e he => hm e (hl ▸ he)
  | guard id rx =>
    have hc' := hc id rx rfl
    simp only [Handle.id] at hl
    simpa only [Matches, hl, hc'] using hm
  | received id => simp only [Handle.id] at hl; simpa only [Matches, hl] using hm
  | failed id err => simp only [Handle.id] at hl; simpa only [Matches, hl] using hm
  | permit id => simp only [Handle.id] at hl; simpa only [Matches, hl] using hm

variable {handles : List Handle}

theorem Owned.eq_of_id (h : Owned s handles) {x y : Handle} (hx : x ∈ handles)
    (hy : y ∈ handles) (hid : x.id = y.id) : x = y :=
  inj_on_of_nodup_map h.unique hx hy hid

variable {e : Entry}

/-- A pending entry belongs to an acquire call whose channel is still open. -/
theorem Owned.guard_of_pending (h : Owned s handles) {id : TicketId}
    (he : s.entries.lookup id = some e) (hp : e.state = .pending) :
    ∃ rx, .guard id rx ∈ handles ∧ e.waiter = some rx ∧
      s.channels.lookup rx = some .waiting := by
  obtain ⟨x, hx, rfl⟩ := h.covered id e he
  have hm := h.agrees x hx
  have hactive : ∀ y, s.entries.lookup x.id = some y → y.state = .active → False := by
    intro y hy hya
    rw [he] at hy
    cases hy
    rw [hp] at hya
    cases hya
  cases x with
  | ticket id => exact absurd (hm e he) (by simp [hp])
  | guard id rx =>
    rcases hm with ⟨y, hy, -, hw, hc⟩ | ⟨y, hy, hya, -⟩ | ⟨hnone, -⟩
    · have heq : e = y := Option.some.inj (he.symm.trans hy)
      exact ⟨rx, hx, heq ▸ hw, hc⟩
    · exact (hactive y hy hya).elim
    · rw [Handle.id, hnone] at he
      cases he
  | received id => obtain ⟨y, hy, hya⟩ := hm; exact (hactive y hy hya).elim
  | failed id err => obtain ⟨y, hy, hya⟩ := hm; exact (hactive y hy hya).elim
  | permit id => obtain ⟨y, hy, hya⟩ := hm; exact (hactive y hy hya).elim

theorem Owned.admits {a : Admission} (h : Owned s handles)
    (ha : AdmitStep s a e s') : Owned s' handles := by
  obtain ⟨rx, hg, hw, -⟩ := h.guard_of_pending ha.found ha.choice.waiting.2.1
  have hlook := ha.lookup
  have hchannels : s'.channels = s.channels.insert rx (.sent (.ok ())) := by
    rw [ha.effect]
    simp only [afterAdmission, hw]
    rfl
  have hnext : s'.nextId = s.nextId ∧ s'.nextChannel = s.nextChannel := by
    rw [ha.effect]; exact ⟨rfl, rfl⟩
  refine ⟨ha.consistent h.consistent, h.unique, fun x hx => hnext.1 ▸ h.issued x hx,
    fun id y hy => ?_, fun x hx => ?_, fun id ch hx => hnext.2 ▸ h.opened id ch hx, h.separate,
    fun id y hy hst => ?_⟩
  · rw [hlook id] at hy
    split_ifs at hy with hid
    · exact ⟨_, hg, hid.symm⟩
    · exact h.covered id y hy
  · by_cases hid : x.id = a.id
    · -- the guard of the admitted ticket, which now has its message
      obtain rfl := h.eq_of_id hx hg hid
      refine .inr (.inl ⟨_, by rw [hlook a.id, if_pos rfl], rfl, ?_⟩)
      rw [hchannels, AList.lookup_insert]
    · refine (h.agrees x hx).frame (by rw [hlook, if_neg hid]) fun id ch hxg => ?_
      subst hxg
      have hne : ch ≠ rx := fun heq => hid (h.separate id a.id rx (heq ▸ hx) hg)
      rw [hchannels, AList.lookup_insert_if, if_neg hne]
  · rw [hlook id] at hy
    split_ifs at hy
    · cases hy; rfl
    · exact h.silent id y hy hst

theorem Owned.turns {turns : List Turn} (ht : Turns s turns s') (h : Owned s handles) :
    Owned s' handles := by
  induction ht with
  | full => exact h
  | idle _ hb =>
    have hc := hb.consistent h.consistent
    rw [hb.effect] at hc ⊢
    exact { h with consistent := hc }
  | admits _ ha _ ih => exact ih (h.admits ha)

theorem Owned.evict (h : Owned s handles) : Owned s.evictParkedOverResidency handles := by
  obtain ⟨ids, hids, entries, heq, hl⟩ := s.evictParkedOverResidency_spec
  have hc := consistent_evict h.consistent
  rw [heq] at hc ⊢
  have hback : ∀ id y, entries.lookup id = some y → ∃ x, s.entries.lookup id = some x ∧
      (y = x ∨ (x.state = .parked ∧ y = State.evict x)) := by
    intro id y hy
    rw [hl id] at hy
    split_ifs at hy with hm
    · obtain ⟨x, hx, hp⟩ := hids id hm
      rw [hx] at hy
      exact ⟨x, hx, .inr ⟨hp, (Option.some.inj hy).symm⟩⟩
    · exact ⟨y, hy, .inl rfl⟩
  have hkeep : ∀ id x, s.entries.lookup id = some x → x.state ≠ .parked →
      entries.lookup id = some x := by
    intro id x hx hp
    have := evict_lookup hx hp
    rwa [heq] at this
  refine ⟨hc, h.unique, h.issued, fun id y hy => ?_, fun x hx => ?_, h.opened, h.separate,
    fun id y hy hst => ?_⟩
  · obtain ⟨x, hx, -⟩ := hback id y hy
    exact h.covered id x hx
  · have hm := h.agrees x hx
    cases x with
    | ticket id =>
      intro y hy
      obtain ⟨z, hz, rfl | ⟨-, rfl⟩⟩ := hback id y hy
      · exact hm y hz
      · exact .inr (.inr rfl)
    | guard id rx =>
      rcases hm with ⟨y, hy, hp, hw, hch⟩ | ⟨y, hy, ha, hch⟩ | ⟨hnone, hch⟩
      · exact .inl ⟨y, hkeep id y hy (by simp [hp]), hp, hw, hch⟩
      · exact .inr (.inl ⟨y, hkeep id y hy (by simp [ha]), ha, hch⟩)
      · refine .inr (.inr ⟨?_, hch⟩)
        cases hz : entries.lookup id with
        | none => rfl
        | some z =>
          obtain ⟨w, hw, -⟩ := hback id z hz
          rw [hnone] at hw
          cases hw
    | received id =>
      obtain ⟨y, hy, ha⟩ := hm; exact ⟨y, hkeep id y hy (by simp [ha]), ha⟩
    | failed id err =>
      obtain ⟨y, hy, ha⟩ := hm; exact ⟨y, hkeep id y hy (by simp [ha]), ha⟩
    | permit id =>
      obtain ⟨y, hy, ha⟩ := hm; exact ⟨y, hkeep id y hy (by simp [ha]), ha⟩
  · obtain ⟨x, hx, rfl | ⟨hp, rfl⟩⟩ := hback id y hy
    · exact h.silent id _ hx hst
    · exact h.silent id x hx (by simp [hp])

/-- What a write to one entry must guarantee for the handle that stands in its place:
nothing outside the entry and its channel has changed. -/
structure Rewrites (s s' : State) (others : List Handle) (id : TicketId) (new : List Handle) :
    Prop where
  consistent : Consistent s'
  nextId : s'.nextId = s.nextId
  nextChannel : s.nextChannel ≤ s'.nextChannel
  entries : ∀ k, k ≠ id → s'.entries.lookup k = s.entries.lookup k
  channels : ∀ k rx, .guard k rx ∈ others → s'.channels.lookup rx = s.channels.lookup rx
  silent : ∀ e, s'.entries.lookup id = some e → e.state ≠ .pending → e.waiter = none
  single : new = [] ∧ s'.entries.lookup id = none ∨ ∃ h, new = [h] ∧ h.id = id ∧ h.Matches s'
  fresh : ∀ k rx, .guard k rx ∈ new → rx < s'.nextChannel ∧ ∀ k', .guard k' rx ∉ others

variable {pre post : List Handle}

theorem Owned.others (ho : Owned s (pre ++ h :: post))
    {x : Handle} (hx : x ∈ pre ++ post) : x.id ≠ h.id := by
  have hnd := ho.unique
  rw [map_append, map_cons, nodup_middle] at hnd
  intro heq
  refine (nodup_cons.mp hnd).1 ?_
  rw [← heq, ← map_append]
  exact mem_map_of_mem hx

theorem Owned.rewrite {new : List Handle} (ho : Owned s (pre ++ h :: post))
    (hr : Rewrites s s' (pre ++ post) h.id new) : Owned s' (pre ++ (new ++ post)) := by
  have hmem : ∀ x ∈ pre ++ (new ++ post), x ∈ pre ++ post ∨ x ∈ new := by
    intro x hx
    simp only [mem_append] at hx ⊢
    tauto
  have hold : ∀ x ∈ pre ++ post, x ∈ pre ++ h :: post := by
    intro x hx
    simp only [mem_append, mem_cons] at hx ⊢
    tauto
  have hnew : ∀ x ∈ new, x.id = h.id ∧ x.Matches s' := by
    intro x hx
    rcases hr.single with ⟨rfl, -⟩ | ⟨y, rfl, hid, hm⟩
    · cases hx
    · obtain rfl := mem_singleton.mp hx
      exact ⟨hid, hm⟩
  refine ⟨hr.consistent, ?_, fun x hx => ?_, fun id e he => ?_, fun x hx => ?_,
    fun id rx hx => ?_, fun id id' rx hx hx' => ?_, fun id e he hst => ?_⟩
  · have hnd := ho.unique
    rw [map_append, map_cons] at hnd
    rcases hr.single with ⟨rfl, -⟩ | ⟨y, rfl, hid, -⟩
    · simpa using hnd.sublist (List.Sublist.append (.refl _) (sublist_cons_self _ _))
    · simpa [hid] using hnd
  · rw [hr.nextId]
    rcases hmem x hx with hx | hx
    · exact ho.issued x (hold x hx)
    · rw [(hnew x hx).1]
      exact ho.issued h (by simp)
  · by_cases hid : id = h.id
    · subst hid
      rcases hr.single with ⟨-, hnone⟩ | ⟨y, rfl, hid, -⟩
      · rw [hnone] at he
        cases he
      · exact ⟨y, by simp, hid⟩
    · rw [hr.entries id hid] at he
      obtain ⟨x, hx, rfl⟩ := ho.covered id e he
      refine ⟨x, ?_, rfl⟩
      have hxh : x ≠ h := fun heq => hid (congrArg Handle.id heq)
      simp only [mem_append, mem_cons, hxh, false_or] at hx ⊢
      tauto
  · rcases hmem x hx with hx | hx
    · exact (ho.agrees x (hold x hx)).frame (hr.entries x.id (ho.others hx)) fun id rx heq =>
        hr.channels id rx (heq ▸ hx)
    · exact (hnew x hx).2
  · rcases hmem _ hx with hx | hx
    · exact (ho.opened id rx (hold _ hx)).trans_le hr.nextChannel
    · exact (hr.fresh id rx hx).1
  · rcases hmem _ hx with hx | hx <;> rcases hmem _ hx' with hx' | hx'
    · exact ho.separate id id' rx (hold _ hx) (hold _ hx')
    · exact absurd hx ((hr.fresh id' rx hx').2 id)
    · exact absurd hx' ((hr.fresh id rx hx).2 id')
    · exact (hnew _ hx).1.trans (hnew _ hx').1.symm
  · by_cases hid : id = h.id
    · subst hid
      exact hr.silent e he hst
    · rw [hr.entries id hid] at he
      exact ho.silent id e he hst

variable {rx : ChannelId}

theorem Owned.waiter_ne (ho : Owned s (pre ++ h :: post)) (he : s.entries.lookup h.id = some e)
    {k : TicketId}
    (hx : .guard k rx ∈ pre ++ post) : e.waiter ≠ some rx := by
  intro hw
  have hmem : ∀ x ∈ pre ++ post, x ∈ pre ++ h :: post := by
    intro x hx
    simp only [mem_append, mem_cons] at hx ⊢
    tauto
  by_cases hp : e.state = .pending
  · obtain ⟨rx', hg, hw', -⟩ := ho.guard_of_pending he hp
    obtain rfl := Option.some.inj (hw'.symm.trans hw)
    exact ho.others hx (ho.separate k h.id rx' (hmem _ hx) hg)
  · rw [ho.silent h.id e he hp] at hw
    cases hw

theorem conclude_lookup {channels : AList fun _ : ChannelId => Channel}
    {waiter : Option ChannelId} (h : waiter ≠ some rx) (channel : Channel) :
    (conclude channels waiter channel).lookup rx = channels.lookup rx := by
  cases waiter with
  | none => rfl
  | some ch =>
    have hne : rx ≠ ch := fun heq => h (congrArg some heq.symm)
    rw [conclude, AList.lookup_insert_if, if_neg hne]

@[simp] theorem forgetRoot_channels (s : State) (root : CheckoutKey) :
    (s.forgetRoot root).channels = s.channels := by
  unfold forgetRoot
  split_ifs <;> rfl

@[simp] theorem forgetRoot_nextChannel (s : State) (root : CheckoutKey) :
    (s.forgetRoot root).nextChannel = s.nextChannel := by
  unfold forgetRoot
  split_ifs <;> rfl

theorem Owned.guard_alone {id : TicketId} (ho : Owned s (pre ++ .guard id rx :: post)) :
    rx < s.nextChannel ∧ ∀ k, .guard k rx ∉ pre ++ post := by
  refine ⟨ho.opened id rx (by simp), fun k hk => ?_⟩
  refine ho.others hk (ho.separate k id rx ?_ (by simp))
  simp only [mem_append, mem_cons] at hk ⊢
  tauto

theorem Owned.erase {new : List Handle}
    (ho : Owned s (pre ++ h :: post)) (he : s.entries.lookup h.id = some e) {total : ℕ}
    {byProject : AList fun _ : ProjectKey => ℕ} {byRoot : AList fun _ : CheckoutKey => ℕ}
    (hrel : Released s e total byProject byRoot) (channel : Channel)
    (hnew : new = [] ∨ (new = [h] ∧ h.Matches (((s.erased h.id e total byProject
      byRoot).forgetRoot e.scope.root).settle e.waiter channel))) :
    Owned (((s.erased h.id e total byProject byRoot).forgetRoot e.scope.root).settle
      e.waiter channel) (pre ++ (new ++ post)) := by
  have hgone : (((s.erased h.id e total byProject byRoot).forgetRoot e.scope.root).settle
      e.waiter channel).entries.lookup h.id = none := by
    simp [settle, erased]
  refine ho.rewrite ⟨consistent_erased ho.consistent he hrel _ _, ?_, ?_, fun k hk => ?_,
    fun k rx hx => ?_, fun x hx _ => ?_, ?_, fun k rx hx => ?_⟩
  · simp [settle, erased]
  · simp [settle, erased]
  · simp only [settle, forgetRoot_entries, erased, AList.lookup_erase_if, if_neg hk]
  · simp only [settle, forgetRoot_channels, erased]
    exact conclude_lookup (ho.waiter_ne he hx) channel
  · rw [hgone] at hx
    cases hx
  · rcases hnew with rfl | ⟨rfl, hm⟩
    · exact .inl ⟨rfl, hgone⟩
    · exact .inr ⟨h, rfl, rfl, hm⟩
  · rcases hnew with rfl | ⟨rfl, -⟩
    · cases hx
    · obtain rfl := mem_singleton.mp hx
      simpa [settle, erased] using ho.guard_alone

theorem Owned.forget (ho : Owned s (pre ++ h :: post))
    (he : s.entries.lookup h.id = none) : Owned s (pre ++ post) := by
  have hr : Rewrites s s (pre ++ post) h.id [] := by
    refine ⟨ho.consistent, rfl, le_refl _, fun _ _ => rfl, fun _ _ _ => rfl, fun e hx _ => ?_,
      .inl ⟨rfl, he⟩, by simp⟩
    rw [he] at hx
    cases hx
  exact ho.rewrite hr

theorem Owned.turn {h' : Handle}
    (ho : Owned s (pre ++ h :: post)) (hid : h'.id = h.id) (hm : h'.Matches s)
    (hg : ∀ k rx, h' ≠ .guard k rx) : Owned s (pre ++ h' :: post) := by
  have hr : Rewrites s s (pre ++ post) h.id [h'] := by
    refine ⟨ho.consistent, rfl, le_refl _, fun _ _ => rfl, fun _ _ _ => rfl,
      fun e hx hst => ho.silent h.id e hx hst, .inr ⟨h', rfl, hid, hm⟩, fun k rx hx => ?_⟩
    exact absurd (mem_singleton.mp hx).symm (hg k rx)
  exact ho.rewrite hr

theorem Owned.spend (h : Owned s handles) {n m : ℕ} (hn : s.nextSeq ≤ n)
    (hm : s.nextChannel ≤ m) : Owned { s with nextSeq := n, nextChannel := m } handles := by
  have hc : Consistent { s with nextSeq := n, nextChannel := m } :=
    ⟨⟨h.consistent.active, h.consistent.queue, h.consistent.runs, h.consistent.roots⟩,
      Sequenced.weaken h.consistent.sequenced hn⟩
  refine ⟨hc, h.unique, h.issued, h.covered, fun x hx => ?_,
    fun id rx hx => (h.opened id rx hx).trans_le hm, h.separate, h.silent⟩
  exact (h.agrees x hx).frame rfl fun _ _ _ => rfl

theorem Owned.abandon {turns : List Turn}
    (ho : Owned s (pre ++ h :: post)) (hd : s.abandon h.id = .ok (s', turns)) :
    Owned s' (pre ++ post) ∧ s'.entries.lookup h.id = none := by
  cases he : s.entries.lookup h.id with
  | none =>
    rw [State.abandon, remove_absent he] at hd
    cases hd
    exact ⟨ho.forget he, he⟩
  | some e =>
    obtain ⟨total, byProject, byRoot, hrel, s₁, turns₁, heq, hturns, -⟩ :=
      abandon_present ho.consistent he
    rw [hd] at heq
    cases heq
    have howned : Owned _ (pre ++ ([] ++ post)) := ho.erase he hrel .closed (.inl rfl)
    refine ⟨howned.turns hturns, ?_⟩
    rcases hturns.lookup h.id with hsame | ⟨x, hx, -⟩
    · rw [hsame]; simp [settle, erased]
    · simp [settle, erased] at hx

theorem Owned.acquire {id : TicketId} {turns : List Turn} (ho : Owned s (pre ++ .ticket id :: post))
    (hw : s.beginWait id = .ok (s', turns, .ok rx)) :
    Owned s' (pre ++ .guard id rx :: post) := by
  have hm : Handle.Matches s (.ticket id) := ho.agrees _ (by simp)
  cases he : s.entries.lookup id with
  | none =>
    rw [beginWait_refused (.inl he)] at hw
    cases hw
  | some e =>
    have hst := hm e he
    obtain ⟨s₁, turns₁, heq, hturns, -⟩ := beginWait_queued ho.consistent he hst
    rw [hw] at heq
    cases heq
    refine Owned.turns hturns ?_
    have hr : Rewrites s (s.queued id e) (pre ++ post) id [.guard id s.nextChannel] := by
      have hne : ∀ k rx, .guard k rx ∈ pre ++ post → rx ≠ s.nextChannel := by
        intro k rx hx
        refine Nat.ne_of_lt (ho.opened k rx ?_)
        simp only [mem_append, mem_cons] at hx ⊢
        tauto
      refine ⟨consistent_queued ho.consistent he hst, rfl, Nat.le_succ _, fun k hk => ?_,
        fun k rx hx => ?_, fun x hx hp => ?_, .inr ⟨_, rfl, rfl, ?_⟩, fun k rx hx => ?_⟩
      · simp only [queued, AList.lookup_insert_if, if_neg hk]
      · simp only [queued, AList.lookup_insert_if, if_neg (hne k rx hx)]
      · simp only [queued, AList.lookup_insert, Option.some.injEq] at hx
        subst hx
        exact absurd rfl hp
      · exact .inl ⟨_, AList.lookup_insert _, rfl, rfl, AList.lookup_insert _⟩
      · cases mem_singleton.mp hx
        exact ⟨Nat.lt_succ_self _, fun k' hk' => hne k' _ hk' rfl⟩
    exact ho.rewrite hr

variable {err : AdmissionError}

theorem Owned.acquireErr {id : TicketId}
    {turns : List Turn} (ho : Owned s (pre ++ .ticket id :: post))
    (hw : s.beginWait id = .ok (s', turns, .error err)) :
    Owned s' (pre ++ post) ∧ s'.entries.lookup id = none := by
  have hm : Handle.Matches s (.ticket id) := ho.agrees _ (by simp)
  cases he : s.entries.lookup id with
  | none =>
    rw [beginWait_refused (.inl he)] at hw
    cases hw
    exact ⟨(ho.forget he).spend (Nat.le_succ _) (Nat.le_succ _), he⟩
  | some e =>
    obtain ⟨s₁, turns₁, heq, -⟩ := beginWait_queued ho.consistent he (hm e he)
    rw [hw] at heq
    cases heq

theorem Owned.park {id : TicketId} {turns : List Turn} (ho : Owned s (pre ++ .permit id :: post))
    (hp : s.park id = .ok (s', turns, .ok ())) : Owned s' (pre ++ .ticket id :: post) := by
  obtain ⟨e, he, ha⟩ : Handle.Matches s (.permit id) := ho.agrees _ (by simp)
  by_cases hc : e.cancelRequested = true
  · obtain ⟨err, heq⟩ := park_refused (.inr ⟨e, he, .inr hc⟩)
    rw [hp] at heq
    cases heq
  · obtain ⟨byProject, byRoot, hbp, hbr, s₁, turns₁, heq, hturns, -⟩ :=
      park_active ho.consistent he ha (by simpa using hc)
    rw [hp] at heq
    cases heq
    refine Owned.turns hturns (Owned.evict ?_)
    have hr : Rewrites s (s.unseated id e byProject byRoot) (pre ++ post) id [.ticket id] := by
      obtain ⟨_, _, hbp', hbr', hcons⟩ := consistent_unseated ho.consistent he ha
      obtain rfl := Option.some.inj (hbp.symm.trans hbp')
      obtain rfl := Option.some.inj (hbr.symm.trans hbr')
      refine ⟨hcons, rfl, le_refl _, fun k hk => ?_, fun _ _ _ => rfl, fun x hx _ => ?_,
        .inr ⟨_, rfl, rfl, fun x hx => ?_⟩, by simp⟩
      · simp only [unseated, AList.lookup_insert_if, if_neg hk]
      · simp only [unseated, AList.lookup_insert, Option.some.injEq] at hx
        subst hx
        exact ho.silent id e he (by simp [ha])
      · simp only [unseated, AList.lookup_insert, Option.some.injEq] at hx
        subst hx
        exact .inr (.inl rfl)
    exact ho.rewrite hr

theorem Owned.parkErr {id : TicketId} {turns : List Turn} (ho : Owned s (pre ++ .permit id :: post))
    (hp : s.park id = .ok (s', turns, .error err)) :
    Owned s' (pre ++ .failed id err :: post) := by
  obtain ⟨e, he, ha⟩ : Handle.Matches s (.permit id) := ho.agrees _ (by simp)
  by_cases hc : e.cancelRequested = true
  · obtain ⟨err', heq⟩ := park_refused (.inr ⟨e, he, .inr hc⟩)
    rw [hp] at heq
    cases heq
    have hfail : Owned s (pre ++ .failed id err :: post) :=
      ho.turn rfl ⟨e, he, ha⟩ (by simp)
    exact hfail.spend (Nat.le_succ _) (le_refl _)
  · obtain ⟨byProject, byRoot, hbp, hbr, s₁, turns₁, heq, hturns, -⟩ :=
      park_active ho.consistent he ha (by simpa using hc)
    rw [hp] at heq
    cases heq

theorem Handle.Matches.cancelled (hm : h.Matches s)
    (he : s.entries.lookup h.id = some e) (ha : e.state ≠ .active) (total : ℕ)
    (byProject : AList fun _ : ProjectKey => ℕ) (byRoot : AList fun _ : CheckoutKey => ℕ) :
    h.Matches (((s.erased h.id e total byProject byRoot).forgetRoot e.scope.root).settle
      e.waiter (.sent (.error .cancelled))) := by
  have hactive : ∀ y, s.entries.lookup h.id = some y → y.state = .active → False := by
    intro y hy hya
    obtain rfl := Option.some.inj (he.symm.trans hy)
    exact ha hya
  cases h with
  | ticket id =>
    intro y hy
    simp [settle, erased, Handle.id] at hy
  | guard id rx =>
    rcases hm with ⟨y, hy, -, hw, -⟩ | ⟨y, hy, hya, -⟩ | ⟨hnone, -⟩
    · obtain rfl := Option.some.inj (he.symm.trans hy)
      refine .inr (.inr ⟨by simp [settle, erased, Handle.id], .cancelled, ?_⟩)
      simp only [settle, forgetRoot_channels, erased, hw, conclude]
      exact AList.lookup_insert _
    · exact (hactive y hy hya).elim
    · rw [Handle.id, hnone] at he
      cases he
  | received id => obtain ⟨y, hy, hya⟩ := hm; exact (hactive y hy hya).elim
  | failed id err => obtain ⟨y, hy, hya⟩ := hm; exact (hactive y hy hya).elim
  | permit id => obtain ⟨y, hy, hya⟩ := hm; exact (hactive y hy hya).elim

theorem Handle.Matches.mark {e' : Entry} (hm : h.Matches s)
    (he : s.entries.lookup h.id = some e) (ha : e.state = .active) (ha' : e'.state = .active) :
    h.Matches { s with entries := s.entries.insert h.id e' } := by
  have hnew : (s.entries.insert h.id e').lookup h.id = some e' := AList.lookup_insert _
  cases h with
  | ticket id => exact absurd (hm e he) (by simp [ha])
  | guard id rx =>
    rcases hm with ⟨y, hy, hp, -⟩ | ⟨y, hy, -, hch⟩ | ⟨hnone, -⟩
    · obtain rfl := Option.some.inj (he.symm.trans hy)
      rw [ha] at hp
      cases hp
    · exact .inr (.inl ⟨e', hnew, ha', hch⟩)
    · rw [Handle.id, hnone] at he
      cases he
  | received id => exact ⟨e', hnew, ha'⟩
  | failed id err => exact ⟨e', hnew, ha'⟩
  | permit id => exact ⟨e', hnew, ha'⟩

theorem Owned.mark
    (ho : Owned s (pre ++ h :: post)) (he : s.entries.lookup h.id = some e) (ha : e.state =
      .active) :
    Owned { s with entries := s.entries.insert h.id { e with cancelRequested := true } }
      (pre ++ h :: post) := by
  have hcons : Consistent
      { s with entries := s.entries.insert h.id { e with cancelRequested := true } } :=
    Quiet.consistent ho.consistent (.flag he ha (.inl rfl))
  have hr : Rewrites s
      { s with entries := s.entries.insert h.id { e with cancelRequested := true } }
      (pre ++ post) h.id [h] := by
    refine ⟨hcons, rfl, le_refl _, fun k hk => ?_, fun _ _ _ => rfl, fun x hx _ => ?_,
      .inr ⟨h, rfl, rfl, (ho.agrees h (by simp)).mark he ha ha⟩, fun k rx hx => ?_⟩
    · simp only [AList.lookup_insert_if, if_neg hk]
    · simp only [AList.lookup_insert, Option.some.injEq] at hx
      subst hx
      exact ho.silent h.id e he (by simp [ha])
    · obtain rfl := mem_singleton.mp hx
      exact ho.guard_alone
  exact ho.rewrite hr

theorem Owned.cancel {id : TicketId} {turns : List Turn} {b : Bool}
    (ho : Owned s handles) (hc : s.cancel id = .ok (s', turns, b)) : Owned s' handles := by
  cases he : s.entries.lookup id with
  | none =>
    rw [cancel_absent he] at hc
    cases hc
    exact ho
  | some e =>
    obtain ⟨h, hh, rfl⟩ := ho.covered id e he
    have hm := ho.agrees h hh
    obtain ⟨pre, post, rfl⟩ := append_of_mem hh
    by_cases ha : e.state = .active
    · rw [State.cancel, he] at hc
      dsimp only at hc
      rw [if_pos ha] at hc
      split_ifs at hc
      · cases hc
        exact ho
      · cases hc
        exact ho.mark he ha
    · obtain ⟨total, byProject, byRoot, hrel, s₁, turns₁, heq, hturns, -⟩ :=
        cancelWaiting_present ho.consistent he
      simp only [State.cancel, he, ha, if_false, heq] at hc
      cases hc
      have hkeep : Owned _ (pre ++ ([h] ++ post)) :=
        ho.erase he hrel (.sent (.error .cancelled)) (.inr ⟨rfl, hm.cancelled he ha _ _ _⟩)
      exact hkeep.turns hturns

theorem Owned.cancelTicket {id : TicketId}
    {turns : List Turn} {b : Bool} (ho : Owned s (pre ++ .ticket id :: post))
    (hc : s.cancel id = .ok (s', turns, b)) :
    Owned s' (pre ++ post) ∧ s'.entries.lookup id = none := by
  have hm : Handle.Matches s (.ticket id) := ho.agrees _ (by simp)
  cases he : s.entries.lookup id with
  | none =>
    rw [cancel_absent he] at hc
    cases hc
    exact ⟨ho.forget he, he⟩
  | some e =>
    have ha : e.state ≠ .active := by rcases hm e he with h | h | h <;> simp [h]
    obtain ⟨total, byProject, byRoot, hrel, s₁, turns₁, heq, hturns, -⟩ :=
      cancelWaiting_present ho.consistent he
    simp only [State.cancel, he, ha, if_false, heq] at hc
    cases hc
    have hgone : Owned _ (pre ++ ([] ++ post)) :=
      ho.erase he hrel (.sent (.error .cancelled)) (.inl rfl)
    refine ⟨hgone.turns hturns, ?_⟩
    rcases hturns.lookup id with hsame | ⟨x, hx, -⟩
    · rw [hsame]; simp [settle, erased]
    · simp [settle, erased] at hx

variable {request : AdmissionRequest}

theorem reserve_ok {id : TicketId} (h : s.reserve request = (s', .ok id)) :
    s' = s.reserved request ∧ id = s.nextId ∧ s.byRun.lookup request.run = none := by
  unfold reserve at h
  dsimp only at h
  split_ifs at h with h1 h2 h3 h4 h5 <;> cases h
  exact ⟨rfl, rfl, by simpa using h3⟩

theorem reserve_error (h : s.reserve request = (s', .error err)) : s' = s := by
  unfold reserve at h
  dsimp only at h
  split_ifs at h <;> cases h <;> rfl

theorem Owned.reserve (ho : Owned s handles) (hr : s.byRun.lookup request.run = none) :
    Owned (s.reserved request) (.ticket s.nextId :: handles) := by
  have hnew : ∀ x ∈ handles, x.id ≠ s.nextId := fun x hx => Nat.ne_of_lt (ho.issued x hx)
  have hlook : ∀ id, (s.reserved request).entries.lookup id =
      if id = s.nextId then some (s.newEntry request) else s.entries.lookup id := fun id => by
    simp only [reserved, AList.lookup_insert_if]
  refine ⟨consistent_reserved ho.consistent hr, ?_, fun x hx => ?_, fun id e he => ?_,
    fun x hx => ?_, fun id rx hx => ?_, fun id id' rx hx hx' => ?_, fun id e he hst => ?_⟩
  · rw [map_cons]
    refine nodup_cons.mpr ⟨fun hm => ?_, ho.unique⟩
    obtain ⟨x, hx, hid⟩ := mem_map.mp hm
    exact hnew x hx hid
  · rcases mem_cons.mp hx with rfl | hx
    · exact Nat.lt_succ_self _
    · exact Nat.lt_succ_of_lt (ho.issued x hx)
  · rw [hlook id] at he
    split_ifs at he with hid
    · exact ⟨_, mem_cons_self, hid.symm⟩
    · obtain ⟨x, hx, hxid⟩ := ho.covered id e he
      exact ⟨x, mem_cons_of_mem _ hx, hxid⟩
  · rcases mem_cons.mp hx with rfl | hx
    · intro e he
      rw [hlook, if_pos rfl] at he
      cases he
      exact .inl rfl
    · exact (ho.agrees x hx).frame (by rw [hlook, if_neg (hnew x hx)]) fun _ _ _ => rfl
  · rcases mem_cons.mp hx with h | hx
    · cases h
    · exact ho.opened id rx hx
  · rcases mem_cons.mp hx with h | hx
    · cases h
    · rcases mem_cons.mp hx' with h | hx'
      · cases h
      · exact ho.separate id id' rx hx hx'
  · rw [hlook id] at he
    split_ifs at he
    · cases he; rfl
    · exact ho.silent id e he hst

variable {result : Except SettingsError Unit} {settings : Settings}

theorem configure_spec {turns : List Turn} (hs : Consistent s)
    (h : s.configure settings = .ok (s', turns, result)) :
    (s' = s ∧ turns = []) ∨ Turns (s.configured settings).evictParkedOverResidency turns s' := by
  unfold State.configure at h
  cases hv : settings.validate with
  | error err =>
    simp only [hv] at h
    cases h
    exact .inl ⟨rfl, rfl⟩
  | ok u =>
    have hc : Consistent (s.configured settings) :=
      ⟨⟨hs.active, hs.queue, hs.runs, hs.roots⟩, hs.sequenced⟩
    obtain ⟨s₁, turns₁, hp, hturns, -⟩ := pump_spec (consistent_evict hc)
    have hp' := hp
    rw [configured] at hp'
    simp only [hv, bind, Except.bind, hp', pure, Except.pure] at h
    cases h
    exact .inr hturns

theorem Owned.configure {turns : List Turn} (ho : Owned s handles)
    (h : s.configure settings = .ok (s', turns, result)) : Owned s' handles := by
  rcases configure_spec ho.consistent h with ⟨rfl, -⟩ | hturns
  · exact ho
  · have hc : Consistent (s.configured settings) :=
      ⟨⟨ho.consistent.active, ho.consistent.queue, ho.consistent.runs, ho.consistent.roots⟩,
        ho.consistent.sequenced⟩
    have hset : Owned (s.configured settings) handles :=
      ⟨hc, ho.unique, ho.issued, ho.covered,
        fun x hx => (ho.agrees x hx).frame rfl fun _ _ _ => rfl, ho.opened, ho.separate,
        ho.silent⟩
    exact hset.evict.turns hturns

/-- A guard whose channel holds an error, or is closed, has no entry any more. -/
theorem Owned.absent_of_error {id : TicketId} {channel : Channel}
    (ho : Owned s (pre ++ .guard id rx :: post))
    (hch : s.channels.lookup rx = some channel) (hw : channel ≠ .waiting)
    (hok : channel ≠ .sent (.ok ())) : s.entries.lookup id = none := by
  rcases ho.agrees _ (mem_append_right _ mem_cons_self) with
    ⟨y, -, -, -, hc⟩ | ⟨y, -, -, hc⟩ | ⟨hnone, -⟩
  · rw [hch] at hc
    exact absurd (Option.some.inj hc) hw
  · rw [hch] at hc
    exact absurd (Option.some.inj hc) hok
  · exact hnone

variable {w w' : World} {event : Event}

theorem Owned.step (ho : Owned w.state w.handles)
    (h : Step w event w') : Owned w'.state w'.handles := by
  cases h with
  | reserve hr =>
    obtain ⟨rfl, rfl, hrun⟩ := reserve_ok hr
    exact ho.reserve hrun
  | refuse hr =>
    obtain rfl := reserve_error hr
    exact ho
  | acquire hw => exact ho.acquire hw
  | acquireErr hw => exact (ho.acquireErr hw).1
  | @receive s pre post id rx hch =>
    rcases ho.agrees _ (mem_append_right _ mem_cons_self) with
      ⟨y, -, -, -, hc⟩ | ⟨y, hy, hya, -⟩ | ⟨-, err, hc⟩
    · rw [hch] at hc; cases hc
    · exact ho.turn rfl ⟨y, hy, hya⟩ (by simp)
    · rw [hch] at hc; cases hc
  | @receiveErr s pre post id rx err hch =>
    exact ho.forget (ho.absent_of_error hch (by simp) (by simp))
  | @receiveClosed s pre post id rx hch =>
    exact ho.forget (ho.absent_of_error hch (by simp) (by simp))
  | @permit s pre post id e _ _ =>
    have hm : Handle.Matches s (.received id) := ho.agrees _ (by simp)
    exact ho.turn rfl hm (by simp)
  | @cancelled s pre post id _ =>
    have hm : Handle.Matches s (.received id) := ho.agrees _ (by simp)
    exact ho.turn rfl hm (by simp)
  | park hp => exact ho.park hp
  | parkErr hp => exact ho.parkErr hp
  | dropFailed hd => exact (ho.abandon hd).1
  | dropTicket hd => exact (ho.abandon hd).1
  | dropGuard hd => exact (ho.abandon hd).1
  | dropPermit hd => exact (ho.abandon hd).1
  | cancelTicket hc => exact (ho.cancelTicket hc).1
  | cancel hc => exact ho.cancel hc
  | configure hc => exact ho.configure hc

theorem Owned.run {events : List Event}
    (h : Run ⟨new settings, []⟩ events w) : Owned w.state w.handles := by
  generalize hw : (⟨new settings, []⟩ : World) = w₀ at h
  induction h with
  | nil =>
    subst hw
    exact ⟨consistent_new settings, by simp, by simp, by simp [new], by simp, by simp, by simp,
      by simp [new]⟩
  | snoc _ hs ih => exact ih.step hs

def StillActive (s : State) (id : TicketId) (e : Entry) : Prop :=
  ∃ e', s.entries.lookup id = some e' ∧ e'.state = .active ∧ e'.run = e.run ∧ e'.scope = e.scope

theorem State.Turns.keeps_active {turns : List Turn} (h : Turns s turns s')
    {id : TicketId} (he : s.entries.lookup id = some e) (ha : e.state = .active) :
    s'.entries.lookup id = some e := by
  rcases h.lookup id with hsame | ⟨x, hx, hp, -⟩
  · rw [hsame, he]
  · rw [he] at hx
    cases hx
    rw [ha] at hp
    cases hp

theorem State.Performed.stillActive {op : Op} {turns : List Turn}
    (hs : Consistent s) (h : Performed s op s' turns) {id : TicketId}
    (he : s.entries.lookup id = some e) (ha : e.state = .active) (hpark : op ≠ .park id)
    (hdrop : op ≠ .abandon id) : StillActive s' id e := by
  have hother : ∀ k x, s.entries.lookup k = some x → x.state ≠ .active → id ≠ k := by
    rintro k x hx hxa rfl
    rw [he] at hx
    cases hx
    exact hxa ha
  cases h with
  | quiet hq =>
    cases hq with
    | refuse => exact ⟨e, he, ha, rfl, rfl⟩
    | reserve =>
      have hne : id ≠ s.nextId := Nat.ne_of_lt (hs.sequenced.id_lt id e he)
      exact ⟨e, by simp only [reserved, AList.lookup_insert_if, if_neg hne, he], ha, rfl, rfl⟩
    | @flag _ k x hx hxa _ =>
      by_cases hid : id = k
      · subst hid
        obtain rfl := Option.some.inj (he.symm.trans hx)
        exact ⟨_, AList.lookup_insert _, ha, rfl, rfl⟩
      · exact ⟨e, by simp only [AList.lookup_insert_if, if_neg hid, he], ha, rfl, rfl⟩
  | @pumped s₁ _ _ hedit hturns =>
    suffices hkeep : s₁.entries.lookup id = some e from
      ⟨e, hturns.keeps_active hkeep ha, ha, rfl, rfl⟩
    cases hedit with
    | wait hx hst =>
      have hne := hother _ _ hx (by rcases hst with h | h | h <;> simp [h])
      simp only [queued, AList.lookup_insert_if, if_neg hne, he]
    | @park k _ _ _ hx _ _ _ _ =>
      refine evict_lookup ?_ (by simp [ha])
      have hne : id ≠ k := fun heq => hpark (congrArg Op.park heq.symm)
      simp only [unseated, AList.lookup_insert_if, if_neg hne, he]
    | @remove _ k _ _ _ _ _ hx hcase _ =>
      have hne : id ≠ k := by
        rcases hcase with hcase | ⟨hxa, -⟩
        · exact fun heq => hdrop (hcase.trans (congrArg Op.abandon heq.symm))
        · exact hother _ _ hx hxa
      simp only [settle, forgetRoot_entries, erased, AList.lookup_erase_if, if_neg hne, he]
    | configure => exact evict_lookup he (by simp [ha])

structure StepSafe (w : World) (event : Event) (w' : World) : Prop where
  permit : ∀ id, event = .permit id →
    ∃ e, w.state.entries.lookup id = some e ∧ e.state = .active ∧ e.cancelRequested = false
  active : ∀ id e, w.state.entries.lookup id = some e → e.state = .active →
    StillActive w'.state id e ∨ event = .park id ∨ event = .drop id ∨
      ∃ err, event = .returnErr id err
  permitted : ∀ id, .permit id ∈ w.handles → ∃ e, w.state.entries.lookup id = some e ∧
    e.state = .active ∧ (StillActive w'.state id e ∨ event = .park id ∨ event = .drop id)
  clean : ∀ id err, event = .returnErr id err →
    w'.state.entries.lookup id = none ∧ (∀ h ∈ w'.handles, h.id ≠ id) ∧ Accounting w'.state

theorem park_error_entries {id : TicketId} {turns : List Turn} (hs : Consistent s)
    (hp : s.park id = .ok (s', turns, .error err)) : s'.entries = s.entries := by
  have href : (s.entries.lookup id = none ∨ ∃ e, s.entries.lookup id = some e ∧
      (e.state ≠ .active ∨ e.cancelRequested = true)) → s'.entries = s.entries := by
    intro h
    obtain ⟨err', heq⟩ := park_refused h
    rw [hp] at heq
    cases heq
    rfl
  cases he : s.entries.lookup id with
  | none => exact href (.inl he)
  | some e =>
    by_cases hno : e.state ≠ .active ∨ e.cancelRequested = true
    · exact href (.inr ⟨e, he, hno⟩)
    · obtain ⟨ha, hc⟩ := not_or.mp hno
      obtain ⟨_, _, _, _, s₁, turns₁, heq, -⟩ :=
        park_active hs he (not_not.mp ha) (by simpa using hc)
      rw [hp] at heq
      cases heq

theorem Owned.step_active (ho : Owned w.state w.handles) (h : Step w event w') {id : TicketId}
    (he : w.state.entries.lookup id = some e) (ha : e.state = .active) :
    StillActive w'.state id e ∨ event = .park id ∨ event = .drop id ∨
      ∃ err, event = .returnErr id err := by
  have hkey : ∀ op s' turns, perform w.state op = .ok (s', turns) → op ≠ .park id →
      op ≠ .abandon id → StillActive s' id e := fun op s' turns hp =>
    (performed_of_perform ho.consistent hp).stillActive ho.consistent he ha
  have hsame : StillActive w.state id e := ⟨e, he, ha, rfl, rfl⟩
  -- a drop by another handle leaves the entry alone
  have hdrop : ∀ k s' turns, w.state.abandon k = .ok (s', turns) →
      StillActive s' id e ∨ k = id := by
    intro k s' turns hd
    by_cases hk : k = id
    · exact .inr hk
    · exact .inl (hkey (.abandon k) s' turns hd (by simp) (by simpa using hk))
  cases h with
  | @reserve s s' hs request k hr =>
    exact .inl (hkey (.reserve request) s' [] (by simp [perform, hr]) (by simp) (by simp))
  | @refuse s s' hs request err hr =>
    exact .inl (hkey (.reserve request) s' [] (by simp [perform, hr]) (by simp) (by simp))
  | @acquire s s' pre post k turns rx hw =>
    exact .inl (hkey (.beginWait k) s' turns (by simp [perform, hw, Except.map]) (by simp)
      (by simp))
  | @acquireErr s s' pre post k turns err hw =>
    exact .inl (hkey (.beginWait k) s' turns (by simp [perform, hw, Except.map]) (by simp)
      (by simp))
  | receive => exact .inl hsame
  | receiveErr => exact .inl hsame
  | receiveClosed => exact .inl hsame
  | permit => exact .inl hsame
  | cancelled => exact .inl hsame
  | @park s s' pre post k turns hp =>
    by_cases hk : k = id
    · exact .inr (.inl (by rw [hk]))
    · exact .inl (hkey (.park k) s' turns (by simp [perform, hp, Except.map])
        (by simpa using hk) (by simp))
  | parkErr hp =>
    have hents := park_error_entries ho.consistent hp
    exact .inl ⟨e, by rw [hents]; exact he, ha, rfl, rfl⟩
  | @dropFailed s s' pre post k err turns hd =>
    exact (hdrop k s' turns hd).imp_right fun hk => .inr (.inr ⟨err, by rw [hk]⟩)
  | @dropTicket s s' pre post k turns hd =>
    exact (hdrop k s' turns hd).imp_right fun hk => .inr (.inl (by rw [hk]))
  | @dropGuard s s' pre post k rx turns hd =>
    exact (hdrop k s' turns hd).imp_right fun hk => .inr (.inl (by rw [hk]))
  | @dropPermit s s' pre post k turns hd =>
    exact (hdrop k s' turns hd).imp_right fun hk => .inr (.inl (by rw [hk]))
  | @cancelTicket s s' pre post k turns b hc =>
    exact .inl (hkey (.cancel k) s' turns (by simp [perform, hc, Except.map]) (by simp)
      (by simp))
  | @cancel s s' hs k turns b hc =>
    exact .inl (hkey (.cancel k) s' turns (by simp [perform, hc, Except.map]) (by simp)
      (by simp))
  | @configure s s' hs settings turns result hc =>
    exact .inl (hkey (.configure settings) s' turns (by simp [perform, hc, Except.map])
      (by simp) (by simp))

theorem Owned.step_clean {id : TicketId}
    (ho : Owned w.state w.handles) (h : Step w (.returnErr id err) w') :
    w'.state.entries.lookup id = none ∧ ∀ x ∈ w'.handles, x.id ≠ id := by
  cases h with
  | acquireErr hw => exact ⟨(ho.acquireErr hw).2, fun x hx => ho.others hx⟩
  | receiveErr hch =>
    exact ⟨ho.absent_of_error hch (by simp) (by simp), fun x hx => ho.others hx⟩
  | receiveClosed hch =>
    exact ⟨ho.absent_of_error hch (by simp) (by simp), fun x hx => ho.others hx⟩
  | dropFailed hd => exact ⟨(ho.abandon hd).2, fun x hx => ho.others hx⟩

theorem Owned.step_permit {id : TicketId} (ho : Owned w.state w.handles)
    (h : Step w (.permit id) w') :
    ∃ e, w.state.entries.lookup id = some e ∧ e.state = .active ∧
      e.cancelRequested = false := by
  cases h with
  | @permit s pre post _ e he hc =>
    obtain ⟨y, hy, hya⟩ : Handle.Matches s (.received id) := ho.agrees _ (by simp)
    obtain rfl := Option.some.inj (he.symm.trans hy)
    exact ⟨e, he, hya, hc⟩

theorem Owned.step_permitted {id : TicketId}
    (ho : Owned w.state w.handles) (h : Step w event w') (hp : .permit id ∈ w.handles) :
    ∃ e, w.state.entries.lookup id = some e ∧ e.state = .active ∧
      (StillActive w'.state id e ∨ event = .park id ∨ event = .drop id) := by
  obtain ⟨e, he, ha⟩ : Handle.Matches w.state (.permit id) := ho.agrees _ hp
  refine ⟨e, he, ha, ?_⟩
  rcases ho.step_active h he ha with hk | hk | hk | ⟨err, rfl⟩
  · exact .inl hk
  · exact .inr (.inl hk)
  · exact .inr (.inr hk)
  · cases h with
    | acquireErr => cases ho.eq_of_id hp (mem_append_right _ mem_cons_self) rfl
    | receiveErr => cases ho.eq_of_id hp (mem_append_right _ mem_cons_self) rfl
    | receiveClosed => cases ho.eq_of_id hp (mem_append_right _ mem_cons_self) rfl
    | dropFailed => cases ho.eq_of_id hp (mem_append_right _ mem_cons_self) rfl

theorem Owned.stepSafe (ho : Owned w.state w.handles)
    (h : Step w event w') : StepSafe w event w' := by
  refine ⟨fun id hev => ?_, fun id e he ha => ho.step_active h he ha,
    fun id hp => ho.step_permitted h hp, fun id err hev => ?_⟩
  · subst hev
    exact ho.step_permit h
  · subst hev
    obtain ⟨hnone, hgone⟩ := ho.step_clean h
    exact ⟨hnone, hgone, (ho.step h).consistent.toAccounting⟩

structure Deserted (s : State) : Prop where
  entries : s.entries = ∅
  queue : s.queue = .empty
  byRun : s.byRun = ∅
  activeTotal : s.activeTotal = 0
  activeByProject : s.activeByProject = ∅
  activeByRoot : s.activeByRoot = ∅
  roots : s.roots = []

theorem Owned.deserted (ho : Owned s []) : Deserted s := by
  have hnone : ∀ id, s.entries.lookup id = none := by
    intro id
    cases he : s.entries.lookup id with
    | none => rfl
    | some e =>
      obtain ⟨h, hh, -⟩ := ho.covered id e he
      cases hh
  have hempty : s.entries = ∅ := AList.eq_empty_of_lookup hnone
  have hacc := ho.consistent
  refine ⟨hempty, ?_, ?_, ?_, ?_, ?_, ?_⟩
  · refine SortedSet.eq_empty_of_forall_notMem fun slot hm => ?_
    obtain ⟨e, he, -⟩ := (hacc.queue (ofLex slot).1 (ofLex slot).2).mp hm
    rw [hnone] at he
    cases he
  · refine AList.eq_empty_of_lookup fun run => ?_
    cases hr : s.byRun.lookup run with
    | none => rfl
    | some id =>
      obtain ⟨e, he, -⟩ := (hacc.runs run id).mp hr
      rw [hnone] at he
      cases he
  · rw [hacc.active.total, hempty]; rfl
  · exact hacc.active.project.eq_empty fun p => by rw [hempty]; rfl
  · exact hacc.active.root.eq_empty fun r => by rw [hempty]; rfl
  · refine eq_nil_iff_forall_not_mem.mpr fun root hm => ?_
    obtain ⟨id, e, he, -⟩ := (hacc.roots.exact root).mp hm
    rw [hnone] at he
    cases he

/-- In every run each entry has exactly one live handle. A permit is handed out only for an
active entry without a cancellation, an entry keeps its permit until its own handle gives it
back, an error return leaves nothing of its ticket behind, and without handles there is
nothing at all. -/
theorem permit_ownership {settings : Settings} {events : List Event} {w : World}
    (hrun : Run ⟨new settings, []⟩ events w) :
    (∀ id e, w.state.entries.lookup id = some e →
      (w.handles.countP fun h => decide (h.id = id)) = 1) ∧
    (∀ event w', Step w event w' → StepSafe w event w') ∧
    (w.handles = [] → Deserted w.state) := by
  have ho := Owned.run hrun
  refine ⟨fun id e he => ?_, fun event w' hs => ho.stepSafe hs, fun hnil => ?_⟩
  · obtain ⟨h, hh, rfl⟩ := ho.covered id e he
    have hcount : (w.handles.map Handle.id).count h.id = 1 :=
      count_eq_one_of_mem ho.unique (mem_map_of_mem hh)
    rw [List.count, countP_map] at hcount
    refine Eq.trans (countP_congr fun x _ => ?_) hcount
    simp
  · rw [hnil] at ho
    exact ho.deserted

/-- A ticket is reserved, begins to acquire and its future is dropped. -/
theorem dropped_acquire_leaves_nothing :
    ∃ w, Run ⟨new oneSeat, []⟩ [.reserve 1, .acquire 1, .drop 1] w ∧ w.handles = [] ∧
      Deserted w.state := by
  have hreserve : (new oneSeat).reserve urgentRequest =
      ((new oneSeat).reserved urgentRequest, .ok 1) := by rfl
  have h₁ : Run ⟨new oneSeat, []⟩ [.reserve 1]
      ⟨(new oneSeat).reserved urgentRequest, [.ticket 1]⟩ := .snoc (.nil _) (.reserve hreserve)
  have hfound : ((new oneSeat).reserved urgentRequest).entries.lookup 1 =
      some ((new oneSeat).newEntry urgentRequest) := AList.lookup_insert _
  obtain ⟨s₂, turns₂, hwait, -, hs₂⟩ := beginWait_queued (Owned.run h₁).consistent hfound
    (.inl rfl)
  have hacquire : Step ⟨_, [] ++ [.ticket 1]⟩ (.acquire 1) ⟨s₂, [] ++ [.guard 1 0]⟩ :=
    .acquire hwait
  have h₂ : Run ⟨new oneSeat, []⟩ [.reserve 1, .acquire 1] ⟨s₂, [.guard 1 0]⟩ :=
    .snoc h₁ hacquire
  obtain ⟨s₃, turns₃, hdrop, -⟩ := perform_spec hs₂ (.abandon 1)
  have habandon : Step ⟨s₂, [] ++ [.guard 1 0]⟩ (.drop 1) ⟨s₃, [] ++ []⟩ := .dropGuard hdrop
  have h₃ : Run ⟨new oneSeat, []⟩ [.reserve 1, .acquire 1, .drop 1] ⟨s₃, []⟩ :=
    .snoc h₂ habandon
  exact ⟨_, h₃, rfl, (permit_ownership h₃).2.2 rfl⟩

end AdmissionScheduler
