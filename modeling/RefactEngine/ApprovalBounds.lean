import RefactEngine.ApprovalAuthority

/-! # The size of the approval registry

The capacity limits the requests that have not expired when one is registered, and the expired ones
at each expiry pass. The clock may run backwards.
-/
namespace ApprovalRegistry

open List

variable {Value : Type}

def Entry.isExpired (entry : Entry Value) : Bool := entry.decision = some .expired

def marked (s : Registry Value) (now : ℕ) : Registry Value :=
  s.mapValues fun _ entry => entry.expire now

def orderKey (id : String) (entry : Entry Value) : ℕ ×ₗ String := toLex (entry.pending.expiresAt, id)

theorem mem_expiredInOrder {s : Registry Value} {key : ℕ ×ₗ String} :
    key ∈ expiredInOrder s ↔
      ∃ id e, s.lookup id = some e ∧ e.isExpired = true ∧ key = orderKey id e := by
  unfold expiredInOrder
  rw [mem_insertionSort, mem_map]
  constructor
  · rintro ⟨⟨id, e⟩, he, rfl⟩
    obtain ⟨hmem, hexp⟩ := mem_filter.mp he
    exact ⟨id, e, AList.mem_entries_iff.mp hmem, hexp, rfl⟩
  · rintro ⟨id, e, hlook, hexp, rfl⟩
    exact ⟨⟨id, e⟩, mem_filter.mpr ⟨AList.mem_entries_iff.mpr hlook, hexp⟩, rfl⟩

variable (s : Registry Value)

theorem length_expiredInOrder : (expiredInOrder s).length = s.countValues Entry.isExpired := by
  unfold expiredInOrder
  rw [length_insertionSort, length_map, ← countP_eq_length_filter]
  rfl

theorem sorted_expiredInOrder : (expiredInOrder s).Pairwise (· ≤ ·) :=
  pairwise_insertionSort _ _

theorem nodup_expiredIds : ((expiredInOrder s).map fun key => (ofLex key).2).Nodup := by
  have hperm : ((expiredInOrder s).map fun key => (ofLex key).2).Perm
      ((s.entries.filter fun entry => entry.2.decision = some .expired).map Sigma.fst) := by
    have hsort := (perm_insertionSort (· ≤ ·) ((s.entries.filter fun entry =>
      entry.2.decision = some .expired).map fun entry =>
        toLex (entry.2.pending.expiresAt, entry.1))).map fun key => (ofLex key).2
    rw [map_map] at hsort
    exact hsort
  rw [hperm.nodup_iff]
  have hkeys : (s.entries.map Sigma.fst).Nodup := s.keys_nodup
  exact hkeys.sublist (filter_sublist.map Sigma.fst)

def purged (capacity : ℕ) (s : Registry Value) (now : ℕ) : List (ℕ ×ₗ String) :=
  (expiredInOrder (marked s now)).take ((expiredInOrder (marked s now)).length - capacity)

variable (capacity : ℕ)

theorem expireLocked_eq (s : Registry Value) (now : ℕ) : expireLocked capacity s now =
      (marked s now).eraseAll ((purged capacity s now).map fun key => (ofLex key).2) := by
  unfold expireLocked purged
  dsimp only
  split_ifs with hpurge
  · rfl
  · have hzero : (expiredInOrder (marked s now)).length - capacity = 0 := by
      unfold marked
      omega
    rw [hzero]
    rfl

theorem lookup_marked (now : ℕ) (id : String) :
    (marked s now).lookup id = (s.lookup id).map fun e => e.expire now :=
  AList.lookup_mapValues _ _ id

theorem expired_expireLocked (s : Registry Value) (now : ℕ) :
    (expireLocked capacity s now).countValues Entry.isExpired =
      min capacity ((marked s now).countValues Entry.isExpired) := by
  have hnodup : ((purged capacity s now).map fun key => (ofLex key).2).Nodup :=
    (nodup_expiredIds (marked s now)).sublist ((take_sublist _ _).map _)
  have hstored : ∀ id ∈ (purged capacity s now).map (fun key => (ofLex key).2),
      ∃ e, (marked s now).lookup id = some e ∧ e.isExpired = true := by
    intro id hid
    obtain ⟨key, hkey, rfl⟩ := mem_map.mp hid
    obtain ⟨id, e, hlook, hexp, rfl⟩ := mem_expiredInOrder.mp (mem_of_mem_take hkey)
    exact ⟨e, hlook, hexp⟩
  have hcount := AList.countValues_eraseAll Entry.isExpired hnodup hstored
  rw [← expireLocked_eq, length_map, purged, length_take, length_expiredInOrder] at hcount
  omega

structure OldestPurged (capacity : ℕ) (s : Registry Value) (now : ℕ) : Prop where
  room : (expireLocked capacity s now).countValues Entry.isExpired ≤ capacity
  needed : ∀ id, (s.lookup id).isSome → (expireLocked capacity s now).lookup id = none →
    (expireLocked capacity s now).countValues Entry.isExpired = capacity
  oldest : ∀ id e, s.lookup id = some e → (expireLocked capacity s now).lookup id = none →
    (e.expire now).isExpired = true ∧ ∀ id' e', (expireLocked capacity s now).lookup id' = some e' →
      e'.isExpired = true → orderKey id e < orderKey id' e'

theorem mem_purged {capacity now : ℕ} {s : Registry Value} {id : String} {e : Entry Value}
    (hs : s.lookup id = some e) (hnone : (expireLocked capacity s now).lookup id = none) :
    orderKey id (e.expire now) ∈ purged capacity s now ∧ (e.expire now).isExpired = true := by
  have hmarked : (marked s now).lookup id = some (e.expire now) := by
    rw [lookup_marked, hs]
    rfl
  rw [expireLocked_eq, AList.lookup_eraseAll] at hnone
  split_ifs at hnone with hpurged
  · obtain ⟨key, hkey, hid⟩ := mem_map.mp hpurged
    obtain ⟨id', e', hlook, hexp, rfl⟩ := mem_expiredInOrder.mp (mem_of_mem_take hkey)
    obtain rfl : id' = id := hid
    obtain rfl := Option.some.inj (hmarked.symm.trans hlook)
    exact ⟨hkey, hexp⟩
  · rw [hmarked] at hnone
    cases hnone

theorem oldest_purged (s : Registry Value) (now : ℕ) : OldestPurged capacity s now where
  room := by
    rw [expired_expireLocked]
    exact min_le_left _ _
  needed id hs hnone := by
    obtain ⟨e, hs⟩ := Option.isSome_iff_exists.mp hs
    have hpos := length_pos_of_mem (mem_purged hs hnone).1
    rw [purged, length_take, length_expiredInOrder] at hpos
    rw [expired_expireLocked]
    omega
  oldest id e hs hnone := by
    obtain ⟨hpurged, hexp⟩ := mem_purged hs hnone
    refine ⟨hexp, fun id' e' hs' hexp' => ?_⟩
    have hkey : orderKey id (e.expire now) = orderKey id e := by
      rw [orderKey, Entry.expire_pending]
      rfl
    rw [hkey] at hpurged
    rw [expireLocked_eq, AList.lookup_eraseAll] at hs'
    split_ifs at hs' with hkept
    have hin : orderKey id' e' ∈ expiredInOrder (marked s now) :=
      mem_expiredInOrder.mpr ⟨id', e', hs', hexp', rfl⟩
    have hrest : orderKey id' e' ∈ (expiredInOrder (marked s now)).drop
        ((expiredInOrder (marked s now)).length - capacity) := by
      rw [← take_append_drop ((expiredInOrder (marked s now)).length - capacity)
        (expiredInOrder (marked s now))] at hin
      apply (mem_append.mp hin).resolve_left
      intro hin
      exact hkept (mem_map.mpr ⟨_, hin, rfl⟩)
    have hsort := sorted_expiredInOrder (marked s now)
    rw [← take_append_drop ((expiredInOrder (marked s now)).length - capacity)
      (expiredInOrder (marked s now))] at hsort
    apply lt_of_le_of_ne ((pairwise_append.mp hsort).2.2 _ hpurged _ hrest)
    intro heq
    apply hkept
    have hid : id = id' := congrArg (fun key => (ofLex key).2) heq
    exact mem_map.mpr ⟨_, hpurged, hid⟩

structure Bounded (capacity : ℕ) (s : Registry Value) : Prop where
  expired : s.countValues Entry.isExpired ≤ capacity
  live : s.countValues (fun e => !e.isExpired) ≤ capacity

theorem Bounded.length_le {capacity : ℕ} {s : Registry Value} (h : Bounded capacity s) :
    s.entries.length ≤ 2 * capacity := by
  have hlen := length_eq_countP_add_countP (fun e : (_ : String) × Entry Value =>
    e.2.isExpired) (l := s.entries)
  have hexp := h.expired
  have hlive := h.live
  simp only [AList.countValues, Bool.not_eq_true, Bool.decide_eq_false] at hexp hlive hlen
  omega

theorem live_expireLocked (now : ℕ) (s : Registry Value) :
    (expireLocked capacity s now).countValues (fun e => !e.isExpired) ≤
      s.countValues (fun e => !e.isExpired) := by
  apply AList.countValues_le
  intro id e he hlive
  rw [Bool.not_eq_true', Entry.isExpired, decide_eq_false_iff_not] at hlive
  exact ⟨e, (expireLocked_live he hlive).1, by simpa [Entry.isExpired] using hlive⟩

theorem live_le_active (now : ℕ) (s : Registry Value) :
    (expireLocked capacity s now).countValues (fun e => !e.isExpired) ≤
      (expireLocked capacity s now).countValues (fun e => now < e.pending.expiresAt) := by
  apply countP_mono_left
  intro entry hentry hlive
  have he : (expireLocked capacity s now).lookup entry.1 = some entry.2 :=
    AList.mem_entries_iff.mp hentry
  rw [Bool.not_eq_true', Entry.isExpired, decide_eq_false_iff_not] at hlive
  exact decide_eq_true (expireLocked_live he hlive).2

theorem register_room {capacity now : ℕ} {s : Registry Value} {pending : PendingApproval Value}
    (h : (register capacity s pending now).2 = .ok ()) :
    (expireLocked capacity s now).lookup pending.id = none ∧
      (expireLocked capacity s now).countValues (fun e => now < e.pending.expiresAt) < capacity :=
      by
  unfold register at h
  dsimp only at h
  split_ifs at h with hdup hexp hfull
  rw [not_or, Option.not_isSome_iff_eq_none] at hdup
  exact ⟨hdup.1, not_le.mp hfull⟩

theorem Change.isExpired {ev : Event Value} {id : String} {e e' : Entry Value}
    (h : Change ev id e e') : e'.isExpired = e.isExpired := by
  cases h with
  | decided decision reason hquiet hnone hne =>
    simp [Entry.isExpired, hnone, hne]
  | _ => rfl

section Runs

variable [BEq Value]

theorem Bounded.perform {s : Registry Value} (call : Call Value) (h : Bounded call.capacity s) :
    Bounded call.capacity (perform s call).1 := by
  constructor
  · apply le_trans _ (oldest_purged call.capacity s call.now).room
    apply AList.countValues_le
    intro id e' he' hexp
    rcases perform_lookup he' with ⟨pending, -, -, rfl⟩ | ⟨-, e, he, hchange⟩
    · cases hexp
    · exact ⟨e, he, hchange.isExpired ▸ hexp⟩
  · by_cases hregistered : ∃ pending, (occurrence s call).registered = some pending
    · obtain ⟨capacity, now, op⟩ := call
      obtain ⟨pending, hregistered⟩ := hregistered
      cases op with
      | register requested =>
        rcases register_cases capacity s requested now with ⟨-, err, herr⟩ | ⟨hs, hok, -⟩
        · simp [occurrence, ApprovalRegistry.perform, Reply.of, Event.registered, herr]
            at hregistered
        · obtain ⟨hfresh, hroom⟩ := register_room hok
          have hlive := live_le_active capacity now s
          have hinsert := AList.countValues_insert_new (fun e : Entry Value => !e.isExpired)
            (freshEntry requested) hfresh
          have hlater : (!(freshEntry requested).isExpired) = true := rfl
          rw [if_pos hlater, ← hs] at hinsert
          show (register capacity s requested now).1.countValues _ ≤ capacity
          omega
      | _ => cases hregistered
    · apply le_trans _ ((live_expireLocked call.capacity call.now s).trans h.live)
      apply AList.countValues_le
      intro id e' he' hlive
      rcases perform_lookup he' with ⟨pending, hregistration, -⟩ | ⟨-, e, he, hchange⟩
      · exact absurd ⟨pending, hregistration⟩ hregistered
      · exact ⟨e, he, hchange.isExpired ▸ hlive⟩

def callsAt (capacity : ℕ) (ops : List (ℕ × Op Value)) : List (Call Value) :=
  ops.map fun entry => ⟨capacity, entry.1, entry.2⟩

theorem bounded_run (capacity : ℕ) (ops : List (ℕ × Op Value)) :
    Bounded capacity (run (callsAt capacity ops)).1 := by
  induction ops using List.reverseRecOn with
  | nil => exact ⟨Nat.zero_le _, Nat.zero_le _⟩
  | append_singleton ops entry ih =>
    rw [callsAt, map_append, map_singleton, ← callsAt, run_concat]
    exact Bounded.perform ⟨capacity, entry.1, entry.2⟩ ih

/-- The registry stays within twice its capacity, and half of that is for what has not expired. A
pass leaves no more expired requests than the capacity and removes those that expired first. -/
theorem registry_bounded (capacity : ℕ) (ops : List (ℕ × Op Value)) :
    (run (callsAt capacity ops)).1.entries.length ≤ 2 * capacity ∧
      (run (callsAt capacity ops)).1.countValues (fun e => !e.isExpired) ≤ capacity ∧
      ∀ now, OldestPurged capacity (run (callsAt capacity ops)).1 now :=
  ⟨(bounded_run capacity ops).length_le, (bounded_run capacity ops).live,
    fun now => oldest_purged capacity _ now⟩

end Runs

end ApprovalRegistry
