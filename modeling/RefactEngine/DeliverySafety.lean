import RefactEngine.DeliveryDrops

/-! # Every delivery is accounted for

An invariant of every history, and one of those that are careful about dropped and acknowledged ids.
-/
namespace AgentDeliveries

open List

section Recipients

variable {cfg : DeliverySettings}

open DeliveryLists

variable {lists : DeliveryLists}

theorem pendingIds_nodup (ht : lists.Tidy) : lists.pendingIds.Nodup := by
  rw [nodup_iff_count_le_one]
  intro id
  have hone := ht id
  unfold undelivered at hone
  omega

theorem supersededBy_subset (r : Recipient) (delivery : PendingDelivery) :
    ∀ id ∈ r.supersededBy delivery, id ∈ r.pendingIds := by
  intro id hmem
  unfold Recipient.supersededBy at hmem
  split_ifs at hmem with hkey
  · obtain ⟨pending, hpend, rfl⟩ := mem_map.mp hmem
    exact mem_map_of_mem (mem_of_mem_filter hpend)
  · cases hmem

theorem drops_pending (cfg : DeliverySettings) {ids : List Text} (status : DeliveryStatus)
    (ht : lists.Tidy) (hsub : ∀ id ∈ ids, id ∈ lists.pendingIds) :
    Drops lists ((lists.removePending ids).recordDroppedDeliveries cfg ids status) := by
  have hdrops := drops_removePending cfg (ids.map fun id => ⟨id, status⟩) ht (by
    rwa [map_id_records])
  rwa [map_id_records, ← recordDroppedDeliveries_eq] at hdrops

variable {r : Recipient}

theorem drops_expireDeliveries (cfg : DeliverySettings) (nowMs : ℕ) (ht : r.Tidy) :
    Drops r.toDeliveryLists (r.expireDeliveries cfg nowMs).toDeliveryLists := by
  apply drops_pending cfg .expired ht
  intro id hmem
  obtain ⟨pending, hpend, rfl⟩ := mem_map.mp hmem
  exact mem_map_of_mem (mem_of_mem_filter hpend)

theorem ensureTtlSecs_id (delivery : PendingDelivery) (nowMs ttlSecs : ℕ) :
    (delivery.ensureTtlSecs nowMs ttlSecs).id = delivery.id := by
  unfold PendingDelivery.ensureTtlSecs PendingDelivery.setTtlSecs
  dsimp only
  split_ifs <;> rfl

variable {id : Text}

theorem isKnown_eq_false (h : ¬ lists.isKnown id = true) : lists.occurrences id = 0 :=
  occurrences_of_isKnown (Bool.eq_false_iff.mpr h)

/-- The delivery is listed, and apart from that deliveries are only dropped. -/
def Lists (lists lists' : DeliveryLists) (id : Text) : Prop :=
  ∃ mid admitted, Drops lists mid ∧ Admits mid admitted id ∧ Drops admitted lists'

variable {receipt : AgentMessageReceipt} {r' : Recipient}

theorem lists_acceptFollowup {followupBytes : PendingDelivery → ℕ} {delivery : PendingDelivery}
    (ht : r.Tidy) (hnew : r.occurrences delivery.id = 0)
    (h : r.acceptFollowup cfg followupBytes delivery = .ok (r', receipt)) :
    r' = r.withLists r'.toDeliveryLists ∧ receipt.outcome = .queued ∧
      Lists r.toDeliveryLists r'.toDeliveryLists delivery.id := by
  unfold Recipient.acceptFollowup at h
  split_ifs at h with hbytes
  cases h
  have hadmits := admits_followup r.toDeliveryLists delivery
  exact ⟨rfl, rfl, _, _, .refl _, hadmits,
    drops_trimFollowups cfg followupBytes (hadmits.tidy hnew ht)⟩

theorem lists_acceptPending {delivery : PendingDelivery} (ht : r.Tidy)
    (h : r.acceptPending cfg delivery = .ok (r', receipt)) :
    r' = r.withLists r'.toDeliveryLists ∧ receipt.outcome = .queued ∧
      Lists r.toDeliveryLists r'.toDeliveryLists delivery.id := by
  unfold Recipient.acceptPending at h
  dsimp only at h
  split_ifs at h with hfull
  cases h
  exact ⟨rfl, rfl, _, _,
    drops_pending cfg .superseded ht (supersededBy_subset r delivery), admits_pending _ delivery,
    .refl _⟩

theorem lists_recordDroppedDelivery (cfg : DeliverySettings) (delivery : PendingDelivery)
    (status : DeliveryStatus) (ht : lists.Tidy) (hnew : lists.occurrences delivery.id = 0) :
    Lists lists (lists.recordDroppedDelivery cfg delivery.id status) delivery.id := by
  have hadmits := admits_pending lists delivery
  refine ⟨_, _, .refl _, hadmits, ?_⟩
  refine drops_moved _ lists [⟨delivery.id, status⟩] (hadmits.tidy hnew ht) (fun id => ?_) rfl rfl
    rfl
  rw [hadmits.undelivered, map_singleton, count_singleton]
  simp only [beq_iff_eq, eq_comm (a := delivery.id)]
  exact Nat.add_comm _ _

theorem accounted_relist (id : Text) {a : Text} (h : lists.Accounted a) :
    a = id ∨ (lists.relist id).Accounted a := by
  by_cases heq : a = id
  · exact .inl heq
  · refine .inr (h.imp_right fun hout => ?_)
    exact mem_filter.mpr ⟨hout, by simpa using heq⟩

/-- A known id is a duplicate. Otherwise the delivery is listed, and for a live agent the turn of
its runner is not over. -/
theorem enqueueDelivery_cases {followupBytes : PendingDelivery → ℕ} {delivery : PendingDelivery}
    {allowFollowup : Bool} {nowMs : ℕ} (ht : r.Tidy)
    (h : r.enqueueDelivery cfg followupBytes delivery allowFollowup nowMs = .ok (r', receipt)) :
    (r' = r ∧ receipt.outcome = .duplicate ∧ r.isKnown delivery.id = true) ∨
    (r.isKnown delivery.id = false ∧ r' = r.withLists r'.toDeliveryLists ∧
      (receipt.outcome = .queued ∨ receipt.outcome = .expired) ∧
      (r.status.isTerminal = false → r.runtime.any (·.sealed) = false) ∧
      Lists (r.relist delivery.id) r'.toDeliveryLists delivery.id) := by
  have hid : ∀ ttlSecs, (delivery.ensureTtlSecs nowMs ttlSecs).id = delivery.id :=
    fun ttlSecs => ensureTtlSecs_id delivery nowMs ttlSecs
  unfold Recipient.enqueueDelivery at h
  dsimp only at h
  rw [hid] at h
  split_ifs at h with hknown hfinished hidle hsealed hexp hterm
  · cases h
    exact .inl ⟨rfl, rfl, hknown⟩
  · cases h
    refine .inr ⟨Bool.eq_false_iff.mpr hknown, rfl, .inr rfl, fun hlive => ?_, ?_⟩
    · simpa [hlive] using hsealed
    · exact lists_recordDroppedDelivery cfg delivery .expired ht (isKnown_eq_false hknown)
  · obtain ⟨hsame, hqueued, hlists⟩ :=
      lists_acceptFollowup (r := r.withLists (r.relist delivery.id)) ht
        ((congrArg _ (hid _)).trans (isKnown_eq_false hknown)) h
    rw [hid] at hlists
    refine .inr ⟨Bool.eq_false_iff.mpr hknown, hsame, .inl hqueued, fun hlive => ?_, hlists⟩
    rw [hterm] at hlive
    cases hlive
  · obtain ⟨hsame, hqueued, hlists⟩ :=
      lists_acceptPending (r := r.withLists (r.relist delivery.id)) ht h
    rw [hid] at hlists
    refine .inr ⟨Bool.eq_false_iff.mpr hknown, hsame, .inl hqueued, fun hlive => ?_, hlists⟩
    simpa [hlive] using hsealed

variable {lists' : DeliveryLists}

theorem Lists.tidy (h : Lists lists lists' id) (hnew : lists.occurrences id = 0) (ht : lists.Tidy) :
    lists'.Tidy := by
  obtain ⟨mid, admitted, hmid, hadmits, hdrops⟩ := h
  exact hdrops.tidy (hadmits.tidy (hmid.occurrences_eq_zero hnew) (hmid.tidy ht))

theorem Lists.exclusive (h : Lists lists lists' id) (hnew : lists.occurrences id = 0)
    (he : lists.Exclusive) : lists'.Exclusive := by
  obtain ⟨mid, admitted, hmid, hadmits, hdrops⟩ := h
  exact hdrops.exclusive (hadmits.exclusive (hmid.occurrences_eq_zero hnew) (hmid.exclusive he))

theorem Lists.spared {ids : List Text} (h : Lists lists lists' id) (hnew : id ∉ ids)
    (hs : lists.Spared ids) : lists'.Spared ids := by
  obtain ⟨mid, admitted, hmid, hadmits, hdrops⟩ := h
  exact hdrops.spared (hadmits.spared hnew (hmid.spared hs))

theorem Lists.accounted {a : Text} (h : Lists lists lists' id) (ha : a = id ∨ lists.Accounted a) :
    lists'.Accounted a := by
  obtain ⟨mid, admitted, hmid, hadmits, hdrops⟩ := h
  exact hdrops.accounted a (hadmits.accounted (ha.imp_right (hmid.accounted a)))

theorem map_push_id (pending : List PendingDelivery) (id : Text) (push : PushMode) :
    (pending.replaceF fun delivery =>
      if delivery.id = id then some { delivery with push := push } else none).map (·.id) =
      pending.map (·.id) := by
  induction pending with
  | nil => rfl
  | cons delivery rest ih =>
    rw [replaceF_cons]
    by_cases heq : delivery.id = id
    · simp [heq]
    · simp only [if_neg heq, map_cons, ih]

theorem drops_updatePendingDelivery {push : Option PushMode} {cancel : Bool} (ht : r.Tidy)
    (h : r.updatePendingDelivery cfg id push cancel = .ok r') :
    r' = r.withLists r'.toDeliveryLists ∧ Drops r.toDeliveryLists r'.toDeliveryLists ∧
      ∀ a ∈ r'.pendingIds, a ∈ r.pendingIds := by
  unfold Recipient.updatePendingDelivery at h
  split_ifs at h with hclaimed
  cases hupd : r.toDeliveryLists.updatePendingDelivery cfg id push cancel with
  | error message =>
    rw [hupd] at h
    cases h
  | ok lists =>
    rw [hupd] at h
    cases h
    refine ⟨rfl, ?_⟩
    change Drops r.toDeliveryLists lists ∧ ∀ a ∈ lists.pendingIds, a ∈ r.pendingIds
    unfold DeliveryLists.updatePendingDelivery at hupd
    cases hfind : r.pendingDeliveries.find? (·.id = id) with
    | none =>
      rw [hfind] at hupd
      cases hupd
    | some delivery =>
      simp only [hfind] at hupd
      have hid : delivery.id = id := by simpa using List.find?_some hfind
      have hmem : id ∈ r.pendingIds := hid ▸ mem_map_of_mem (List.mem_of_find?_eq_some hfind)
      split_ifs at hupd with hcancel
      · cases hupd
        rw [hid]
        exact ⟨drops_cancel .failed ht hmem, fun a ha => ((eraseP_sublist).map _).mem ha⟩
      · cases push with
        | none =>
          cases hupd
          exact ⟨.refl _, fun _ ha => ha⟩
        | some push =>
          cases hupd
          have hids := map_push_id r.pendingDeliveries id push
          have hsame : ∀ a, ({ r.toDeliveryLists with
              pendingDeliveries := r.pendingDeliveries.replaceF (fun delivery =>
                if delivery.id = id then some { delivery with push := push } else none) } :
              DeliveryLists).undelivered a = r.undelivered a := by
            intro a
            rw [undelivered, undelivered, pendingIds, hids]
            rfl
          refine ⟨⟨fun a => (hsame a).le, fun _ => le_rfl, fun _ => .inl le_rfl,
            fun _ hd => .inl hd, fun a ha => ha.imp_left fun hpos => ?_⟩, fun a ha => ?_⟩
          · unfold occurrences at hpos ⊢
            rw [hsame]
            exact hpos
          · rw [pendingIds, ← hids]
            exact ha

theorem expireDeliveries_subset (cfg : DeliverySettings) (r : Recipient) (nowMs : ℕ) :
    ∀ a ∈ (r.expireDeliveries cfg nowMs).pendingIds, a ∈ r.pendingIds := by
  intro a hmem
  unfold Recipient.expireDeliveries at hmem
  dsimp only at hmem
  rw [recordDroppedDeliveries_eq] at hmem
  change a ∈ (recordAll cfg _ _).pendingDeliveries.map (·.id) at hmem
  rw [recordAll_pendingDeliveries] at hmem
  exact ((filter_sublist).map _).mem hmem

theorem claimPendingDeliveries_cases (cfg : DeliverySettings) (r : Recipient) (sealing : Bool)
    (wanted : PendingDelivery → Bool) (nowMs : ℕ) :
    (∃ message, (r.claimPendingDeliveries cfg sealing wanted nowMs = (r, .error message) ∨
      r.claimPendingDeliveries cfg sealing wanted nowMs =
        (r.expireDeliveries cfg nowMs, .error message))) ∨
    r.status.isTerminal = false ∧ ∃ state deliveries, r.runtime = some state ∧
      deliveries = (r.expireDeliveries cfg nowMs).pendingDeliveries.filter (fun delivery =>
        wanted delivery && decide (delivery.id ∉ state.claimed)) ∧
      r.claimPendingDeliveries cfg sealing wanted nowMs =
        ({ r.expireDeliveries cfg nowMs with
          runtime := some ⟨state.claimed ++ deliveries.map (·.id),
            if sealing then !deliveries.any (·.wake) else state.sealed⟩ }, .ok deliveries) := by
  unfold Recipient.claimPendingDeliveries
  cases hrun : r.runtime with
  | none => exact .inl ⟨_, .inl rfl⟩
  | some state =>
    dsimp only
    by_cases hterm : r.status.isTerminal = true
    · have hcur : (r.expireDeliveries cfg nowMs).status.isTerminal = true := hterm
      rw [if_pos hcur]
      exact .inl ⟨_, .inr rfl⟩
    · have hcur : ¬ (r.expireDeliveries cfg nowMs).status.isTerminal = true := hterm
      rw [if_neg hcur]
      exact .inr ⟨Bool.eq_false_iff.mpr hterm, state, _, rfl, rfl, rfl⟩

end Recipients

open DeliveryLists

structure Sound (h : History) : Prop where
  tidy : h.recipient.Tidy
  accepted : ∀ id ∈ h.accepted, h.recipient.Accounted id
  given_nodup : h.given.Nodup
  given_claimed : ∀ given ∈ h.given, given.1 ≤ h.recipient.runGeneration ∧
    (given.1 = h.recipient.runGeneration → ∀ state, h.recipient.runtime = some state →
      given.2 ∈ state.claimed)
  ended : h.turnOver = true → h.recipient.status.isTerminal = false ∧
    ∃ state, h.recipient.runtime = some state ∧ state.sealed = true ∧
      ∀ id ∈ h.recipient.pendingIds, id ∈ state.claimed

/-- What holds besides, while no dropped delivery is acknowledged and no acknowledged one dropped.
-/
structure Clean (h : History) : Prop where
  exclusive : h.recipient.Exclusive
  spared : h.recipient.Spared h.acknowledged

section Steps

variable {cfg : DeliverySettings} {followupBytes : PendingDelivery → ℕ} {h : History}

theorem Sound.withLists (hs : Sound h) {lists : DeliveryLists} (ht : lists.Tidy)
    (haccounted : ∀ id, h.recipient.Accounted id → lists.Accounted id)
    (hsub : h.turnOver = true → ∀ id ∈ lists.pendingIds, id ∈ h.recipient.pendingIds) :
    Sound (h.withRecipient (h.recipient.withLists lists)) where
  tidy := ht
  accepted id hmem := haccounted id (hs.accepted id hmem)
  given_nodup := hs.given_nodup
  given_claimed := hs.given_claimed
  ended hover := by
    obtain ⟨hlive, state, hrun, hsealed, hclaimed⟩ := hs.ended hover
    exact ⟨hlive, state, hrun, hsealed, fun id hmem => hclaimed id (hsub hover id hmem)⟩

theorem Sound.withDrops (hs : Sound h) {lists : DeliveryLists}
    (hdrops : Drops h.recipient.toDeliveryLists lists)
    (hsub : h.turnOver = true → ∀ id ∈ lists.pendingIds, id ∈ h.recipient.pendingIds) :
    Sound (h.withRecipient (h.recipient.withLists lists)) :=
  hs.withLists (hdrops.tidy hs.tidy) hdrops.accounted hsub

theorem sound_enqueue (hs : Sound h) (delivery : PendingDelivery) (allowFollowup : Bool)
    (nowMs : ℕ) : Sound (step cfg followupBytes h (.enqueue delivery allowFollowup nowMs)) := by
  cases henqueue : h.recipient.enqueueDelivery cfg followupBytes delivery allowFollowup nowMs with
  | error message => simpa [step, henqueue] using hs
  | ok answer =>
    obtain ⟨recipient, receipt⟩ := answer
    have hstep : step cfg followupBytes h (.enqueue delivery allowFollowup nowMs) =
        h.accept delivery.id recipient receipt := by
      simp [step, henqueue]
    rw [hstep]
    rcases enqueueDelivery_cases hs.tidy henqueue with
      ⟨rfl, hdup, -⟩ | ⟨hunk, hsame, -, hopen, hlists⟩
    · simpa [History.accept, hdup] using hs
    · have hnew := occurrences_of_isKnown hunk
      -- a sealed turn refuses, so it is not over
      have hnotOver : ¬ h.turnOver = true := by
        intro hover
        obtain ⟨hlive, state, hrun, hsealed, -⟩ := hs.ended hover
        have hfalse := hopen hlive
        rw [hrun, Option.any_some, hsealed] at hfalse
        cases hfalse
      have hbase : Sound (h.withRecipient (h.recipient.withLists recipient.toDeliveryLists)) :=
        hs.withLists (hlists.tidy hnew hs.tidy)
          (fun id ha => hlists.accounted (accounted_relist delivery.id ha))
          (fun hover => absurd hover hnotOver)
      rw [← hsame] at hbase
      refine ⟨hbase.tidy, fun id hmem => ?_, hbase.given_nodup, hbase.given_claimed,
        fun hover => absurd hover hnotOver⟩
      unfold History.accept at hmem
      dsimp only at hmem
      split_ifs at hmem with hqueued
      · rcases mem_append.mp hmem with hold | hlast
        · exact hbase.accepted id hold
        · rw [mem_singleton.mp hlast]
          exact hlists.accounted (.inl rfl)
      · exact hbase.accepted id hmem

theorem clean_enqueue (hs : Sound h) (hc : Clean h) {delivery : PendingDelivery}
    (hcareful : delivery.id ∈ h.acknowledged → h.recipient.isKnown delivery.id = true)
    (allowFollowup : Bool) (nowMs : ℕ) :
    Clean (step cfg followupBytes h (.enqueue delivery allowFollowup nowMs)) := by
  cases henqueue : h.recipient.enqueueDelivery cfg followupBytes delivery allowFollowup nowMs with
  | error message => simpa [step, henqueue] using hc
  | ok answer =>
    obtain ⟨recipient, receipt⟩ := answer
    have hstep : step cfg followupBytes h (.enqueue delivery allowFollowup nowMs) =
        h.accept delivery.id recipient receipt := by
      simp [step, henqueue]
    rw [hstep]
    rcases enqueueDelivery_cases hs.tidy henqueue with
      ⟨rfl, -, -⟩ | ⟨hunk, -, -, -, hlists⟩
    · exact ⟨hc.exclusive, hc.spared⟩
    · have hnew := occurrences_of_isKnown hunk
      have hfresh : delivery.id ∉ h.acknowledged := by
        intro hmem
        rw [hcareful hmem] at hunk
        cases hunk
      exact ⟨hlists.exclusive hnew hc.exclusive, hlists.spared hfresh hc.spared⟩

theorem Sound.give (hs : Sound h) (nowMs : ℕ) (wanted : PendingDelivery → Bool)
    {state : RunnerDeliveryState} (hruntime : h.recipient.runtime = some state)
    {deliveries : List PendingDelivery} (sealed : Bool)
    (hdels : deliveries = (h.recipient.expireDeliveries cfg nowMs).pendingDeliveries.filter
      (fun delivery => wanted delivery && decide (delivery.id ∉ state.claimed)))
    (hover : h.turnOver = true → sealed = true) :
    Sound (h.give { h.recipient.expireDeliveries cfg nowMs with
      runtime := some ⟨state.claimed ++ deliveries.map (·.id), sealed⟩ } deliveries) := by
  have hdrops := drops_expireDeliveries cfg nowMs hs.tidy
  have hsub : ∀ id ∈ deliveries.map (·.id),
      id ∈ (h.recipient.expireDeliveries cfg nowMs).pendingIds := by
    intro id hmem
    obtain ⟨delivery, hdel, rfl⟩ := mem_map.mp hmem
    rw [hdels] at hdel
    exact mem_map_of_mem (mem_of_mem_filter hdel)
  have hunclaimed : ∀ id ∈ deliveries.map (·.id), id ∉ state.claimed := by
    intro id hmem
    obtain ⟨delivery, hdel, rfl⟩ := mem_map.mp hmem
    rw [hdels] at hdel
    simpa using (Bool.and_eq_true_iff.mp (mem_filter.mp hdel).2).2
  have hnodup : (deliveries.map (·.id)).Nodup := by
    refine List.Nodup.sublist ?_ (pendingIds_nodup (hdrops.tidy hs.tidy))
    rw [hdels]
    exact filter_sublist.map _
  refine ⟨hdrops.tidy hs.tidy, fun id hmem => hdrops.accounted id (hs.accepted id hmem), ?_, ?_, ?_⟩
  · refine List.Nodup.append hs.given_nodup ?_ ?_
    · have hpair : (deliveries.map fun delivery => (h.recipient.runGeneration, delivery.id)) =
          (deliveries.map (·.id)).map fun id => (h.recipient.runGeneration, id) := by
        rw [map_map]
        rfl
      rw [hpair]
      exact hnodup.map fun a b heq => (Prod.mk.inj heq).2
    · intro given hold hnew
      obtain ⟨delivery, hdel, rfl⟩ := mem_map.mp hnew
      exact hunclaimed delivery.id (mem_map_of_mem hdel)
        ((hs.given_claimed _ hold).2 rfl state hruntime)
  · intro given hmem
    rcases mem_append.mp hmem with hold | hnew
    · refine ⟨(hs.given_claimed given hold).1, fun hrun current hcur => ?_⟩
      obtain rfl := Option.some.inj hcur
      exact mem_append_left _ ((hs.given_claimed given hold).2 hrun state hruntime)
    · obtain ⟨delivery, hdel, rfl⟩ := mem_map.mp hnew
      refine ⟨le_rfl, fun _ current hcur => ?_⟩
      obtain rfl := Option.some.inj hcur
      exact mem_append_right _ (mem_map_of_mem hdel)
  · intro hturn
    obtain ⟨hlive, old, hold, -, hclaimed⟩ := hs.ended hturn
    obtain rfl := Option.some.inj (hold.symm.trans hruntime)
    refine ⟨hlive, _, rfl, hover hturn, fun id hmem => mem_append_left _ (hclaimed id ?_)⟩
    exact expireDeliveries_subset cfg h.recipient nowMs id hmem

theorem sound_expire (cfg : DeliverySettings) (hs : Sound h) (nowMs : ℕ) :
    Sound (h.withRecipient (h.recipient.expireDeliveries cfg nowMs)) :=
  hs.withDrops (drops_expireDeliveries cfg nowMs hs.tidy)
    fun _ => expireDeliveries_subset cfg h.recipient nowMs

theorem sound_drain (hs : Sound h) (idle : Bool) (nowMs : ℕ) :
    Sound (step cfg followupBytes h (.drain idle nowMs)) := by
  rcases claimPendingDeliveries_cases cfg h.recipient false
      (fun delivery => idle || delivery.push ≠ .whenIdle) nowMs with
    ⟨message, href | href⟩ | ⟨-, state, deliveries, hrun, hdels, hclaim⟩
  · simp only [step, Recipient.drainDeliveries, href]
    exact hs
  · simp only [step, Recipient.drainDeliveries, href]
    exact sound_expire cfg hs nowMs
  · simp only [step, Recipient.drainDeliveries, hclaim]
    refine hs.give nowMs _ hrun state.sealed hdels fun hover => ?_
    obtain ⟨-, old, hold, hsealed, -⟩ := hs.ended hover
    obtain rfl := Option.some.inj (hold.symm.trans hrun)
    exact hsealed

theorem sound_finishTurn (hs : Sound h) (nowMs : ℕ) :
    Sound (step cfg followupBytes h (.finishTurn nowMs)) := by
  rcases claimPendingDeliveries_cases cfg h.recipient true (fun _ => true) nowMs with
    ⟨message, href | href⟩ | ⟨hlive, state, deliveries, hrun, hdels, hclaim⟩
  · simp only [step, Recipient.finishDeliveryTurn, href]
    exact hs
  · simp only [step, Recipient.finishDeliveryTurn, href]
    exact sound_expire cfg hs nowMs
  · have hstep : step cfg followupBytes h (.finishTurn nowMs) =
        { h.give { h.recipient.expireDeliveries cfg nowMs with
            runtime := some ⟨state.claimed ++ deliveries.map (·.id), !deliveries.any (·.wake)⟩ }
            deliveries with
          turnOver := h.turnOver || !deliveries.any (·.wake) } := by
      simp [step, Recipient.finishDeliveryTurn, hclaim]
    have hall : ∀ id ∈ (h.recipient.expireDeliveries cfg nowMs).pendingIds,
        id ∈ state.claimed ++ deliveries.map (·.id) := by
      intro id hmem
      by_cases hclaimed : id ∈ state.claimed
      · exact mem_append_left _ hclaimed
      · obtain ⟨delivery, hdel, rfl⟩ := mem_map.mp hmem
        refine mem_append_right _ (mem_map_of_mem ?_)
        rw [hdels]
        exact mem_filter.mpr ⟨hdel, by simpa using hclaimed⟩
    have hquiet : h.turnOver = true → (!deliveries.any (·.wake)) = true := by
      intro hover
      -- all that is pending was claimed before, so nothing is left that could wake the runner
      obtain ⟨-, old, hold, -, hclaimed⟩ := hs.ended hover
      obtain rfl := Option.some.inj (hold.symm.trans hrun)
      have hnone : deliveries = [] := by
        rw [hdels, filter_eq_nil_iff]
        intro delivery hdel
        have hmem := expireDeliveries_subset cfg h.recipient nowMs delivery.id
          (mem_map_of_mem hdel)
        simpa using hclaimed delivery.id hmem
      rw [hnone]
      rfl
    have hgive := hs.give nowMs _ hrun (!deliveries.any (·.wake)) hdels hquiet
    rw [hstep]
    refine ⟨hgive.tidy, hgive.accepted, hgive.given_nodup, hgive.given_claimed, fun hover => ?_⟩
    refine ⟨hlive, _, rfl, ?_, hall⟩
    rcases Bool.or_eq_true_iff.mp hover with hturn | hwake
    · exact hquiet hturn
    · exact hwake

theorem sound_update (hs : Sound h) (id : Text) (push : Option PushMode) (cancel : Bool) :
    Sound (step cfg followupBytes h (.update id push cancel)) := by
  cases hupd : h.recipient.updatePendingDelivery cfg id push cancel with
  | error message => simpa [step, hupd] using hs
  | ok recipient =>
    obtain ⟨hsame, hdrops, hsub⟩ := drops_updatePendingDelivery hs.tidy hupd
    simp only [step, hupd]
    rw [hsame]
    exact hs.withDrops hdrops fun _ => hsub

variable (lists : DeliveryLists)

theorem sound_acknowledge (hs : Sound h) (id : Text) :
    Sound (step cfg followupBytes h (.acknowledge id)) := by
  have hbase := @Sound.withLists h hs (h.recipient.acknowledgeDelivery cfg id)
    (tidy_acknowledgeDelivery id hs.tidy)
    (fun _ ha => accounted_acknowledgeDelivery id ha)
    fun _ _ hmem => (filter_sublist.map _).mem hmem
  exact ⟨hbase.tidy, hbase.accepted, hbase.given_nodup, hbase.given_claimed, hbase.ended⟩

theorem Sound.settleDeliveryId (cfg : DeliverySettings) (hs : Sound h) (id : Text)
    (status : DeliveryStatus) :
    Sound (h.withRecipient (h.recipient.withLists
      (h.recipient.settleDeliveryId cfg id status))) :=
  hs.withLists (tidy_settleDeliveryId id status hs.tidy)
    (fun _ ha => accounted_settleDeliveryId id status ha)
    fun _ _ hmem => (filter_sublist.map _).mem hmem

theorem step_consume_cases (cfg : DeliverySettings) (followupBytes : PendingDelivery → ℕ)
    (h : History) (id : Text) :
    step cfg followupBytes h (.consume id) = h ∨ step cfg followupBytes h (.consume id) =
      h.withRecipient (h.recipient.withLists (h.recipient.settleDeliveryId cfg id .consumed)) := by
  simp only [step, DeliveryLists.consumeDelivery]
  split_ifs
  · exact .inl rfl
  · exact .inr rfl

theorem step_recordStatus_cases (cfg : DeliverySettings) (followupBytes : PendingDelivery → ℕ)
    (h : History) (id : Text) (status : DeliveryStatus) :
    step cfg followupBytes h (.recordStatus id status) = h ∨
      step cfg followupBytes h (.recordStatus id status) =
        h.withRecipient (h.recipient.withLists (h.recipient.settleDeliveryId cfg id status)) := by
  cases status <;> first | exact .inl rfl | exact .inr rfl

theorem sound_consume (hs : Sound h) (id : Text) :
    Sound (step cfg followupBytes h (.consume id)) := by
  rcases step_consume_cases cfg followupBytes h id with hstep | hstep
  · rw [hstep]
    exact hs
  · rw [hstep]
    exact hs.settleDeliveryId cfg id .consumed

theorem sound_recordStatus (hs : Sound h) (id : Text) (status : DeliveryStatus) :
    Sound (step cfg followupBytes h (.recordStatus id status)) := by
  rcases step_recordStatus_cases cfg followupBytes h id status with hstep | hstep
  · rw [hstep]
    exact hs
  · rw [hstep]
    exact hs.settleDeliveryId cfg id status

theorem settle_cases (cfg : DeliverySettings) (followupBytes : PendingDelivery → ℕ) (r : Recipient)
    (status : BgAgentStatus) (nowMs : ℕ) :
    r.settle cfg followupBytes status nowMs = r ∨
      status.isTerminal = true ∧ r.settle cfg followupBytes status nowMs =
        { r.withLists (r.settleTerminal cfg followupBytes nowMs) with status := status } := by
  unfold Recipient.settle
  split_ifs with hskip
  · exact .inl rfl
  · refine .inr ⟨?_, rfl⟩
    cases hstat : status.isTerminal with
    | true => rfl
    | false => simp [hstat] at hskip

theorem sound_settle (hs : Sound h) (status : BgAgentStatus) (nowMs : ℕ) :
    Sound (step cfg followupBytes h (.settle status nowMs)) := by
  rcases settle_cases cfg followupBytes h.recipient status nowMs with hskip | ⟨hterm, hsettle⟩
  · simp only [step, hskip]
    refine ⟨hs.tidy, hs.accepted, hs.given_nodup, hs.given_claimed, fun hover => ?_⟩
    exact hs.ended (Bool.and_eq_true_iff.mp hover).1
  · have hdrops := @drops_settleTerminal cfg _ followupBytes nowMs hs.tidy
    simp only [step, hsettle]
    refine ⟨hdrops.tidy hs.tidy, fun id hmem => hdrops.accounted id (hs.accepted id hmem),
      hs.given_nodup, hs.given_claimed, fun hover => ?_⟩
    simp [hterm] at hover

theorem sound_retire (hs : Sound h) : Sound (step cfg followupBytes h .retire) := by
  unfold step Recipient.retireRuntime
  split_ifs with hterm
  · refine ⟨hs.tidy, hs.accepted, hs.given_nodup, fun given hmem => ?_, fun hover => ?_⟩
    · exact ⟨(hs.given_claimed given hmem).1, fun _ state hstate => by cases hstate⟩
    · rw [(hs.ended hover).1] at hterm
      cases hterm
  · exact hs

theorem undelivered_reopen (id : Text) : lists.reopen.undelivered id = lists.undelivered id := by
  unfold undelivered pendingIds followupIds DeliveryLists.reopen
  rw [map_append, count_append, map_nil, count_nil, Nat.add_zero]
  exact Nat.add_comm _ _

theorem drops_reopen : Drops lists lists.reopen where
  undelivered id := (undelivered_reopen lists id).le
  delivered _ := le_rfl
  dropped _ := .inl le_rfl
  records _ hmem := .inl hmem
  accounted id ha := by
    refine ha.imp_left fun hpos => ?_
    unfold occurrences at hpos ⊢
    rw [undelivered_reopen]
    exact hpos

theorem sound_reopen (hs : Sound h) : Sound (step cfg followupBytes h .reopen) := by
  have hdrops := drops_reopen h.recipient.toDeliveryLists
  unfold step Recipient.reopen
  split_ifs with hfinished
  · refine ⟨hdrops.tidy hs.tidy, fun id hmem => hdrops.accounted id (hs.accepted id hmem),
      hs.given_nodup, fun given hmem => ?_, fun hover => ?_⟩
    · -- a new run has been given nothing
      have hle := (hs.given_claimed given hmem).1
      refine ⟨Nat.le_succ_of_le hle, fun heq => ?_⟩
      change given.1 = h.recipient.runGeneration + 1 at heq
      omega
    · rw [(hs.ended hover).1] at hfinished
      cases hfinished
  · exact hs

theorem drops_restart (cfg : DeliverySettings) (followupBytes : PendingDelivery → ℕ)
    {r : Recipient} (nowMs : ℕ) (ht : r.Tidy) :
    Drops r.toDeliveryLists (r.restart cfg followupBytes nowMs).toDeliveryLists := by
  have hnormalize := @drops_normalizeDeliveryState cfg _ followupBytes nowMs ht
  exact hnormalize.trans (drops_settleTerminal followupBytes nowMs (hnormalize.tidy ht))

theorem sound_restart (hs : Sound h) (nowMs : ℕ) :
    Sound (step cfg followupBytes h (.restart nowMs)) := by
  have hdrops := drops_restart cfg followupBytes nowMs hs.tidy
  refine ⟨hdrops.tidy hs.tidy, fun id hmem => hdrops.accounted id (hs.accepted id hmem),
    hs.given_nodup, fun given hmem => ?_, fun hover => by cases hover⟩
  exact ⟨(hs.given_claimed given hmem).1, fun _ state hstate => by cases hstate⟩

theorem sound_step (hs : Sound h) (event : Event) : Sound (step cfg followupBytes h event) := by
  cases event with
  | enqueue delivery allowFollowup nowMs => exact sound_enqueue hs delivery allowFollowup nowMs
  | update id push cancel => exact sound_update hs id push cancel
  | drain idle nowMs => exact sound_drain hs idle nowMs
  | finishTurn nowMs => exact sound_finishTurn hs nowMs
  | acknowledge id => exact sound_acknowledge hs id
  | consume id => exact sound_consume hs id
  | recordStatus id status => exact sound_recordStatus hs id status
  | settle status nowMs => exact sound_settle hs status nowMs
  | retire => exact sound_retire hs
  | reopen => exact sound_reopen hs
  | restart nowMs => exact sound_restart hs nowMs

theorem sound_run (hs : Sound h) (events : List Event) :
    Sound (run cfg followupBytes h events) := by
  induction events generalizing h with
  | nil => exact hs
  | cons event events ih => exact ih (sound_step hs event)

theorem Clean.withDrops (hc : Clean h) {h' : History}
    (hdrops : Drops h.recipient.toDeliveryLists h'.recipient.toDeliveryLists)
    (hacknowledged : h'.acknowledged = h.acknowledged) : Clean h' := by
  refine ⟨hdrops.exclusive hc.exclusive, ?_⟩
  rw [hacknowledged]
  exact hdrops.spared hc.spared

theorem clean_update (hs : Sound h) (hc : Clean h) (id : Text) (push : Option PushMode)
    (cancel : Bool) : Clean (step cfg followupBytes h (.update id push cancel)) := by
  cases hupd : h.recipient.updatePendingDelivery cfg id push cancel with
  | error message => simpa [step, hupd] using hc
  | ok recipient =>
    obtain ⟨-, hdrops, -⟩ := drops_updatePendingDelivery hs.tidy hupd
    simp only [step, hupd]
    exact hc.withDrops hdrops rfl

theorem drops_claimPendingDeliveries (cfg : DeliverySettings) {r : Recipient} (sealing : Bool)
    (wanted : PendingDelivery → Bool) (nowMs : ℕ) (ht : r.Tidy) :
    Drops r.toDeliveryLists
      (r.claimPendingDeliveries cfg sealing wanted nowMs).1.toDeliveryLists := by
  have hexpire := drops_expireDeliveries cfg nowMs ht
  rcases claimPendingDeliveries_cases cfg r sealing wanted nowMs with
    ⟨message, href | href⟩ | ⟨-, state, deliveries, -, -, hclaim⟩
  · rw [href]
    exact .refl _
  · rw [href]
    exact hexpire
  · rw [hclaim]
    exact hexpire

theorem clean_drain (hs : Sound h) (hc : Clean h) (idle : Bool) (nowMs : ℕ) :
    Clean (step cfg followupBytes h (.drain idle nowMs)) := by
  have hdrops := drops_claimPendingDeliveries cfg false
    (fun delivery => idle || delivery.push ≠ .whenIdle) nowMs hs.tidy
  simp only [step, Recipient.drainDeliveries]
  split <;> rename_i hclaim <;> rw [hclaim] at hdrops
  · exact hc.withDrops hdrops rfl
  · exact hc.withDrops hdrops rfl

theorem clean_finishTurn (hs : Sound h) (hc : Clean h) (nowMs : ℕ) :
    Clean (step cfg followupBytes h (.finishTurn nowMs)) := by
  have hdrops := drops_claimPendingDeliveries cfg true (fun _ => true) nowMs hs.tidy
  simp only [step, Recipient.finishDeliveryTurn]
  split <;> rename_i hclaim <;> rw [hclaim] at hdrops
  · exact hc.withDrops hdrops rfl
  · exact hc.withDrops hdrops rfl

theorem clean_acknowledge (hc : Clean h) {id : Text} (hcareful : id ∉ h.recipient.droppedIds) :
    Clean (step cfg followupBytes h (.acknowledge id)) :=
  ⟨exclusive_acknowledgeDelivery hcareful hc.exclusive,
    spared_acknowledgeDelivery hcareful hc.spared⟩

variable {status : DeliveryStatus}

theorem Clean.settleDeliveryId (cfg : DeliverySettings) (hc : Clean h) {id : Text}
    (hstat : id ∈ h.acknowledged → status = .consumed ∨ status = .sealed) :
    Clean (h.withRecipient (h.recipient.withLists
      (h.recipient.settleDeliveryId cfg id status))) :=
  ⟨exclusive_settleDeliveryId id status hc.exclusive, spared_settleDeliveryId hstat hc.spared⟩

theorem clean_consume (hc : Clean h) (id : Text) :
    Clean (step cfg followupBytes h (.consume id)) := by
  rcases step_consume_cases cfg followupBytes h id with hstep | hstep
  · rw [hstep]
    exact hc
  · rw [hstep]
    exact hc.settleDeliveryId cfg fun _ => .inl rfl

theorem clean_recordStatus (hc : Clean h) {id : Text}
    (hcareful : id ∈ h.acknowledged → status = .consumed ∨ status = .sealed) :
    Clean (step cfg followupBytes h (.recordStatus id status)) := by
  rcases step_recordStatus_cases cfg followupBytes h id status with hstep | hstep
  · rw [hstep]
    exact hc
  · rw [hstep]
    exact hc.settleDeliveryId cfg hcareful

theorem clean_settle (hs : Sound h) (hc : Clean h) (status : BgAgentStatus) (nowMs : ℕ) :
    Clean (step cfg followupBytes h (.settle status nowMs)) := by
  rcases settle_cases cfg followupBytes h.recipient status nowMs with hskip | ⟨-, hsettle⟩
  · simp only [step, hskip]
    exact ⟨hc.exclusive, hc.spared⟩
  · simp only [step, hsettle]
    exact hc.withDrops (drops_settleTerminal followupBytes nowMs hs.tidy) rfl

theorem clean_retire (hc : Clean h) : Clean (step cfg followupBytes h .retire) := by
  unfold step Recipient.retireRuntime
  split_ifs
  · exact ⟨hc.exclusive, hc.spared⟩
  · exact hc

theorem clean_reopen (hc : Clean h) : Clean (step cfg followupBytes h .reopen) := by
  unfold step Recipient.reopen
  split_ifs
  · exact hc.withDrops (drops_reopen h.recipient.toDeliveryLists) rfl
  · exact hc

/-- Where the lists could go wrong: a dropped id is not acknowledged, and an acknowledged one
neither gets a status that denies it nor is sent again once the retention has forgotten it. -/
def Careful (h : History) : Event → Prop
  | .acknowledge id => id ∉ h.recipient.droppedIds
  | .recordStatus id status => id ∈ h.acknowledged → status = .consumed ∨ status = .sealed
  | .enqueue delivery _ _ =>
    delivery.id ∈ h.acknowledged → h.recipient.isKnown delivery.id = true
  | .update _ _ _ | .drain _ _ | .finishTurn _ | .consume _ | .settle _ _ | .retire | .reopen
  | .restart _ => True

theorem clean_step (hs : Sound h) (hc : Clean h) {event : Event} (hcareful : Careful h event) :
    Clean (step cfg followupBytes h event) := by
  cases event with
  | enqueue delivery allowFollowup nowMs => exact clean_enqueue hs hc hcareful allowFollowup nowMs
  | update id push cancel => exact clean_update hs hc id push cancel
  | drain idle nowMs => exact clean_drain hs hc idle nowMs
  | finishTurn nowMs => exact clean_finishTurn hs hc nowMs
  | acknowledge id => exact clean_acknowledge hc hcareful
  | consume id => exact clean_consume hc id
  | recordStatus id status => exact clean_recordStatus hc hcareful
  | settle status nowMs => exact clean_settle hs hc status nowMs
  | retire => exact clean_retire hc
  | reopen => exact clean_reopen hc
  | restart nowMs => exact hc.withDrops (drops_restart cfg followupBytes nowMs hs.tidy) rfl

def AllCareful (cfg : DeliverySettings) (followupBytes : PendingDelivery → ℕ) (h : History) :
    List Event → Prop
  | [] => True
  | event :: events =>
    Careful h event ∧ AllCareful cfg followupBytes (step cfg followupBytes h event) events

theorem clean_run (hs : Sound h) (hc : Clean h) {events : List Event}
    (hcareful : AllCareful cfg followupBytes h events) :
    Clean (run cfg followupBytes h events) := by
  induction events generalizing h with
  | nil => exact hc
  | cons event events ih =>
    obtain ⟨hfirst, hrest⟩ := hcareful
    exact ih (sound_step hs event) (clean_step hs hc hfirst) hrest

end Steps

theorem sound_initial : Sound initial where
  tidy _ := Nat.zero_le _
  accepted _ hmem := by cases hmem
  given_nodup := .nil
  given_claimed _ hmem := by cases hmem
  ended hover := by cases hover

theorem clean_initial : Clean initial where
  exclusive _ := Nat.zero_le _
  spared _ hmem := by cases hmem

def DeliveryLists.listedIds (lists : DeliveryLists) : List Text :=
  lists.pendingIds ++ lists.followupIds ++ lists.deliveryIds ++ lists.droppedIds

theorem count_listedIds (lists : DeliveryLists) (id : Text) :
    lists.listedIds.count id = lists.occurrences id := by
  unfold DeliveryLists.listedIds occurrences undelivered
  rw [count_append, count_append, count_append]

theorem nodup_listedIds {lists : DeliveryLists} : lists.listedIds.Nodup ↔ lists.Exclusive := by
  rw [nodup_iff_count_le_one]
  exact forall_congr' fun id => by rw [count_listedIds]

structure AccountedOnce (cfg : DeliverySettings) (followupBytes : PendingDelivery → ℕ)
    (h : History) : Prop where
  listed_once : h.recipient.listedIds.Nodup
  accepted : ∀ id ∈ h.accepted, id ∈ h.recipient.listedIds ∨ id ∈ h.recipient.pushedOut
  given_once : h.given.Nodup
  turn_over : h.turnOver = true → ∀ delivery allowFollowup nowMs answer,
    h.recipient.enqueueDelivery cfg followupBytes delivery allowFollowup nowMs = .ok answer →
      answer.2.outcome = .duplicate
  known : ∀ delivery allowFollowup nowMs, h.recipient.isKnown delivery.id = true →
    h.recipient.enqueueDelivery cfg followupBytes delivery allowFollowup nowMs =
      .ok (h.recipient, ⟨.duplicate, none, []⟩)
  acknowledged : ∀ id ∈ h.acknowledged,
    h.recipient.deliveryStatus id ∉ [.expired, .superseded, .failed]

section Accounting

variable {cfg : DeliverySettings} {followupBytes : PendingDelivery → ℕ} {h : History}
  {delivery : PendingDelivery}

theorem Sound.enqueue_turnOver (hs : Sound h) (hover : h.turnOver = true) {allowFollowup : Bool}
    {nowMs : ℕ} {answer : Recipient × AgentMessageReceipt}
    (hans : h.recipient.enqueueDelivery cfg followupBytes delivery allowFollowup nowMs =
      .ok answer) :
    answer.2.outcome = .duplicate := by
  obtain ⟨hlive, state, hrun, hsealed, -⟩ := hs.ended hover
  rcases enqueueDelivery_cases hs.tidy hans with ⟨-, hdup, -⟩ | ⟨-, -, -, hopen, -⟩
  · exact hdup
  · have hfalse := hopen hlive
    rw [hrun, Option.any_some, hsealed] at hfalse
    cases hfalse

theorem Sound.accepted_listed (hs : Sound h) {id : Text} (hmem : id ∈ h.accepted) :
    id ∈ h.recipient.listedIds ∨ id ∈ h.recipient.pushedOut := by
  refine (hs.accepted id hmem).imp_left fun hpos => ?_
  rw [← count_listedIds] at hpos
  exact count_pos_iff.mp hpos

theorem Clean.deliveryStatus (hc : Clean h) {id : Text} (hmem : id ∈ h.acknowledged) :
    h.recipient.deliveryStatus id ∉ [.expired, .superseded, .failed] := by
  obtain ⟨hzero, hrecs⟩ := hc.spared id hmem
  have hpend : (h.recipient.pendingDeliveries ++ h.recipient.followups).any (·.id = id) =
      false := by
    rw [any_eq_false]
    intro delivery hdel
    rw [decide_eq_true_eq]
    rintro rfl
    unfold undelivered at hzero
    rcases mem_append.mp hdel with hpend | hfollowup
    · have hpos := count_pos_iff.mpr (mem_map_of_mem (f := (·.id)) hpend)
      unfold pendingIds at hzero
      omega
    · have hpos := count_pos_iff.mpr (mem_map_of_mem (f := (·.id)) hfollowup)
      unfold followupIds at hzero
      omega
  unfold DeliveryLists.deliveryStatus
  rw [if_neg (by rw [hpend]; exact Bool.false_ne_true)]
  cases hfind : h.recipient.droppedDeliveries.reverse.find? (·.id = id) with
  | none =>
    dsimp only
    split_ifs <;> decide
  | some dropped =>
    have hid : dropped.id = id := by simpa using List.find?_some hfind
    have hdrop := mem_reverse.mp (List.mem_of_find?_eq_some hfind)
    dsimp only
    rcases hrecs dropped hdrop hid with hstat | hstat
    · rw [hstat]
      decide
    · rw [hstat]
      decide

end Accounting

/-- From a record's creation on, in whatever order its operations come: while they are careful,
every delivery is accounted for once. Only what concerns dropped and acknowledged ids needs the
care. -/
theorem accountedOnce_run (cfg : DeliverySettings) (followupBytes : PendingDelivery → ℕ)
    {events : List Event} (hcareful : AllCareful cfg followupBytes initial events) :
    AccountedOnce cfg followupBytes (run cfg followupBytes initial events) := by
  have hs : Sound (run cfg followupBytes initial events) := sound_run sound_initial events
  have hc := clean_run sound_initial clean_initial hcareful
  refine ⟨nodup_listedIds.mpr hc.exclusive, fun id hmem => hs.accepted_listed hmem, hs.given_nodup,
    fun hover _ _ _ _ hanswer => hs.enqueue_turnOver hover hanswer,
    fun _ allowFollowup nowMs hknown => ?_, fun id hmem => hc.deliveryStatus hmem⟩
  unfold Recipient.enqueueDelivery
  dsimp only
  rw [ensureTtlSecs_id, if_pos hknown]

def question : PendingDelivery where
  id := ['q']
  content := ['h', 'i']
  push := .append
  wake := true
  enqueuedAtMs := 100
  expiresAtMs := some 200
  supersedeKey := none

def someSettings : DeliverySettings := ⟨60, 4, 8, 4, 1000⟩

/-- The runner takes the message, and acknowledges it when the agent is still at work. -/
theorem accountedOnce_delivered : AccountedOnce someSettings (fun _ => 1)
    (run someSettings (fun _ => 1) initial
      [.enqueue question false 100, .drain false 150, .acknowledge ['q'],
        .settle .completed 300]) :=
  accountedOnce_run someSettings (fun _ => 1) (by
    refine ⟨fun hmem => ?_, trivial, ?_, trivial, trivial⟩
    · exact absurd hmem not_mem_nil
    · simp only [Careful]
      decide)

/-- The runner has taken the message, and the agent finishes after the deadline: the settled record
says that the message expired, and keeps saying so when the runner acknowledges it. -/
theorem expired_acknowledged : ¬ ∀ cfg followupBytes events,
    AccountedOnce cfg followupBytes (run cfg followupBytes initial events) := by
  intro hall
  have h := (hall someSettings (fun _ => 1)
    [.enqueue question false 100, .drain false 150, .settle .completed 300,
      .acknowledge ['q']]).acknowledged ['q'] (by decide)
  revert h
  decide

end AgentDeliveries
