import RefactEngine.AgentDeliveries

/-! # What happens to the ids of a record

Counts of an id in the four lists carry the argument: what is dropped was undelivered before.
-/
namespace AgentDeliveries

open List

section Lists

variable {α : Type*}

theorem overflow_append_retained (n : ℕ) (l : List α) : overflow n l ++ retained n l = l :=
  take_append_drop _ l

theorem mem_overflow_or_retained {n : ℕ} {l : List α} {a : α} (h : a ∈ l) :
    a ∈ overflow n l ∨ a ∈ retained n l := by
  rw [← overflow_append_retained n l] at h
  exact mem_append.mp h

theorem retained_sublist (n : ℕ) (l : List α) : (retained n l).Sublist l :=
  drop_sublist _ l

variable [BEq α] [LawfulBEq α]

theorem count_filter_ite (p : α → Bool) (l : List α) (a : α) :
    (l.filter p).count a = if p a then l.count a else 0 := by
  split_ifs with h
  · exact count_filter h
  · rw [count_eq_zero]
    exact fun hmem => h (of_mem_filter hmem)

end Lists

namespace DeliveryLists

variable (lists : DeliveryLists)

def pendingIds : List Text :=
  lists.pendingDeliveries.map (·.id)

def followupIds : List Text :=
  lists.followups.map (·.id)

def droppedIds : List Text :=
  lists.droppedDeliveries.map (·.id)

def undelivered (id : Text) : ℕ :=
  lists.pendingIds.count id + lists.followupIds.count id

def occurrences (id : Text) : ℕ :=
  lists.undelivered id + lists.deliveryIds.count id + lists.droppedIds.count id

def Accounted (id : Text) : Prop :=
  0 < lists.occurrences id ∨ id ∈ lists.pushedOut

section Recording

variable (cfg : DeliverySettings)

def recordAll (lists : DeliveryLists) (records : List DeliveryStatusRecord) : DeliveryLists :=
  records.foldl (fun lists record => lists.recordDroppedDelivery cfg record.id record.status) lists

variable (lists : DeliveryLists)

theorem recordDroppedDeliveries_eq (ids : List Text) (status : DeliveryStatus) :
    lists.recordDroppedDeliveries cfg ids status =
      lists.recordAll cfg (ids.map fun id => ⟨id, status⟩) := by
  rw [recordAll, foldl_map]
  rfl

theorem recordAll_append (first second : List DeliveryStatusRecord) :
    lists.recordAll cfg (first ++ second) = (lists.recordAll cfg first).recordAll cfg second :=
  foldl_append

variable (records : List DeliveryStatusRecord)

@[simp] theorem recordAll_pendingDeliveries :
    (lists.recordAll cfg records).pendingDeliveries = lists.pendingDeliveries := by
  induction records generalizing lists with
  | nil => rfl
  | cons record records ih => exact ih (lists.recordDroppedDelivery cfg record.id record.status)

@[simp] theorem recordAll_followups :
    (lists.recordAll cfg records).followups = lists.followups := by
  induction records generalizing lists with
  | nil => rfl
  | cons record records ih => exact ih (lists.recordDroppedDelivery cfg record.id record.status)

@[simp] theorem recordAll_deliveryIds :
    (lists.recordAll cfg records).deliveryIds = lists.deliveryIds := by
  induction records generalizing lists with
  | nil => rfl
  | cons record records ih => exact ih (lists.recordDroppedDelivery cfg record.id record.status)

def Recorded (lists : DeliveryLists) (id : Text) : Prop :=
  id ∈ lists.droppedIds ∨ id ∈ lists.pushedOut

variable {cfg}

theorem mem_withRecord {dropped : List DeliveryStatusRecord} {record : DeliveryStatusRecord}
    {a : Text} (h : a = record.id ∨ a ∈ dropped.map (·.id)) :
    a ∈ (withRecord dropped record).map (·.id) := by
  by_cases heq : a = record.id
  · simp [withRecord, heq]
  · obtain ⟨earlier, hmem, rfl⟩ := mem_map.mp (h.resolve_left heq)
    refine mem_map_of_mem (mem_append_left _ ?_)
    simpa [heq] using hmem

theorem count_withRecord (dropped : List DeliveryStatusRecord) (record : DeliveryStatusRecord)
    (a : Text) : ((withRecord dropped record).map (·.id)).count a =
      if a = record.id then 1 else (dropped.map (·.id)).count a := by
  have hfilt : (dropped.filter (fun earlier => earlier.id ≠ record.id)).map (·.id) =
      (dropped.map (·.id)).filter (fun earlier => earlier ≠ record.id) := by
    rw [filter_map]
    rfl
  rw [withRecord, map_append, hfilt, count_append, count_filter_ite]
  by_cases heq : a = record.id
  · simp [heq]
  · simp [heq, Ne.symm heq]

theorem recorded_recordDroppedDelivery {lists : DeliveryLists} {id a : Text}
    {status : DeliveryStatus} (h : a = id ∨ lists.Recorded a) :
    (lists.recordDroppedDelivery cfg id status).Recorded a := by
  by_cases hout : a ∈ lists.pushedOut
  · exact .inr (mem_append_left _ hout)
  · have hmem : a ∈ (withRecord lists.droppedDeliveries ⟨id, status⟩).map (·.id) := by
      apply mem_withRecord
      exact h.imp_right fun hrecd => hrecd.resolve_right hout
    obtain ⟨record, hrec, rfl⟩ := mem_map.mp hmem
    rcases mem_overflow_or_retained hrec with hcut | hin
    · exact .inr (mem_append_right _ (mem_map_of_mem hcut))
    · exact .inl (mem_map_of_mem hin)

theorem count_droppedIds_recordDroppedDelivery (cfg : DeliverySettings) (lists : DeliveryLists)
    (id a : Text)
    (status : DeliveryStatus) :
    (lists.recordDroppedDelivery cfg id status).droppedIds.count a ≤
      if a = id then 1 else lists.droppedIds.count a := by
  have hsub : (lists.recordDroppedDelivery cfg id status).droppedIds.count a ≤
      ((withRecord lists.droppedDeliveries ⟨id, status⟩).map (·.id)).count a :=
    ((retained_sublist _ _).map _).count_le a
  rwa [count_withRecord] at hsub

theorem recorded_recordAll {lists : DeliveryLists} {records : List DeliveryStatusRecord} {a : Text}
    (h : a ∈ records.map (·.id) ∨ lists.Recorded a) : (lists.recordAll cfg records).Recorded a := by
  induction records generalizing lists with
  | nil => exact h.resolve_left not_mem_nil
  | cons record records ih =>
    apply @ih (lists.recordDroppedDelivery cfg record.id record.status)
    rcases h with hmem | hrecd
    · rcases mem_cons.mp hmem with heq | hmem
      · exact .inr (recorded_recordDroppedDelivery (.inl heq))
      · exact .inl hmem
    · exact .inr (recorded_recordDroppedDelivery (.inr hrecd))

theorem count_droppedIds_recordAll (cfg : DeliverySettings) (lists : DeliveryLists)
    (records : List DeliveryStatusRecord)
    (a : Text) : (lists.recordAll cfg records).droppedIds.count a ≤
      if a ∈ records.map (·.id) then 1 else lists.droppedIds.count a := by
  induction records generalizing lists with
  | nil => simp [recordAll]
  | cons record records ih =>
    have hone := count_droppedIds_recordDroppedDelivery cfg lists record.id a record.status
    have hrest := ih (lists.recordDroppedDelivery cfg record.id record.status)
    refine hrest.trans ?_
    by_cases hmem : a ∈ records.map (·.id)
    · rw [if_pos hmem, map_cons, if_pos (mem_cons_of_mem _ hmem)]
    · rw [if_neg hmem]
      refine hone.trans (le_of_eq ?_)
      simp only [map_cons, mem_cons, hmem, or_false]

theorem mem_droppedDeliveries_recordAll {lists : DeliveryLists}
    {records : List DeliveryStatusRecord} {dropped : DeliveryStatusRecord}
    (h : dropped ∈ (lists.recordAll cfg records).droppedDeliveries) :
    dropped ∈ lists.droppedDeliveries ∨ dropped ∈ records := by
  induction records generalizing lists with
  | nil => exact .inl h
  | cons record records ih =>
    rcases ih h with hold | hnew
    · have hsub := (retained_sublist _ _).mem hold
      rcases mem_append.mp hsub with hfiltered | hlast
      · exact .inl (mem_of_mem_filter hfiltered)
      · rw [mem_singleton.mp hlast]
        exact .inr mem_cons_self
    · exact .inr (mem_cons_of_mem _ hnew)

theorem pushedOut_subset_recordAll : lists.pushedOut ⊆ (lists.recordAll cfg records).pushedOut := by
  induction records generalizing lists with
  | nil => exact List.Subset.refl _
  | cons record records ih =>
    intro a hmem
    exact ih (lists.recordDroppedDelivery cfg record.id record.status)
      (mem_append_left _ hmem)

end Recording

/-- What changes where deliveries are only dropped: an id that gets a record was undelivered, and is
undelivered no more. -/
structure Drops (lists lists' : DeliveryLists) : Prop where
  undelivered : ∀ id, lists'.undelivered id ≤ lists.undelivered id
  delivered : ∀ id, lists'.deliveryIds.count id ≤ lists.deliveryIds.count id
  dropped : ∀ id, lists'.droppedIds.count id ≤ lists.droppedIds.count id ∨
    0 < lists.undelivered id ∧ lists'.undelivered id = 0 ∧ lists'.droppedIds.count id ≤ 1
  records : ∀ dropped ∈ lists'.droppedDeliveries,
    dropped ∈ lists.droppedDeliveries ∨ 0 < lists.undelivered dropped.id
  accounted : ∀ id, lists.Accounted id → lists'.Accounted id

theorem Drops.refl (lists : DeliveryLists) : Drops lists lists :=
  ⟨fun _ => le_rfl, fun _ => le_rfl, fun _ => .inl le_rfl, fun _ h => .inl h, fun _ h => h⟩

theorem Drops.trans {a b c : DeliveryLists} (hab : Drops a b) (hbc : Drops b c) : Drops a c where
  undelivered id := (hbc.undelivered id).trans (hab.undelivered id)
  delivered id := (hbc.delivered id).trans (hab.delivered id)
  dropped id := by
    have hle := hab.undelivered id
    rcases hbc.dropped id with hsame | ⟨hwas, hgone, hone⟩
    · rcases hab.dropped id with hbef | ⟨hwas, hgone, hone⟩
      · exact .inl (hsame.trans hbef)
      · have hle' := hbc.undelivered id
        exact .inr ⟨hwas, by omega, by omega⟩
    · exact .inr ⟨by omega, hgone, hone⟩
  records dropped hmem := by
    have hle := hab.undelivered dropped.id
    rcases hbc.records dropped hmem with hold | hwas
    · exact hab.records dropped hold
    · exact .inr (by omega)
  accounted id h := hbc.accounted id (hab.accounted id h)

def Tidy (lists : DeliveryLists) : Prop :=
  ∀ id, lists.undelivered id ≤ 1

def Exclusive (lists : DeliveryLists) : Prop :=
  ∀ id, lists.occurrences id ≤ 1

/-- These ids are not to be delivered, and their records say that they were received. -/
def Spared (ids : List Text) (lists : DeliveryLists) : Prop :=
  ∀ id ∈ ids, lists.undelivered id = 0 ∧ ∀ dropped ∈ lists.droppedDeliveries, dropped.id = id →
    dropped.status = .consumed ∨ dropped.status = .sealed

variable {lists' lists : DeliveryLists}

theorem Drops.tidy (h : Drops lists lists') (ht : lists.Tidy) : lists'.Tidy :=
  fun id => (h.undelivered id).trans (ht id)

theorem Drops.exclusive (h : Drops lists lists') (he : lists.Exclusive) : lists'.Exclusive := by
  intro id
  have hone := he id
  have hundel := h.undelivered id
  have hdeliv := h.delivered id
  unfold occurrences at hone ⊢
  rcases h.dropped id with hsame | ⟨hwas, hgone, hdrop⟩
  · omega
  · omega

theorem Drops.spared {ids : List Text} (h : Drops lists lists') (hs : lists.Spared ids) :
    lists'.Spared ids := by
  intro id hmem
  obtain ⟨hzero, hrecs⟩ := hs id hmem
  have hle := h.undelivered id
  refine ⟨by omega, fun dropped hdrop heq => ?_⟩
  rcases h.records dropped hdrop with hold | hwas
  · exact hrecs dropped hold heq
  · rw [heq] at hwas
    omega

section Dropping

variable {cfg : DeliverySettings} {lists : DeliveryLists}

theorem Accounted.of_recorded {id : Text} (h : lists.Recorded id) : lists.Accounted id := by
  rcases h with hdrop | hout
  · left
    have hpos := count_pos_iff.mpr hdrop
    unfold occurrences
    omega
  · exact .inr hout

theorem drops_recordAll {removed : DeliveryLists} {records : List DeliveryStatusRecord}
    (hrecd : ∀ id ∈ records.map (·.id), 0 < lists.undelivered id ∧ removed.undelivered id = 0)
    (hothers : ∀ id, id ∉ records.map (·.id) → removed.undelivered id = lists.undelivered id)
    (hdeliv : removed.deliveryIds = lists.deliveryIds)
    (hdrop : removed.droppedDeliveries = lists.droppedDeliveries)
    (hout : removed.pushedOut = lists.pushedOut) : Drops lists (removed.recordAll cfg records) := by
  have hsame : ∀ id, (removed.recordAll cfg records).undelivered id = removed.undelivered id := by
    intro id
    simp [undelivered, pendingIds, followupIds]
  have hcount := count_droppedIds_recordAll cfg removed records
  have hdroppedIds : removed.droppedIds = lists.droppedIds := by
    rw [droppedIds, hdrop]
    rfl
  refine ⟨fun id => ?_, fun id => ?_, fun id => ?_, fun dropped hmem => ?_, fun id h => ?_⟩
  · rw [hsame]
    by_cases hmem : id ∈ records.map (·.id)
    · have hzero := (hrecd id hmem).2
      omega
    · exact (hothers id hmem).le
  · rw [recordAll_deliveryIds, hdeliv]
  · have hle := hcount id
    rw [hdroppedIds] at hle
    by_cases hmem : id ∈ records.map (·.id)
    · rw [if_pos hmem] at hle
      rw [hsame]
      exact .inr ⟨(hrecd id hmem).1, (hrecd id hmem).2, hle⟩
    · rw [if_neg hmem] at hle
      exact .inl hle
  · rcases mem_droppedDeliveries_recordAll hmem with hold | hnew
    · exact .inl (hdrop ▸ hold)
    · exact .inr (hrecd dropped.id (mem_map_of_mem hnew)).1
  · by_cases hmem : id ∈ records.map (·.id)
    · exact .of_recorded (recorded_recordAll (.inl hmem))
    · rcases h with hpos | hgone
      · by_cases hwas : id ∈ lists.droppedIds
        · exact .of_recorded (recorded_recordAll (.inr (.inl (hdroppedIds ▸ hwas))))
        · left
          have hzero : lists.droppedIds.count id = 0 := count_eq_zero.mpr hwas
          have hothers' := hothers id hmem
          unfold occurrences at hpos ⊢
          rw [hsame, recordAll_deliveryIds, hdeliv]
          omega
      · exact .inr (pushedOut_subset_recordAll _ _ (hout ▸ hgone))

theorem drops_moved (lists removed : DeliveryLists) (records : List DeliveryStatusRecord)
    (ht : lists.Tidy)
    (hcount : ∀ id, lists.undelivered id = (records.map (·.id)).count id + removed.undelivered id)
    (hdeliv : removed.deliveryIds = lists.deliveryIds)
    (hdrop : removed.droppedDeliveries = lists.droppedDeliveries)
    (hout : removed.pushedOut = lists.pushedOut) :
    Drops lists (removed.recordAll cfg records) := by
  refine drops_recordAll (fun id hmem => ?_) (fun id hmem => ?_) hdeliv hdrop hout
  · have hone := ht id
    have hsum := hcount id
    have hpos : 0 < (records.map (·.id)).count id := count_pos_iff.mpr hmem
    omega
  · have hsum := hcount id
    have hzero : (records.map (·.id)).count id = 0 := count_eq_zero.mpr hmem
    omega

theorem drops_cutDeliveryIds (lists : DeliveryLists) :
    Drops lists (lists.cutDeliveryIds cfg) where
  undelivered _ := le_rfl
  delivered id := (retained_sublist _ _).count_le id
  dropped _ := .inl le_rfl
  records _ h := .inl h
  accounted id h := by
    rcases h with hpos | hgone
    · by_cases hmem : id ∈ lists.deliveryIds
      · rcases mem_overflow_or_retained (n := cfg.deliveryStatusRetention) hmem with hcut | hin
        · exact .inr (mem_append_right _ hcut)
        · left
          have hkept : 0 < (retained cfg.deliveryStatusRetention lists.deliveryIds).count id :=
            count_pos_iff.mpr hin
          unfold occurrences cutDeliveryIds
          dsimp only
          omega
      · left
        have hzero : lists.deliveryIds.count id = 0 := count_eq_zero.mpr hmem
        unfold occurrences at hpos ⊢
        have hsame : (lists.cutDeliveryIds cfg).undelivered id = lists.undelivered id := rfl
        have hdrop : (lists.cutDeliveryIds cfg).droppedIds = lists.droppedIds := rfl
        rw [hsame, hdrop]
        omega
    · exact .inr (mem_append_left _ hgone)

theorem drops_cutDroppedDeliveries (lists : DeliveryLists) :
    Drops lists (lists.cutDroppedDeliveries cfg) where
  undelivered _ := le_rfl
  delivered _ := le_rfl
  dropped id := .inl (((retained_sublist _ _).map _).count_le id)
  records _ h := .inl ((retained_sublist _ _).mem h)
  accounted id h := by
    rcases h with hpos | hgone
    · by_cases hmem : id ∈ lists.droppedIds
      · obtain ⟨record, hrec, rfl⟩ := mem_map.mp hmem
        apply Accounted.of_recorded
        rcases mem_overflow_or_retained (n := cfg.deliveryStatusRetention) hrec with hcut | hin
        · exact .inr (mem_append_right _ (mem_map_of_mem hcut))
        · exact .inl (mem_map_of_mem hin)
      · left
        have hzero : lists.droppedIds.count id = 0 := count_eq_zero.mpr hmem
        unfold occurrences at hpos ⊢
        have hsame : (lists.cutDroppedDeliveries cfg).undelivered id = lists.undelivered id := rfl
        have hdeliv : (lists.cutDroppedDeliveries cfg).deliveryIds = lists.deliveryIds := rfl
        rw [hsame, hdeliv]
        omega
    · exact .inr (mem_append_left _ hgone)

theorem undelivered_removePending (lists : DeliveryLists) (ids : List Text) (id : Text) :
    (lists.removePending ids).undelivered id =
      (if id ∈ ids then 0 else lists.pendingIds.count id) + lists.followupIds.count id := by
  have hfilt : (lists.removePending ids).pendingIds =
      lists.pendingIds.filter (fun pending => pending ∉ ids) := by
    rw [pendingIds, pendingIds, filter_map]
    rfl
  have hfollowups : (lists.removePending ids).followupIds = lists.followupIds := rfl
  rw [undelivered, hfilt, hfollowups, count_filter_ite]
  by_cases hmem : id ∈ ids <;> simp [hmem]

theorem drops_removePending (cfg : DeliverySettings) (records : List DeliveryStatusRecord)
    (ht : lists.Tidy) (hpend : ∀ id ∈ records.map (·.id), id ∈ lists.pendingIds) :
    Drops lists ((lists.removePending (records.map (·.id))).recordAll cfg records) := by
  apply drops_recordAll
  · intro id hmem
    have hone := ht id
    have hpos : 0 < lists.pendingIds.count id := count_pos_iff.mpr (hpend id hmem)
    rw [undelivered_removePending, if_pos hmem]
    unfold undelivered at hone ⊢
    omega
  · intro id hmem
    rw [undelivered_removePending, if_neg hmem, undelivered]
  · rfl
  · rfl
  · rfl

theorem splitFollowups_append (cfg : DeliverySettings) (followupBytes : PendingDelivery → ℕ)
    (followups : List PendingDelivery) :
    (splitFollowups cfg followupBytes followups).1 ++
      (splitFollowups cfg followupBytes followups).2 = followups := by
  induction followups with
  | nil => rfl
  | cons delivery rest ih =>
    unfold splitFollowups
    split
    · exact congrArg (delivery :: ·) ih
    · rfl

variable (status : DeliveryStatus)

theorem map_id_records (ids : List Text) :
    (ids.map fun id => (⟨id, status⟩ : DeliveryStatusRecord)).map (·.id) = ids := by
  rw [map_map]
  exact map_id ids

theorem drops_trimFollowups (cfg : DeliverySettings) (followupBytes : PendingDelivery → ℕ)
    (ht : lists.Tidy) : Drops lists (lists.trimFollowups cfg followupBytes) := by
  rw [trimFollowups, recordDroppedDeliveries_eq]
  refine drops_moved _ _ _ ht (fun id => ?_) rfl rfl rfl
  have hsplit := splitFollowups_append cfg followupBytes lists.followups
  have hcount : lists.followupIds.count id =
      ((splitFollowups cfg followupBytes lists.followups).1.map (·.id)).count id +
        ((splitFollowups cfg followupBytes lists.followups).2.map (·.id)).count id := by
    rw [← count_append, ← map_append, hsplit, followupIds]
  rw [map_id_records, undelivered, hcount]
  exact Nat.add_left_comm _ _ _

theorem drops_cutPending (cfg : DeliverySettings) (limit : ℕ) (status : DeliveryStatus)
    (ht : lists.Tidy) : Drops lists (recordDroppedDeliveries cfg
      { lists with pendingDeliveries := retained limit lists.pendingDeliveries }
      ((overflow limit lists.pendingDeliveries).map (·.id)) status) := by
  rw [recordDroppedDeliveries_eq]
  refine drops_moved _ _ _ ht (fun id => ?_) rfl rfl rfl
  have hsplit := overflow_append_retained limit lists.pendingDeliveries
  have hcount : lists.pendingIds.count id =
      ((overflow limit lists.pendingDeliveries).map (·.id)).count id +
        ((retained limit lists.pendingDeliveries).map (·.id)).count id := by
    rw [← count_append, ← map_append, hsplit, pendingIds]
  rw [map_id_records, undelivered, hcount]
  exact Nat.add_assoc _ _ _

theorem drops_cancel {id : Text} (ht : lists.Tidy) (hmem : id ∈ lists.pendingIds) :
    Drops lists (recordDroppedDelivery cfg { lists with
      pendingDeliveries := lists.pendingDeliveries.eraseP (·.id = id) } id status) := by
  have herase : (lists.pendingDeliveries.eraseP (·.id = id)).map (·.id) =
      lists.pendingIds.erase id := by
    rw [pendingIds, erase_eq_eraseP, eraseP_map]
    congr 2
    funext delivery
    rw [Bool.eq_iff_iff, decide_eq_true_iff, Function.comp_apply, beq_iff_eq]
    exact eq_comm
  refine drops_moved _ _ [⟨id, status⟩] ht (fun a => ?_) rfl rfl rfl
  have hcount : lists.pendingIds.count a =
      [id].count a + (lists.pendingIds.erase id).count a := by
    rw [(perm_cons_erase hmem).count_eq, ← singleton_append, count_append]
  rw [undelivered, hcount, ← herase]
  exact Nat.add_assoc _ _ _

theorem drops_settleDelivery (cfg : DeliverySettings) {delivery : PendingDelivery}
    {rest : List PendingDelivery} (nowMs : ℕ)
    (ht : Tidy { lists with pendingDeliveries := delivery :: rest }) :
    Drops { lists with pendingDeliveries := delivery :: rest }
      { lists.settleDelivery cfg nowMs delivery with pendingDeliveries := rest } := by
  have hcons : ∀ id, ({ lists with pendingDeliveries := delivery :: rest } :
      DeliveryLists).undelivered id = (rest.map (·.id)).count id +
        (if delivery.id = id then 1 else 0) + lists.followupIds.count id := by
    intro id
    rw [undelivered, pendingIds, map_cons, count_cons]
    simp only [beq_iff_eq]
    rfl
  unfold settleDelivery
  split_ifs with hexp hknown
  · refine drops_moved _ { lists with pendingDeliveries := rest } [⟨delivery.id, .expired⟩] ht
      (fun id => ?_) rfl rfl rfl
    rw [hcons, map_singleton, count_singleton]
    simp only [beq_iff_eq]
    change (rest.map (·.id)).count id + _ + lists.followupIds.count id =
      _ + ((rest.map (·.id)).count id + lists.followupIds.count id)
    omega
  · refine ⟨fun id => ?_, fun _ => le_rfl, fun _ => .inl le_rfl, fun _ h => .inl h, fun id h => ?_⟩
    · rw [hcons]
      change (rest.map (·.id)).count id + lists.followupIds.count id ≤ _
      omega
    · rcases h with hpos | hgone
      · left
        rw [occurrences, hcons] at hpos
        change 0 < (rest.map (·.id)).count id + lists.followupIds.count id +
          lists.deliveryIds.count id + lists.droppedIds.count id
        change 0 < _ + lists.deliveryIds.count id + lists.droppedIds.count id at hpos
        by_cases heq : delivery.id = id
        · subst heq
          -- it stays listed where it was found
          have hlisted : delivery.id ∈ lists.deliveryIds ∨ delivery.id ∈ lists.droppedIds ∨
              delivery.id ∈ lists.followupIds := by
            simpa [droppedIds, followupIds, or_assoc] using hknown
          rcases hlisted with hmem | hmem | hmem <;>
          · have hone := count_pos_iff.mpr hmem
            omega
        · rw [if_neg heq] at hpos
          omega
      · exact .inr hgone
  · have hsame : ∀ id, ({ lists with
        followups := lists.followups ++ [delivery], pendingDeliveries := rest } :
          DeliveryLists).undelivered id = (rest.map (·.id)).count id +
            (if delivery.id = id then 1 else 0) + lists.followupIds.count id := by
      intro id
      rw [undelivered, followupIds, map_append, count_append]
      simp only [map_cons, map_nil, count_singleton, beq_iff_eq]
      change (rest.map (·.id)).count id + (lists.followupIds.count id + _) = _
      omega
    refine ⟨fun id => ?_, fun _ => le_rfl, fun _ => .inl le_rfl, fun _ h => .inl h, fun id h => ?_⟩
    · rw [hsame, hcons]
    · rcases h with hpos | hgone
      · left
        rw [occurrences, hcons] at hpos
        rw [occurrences, hsame]
        exact hpos
      · exact .inr hgone

theorem drops_settleDeliveries (cfg : DeliverySettings) (nowMs : ℕ) (pending : List PendingDelivery)
    (ht : Tidy { lists with pendingDeliveries := pending }) :
    Drops { lists with pendingDeliveries := pending }
      { pending.foldl (settleDelivery cfg nowMs) lists with pendingDeliveries := [] } := by
  induction pending generalizing lists with
  | nil => exact .refl _
  | cons delivery rest ih =>
    have hone := drops_settleDelivery cfg nowMs ht
    exact hone.trans (ih (hone.tidy ht))

theorem foldl_settleDelivery_pendingDeliveries (cfg : DeliverySettings) (nowMs : ℕ)
    (pending : List PendingDelivery) (lists : DeliveryLists) :
    (pending.foldl (settleDelivery cfg nowMs) lists).pendingDeliveries =
      lists.pendingDeliveries := by
  induction pending generalizing lists with
  | nil => rfl
  | cons delivery rest ih =>
    refine (ih _).trans ?_
    unfold settleDelivery
    split_ifs <;> rfl

theorem with_pendingDeliveries_self {pending : List PendingDelivery}
    (h : lists.pendingDeliveries = pending) :
    ({ lists with pendingDeliveries := pending } : DeliveryLists) = lists := by
  cases h
  rfl

theorem drops_settleTerminal (followupBytes : PendingDelivery → ℕ) (nowMs : ℕ) (ht : lists.Tidy) :
    Drops lists (lists.settleTerminal cfg followupBytes nowMs) := by
  have hfold := drops_settleDeliveries cfg nowMs lists.pendingDeliveries
    (show Tidy { { lists with pendingDeliveries := [] } with
      pendingDeliveries := lists.pendingDeliveries } from ht)
  have hnone := foldl_settleDelivery_pendingDeliveries cfg nowMs lists.pendingDeliveries
    { lists with pendingDeliveries := [] }
  have heq := with_pendingDeliveries_self hnone
  rw [heq] at hfold
  exact hfold.trans (drops_trimFollowups cfg followupBytes (hfold.tidy ht))

theorem ensureRestoredTtlSecs_id (delivery : PendingDelivery) (nowMs ttlSecs : ℕ) :
    (delivery.ensureRestoredTtlSecs nowMs ttlSecs).id = delivery.id := by
  unfold PendingDelivery.ensureRestoredTtlSecs PendingDelivery.ensureTtlSecs
    PendingDelivery.setTtlSecs
  dsimp only
  split_ifs <;> rfl

theorem superseded_subset (pending : List PendingDelivery) (ids : List Text)
    (found : (Text → Option Text) × List Text) (hsub : ∀ delivery ∈ pending, delivery.id ∈ ids)
    (hnewest : ∀ key id, found.1 key = some id → id ∈ ids) (hfound : ∀ id ∈ found.2, id ∈ ids) :
    ∀ id ∈ (pending.foldl supersededByKey found).2, id ∈ ids := by
  induction pending generalizing found with
  | nil => exact hfound
  | cons delivery rest ih =>
    have hdel : delivery.id ∈ ids := hsub delivery mem_cons_self
    apply ih _ (fun other hmem => hsub other (mem_cons_of_mem _ hmem))
    · intro key id hlook
      unfold supersededByKey at hlook
      cases hkey : delivery.supersedeKey with
      | none =>
        rw [hkey] at hlook
        exact hnewest key id hlook
      | some own =>
        simp only [hkey] at hlook
        by_cases heq : key = own
        · rw [heq, Function.update_self] at hlook
          exact Option.some.inj hlook ▸ hdel
        · rw [Function.update_of_ne heq] at hlook
          exact hnewest key id hlook
    · intro id hmem
      unfold supersededByKey at hmem
      cases hkey : delivery.supersedeKey with
      | none =>
        rw [hkey] at hmem
        exact hfound id hmem
      | some own =>
        rw [hkey] at hmem
        rcases mem_append.mp hmem with hold | hnew
        · exact hfound id hold
        · exact hnewest own id (Option.mem_toList.mp hnew)

theorem drops_normalizeDeliveryState (followupBytes : PendingDelivery → ℕ) (nowMs : ℕ)
    (ht : lists.Tidy) : Drops lists (lists.normalizeDeliveryState cfg followupBytes nowMs) := by
  unfold normalizeDeliveryState
  dsimp only
  have htrim := drops_trimFollowups cfg followupBytes ht
  set trimmed := lists.trimFollowups cfg followupBytes
  set pending := trimmed.pendingDeliveries.map fun delivery =>
    delivery.ensureRestoredTtlSecs nowMs cfg.deliveryDefaultTtlSecs with hpend
  have hids : pending.map (·.id) = trimmed.pendingIds := by
    rw [hpend, map_map, pendingIds]
    exact map_congr_left fun delivery _ => ensureRestoredTtlSecs_id delivery _ _
  have hundel : ∀ id, ({ trimmed with pendingDeliveries := pending } :
      DeliveryLists).undelivered id = trimmed.undelivered id := by
    intro id
    rw [undelivered, undelivered, ← hids]
    rfl
  have hstamp : Drops trimmed { trimmed with pendingDeliveries := pending } := by
    refine ⟨fun id => (hundel id).le, fun _ => le_rfl, fun _ => .inl le_rfl,
      fun _ h => .inl h, fun id h => ?_⟩
    refine h.imp_left fun hpos => ?_
    rw [occurrences, hundel]
    exact hpos
  have htidy := hstamp.tidy (htrim.tidy ht)
  set expired := (pending.filter (·.isExpiredAt nowMs)).map (·.id) with hexp
  set superseded := (pending.foldl supersededByKey (fun _ => none, [])).2
  set records := expired.map (fun id => (⟨id, .expired⟩ : DeliveryStatusRecord)) ++
    superseded.map (fun id => (⟨id, .superseded⟩ : DeliveryStatusRecord)) with hrecs
  have hrecordIds : records.map (·.id) = expired ++ superseded := by
    rw [hrecs, map_append, map_id_records, map_id_records]
  have hremove := drops_removePending cfg records htidy (by
    intro id hmem
    rw [hrecordIds] at hmem
    rcases mem_append.mp hmem with hleft | hright
    · obtain ⟨delivery, hdel, rfl⟩ := mem_map.mp hleft
      exact mem_map_of_mem (mem_of_mem_filter hdel)
    · exact superseded_subset pending (pending.map (·.id)) _
        (fun _ hdel => mem_map_of_mem hdel) (fun _ _ h => by cases h)
        (fun _ h => by cases h) id hright)
  rw [recordAll_append, ← recordDroppedDeliveries_eq, ← recordDroppedDeliveries_eq,
    hrecordIds] at hremove
  have htidy' := hremove.tidy htidy
  have hcut := drops_cutPending cfg cfg.deliveryMaxPending .failed htidy'
  exact htrim.trans (hstamp.trans (hremove.trans (hcut.trans
    ((drops_cutDeliveryIds _).trans (drops_cutDroppedDeliveries _)))))

end Dropping

section Changing

variable {cfg : DeliverySettings}

structure Admits (lists lists' : DeliveryLists) (id : Text) : Prop where
  undelivered : ∀ a, lists'.undelivered a = lists.undelivered a + if a = id then 1 else 0
  delivered : lists'.deliveryIds = lists.deliveryIds
  dropped : lists'.droppedDeliveries = lists.droppedDeliveries
  pushedOut : lists'.pushedOut = lists.pushedOut

theorem admits_pending (lists : DeliveryLists) (delivery : PendingDelivery) :
    Admits lists { lists with pendingDeliveries := lists.pendingDeliveries ++ [delivery] }
      delivery.id := by
  refine ⟨fun a => ?_, rfl, rfl, rfl⟩
  rw [undelivered, pendingIds, map_append, count_append, map_singleton,
    count_singleton]
  simp only [beq_iff_eq, eq_comm (a := delivery.id)]
  exact Nat.add_right_comm _ _ _

theorem admits_followup (lists : DeliveryLists) (delivery : PendingDelivery) :
    Admits lists { lists with followups := lists.followups ++ [delivery] } delivery.id := by
  refine ⟨fun a => ?_, rfl, rfl, rfl⟩
  rw [undelivered, followupIds, map_append, count_append, map_singleton,
    count_singleton]
  simp only [beq_iff_eq, eq_comm (a := delivery.id)]
  exact (Nat.add_assoc _ _ _).symm

variable {lists lists' : DeliveryLists}

theorem Admits.droppedIds {id : Text} (h : Admits lists lists' id) :
    lists'.droppedIds = lists.droppedIds := by
  rw [DeliveryLists.droppedIds, h.dropped]
  rfl

theorem Admits.tidy {id : Text} (h : Admits lists lists' id) (hnew : lists.occurrences id = 0)
    (ht : lists.Tidy) : lists'.Tidy := by
  intro a
  have hone := ht a
  rw [h.undelivered]
  unfold occurrences at hnew
  by_cases heq : a = id
  · subst heq
    rw [if_pos rfl]
    omega
  · rw [if_neg heq]
    omega

theorem Admits.exclusive {id : Text} (h : Admits lists lists' id) (hnew : lists.occurrences id = 0)
    (he : lists.Exclusive) : lists'.Exclusive := by
  intro a
  have hone := he a
  unfold occurrences at hnew hone ⊢
  rw [h.undelivered, h.delivered, h.droppedIds]
  by_cases heq : a = id
  · subst heq
    rw [if_pos rfl]
    omega
  · rw [if_neg heq]
    omega

variable {ids : List Text}

theorem Admits.spared {id : Text} (h : Admits lists lists' id) (hnew : id ∉ ids)
    (hs : lists.Spared ids) : lists'.Spared ids := by
  intro a hmem
  obtain ⟨hzero, hrecs⟩ := hs a hmem
  have hne : a ≠ id := fun heq => hnew (heq ▸ hmem)
  refine ⟨?_, ?_⟩
  · rw [h.undelivered, if_neg hne, hzero]
  · rw [h.dropped]
    exact hrecs

theorem Admits.accounted {id a : Text} (h : Admits lists lists' id)
    (ha : a = id ∨ lists.Accounted a) : lists'.Accounted a := by
  unfold Accounted occurrences at ha ⊢
  rw [h.undelivered, h.delivered, h.droppedIds, h.pushedOut]
  rcases ha with heq | hpos | hgone
  · left
    rw [if_pos heq]
    omega
  · left
    omega
  · exact .inr hgone

theorem occurrences_of_isKnown {id : Text} (h : lists.isKnown id = false) :
    lists.occurrences id = 0 := by
  simp only [isKnown, Bool.or_eq_false_iff, contains_eq_mem, decide_eq_false_iff_not,
    any_eq_false, decide_eq_true_eq] at h
  obtain ⟨⟨⟨hdeliv, hfollowups⟩, hdrop⟩, hpend⟩ := h
  have h1 : lists.pendingIds.count id = 0 := by
    simpa [count_eq_zero, pendingIds] using hpend
  have h2 : lists.followupIds.count id = 0 := by
    simpa [count_eq_zero, followupIds] using hfollowups
  have h3 : lists.droppedIds.count id = 0 := by
    simpa [count_eq_zero, droppedIds] using hdrop
  have h4 : lists.deliveryIds.count id = 0 := count_eq_zero.mpr hdeliv
  unfold occurrences undelivered
  omega

theorem Drops.occurrences_eq_zero {id : Text} (h : Drops lists lists')
    (hnew : lists.occurrences id = 0) : lists'.occurrences id = 0 := by
  have hundel := h.undelivered id
  have hdeliv := h.delivered id
  unfold occurrences at hnew ⊢
  rcases h.dropped id with hsame | ⟨hwas, -, -⟩
  · omega
  · omega

theorem undelivered_removeUndelivered (lists : DeliveryLists) (id a : Text) :
    (lists.removeUndelivered id).undelivered a = if a = id then 0 else lists.undelivered a := by
  have hpend : (lists.removeUndelivered id).pendingIds =
      lists.pendingIds.filter (fun pending => pending ≠ id) := by
    rw [pendingIds, pendingIds, filter_map]
    rfl
  have hfollowups : (lists.removeUndelivered id).followupIds =
      lists.followupIds.filter (fun pending => pending ≠ id) := by
    rw [followupIds, followupIds, filter_map]
    rfl
  rw [undelivered, hpend, hfollowups, count_filter_ite, count_filter_ite]
  by_cases heq : a = id <;> simp [heq, undelivered]

def acknowledged (lists : DeliveryLists) (id : Text) : DeliveryLists :=
  { lists.removeUndelivered id with
    deliveryIds :=
      if lists.deliveryIds.contains id then lists.deliveryIds else lists.deliveryIds ++ [id] }

theorem drops_acknowledged (lists : DeliveryLists) (id : Text) :
    Drops (lists.acknowledged id) (lists.acknowledgeDelivery cfg id) :=
  drops_cutDeliveryIds (lists.acknowledged id)

theorem undelivered_acknowledged (lists : DeliveryLists) (id a : Text) :
    (lists.acknowledged id).undelivered a = if a = id then 0 else lists.undelivered a :=
  undelivered_removeUndelivered lists id a

theorem count_deliveryIds_acknowledged (lists : DeliveryLists) (id a : Text) :
    (lists.acknowledged id).deliveryIds.count a =
      if a = id then max 1 (lists.deliveryIds.count id) else lists.deliveryIds.count a := by
  unfold acknowledged
  dsimp only
  by_cases hmem : id ∈ lists.deliveryIds
  · have hpos := count_pos_iff.mpr hmem
    rw [if_pos (contains_iff_mem.mpr hmem)]
    split_ifs with heq
    · rw [heq]
      omega
    · rfl
  · have hzero := count_eq_zero.mpr hmem
    rw [if_neg (fun hc => hmem (contains_iff_mem.mp hc)), count_append,
      count_singleton]
    simp only [beq_iff_eq, eq_comm (a := id)]
    split_ifs with heq
    · rw [heq, hzero]
      rfl
    · rfl

variable (id : Text)

theorem tidy_acknowledgeDelivery (ht : lists.Tidy) : (lists.acknowledgeDelivery cfg id).Tidy := by
  apply (drops_acknowledged lists id).tidy
  intro a
  have hone := ht a
  rw [undelivered_acknowledged]
  split_ifs <;> omega

theorem accounted_acknowledgeDelivery {a : Text} (h : lists.Accounted a) :
    (lists.acknowledgeDelivery cfg id).Accounted a := by
  apply (drops_acknowledged lists id).accounted
  refine h.imp_left fun hpos => ?_
  have hdrop : (lists.acknowledged id).droppedIds = lists.droppedIds := rfl
  unfold occurrences at hpos ⊢
  rw [undelivered_acknowledged, count_deliveryIds_acknowledged, hdrop]
  split_ifs with heq
  · omega
  · exact hpos

/-- An acknowledged id is delivered, and nothing else unless it had been dropped. -/
theorem exclusive_acknowledgeDelivery {id : Text} (hdrop : id ∉ lists.droppedIds)
    (he : lists.Exclusive) : (lists.acknowledgeDelivery cfg id).Exclusive := by
  apply (drops_acknowledged lists id).exclusive
  intro a
  have hone := he a
  have hsame : (lists.acknowledged id).droppedIds = lists.droppedIds := rfl
  unfold occurrences at hone ⊢
  rw [undelivered_acknowledged, count_deliveryIds_acknowledged, hsame]
  split_ifs with heq
  · subst heq
    have hzero := count_eq_zero.mpr hdrop
    omega
  · exact hone

theorem spared_acknowledgeDelivery {id : Text} (hdrop : id ∉ lists.droppedIds)
    (hs : lists.Spared ids) : (lists.acknowledgeDelivery cfg id).Spared (ids ++ [id]) := by
  apply (drops_acknowledged lists id).spared
  intro a hmem
  rw [undelivered_acknowledged]
  rcases mem_append.mp hmem with hold | hnew
  · obtain ⟨hzero, hrecs⟩ := hs a hold
    refine ⟨?_, hrecs⟩
    split_ifs
    · rfl
    · exact hzero
  · obtain rfl := mem_singleton.mp hnew
    refine ⟨if_pos rfl, fun dropped hmem' heq => ?_⟩
    exact absurd (heq ▸ mem_map_of_mem hmem') hdrop

/-- An id that is only taken out of the lists, before it gets its record. -/
def removed (lists : DeliveryLists) (id : Text) : DeliveryLists :=
  { lists.removeUndelivered id with
    deliveryIds := lists.deliveryIds.filter fun delivered => delivered ≠ id }

theorem settleDeliveryId_eq (lists : DeliveryLists) (id : Text) (status : DeliveryStatus) :
    lists.settleDeliveryId cfg id status = (lists.removed id).recordAll cfg [⟨id, status⟩] := rfl

theorem undelivered_settleDeliveryId (lists : DeliveryLists) (id a : Text)
    (status : DeliveryStatus) : (lists.settleDeliveryId cfg id status).undelivered a =
      if a = id then 0 else lists.undelivered a :=
  undelivered_removeUndelivered lists id a

theorem count_deliveryIds_settleDeliveryId (lists : DeliveryLists) (id a : Text)
    (status : DeliveryStatus) : (lists.settleDeliveryId cfg id status).deliveryIds.count a =
      if a = id then 0 else lists.deliveryIds.count a := by
  rw [settleDeliveryId_eq, recordAll_deliveryIds, removed, count_filter_ite]
  by_cases heq : a = id <;> simp [heq]

variable (status : DeliveryStatus)

theorem tidy_settleDeliveryId (ht : lists.Tidy) : (lists.settleDeliveryId cfg id status).Tidy := by
  intro a
  have hone := ht a
  rw [undelivered_settleDeliveryId]
  split_ifs <;> omega

theorem exclusive_settleDeliveryId (he : lists.Exclusive) :
    (lists.settleDeliveryId cfg id status).Exclusive := by
  intro a
  have hone := he a
  have hdrop := count_droppedIds_recordDroppedDelivery cfg (lists.removed id) id a status
  have hsame : (lists.removed id).droppedIds = lists.droppedIds := rfl
  rw [hsame] at hdrop
  unfold occurrences at hone ⊢
  rw [undelivered_settleDeliveryId, count_deliveryIds_settleDeliveryId]
  change _ + _ + ((lists.removed id).recordDroppedDelivery cfg id status).droppedIds.count a ≤ 1
  by_cases heq : a = id
  · rw [if_pos heq] at hdrop ⊢
    rw [if_pos heq]
    omega
  · rw [if_neg heq] at hdrop ⊢
    rw [if_neg heq]
    omega

theorem accounted_settleDeliveryId {a : Text} (h : lists.Accounted a) :
    (lists.settleDeliveryId cfg id status).Accounted a := by
  by_cases heq : a = id
  · exact .of_recorded (recorded_recordDroppedDelivery (.inl heq))
  · by_cases hrecd : lists.Recorded a
    · exact .of_recorded (recorded_recordDroppedDelivery (.inr hrecd))
    · left
      have hzero : lists.droppedIds.count a = 0 :=
        count_eq_zero.mpr fun hmem => hrecd (.inl hmem)
      have hpos := h.resolve_right fun hout => hrecd (.inr hout)
      unfold occurrences at hpos ⊢
      rw [undelivered_settleDeliveryId, count_deliveryIds_settleDeliveryId, if_neg heq, if_neg heq]
      omega

theorem spared_settleDeliveryId {id : Text} {status : DeliveryStatus}
    (hstat : id ∈ ids → status = .consumed ∨ status = .sealed) (hs : lists.Spared ids) :
    (lists.settleDeliveryId cfg id status).Spared ids := by
  intro a hmem
  obtain ⟨hzero, hrecs⟩ := hs a hmem
  refine ⟨?_, fun dropped hdrop heq => ?_⟩
  · rw [undelivered_settleDeliveryId]
    split_ifs
    · rfl
    · exact hzero
  · rw [settleDeliveryId_eq] at hdrop
    rcases mem_droppedDeliveries_recordAll hdrop with hold | hnew
    · exact hrecs dropped hold heq
    · obtain rfl := mem_singleton.mp hnew
      obtain rfl : id = a := heq
      exact hstat hmem

end Changing

end DeliveryLists

end AgentDeliveries
