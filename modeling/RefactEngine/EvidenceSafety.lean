import RefactEngine.ReadEvidence

/-! # Overwriting a whole file needs a whole read of its present content

What the registry knows of a chat and a file is the digest of the last read, and that a run of reads
of this content up to the last one holds a whole read. Eviction forgets the knowledge together with
the last stamp, so the stamps bound what is known.
-/
namespace EvidenceSafety

open ApplyPatch FileLocks ReadEvidence List

variable {Digest : Type}

def Stamped (reads : List (ReadObservation Digest)) (states : ActorStates Digest) : Prop :=
  ∀ name key slot, states.lookup (name, key) = some slot →
    ∃ r ∈ reads, r.actor = name ∧ r.key = key

variable (maxReads : ℕ) (reads : List (ReadObservation Digest)) (states : ActorStates Digest)
  (dropped : ℕ)

theorem evictOld_stamped (h : Stamped reads states) :
    Stamped (evictOld maxReads reads states dropped).1
      (evictOld maxReads reads states dropped).2.1 := by
  induction reads generalizing states dropped with
  | nil => exact h
  | cons removed rest ih =>
    unfold evictOld
    by_cases hlen : (removed :: rest).length > maxReads
    · rw [if_pos hlen]
      apply ih
      intro name key slot hslot
      by_cases hany : rest.any fun r => decide (r.actor = removed.actor ∧ r.key = removed.key)
      · rw [if_pos hany] at hslot
        obtain ⟨r, hr, hname, hkey⟩ := h name key slot hslot
        rcases mem_cons.mp hr with rfl | hr
        · obtain ⟨r', hr', hsame⟩ := any_eq_true.mp hany
          obtain ⟨ha, hk⟩ := of_decide_eq_true hsame
          exact ⟨r', hr', ha.trans hname, hk.trans hkey⟩
        · exact ⟨r, hr, hname, hkey⟩
      · rw [if_neg hany, AList.lookup_erase_if] at hslot
        split at hslot
        · cases hslot
        next hother =>
          obtain ⟨r, hr, hname, hkey⟩ := h name key slot hslot
          rcases mem_cons.mp hr with rfl | hr
          · exact absurd (by rw [hname, hkey]) hother
          · exact ⟨r, hr, hname, hkey⟩
    · rw [if_neg hlen]; exact h

theorem evictOld_suffix : (evictOld maxReads reads states dropped).1 <:+ reads := by
  induction reads generalizing states dropped with
  | nil => exact suffix_rfl
  | cons removed rest ih =>
    unfold evictOld
    by_cases hlen : (removed :: rest).length > maxReads
    · rw [if_pos hlen]; exact (ih _ _).trans (suffix_cons removed rest)
    · simp only [if_neg hlen, suffix_rfl]

theorem length_evictOld :
    (evictOld maxReads reads states dropped).1.length = min maxReads reads.length := by
  induction reads generalizing states dropped with
  | nil => simp [evictOld]
  | cons removed rest ih =>
    unfold evictOld
    by_cases hlen : (removed :: rest).length > maxReads
    · rw [if_pos hlen, ih]
      simp only [length_cons] at hlen ⊢
      omega
    · rw [if_neg hlen]
      simp only [length_cons] at hlen ⊢
      omega

variable {slot : ActorState Digest}

theorem evictOld_lookup {k : Text × Text}
    (h : (evictOld maxReads reads states dropped).2.1.lookup k = some slot) :
    states.lookup k = some slot := by
  induction reads generalizing states dropped with
  | nil => exact h
  | cons removed rest ih =>
    unfold evictOld at h
    by_cases hlen : (removed :: rest).length > maxReads
    · rw [if_pos hlen] at h
      have hrest := ih _ _ h
      split at hrest
      · exact hrest
      · rw [AList.lookup_erase_if] at hrest
        split at hrest
        · cases hrest
        · exact hrest
    · rw [if_neg hlen] at h; exact h

def readsOf (history : List (PastRead Digest)) (a : Actor) (key : Text) : List (PastRead Digest) :=
  history.filter fun r => decide (r.actor = some a ∧ r.observation.key = key)

def LastIs (reads : List (PastRead Digest)) (d : Digest) : Prop :=
  ∃ r ∈ reads.getLast?, r.observation.digest = d

/-- The reads end with a run of reads of this digest that begins with a whole one. -/
def SeenWhole (reads : List (PastRead Digest)) (d : Digest) : Prop :=
  ∃ older w newer, reads = older ++ w :: newer ∧ w.observation.whole = true ∧
    ∀ r ∈ w :: newer, r.observation.digest = d

structure Tells (slot : ActorState Digest) (reads : List (PastRead Digest)) : Prop where
  last : LastIs reads slot.digest
  whole : slot.whole = true → SeenWhole reads slot.digest

theorem LastIs.concat (reads : List (PastRead Digest)) (r : PastRead Digest) :
    LastIs (reads ++ [r]) r.observation.digest :=
  ⟨r, by simp, rfl⟩

theorem SeenWhole.concat_whole (reads : List (PastRead Digest)) {r : PastRead Digest}
    (h : r.observation.whole = true) : SeenWhole (reads ++ [r]) r.observation.digest :=
  ⟨reads, r, [], rfl, h, fun _ hr => by rw [mem_singleton.mp hr]⟩

theorem SeenWhole.concat_same {reads : List (PastRead Digest)} {r : PastRead Digest} {d : Digest}
    (h : SeenWhole reads d) (hr : r.observation.digest = d) : SeenWhole (reads ++ [r]) d := by
  obtain ⟨older, w, newer, rfl, hw, hall⟩ := h
  refine ⟨older, w, newer ++ [r], by rw [append_assoc]; rfl, hw, fun x hx => ?_⟩
  rw [← cons_append] at hx
  rcases mem_append.mp hx with hx | hx
  · exact hall x hx
  · rw [mem_singleton.mp hx]; exact hr

variable [DecidableEq Digest]

theorem updateState_digest (slot : ActorState Digest) (o : ReadObservation Digest) :
    (updateState slot o).digest = o.digest := by
  unfold updateState
  split
  · rfl
  · split <;> rfl

theorem whole_updateState {o : ReadObservation Digest} (h : (updateState slot o).whole = true) :
    o.whole = true ∨ slot.whole = true ∧ slot.digest = o.digest := by
  unfold updateState at h
  by_cases ho : o.whole = true
  · exact Or.inl ho
  · rw [if_neg ho] at h
    by_cases hd : slot.digest ≠ o.digest
    · rw [if_pos hd] at h; cases h
    · rw [if_neg hd] at h; exact Or.inr ⟨h, not_not.mp hd⟩

theorem tells_updateState {reads : List (PastRead Digest)} (r : PastRead Digest)
    (h : Tells slot reads) : Tells (updateState slot r.observation) (reads ++ [r]) where
  last := by rw [updateState_digest]; exact LastIs.concat reads r
  whole := by
    intro hw
    rw [updateState_digest]
    rcases whole_updateState hw with ho | ⟨hs, hd⟩
    · exact SeenWhole.concat_whole reads ho
    · rw [← hd]; exact (h.whole hs).concat_same hd.symm

theorem tells_first (reads : List (PastRead Digest)) (r : PastRead Digest) :
    Tells (updateState (freshState r.observation) r.observation) (reads ++ [r]) where
  last := by rw [updateState_digest]; exact LastIs.concat reads r
  whole := by
    intro hw
    rw [updateState_digest]
    rcases whole_updateState hw with ho | ⟨ho, -⟩
    · exact SeenWhole.concat_whole reads ho
    · exact SeenWhole.concat_whole reads ho

variable {a : Actor}

theorem Actor.eq_of_name {b : Actor} (h : a.name = b.name) : a = b := by
  cases a
  cases b
  cases h
  rfl

omit [DecidableEq Digest] in
theorem readsOf_concat (history : List (PastRead Digest)) (r : PastRead Digest) (a : Actor)
    (key : Text) : readsOf (history ++ [r]) a key =
      readsOf history a key ++ if r.actor = some a ∧ r.observation.key = key then [r] else [] := by
  rw [readsOf, filter_append]
  by_cases h : r.actor = some a ∧ r.observation.key = key
  · simp [readsOf, h]
  · simp [readsOf, h]

structure Evident (digest : Bytes → Digest) (s : State Digest) : Prop where
  retained : s.registry.reads <:+ s.history.map PastRead.observation
  named : ∀ r ∈ s.history, r.observation.actor = (r.actor.map Actor.name).getD []
  shown : ∀ r ∈ s.history, r.observation.digest = digest r.content
  stamped : Stamped s.registry.reads s.registry.actorState
  tells : ∀ name key slot, s.registry.actorState.lookup (name, key) = some slot →
    ∃ a : Actor, a.name = name ∧ Tells slot (readsOf s.history a key)
  bounded : s.registry.reads.length ≤ max s.stampLimit 1

section StoreRead

variable {digest : Bytes → Digest} {history : List (PastRead Digest)} {reg : Registry Digest}
  (maxReadStamps : ℕ) (r : PastRead Digest)

theorem reads_storeRead_suffix (h : reg.reads <:+ history.map PastRead.observation) :
    (storeRead maxReadStamps reg r.actor r.observation).reads <:+
      (history ++ [r]).map PastRead.observation := by
  have hpush : reg.reads ++ [r.observation] <:+ (history ++ [r]).map PastRead.observation := by
    obtain ⟨front, hfront⟩ := h
    exact ⟨front, by rw [← append_assoc, hfront, map_append]; rfl⟩
  exact (evictOld_suffix _ _ _ _).trans hpush

theorem mem_reads_storeRead :
    r.observation ∈ (storeRead maxReadStamps reg r.actor r.observation).reads := by
  have hsuf := evictOld_suffix (max maxReadStamps 1) (reg.reads ++ [r.observation]) reg.actorState
    reg.readsDropped
  have hlen := length_evictOld (max maxReadStamps 1) (reg.reads ++ [r.observation]) reg.actorState
    reg.readsDropped
  have hne : (evictOld (max maxReadStamps 1) (reg.reads ++ [r.observation]) reg.actorState
      reg.readsDropped).1 ≠ [] := by
    intro hnil
    rw [hnil, length_append] at hlen
    simp only [length_nil, length_cons] at hlen
    omega
  have hlast := hsuf.getLast hne
  rw [getLast_append_singleton] at hlast
  have hmem := getLast_mem hne
  rw [hlast] at hmem
  exact hmem

theorem stamped_storeRead (h : Stamped reg.reads reg.actorState)
    (hname : r.observation.actor = (r.actor.map Actor.name).getD []) :
    Stamped (storeRead maxReadStamps reg r.actor r.observation).reads
      (storeRead maxReadStamps reg r.actor r.observation).actorState := by
  have hpushed : Stamped (reg.reads ++ [r.observation]) reg.actorState := by
    intro name key slot hslot
    obtain ⟨o, ho, hn, hk⟩ := h name key slot hslot
    exact ⟨o, mem_append_left _ ho, hn, hk⟩
  have hevicted := evictOld_stamped (max maxReadStamps 1) _ _ reg.readsDropped hpushed
  have hmem := @mem_reads_storeRead _ _ reg maxReadStamps r
  intro name key slot hslot
  cases ha : r.actor with
  | none =>
    simp only [storeRead, ha] at hslot ⊢
    exact hevicted name key slot hslot
  | some a =>
    simp only [storeRead, ha, AList.lookup_insert_if] at hslot
    by_cases hk : (name, key) = (a.name, r.observation.key)
    · obtain ⟨rfl, rfl⟩ := Prod.ext_iff.mp hk
      rw [ha] at hmem hname
      exact ⟨r.observation, hmem, hname, rfl⟩
    · rw [if_neg hk] at hslot
      exact hevicted name key slot hslot

theorem tells_storeRead (h : ∀ name key slot, reg.actorState.lookup (name, key) = some slot →
      ∃ a : Actor, a.name = name ∧ Tells slot (readsOf history a key)) :
    ∀ name key slot, (storeRead maxReadStamps reg r.actor r.observation).actorState.lookup
        (name, key) = some slot →
      ∃ a : Actor, a.name = name ∧ Tells slot (readsOf (history ++ [r]) a key) := by
  have hold : ∀ name key slot, (evictOld (max maxReadStamps 1) (reg.reads ++ [r.observation])
      reg.actorState reg.readsDropped).2.1.lookup (name, key) = some slot →
      ∃ a : Actor, a.name = name ∧ Tells slot (readsOf history a key) :=
    fun name key slot hslot => h name key slot (evictOld_lookup _ _ _ _ hslot)
  intro name key slot hslot
  cases ha : r.actor with
  | none =>
    simp only [storeRead, ha] at hslot
    obtain ⟨b, hb, ht⟩ := hold name key slot hslot
    refine ⟨b, hb, ?_⟩
    rw [readsOf_concat, if_neg (by simp [ha]), append_nil]
    exact ht
  | some a =>
    simp only [storeRead, ha, AList.lookup_insert_if] at hslot
    by_cases hk : (name, key) = (a.name, r.observation.key)
    · obtain ⟨rfl, rfl⟩ := Prod.ext_iff.mp hk
      rw [if_pos hk] at hslot
      refine ⟨a, rfl, ?_⟩
      rw [readsOf_concat, if_pos ⟨ha, rfl⟩, ← Option.some.inj hslot]
      generalize hprev : AList.lookup (a.name, r.observation.key) _ = prev
      cases prev with
      | none => exact tells_first _ r
      | some old =>
        obtain ⟨b, hb, ht⟩ := hold _ _ old hprev
        rw [Actor.eq_of_name hb] at ht
        exact tells_updateState r ht
    · rw [if_neg hk] at hslot
      obtain ⟨b, rfl, ht⟩ := hold name key slot hslot
      refine ⟨b, rfl, ?_⟩
      rw [readsOf_concat, if_neg, append_nil]
      · exact ht
      · rintro ⟨hab, rfl⟩
        rw [ha] at hab
        cases hab
        exact hk rfl

end StoreRead

variable {s : State Digest}

theorem evident_recordRead {digest : Bytes → Digest} (h : Evident digest s) (args : ReadArgs) :
    Evident digest (recordRead digest s args) := by
  simp only [recordRead]
  generalize (resolveKey s.files s.settings s.registry args.path).1 = key
  generalize (resolveKey s.files s.settings s.registry args.path).2.1 = fileAlias
  generalize (resolveKey s.files s.settings s.registry args.path).2.2 = aliasToKey
  set r : PastRead Digest :=
    ⟨args.actor, utf8 args.content, observe digest args key fileAlias⟩ with hr
  have hname : r.observation.actor = (r.actor.map Actor.name).getD [] := rfl
  constructor
  · exact reads_storeRead_suffix s.settings.maxReadStamps r h.retained
  · intro x hx
    rcases mem_append.mp hx with hx | hx
    · exact h.named x hx
    · rw [mem_singleton.mp hx]; exact hname
  · intro x hx
    rcases mem_append.mp hx with hx | hx
    · exact h.shown x hx
    · rw [mem_singleton.mp hx]; rfl
  · exact stamped_storeRead s.settings.maxReadStamps r h.stamped hname
  · exact tells_storeRead s.settings.maxReadStamps r h.tells
  · simp only [storeRead]
    rw [length_evictOld]
    exact min_le_left _ _

theorem beginWrite_registry (digest : Bytes → Digest) (files : Files) (settings : ActivitySettings)
    (reg : Registry Digest) (actor : Option Actor) (path : PatchPlan.Path) (intent : WriteIntent) :
    ∃ aliasToKey, (beginWrite digest files settings reg actor path intent).2 =
      { reg with aliasToKey } := by
  unfold beginWrite
  split
  · exact ⟨reg.aliasToKey, rfl⟩
  · split
    · exact ⟨reg.aliasToKey, rfl⟩
    · refine ⟨(resolveKey files settings reg path).2.2, ?_⟩
      simp only [validateWrite]
      split
      · rfl
      · split <;> rfl

theorem evident_step {digest : Bytes → Digest} (h : Evident digest s) (e : Event) :
    Evident digest (step digest s e) := by
  cases e with
  | changeFiles files => exact ⟨h.retained, h.named, h.shown, h.stamped, h.tells, h.bounded⟩
  | configure settings => exact ⟨h.retained, h.named, h.shown, h.stamped, h.tells, h.bounded⟩
  | recordRead args => exact evident_recordRead h args
  | recordWrite key => exact ⟨h.retained, h.named, h.shown, h.stamped, h.tells, h.bounded⟩
  | resolve path => exact ⟨h.retained, h.named, h.shown, h.stamped, h.tells, h.bounded⟩
  | beginWrite actor path intent =>
    obtain ⟨aliasToKey, hreg⟩ :=
      beginWrite_registry digest s.files s.settings s.registry actor path intent
    simp only [step, hreg]
    exact ⟨h.retained, h.named, h.shown, h.stamped, h.tells, h.bounded⟩

theorem evident_run (digest : Bytes → Digest) (files : Files) (settings : ActivitySettings)
    (events : List Event) : Evident digest (run digest files settings events) := by
  have hfold : ∀ s : State Digest, Evident digest s →
      Evident digest (events.foldl (step digest) s) := by
    induction events with
    | nil => exact fun s hs => hs
    | cons e events ih => exact fun s hs => ih _ (evident_step hs e)
  apply hfold
  constructor
  · exact suffix_rfl
  · exact fun _ hr => absurd hr not_mem_nil
  · exact fun _ hr => absurd hr not_mem_nil
  · intro name key slot hslot
    cases hslot
  · intro name key slot hslot
    cases hslot
  · exact Nat.zero_le _

def stampsOf (reads : List (ReadObservation Digest)) (a : Actor) (key : Text) :
    List (ReadObservation Digest) :=
  reads.filter fun o => decide (o.actor = a.name ∧ o.key = key)

omit [DecidableEq Digest] in
theorem stampsOf_history {digest : Bytes → Digest} (h : Evident digest s) (a : Actor) (key : Text) :
    stampsOf (s.history.map PastRead.observation) a key =
      (readsOf s.history a key).map PastRead.observation := by
  rw [stampsOf, filter_map, readsOf]
  congr 1
  apply filter_congr
  intro r hr
  simp only [Function.comp_apply, decide_eq_decide]
  rw [h.named r hr]
  refine and_congr_left fun _ => ?_
  cases hb : r.actor with
  | none =>
    simp only [Option.map_none, Option.getD_none, reduceCtorEq, iff_false]
    exact fun hnil => a.nonempty hnil.symm
  | some b =>
    simp only [Option.map_some, Option.getD_some, Option.some.injEq]
    exact ⟨Actor.eq_of_name, fun hba => by rw [hba]⟩

variable {key : Text}

omit [DecidableEq Digest] in
theorem newest_stamp {digest : Bytes → Digest} (h : Evident digest s)
    (hne : stampsOf s.registry.reads a key ≠ []) : (stampsOf s.registry.reads a key).getLast? =
      ((readsOf s.history a key).map PastRead.observation).getLast? := by
  rw [← stampsOf_history h]
  obtain ⟨front, hfront⟩ := h.retained
  have hsplit : stampsOf (s.history.map PastRead.observation) a key =
      stampsOf front a key ++ stampsOf s.registry.reads a key := by
    rw [← hfront, stampsOf, filter_append]; rfl
  rw [hsplit, List.getLast?_append_of_ne_nil _ hne]

theorem observed_of_overwrite {digest : Bytes → Digest} {files : Files}
    {settings : ActivitySettings} {reg : Registry Digest} {path : PatchPlan.Path} {content : Bytes}
    {guard : WriteGuard Digest} (henabled : settings.enabled = true)
    (hread : files.read path = .ok (some content))
    (hok : (beginWrite digest files settings reg (some a) path (.overwrite false)).1 = .ok guard) :
    ∃ slot, reg.actorState.lookup (a.name, guard.key) = some slot ∧
      slot.digest = digest content ∧ slot.whole = true := by
  unfold beginWrite at hok
  split at hok
  · cases hok
  · split at hok
    · cases hok
    · simp only [validateWrite, reduceCtorEq, if_false, currentState, hread, Except.map,
        Option.map_some, henabled, Bool.not_true, Bool.false_eq_true, checkIntent,
        observedState, Option.bind_some] at hok
      generalize hslot : reg.actorState.lookup _ = found at hok
      cases found with
      | none => cases hok
      | some slot =>
        simp only [checkOverwrite] at hok
        split_ifs at hok with hdigest hwhole
        cases hok
        exact ⟨slot, hslot, not_not.mp hdigest, by simpa using hwhole⟩

/-- The evidence behind a permitted overwrite of `content`: the newest retained stamp of the chat on
the file is that of its last read, which showed this content, and the reads end with reads of this
content of which the first was whole. -/
structure WholeEvidence (s : State Digest) (a : Actor) (key : Text) (content : Bytes) : Prop where
  newest : ∃ r, (stampsOf s.registry.reads a key).getLast? = some r.observation ∧
    (readsOf s.history a key).getLast? = some r ∧ r.content = content
  seen : ∃ older w newer, readsOf s.history a key = older ++ w :: newer ∧
    w.observation.whole = true ∧ ∀ r ∈ w :: newer, r.content = content

omit [DecidableEq Digest] in
theorem wholeEvidence_of_entry {digest : Bytes → Digest} (h : Evident digest s) {content : Bytes}
    (hslot : s.registry.actorState.lookup (a.name, key) = some slot)
    (hdigest : slot.digest = digest content) (hwhole : slot.whole = true)
    (hcol : ∀ r ∈ s.history, digest r.content = digest content → r.content = content) :
    WholeEvidence s a key content := by
  obtain ⟨b, hb, htells⟩ := h.tells a.name key slot hslot
  obtain rfl := Actor.eq_of_name hb
  have hcont : ∀ r ∈ readsOf s.history b key, r.observation.digest = slot.digest →
      r.content = content := by
    intro r hr hd
    have hmem := mem_of_mem_filter hr
    exact hcol r hmem (by rw [← h.shown r hmem, hd, hdigest])
  obtain ⟨o, ho, hname, hkey⟩ := h.stamped b.name key slot hslot
  have hne : stampsOf s.registry.reads b key ≠ [] :=
    ne_nil_of_mem (mem_filter.mpr ⟨ho, decide_eq_true ⟨hname, hkey⟩⟩)
  constructor
  · obtain ⟨r, hr, hd⟩ := htells.last
    refine ⟨r, ?_, hr, hcont r (List.mem_of_mem_getLast? hr) hd⟩
    rw [newest_stamp h hne, List.getLast?_map, Option.mem_def.mp hr]
    rfl
  · obtain ⟨older, w, newer, hsplit, hw, hall⟩ := htells.whole hwhole
    refine ⟨older, w, newer, hsplit, hw, fun r hr => hcont r ?_ (hall r hr)⟩
    rw [hsplit]
    exact mem_append_right _ hr

omit [DecidableEq Digest] in
theorem length_actorState_le {reads : List (ReadObservation Digest)} {states : ActorStates Digest}
    (h : Stamped reads states) : states.entries.length ≤ reads.length := by
  have hsub : states.keys ⊆ reads.map fun o => (o.actor, o.key) := by
    rintro ⟨name, key⟩ hk
    obtain ⟨slot, hslot⟩ := Option.isSome_iff_exists.mp (AList.lookup_isSome.mpr hk)
    obtain ⟨o, ho, rfl, rfl⟩ := h name key slot hslot
    exact mem_map.mpr ⟨o, ho, rfl⟩
  have hle := (subperm_of_subset states.keys_nodup hsub).length_le
  rw [length_map] at hle
  calc states.entries.length = states.keys.length := by rw [AList.keys, List.keys, length_map]
    _ ≤ reads.length := hle

/-- After any run, a chat may overwrite a file whole only if its newest retained read of the file
showed the present content, after a whole read of that content and no other since; and what the
registry knows has stamps that are as many as the limit at most. The digest is supposed to tell the
present content from the contents that were read. -/
theorem overwrite_needs_whole_evidence (digest : Bytes → Digest) (files : Files)
    (settings : ActivitySettings) (events : List Event) :
    let s := run digest files settings events
    (∀ a path content guard, s.settings.enabled = true → s.files.read path = .ok (some content) →
      (∀ r ∈ s.history, digest r.content = digest content → r.content = content) →
      (beginWrite digest s.files s.settings s.registry (some a) path (.overwrite false)).1 =
        .ok guard → WholeEvidence s a guard.key content) ∧
    Stamped s.registry.reads s.registry.actorState ∧
    s.registry.actorState.entries.length ≤ s.registry.reads.length ∧
    s.registry.reads.length ≤ max s.stampLimit 1 := by
  have h := evident_run digest files settings events
  refine ⟨fun a path content guard henabled hread hcol hok => ?_, h.stamped,
    length_actorState_le h.stamped, h.bounded⟩
  obtain ⟨slot, hslot, hdigest, hwhole⟩ := observed_of_overwrite henabled hread hok
  exact wholeEvidence_of_entry h hslot hdigest hwhole hcol

def reader : Actor := ⟨['r'], by decide⟩

def oneFile : Files where
  canonicalCandidate := .ok
  fileAlias := fun _ => some ['1']
  read := fun _ => .ok (some (utf8 ['x', '\n', 'y']))
  isDir := fun _ => false

def readArgs (line2 : ℕ) : ReadArgs where
  actor := some reader
  path := PatchPlan.ofString ['/', 'f']
  content := ['x', '\n', 'y']
  line1 := 1
  line2 := line2
  totalLines := 2
  partialReason := none
  atMs := 0

theorem overwrite_after_whole_read :
    let s := run id oneFile ⟨true, 1, 1⟩ [.recordRead (readArgs 2), .recordRead (readArgs 1)]
    ∃ guard, (beginWrite id s.files s.settings s.registry (some reader)
        (PatchPlan.ofString ['/', 'f']) (.overwrite false)).1 = .ok guard ∧
      WholeEvidence s reader guard.key (utf8 ['x', '\n', 'y']) := by
  refine ⟨⟨some reader, ['/', 'f'], some ['1'], PatchPlan.ofString ['/', 'f'],
    some (utf8 ['x', '\n', 'y'])⟩, rfl, ?_⟩
  exact (overwrite_needs_whole_evidence id oneFile ⟨true, 1, 1⟩
    [.recordRead (readArgs 2), .recordRead (readArgs 1)]).1 reader (PatchPlan.ofString ['/', 'f'])
    (utf8 ['x', '\n', 'y']) _ rfl rfl (fun _ _ h => h) rfl

end EvidenceSafety
