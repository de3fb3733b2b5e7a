import RefactEngine.PagingEffects

/-! # The two halves of a page request

A request first finds a place, from its cursor or by freezing a snapshot, and then serves the page
there. Each half is described by its outcomes; `Evolves` is what both do to the state together.
-/
namespace WorkPaging

variable {s s' t : State} {binding : ViewBinding} {uuids : List String}

/-- The view of a new cursor is one that was there, or the one that the call has created. -/
structure Evolves (binding : ViewBinding) (uuids : List String) (s s' : State) : Prop where
  views : ∀ id v', s'.views.lookup id = some v' →
    (∃ v, s.views.lookup id = some v ∧ v'.binding = v.binding ∧ v.generation ≤ v'.generation ∧
      ∀ seq kept, v'.snapshots.lookup seq = some kept →
        v.snapshots.lookup seq = some kept ∨ v.generation < seq) ∨
    (id ∈ uuids ∧ v'.binding = binding)
  cursors : ∀ token c, s'.cursors.lookup token = some c → s.cursors.lookup token = some c ∨
    ((∃ uuid ∈ uuids, token = State.tokenOf uuid) ∧
      ((∃ v, s.views.lookup c.viewId = some v ∧ c.binding = v.binding) ∨
        (c.viewId ∈ uuids ∧ c.binding = binding)))

theorem Shrinks.evolves (h : Shrinks s s') : Evolves binding uuids s s' where
  views id v' hv := by
    obtain ⟨v, hold, hbind, hgen, hkept⟩ := h.views id v' hv
    exact .inl ⟨v, hold, hbind, hgen.ge, fun seq kept hseq => .inl (hkept seq kept hseq)⟩
  cursors token c hc := .inl (h.cursors token c hc)

theorem Shrinks.trans_evolves (h : Shrinks s t) (h' : Evolves binding uuids t s') :
    Evolves binding uuids s s' where
  views id v' hv := by
    rcases h'.views id v' hv with ⟨v, hv, hbind, hgen, hkept⟩ | hfresh
    · obtain ⟨u, hu, hbind', hgen', hkept'⟩ := h.views id v hv
      refine .inl ⟨u, hu, hbind.trans hbind', by omega, fun seq kept hseq => ?_⟩
      rcases hkept seq kept hseq with hold | hnew
      · exact .inl (hkept' seq kept hold)
      · exact .inr (by omega)
    · exact .inr hfresh
  cursors token c hc := by
    rcases h'.cursors token c hc with hold | ⟨htoken, hview⟩
    · exact .inl (h.cursors token c hold)
    · refine .inr ⟨htoken, ?_⟩
      rcases hview with ⟨v, hv, hbind⟩ | hfresh
      · obtain ⟨u, hu, hbind', -, -⟩ := h.views c.viewId v hv
        exact .inl ⟨u, hu, hbind.trans hbind'⟩
      · exact .inr hfresh

theorem Evolves.trans_shrinks (h : Evolves binding uuids s t) (h' : Shrinks t s') :
    Evolves binding uuids s s' where
  views id v' hv := by
    obtain ⟨u, hu, hbind', hgen', hkept'⟩ := h'.views id v' hv
    rcases h.views id u hu with ⟨v, hv, hbind, hgen, hkept⟩ | ⟨hfresh, hbind⟩
    · exact .inl ⟨v, hv, hbind'.trans hbind, by omega,
        fun seq kept hseq => hkept seq kept (hkept' seq kept hseq)⟩
    · exact .inr ⟨hfresh, hbind'.trans hbind⟩
  cursors token c hc := h.cursors token c (h'.cursors token c hc)

variable {cursor : Cursor} {uuid : String}

theorem Evolves.insert_cursor (h : Evolves binding uuids s t) {view : View} (huuid : uuid ∈ uuids)
    (hview : t.views.lookup cursor.viewId = some view) (hbind : cursor.binding = view.binding) :
    Evolves binding uuids s
      { t with cursors := t.cursors.insert (State.tokenOf uuid) cursor } where
  views := h.views
  cursors token c hc := by
    simp only [AList.lookup_insert_if] at hc
    split at hc
    · rename_i htoken
      cases hc
      refine .inr ⟨⟨uuid, huuid, htoken⟩, ?_⟩
      rcases h.views _ _ hview with ⟨v, hv, hsame, -, -⟩ | ⟨hfresh, hsame⟩
      · exact .inl ⟨v, hv, hbind.trans hsame⟩
      · exact .inr ⟨hfresh, hbind.trans hsame⟩
    · exact h.cursors token c hc

structure Issued (s : State) (cursor : Cursor) (token : String) : Prop where
  found : ∃ c, s.cursors.lookup token = some c ∧ c.viewId = cursor.viewId ∧
    c.generation = cursor.generation ∧ c.offset = cursor.offset

theorem issueCursor_views (s : State) (settings : PagingSettings) (cursor : Cursor) (nowMs : ℕ)
    (uuid : String) : (s.issueCursor settings cursor nowMs uuid).1.views = s.views := by
  have hroom : (evictWhile
      (fun state : State => decide (settings.maxWorkCursors ≤ state.cursors.entries.length))
      State.evictCursor s.cursors.entries.length s).1.views = s.views := by
    apply evictWhile_induct (fun state : State => state.views = s.views)
    · intro s₁ s₂ h₁ h₂
      obtain ⟨c, -, rfl⟩ := Option.map_eq_some_iff.mp h₂
      exact h₁
    · rfl
  unfold State.issueCursor
  split
  · rfl
  · split
    · rename_i heq
      rw [heq] at hroom
      exact hroom
    · rename_i heq
      rw [heq] at hroom
      exact hroom

variable {settings : PagingSettings}

variable {nowMs : ℕ}

theorem issueCursor_ok {token : String}
    (h : s.issueCursor settings cursor nowMs uuid = (s', .ok token)) : Issued s' cursor token := by
  unfold State.issueCursor at h
  split at h
  · rename_i hfind
    cases h
    obtain ⟨entry, hentry, rfl⟩ := Option.map_eq_some_iff.mp hfind
    have hmatch := List.find?_some hentry
    simp only [Bool.and_eq_true, decide_eq_true_eq] at hmatch
    exact ⟨entry.2, AList.mem_entries_iff.mp (List.mem_of_find?_eq_some hentry),
      hmatch.1.1.1, hmatch.1.1.2, hmatch.1.2⟩
  · split at h
    · cases h
    · cases h
      exact ⟨cursor, AList.lookup_insert _, rfl, rfl, rfl⟩

theorem issueCursor_evolves {view : View} (h : Evolves binding uuids s t)
    (huuid : uuid ∈ uuids) (hview : t.views.lookup cursor.viewId = some view)
    (hbind : cursor.binding = view.binding) :
    Evolves binding uuids s (t.issueCursor settings cursor nowMs uuid).1 := by
  have hviews := issueCursor_views t settings cursor nowMs uuid
  have hroom : Shrinks t (evictWhile
      (fun state : State => decide (settings.maxWorkCursors ≤ state.cursors.entries.length))
      State.evictCursor t.cursors.entries.length t).1 :=
    shrinks_evictWhile (fun _ _ => shrinks_evictCursor) _ _
  unfold State.issueCursor at hviews ⊢
  split
  · exact h
  · split
    · rename_i heq
      rw [heq] at hroom
      exact h.trans_shrinks hroom
    · rename_i hfind _ roomy heq
      rw [heq] at hroom
      simp only [hfind, heq] at hviews
      apply (h.trans_shrinks hroom).insert_cursor huuid _ hbind
      rw [hviews]
      exact hview

structure PageOf (saved : FrozenView) (call : PageCall) (place : Place) (page : FrozenPage) :
    Prop where
  snapshotId : page.window.snapshotId = place.viewId
  seq : page.window.seq = place.seq
  offset : page.window.offset = place.offset
  fin : page.window.fin = min (place.offset + call.limit) saved.snapshot.total
  snapshot : page.snapshot = saved.snapshot.slice place.offset page.window.fin
  total : page.total = saved.snapshot.total
  inside : place.offset ≤ saved.snapshot.total

def nextPlace (call : PageCall) (place : Place) (saved : FrozenView) : Cursor :=
  ⟨call.binding, place.viewId, place.seq, min (place.offset + call.limit) saved.snapshot.total,
    saved.expiresAt⟩

inductive ServeOutcome (t : State) (call : PageCall) (place : Place) :
    State × Except WorkError FrozenPage → Prop where
  | expired : ServeOutcome t call place (t, .error .cursorExpired)
  | refused (saved : FrozenView) (error : WorkError) :
      t.frozenAt place.viewId place.seq = some saved →
      ServeOutcome t call place (t.removeSnapshot place.viewId place.seq, .error error)
  | last (saved : FrozenView) (page : FrozenPage) :
      t.frozenAt place.viewId place.seq = some saved → PageOf saved call place page →
      page.window.nextCursor = none → page.window.fin = saved.snapshot.total →
      ServeOutcome t call place (t.touch place.viewId call.nowMs, .ok page)
  | stuck (saved : FrozenView) (issued : State) (error : WorkError) :
      t.frozenAt place.viewId place.seq = some saved →
      (t.touch place.viewId call.nowMs).issueCursor call.settings (nextPlace call place saved)
        call.nowMs call.tokenUuid = (issued, .error error) →
      ServeOutcome t call place (issued, .error error)
  | next (saved : FrozenView) (page : FrozenPage) (issued : State) (token : String) :
      t.frozenAt place.viewId place.seq = some saved → PageOf saved call place page →
      page.window.nextCursor = some token → page.window.fin < saved.snapshot.total →
      (t.touch place.viewId call.nowMs).issueCursor call.settings (nextPlace call place saved)
        call.nowMs call.tokenUuid = (issued, .ok token) →
      ServeOutcome t call place (issued, .ok page)

theorem servePage_outcome (t : State) (call : PageCall) (fingerprint : String) (place : Place) :
    ServeOutcome t call place (servePage t call fingerprint place) := by
  unfold servePage
  split
  · exact .expired
  · rename_i saved hsaved
    split
    · exact .refused saved _ hsaved
    · split
      · exact .expired
      · rename_i hinside
        simp only
        split
        · split
          · rename_i issued error hissue
            exact .stuck saved issued error hsaved hissue
          · rename_i hless _ issued token hissue
            exact .next saved _ issued token hsaved
              ⟨rfl, rfl, rfl, rfl, rfl, rfl, by omega⟩ rfl hless hissue
        · rename_i hless
          refine .last saved _ hsaved ⟨rfl, rfl, rfl, rfl, rfl, rfl, by omega⟩ rfl ?_
          simp only at hless ⊢
          omega

theorem frozenAt_touch (t : State) (viewId : String) (nowMs : ℕ) (id : String) (seq : ℕ) :
    (t.touch viewId nowMs).frozenAt id seq = t.frozenAt id seq := by
  simp only [State.frozenAt, State.touch, AList.lookup_modify]
  split
  · rw [Option.bind_map]
    rfl
  · rfl

theorem issued_frozenAt {result : Except WorkError String}
    (h : t.issueCursor settings cursor nowMs uuid = (s', result)) (id : String) (seq : ℕ) :
    s'.frozenAt id seq = t.frozenAt id seq := by
  have hviews := issueCursor_views t settings cursor nowMs uuid
  rw [h] at hviews
  unfold State.frozenAt
  rw [hviews]

def BoundAt (t : State) (binding : ViewBinding) (viewId : String) : Prop :=
  ∀ view, t.views.lookup viewId = some view → view.binding = binding

variable {call : PageCall} {fingerprint : String} {place : Place}

theorem servePage_evolves (h : Evolves binding uuids s t)
    (hbound : BoundAt t call.binding place.viewId) (huuid : call.tokenUuid ∈ uuids) :
    Evolves binding uuids s (servePage t call fingerprint place).1 := by
  have htouch := h.trans_shrinks (shrinks_touch t place.viewId call.nowMs)
  have hissue : ∀ saved, t.frozenAt place.viewId place.seq = some saved →
      Evolves binding uuids s ((t.touch place.viewId call.nowMs).issueCursor call.settings
        (nextPlace call place saved) call.nowMs call.tokenUuid).1 := by
    intro saved hsaved
    have htouched := (frozenAt_touch t place.viewId call.nowMs _ _).trans hsaved
    obtain ⟨view, hview, -⟩ := Option.bind_eq_some_iff.mp htouched
    obtain ⟨old, hold, hsame, -, -⟩ := (shrinks_touch t place.viewId call.nowMs).views _ _ hview
    exact issueCursor_evolves htouch huuid hview ((hbound old hold).symm.trans hsame.symm)
  have hout := servePage_outcome t call fingerprint place
  generalize servePage t call fingerprint place = result at hout
  cases hout with
  | expired => exact h
  | refused saved error hsaved => exact h.trans_shrinks (shrinks_removeSnapshot t _ _)
  | last => exact htouch
  | stuck saved issued error hsaved heq =>
    have hevo := hissue saved hsaved
    rw [heq] at hevo
    exact hevo
  | next saved page issued token hsaved _ _ _ heq =>
    have hevo := hissue saved hsaved
    rw [heq] at hevo
    exact hevo

theorem servePage_within (h : WithinLimits settings t) :
    WithinLimits settings (servePage t call fingerprint place).1 := by
  have htouch : WithinLimits settings (t.touch place.viewId call.nowMs) :=
    h.of_subperm (frozen_touch t place.viewId call.nowMs).subperm
  have hissue : ∀ (cursor : Cursor), WithinLimits settings
      ((t.touch place.viewId call.nowMs).issueCursor call.settings cursor call.nowMs
        call.tokenUuid).1 := by
    intro cursor
    apply htouch.of_subperm
    rw [frozen_eq, frozen_eq, issueCursor_views]
  have hout := servePage_outcome t call fingerprint place
  generalize servePage t call fingerprint place = result at hout
  cases hout with
  | expired => exact h
  | refused saved error hsaved =>
    exact h.of_subperm ((List.sublist_cons_self _ _).subperm.trans
      (frozen_removeSnapshot hsaved).symm.subperm)
  | last => exact htouch
  | stuck saved issued error hsaved heq =>
    have hwithin := hissue (nextPlace call place saved)
    rw [heq] at hwithin
    exact hwithin
  | next saved page issued token hsaved _ _ _ heq =>
    have hwithin := hissue (nextPlace call place saved)
    rw [heq] at hwithin
    exact hwithin

structure Served (call : PageCall) (place : Place) (saved : FrozenView) (page : FrozenPage)
    (s' : State) : Prop where
  pageOf : PageOf saved call place page
  kept : s'.frozenAt place.viewId place.seq = some saved
  finished : page.window.nextCursor = none → page.window.fin = saved.snapshot.total
  continued : ∀ token, page.window.nextCursor = some token →
    page.window.fin < saved.snapshot.total ∧ ∃ c, s'.cursors.lookup token = some c ∧
      c.viewId = place.viewId ∧ c.generation = place.seq ∧ c.offset = page.window.fin

theorem servePage_served {page : FrozenPage} (h : (servePage t call fingerprint place).2 =
      .ok page) :
    ∃ saved, t.frozenAt place.viewId place.seq = some saved ∧
      Served call place saved page (servePage t call fingerprint place).1 := by
  have hout := servePage_outcome t call fingerprint place
  generalize servePage t call fingerprint place = result at h hout
  cases hout with
  | expired => cases h
  | refused => cases h
  | stuck => cases h
  | last saved page hsaved hpage hnone hfin =>
    cases h
    refine ⟨saved, hsaved, hpage, (frozenAt_touch t _ _ _ _).trans hsaved, fun _ => hfin, ?_⟩
    intro token htoken
    rw [hnone] at htoken
    cases htoken
  | next saved page issued token hsaved hpage htoken hless heq =>
    cases h
    refine ⟨saved, hsaved, hpage, ?_, ?_, ?_⟩
    · exact (issued_frozenAt heq _ _).trans ((frozenAt_touch t _ _ _ _).trans hsaved)
    · intro hnone
      rw [hnone] at htoken
      cases htoken
    · intro token' htoken'
      cases htoken.symm.trans htoken'
      obtain ⟨c, hc, hview, hseq, hoffset⟩ := (issueCursor_ok heq).found
      exact ⟨hless, c, hc, hview, hseq, hoffset.trans hpage.fin.symm⟩

theorem latest_cases (t : State) (call : PageCall) :
    (∃ view, t.views.lookup (latest t call).1 = some view ∧ view.binding = call.binding ∧
      view.generation = (latest t call).2) ∨ latest t call = (call.viewUuid, 0) := by
  unfold latest
  cases hfind : t.views.entries.find? fun view =>
      decide (view.2.binding = call.binding) && decide (view.2.snapshots.entries ≠ []) with
  | none => exact .inr rfl
  | some entry =>
    left
    have hmatch := List.find?_some hfind
    simp only [Bool.and_eq_true, decide_eq_true_eq] at hmatch
    exact ⟨entry.2, AList.mem_entries_iff.mp (List.mem_of_find?_eq_some hfind), hmatch.1, rfl⟩

theorem reserveSnapshot_subperm (s : State) (settings : PagingSettings) (units bytes : ℕ)
    (viewId : String) :
    (s.reserveSnapshot settings units bytes viewId).1.frozen.Subperm s.frozen := by
  unfold State.reserveSnapshot
  split
  · exact .refl _
  · split
    · exact .refl _
    · have hroom : (evictWhile (fun state => state.leavesNoRoom settings units bytes)
          State.evictSnapshot s.frozen.length s).1.frozen.Subperm s.frozen :=
        evictWhile_induct (fun state : State => state.frozen.Subperm s.frozen)
          (fun _ _ h₁ h₂ => (evictSnapshot_subperm h₂).trans h₁) _ _ (.refl _)
      split
      · rename_i roomy heq
        rw [heq] at hroom
        exact hroom
      · rename_i roomy heq
        rw [heq] at hroom
        have hplace : (evictWhile (fun state => state.lacksPlace settings viewId)
            State.evictView roomy.views.entries.length roomy).1.frozen.Subperm roomy.frozen :=
          evictWhile_induct (fun state : State => state.frozen.Subperm roomy.frozen)
            (fun _ _ h₁ h₂ => (evictView_subperm h₂).trans h₁) _ _ (.refl _)
        split
        · rename_i placed heq'
          rw [heq'] at hplace
          exact hplace.trans hroom
        · rename_i placed heq'
          rw [heq'] at hplace
          exact hplace.trans hroom

inductive BeginOutcome (t : State) (call : PageCall) :
    State × Except WorkError Place → Prop where
  | failed (s' : State) (error : WorkError) : Shrinks t s' → s'.frozen.Subperm t.frozen →
      BeginOutcome t call (s', .error error)
  | unchanged : (t.frozenAt (latest t call).1 (latest t call).2).isSome →
      BeginOutcome t call (t, .ok ⟨(latest t call).1, (latest t call).2, 0⟩)
  | filed (reserved : State) (kept : FrozenView) : Shrinks t reserved →
      WithinLimits call.settings (reserved.fileSnapshot call.binding (latest t call).1
        ((latest t call).2 + 1) call.nowMs kept) →
      BeginOutcome t call
        (reserved.fileSnapshot call.binding (latest t call).1 ((latest t call).2 + 1)
          call.nowMs kept, .ok ⟨(latest t call).1, (latest t call).2 + 1, 0⟩)

theorem beginFirst_outcome (t : State) (call : PageCall) (fingerprint : String) (bytes : ℕ) :
    BeginOutcome t call (beginFirst t call fingerprint bytes) := by
  unfold beginFirst
  split
  · exact .failed t _ (.refl t) (.refl _)
  split
  · exact .failed t _ (.refl t) (.refl _)
  simp only
  split
  · rename_i hsame
    obtain ⟨hkept, -⟩ := (Option.any_eq_true_iff_get _ _).mp hsame
    exact .unchanged hkept
  split
  · exact .failed t _ (.refl t) (.refl _)
  have hshrinks := shrinks_reserveSnapshot t call.settings call.current.units bytes
    (latest t call).1
  have hsub := reserveSnapshot_subperm t call.settings call.current.units bytes (latest t call).1
  split
  · rename_i reserved error heq
    rw [heq] at hshrinks hsub
    exact .failed reserved error hshrinks hsub
  · rename_i reserved heq
    rw [heq] at hshrinks
    exact .filed reserved (freeze call fingerprint bytes) hshrinks
      (reserveSnapshot_room heq _ _ _ _ rfl rfl)

theorem fileSnapshot_lookup (s : State) (binding : ViewBinding) (viewId : String) (seq nowMs : ℕ)
    (kept : FrozenView) (id : String) :
    (s.fileSnapshot binding viewId seq nowMs kept).views.lookup id =
      if id = viewId then
        let view := (s.views.lookup viewId).getD ⟨binding, "", seq, nowMs, ∅⟩
        some { view with generation := seq, snapshots := view.snapshots.insert seq kept }
      else s.views.lookup id := by
  simp only [State.fileSnapshot, AList.lookup_insert_if]

variable {reserved : State}

variable {viewId : String} {seq : ℕ}

theorem base_view (hshrinks : Shrinks t reserved)
    (hlatest : (∃ view, t.views.lookup viewId = some view ∧ view.binding = call.binding ∧
      view.generation = seq) ∨ t.views.lookup viewId = none)
    (base : View)
    (hbase : base = (reserved.views.lookup viewId).getD
      ⟨call.binding, "", seq + 1, call.nowMs, ∅⟩) :
    base.binding = call.binding ∧ ∀ q kept, base.snapshots.lookup q = some kept →
      ∃ v, t.views.lookup viewId = some v ∧ v.snapshots.lookup q = some kept := by
  cases hreserved : reserved.views.lookup viewId with
  | none =>
    rw [hreserved] at hbase
    subst hbase
    refine ⟨rfl, fun q kept hkept => ?_⟩
    cases hkept
  | some view =>
    rw [hreserved] at hbase
    obtain ⟨v, hv, hbind, -, hkept⟩ := hshrinks.views viewId view hreserved
    subst hbase
    refine ⟨?_, fun q kept hq => ⟨v, hv, hkept q kept hq⟩⟩
    rcases hlatest with ⟨v', hv', hsame, -⟩ | hnone
    · rw [hv] at hv'
      cases hv'
      exact hbind.trans hsame
    · rw [hv] at hnone
      cases hnone

/-- A place for a first page: its view has the binding of the call and is at the generation of
the place. -/
structure Begun (call : PageCall) (place : Place) (s' : State) : Prop where
  offset : place.offset = 0
  view : ∀ view, s'.views.lookup place.viewId = some view →
    view.binding = call.binding ∧ view.generation = place.seq

theorem fileSnapshot_evolves {kept : FrozenView}
    (hshrinks : Shrinks t reserved) (huuid : call.viewUuid ∈ uuids)
    (hlatest : (∃ view, t.views.lookup viewId = some view ∧ view.binding = call.binding ∧
      view.generation = seq) ∨ (viewId = call.viewUuid ∧ t.views.lookup viewId = none)) :
    Evolves call.binding uuids t
      (reserved.fileSnapshot call.binding viewId (seq + 1) call.nowMs kept) := by
  obtain ⟨hbind, hsub⟩ := base_view hshrinks (hlatest.imp id And.right) _ rfl
  constructor
  · intro id v' hv
    rw [fileSnapshot_lookup] at hv
    split at hv
    · rename_i hid
      subst hid
      cases hv
      rcases hlatest with ⟨v, hv, hsame, hgen⟩ | ⟨hid, hnone⟩
      · refine .inl ⟨v, hv, hbind.trans hsame.symm, by simp only; omega, ?_⟩
        intro q held hheld
        simp only [AList.lookup_insert_if] at hheld
        split at hheld
        · right
          omega
        · obtain ⟨v₂, hv₂, hq⟩ := hsub q held hheld
          rw [hv] at hv₂
          cases hv₂
          exact .inl hq
      · exact .inr ⟨hid ▸ huuid, hbind⟩
    · exact hshrinks.evolves.views id v' hv
  · intro token c hc
    exact .inl (hshrinks.cursors token c hc)

theorem fileSnapshot_begun {kept : FrozenView} (hshrinks : Shrinks t reserved)
    (hlatest : (∃ view, t.views.lookup viewId = some view ∧ view.binding = call.binding ∧
      view.generation = seq) ∨ t.views.lookup viewId = none) :
    Begun call ⟨viewId, seq + 1, 0⟩
      (reserved.fileSnapshot call.binding viewId (seq + 1) call.nowMs kept) where
  offset := rfl
  view view hview := by
    rw [fileSnapshot_lookup, if_pos rfl] at hview
    cases hview
    exact ⟨(base_view hshrinks hlatest _ rfl).1, rfl⟩

/-- Beginning at a first page: what the state becomes, and where the page is if there is one. -/
theorem beginFirst_spec (t : State) (call : PageCall) (fingerprint : String) (bytes : ℕ)
    (huuid : call.viewUuid ∈ uuids) (hfresh : t.views.lookup call.viewUuid = none) :
    Evolves call.binding uuids t (beginFirst t call fingerprint bytes).1 ∧
      ∀ place, (beginFirst t call fingerprint bytes).2 = .ok place →
        Begun call place (beginFirst t call fingerprint bytes).1 := by
  have hout := beginFirst_outcome t call fingerprint bytes
  generalize beginFirst t call fingerprint bytes = result at hout
  have hlatest : (∃ view, t.views.lookup (latest t call).1 = some view ∧
      view.binding = call.binding ∧ view.generation = (latest t call).2) ∨
      ((latest t call).1 = call.viewUuid ∧ t.views.lookup (latest t call).1 = none) := by
    rcases latest_cases t call with hfound | hnew
    · exact .inl hfound
    · rw [hnew]
      exact .inr ⟨rfl, hfresh⟩
  cases hout with
  | failed s' error hshrinks =>
    refine ⟨hshrinks.evolves, fun place hplace => ?_⟩
    cases hplace
  | unchanged hsome =>
    refine ⟨(Shrinks.refl t).evolves, fun place hplace => ?_⟩
    cases hplace
    refine ⟨rfl, fun view hview => ?_⟩
    rcases hlatest with ⟨v, hv, hsame⟩ | ⟨-, hnone⟩
    · rw [hv] at hview
      cases hview
      exact hsame
    · rw [hnone] at hview
      cases hview
  | filed reserved kept hshrinks =>
    refine ⟨fileSnapshot_evolves hshrinks huuid hlatest, fun place hplace => ?_⟩
    cases hplace
    exact fileSnapshot_begun hshrinks (hlatest.imp id And.right)

theorem beginFirst_within {bytes : ℕ} (h : WithinLimits call.settings t) :
    WithinLimits call.settings (beginFirst t call fingerprint bytes).1 := by
  have hout := beginFirst_outcome t call fingerprint bytes
  generalize beginFirst t call fingerprint bytes = result at hout
  cases hout with
  | failed s' error _ hsub => exact h.of_subperm hsub
  | unchanged => exact h
  | filed reserved kept _ hwithin => exact hwithin

end WorkPaging
