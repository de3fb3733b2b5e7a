import RefactEngine.PagingCalls
import Mathlib.Data.List.Chain

/-! # Pages of one snapshot are never spliced

A pair of a view and a sequence number names one snapshot for ever, and a token one place in it:
new snapshots take a number above the generation of their view, and new views and tokens take a
fresh identifier.
-/
namespace WorkPaging

open List

variable {host : Host} {s s' t : State} {binding : ViewBinding} {uuids used : List String}

/-- Every identifier in use was generated, and a cursor has the binding of its view. -/
structure Inv (used : List String) (s : State) : Prop where
  viewIds : ∀ id view, s.views.lookup id = some view → id ∈ used
  tokens : ∀ token c, s.cursors.lookup token = some c →
    (∃ uuid ∈ used, token = State.tokenOf uuid) ∧ c.viewId ∈ used
  bound : ∀ token c view, s.cursors.lookup token = some c →
    s.views.lookup c.viewId = some view → view.binding = c.binding

theorem Inv.empty : Inv [] State.empty where
  viewIds _ _ h := by cases h
  tokens _ _ h := by cases h
  bound _ _ _ h := by cases h

theorem tokenOf_inj {uuid uuid' : String} (h : State.tokenOf uuid = State.tokenOf uuid') :
    uuid = uuid' := by
  unfold State.tokenOf at h
  exact (String.append_right_inj _).mp h

theorem Inv.step (h : Inv used s) (hevo : Evolves binding uuids s s')
    (hfresh : ∀ uuid ∈ uuids, uuid ∉ used) : Inv (uuids ++ used) s' where
  viewIds id view hview := by
    rw [mem_append]
    rcases hevo.views id view hview with ⟨v, hv, -⟩ | ⟨hnew, -⟩
    · exact .inr (h.viewIds id v hv)
    · exact .inl hnew
  tokens token c hc := by
    rcases hevo.cursors token c hc with hold | ⟨⟨uuid, huuid, htoken⟩, hview⟩
    · obtain ⟨⟨uuid, huuid, htoken⟩, hview⟩ := h.tokens token c hold
      exact ⟨⟨uuid, mem_append_right _ huuid, htoken⟩, mem_append_right _ hview⟩
    · refine ⟨⟨uuid, mem_append_left _ huuid, htoken⟩, ?_⟩
      rcases hview with ⟨v, hv, -⟩ | ⟨hnew, -⟩
      · exact mem_append_right _ (h.viewIds _ v hv)
      · exact mem_append_left _ hnew
  bound token c view hc hview := by
    rcases hevo.cursors token c hc with hold | ⟨-, hcursor⟩
    · rcases hevo.views _ view hview with ⟨v, hv, hsame, -⟩ | ⟨hnew, -⟩
      · exact hsame.trans (h.bound token c v hold hv)
      · exact absurd (h.tokens token c hold).2 (hfresh _ hnew)
    · rcases hevo.views _ view hview with ⟨v, hv, hsame, -⟩ | ⟨hnew, hbind⟩
      · rcases hcursor with ⟨v', hv', hbind⟩ | ⟨hnew, -⟩
        · rw [hv] at hv'
          cases hv'
          exact hsame.trans hbind.symm
        · exact absurd (h.viewIds _ v hv) (hfresh _ hnew)
      · rcases hcursor with ⟨v', hv', -⟩ | ⟨-, hbind'⟩
        · exact absurd (h.viewIds _ v' hv') (hfresh _ hnew)
        · exact hbind.trans hbind'.symm

structure Pinned (binding : ViewBinding) (S : WorkSnapshot) (id : String) (seq : ℕ)
    (used : List String) (s : State) : Prop where
  known : id ∈ used
  view : ∀ view, s.views.lookup id = some view → view.binding = binding ∧ seq ≤ view.generation
  kept : ∀ kept, s.frozenAt id seq = some kept → kept.snapshot = S

variable {S : WorkSnapshot} {owner : ViewBinding}

theorem Pinned.step {id : String} {seq : ℕ} (h : Pinned owner S id seq used s)
    (hevo : Evolves binding uuids s s') (hfresh : ∀ uuid ∈ uuids, uuid ∉ used) :
    Pinned owner S id seq (uuids ++ used) s' where
  known := mem_append_right _ h.known
  view view hview := by
    rcases hevo.views id view hview with ⟨v, hv, hbind, hgen, -⟩ | ⟨hnew, -⟩
    · obtain ⟨hsame, hseq⟩ := h.view v hv
      exact ⟨hbind.trans hsame, hseq.trans hgen⟩
    · exact absurd h.known (hfresh id hnew)
  kept kept hkept := by
    obtain ⟨view, hview, hseq⟩ := Option.bind_eq_some_iff.mp hkept
    rcases hevo.views id view hview with ⟨v, hv, -, -, hsub⟩ | ⟨hnew, -⟩
    · rcases hsub seq kept hseq with hold | hless
      · exact h.kept kept (Option.bind_eq_some_iff.mpr ⟨v, hv, hold⟩)
      · have hbelow := (h.view v hv).2
        omega
    · exact absurd h.known (hfresh id hnew)

structure Means (token : String) (binding : ViewBinding) (place : Place) (used : List String)
    (s : State) : Prop where
  known : ∃ uuid ∈ used, token = State.tokenOf uuid
  found : ∀ c, s.cursors.lookup token = some c →
    c.binding = binding ∧ (⟨c.viewId, c.generation, c.offset⟩ : Place) = place

variable {token : String} {place : Place}

theorem Means.step (h : Means token owner place used s) (hevo : Evolves binding uuids s s')
    (hfresh : ∀ uuid ∈ uuids, uuid ∉ used) : Means token owner place (uuids ++ used) s' := by
  obtain ⟨uuid, huuid, htoken⟩ := h.known
  refine ⟨⟨uuid, mem_append_right _ huuid, htoken⟩, fun c hc => ?_⟩
  rcases hevo.cursors token c hc with hold | ⟨⟨uuid', huuid', htoken'⟩, -⟩
  · exact h.found c hold
  · have hsame : uuid = uuid' := tokenOf_inj (htoken.symm.trans htoken')
    exact absurd huuid (hfresh uuid (hsame ▸ huuid'))

variable {call : PageCall}

theorem resume_ok (h : resume host s call token = .ok place) :
    ∃ c, s.cursors.lookup token = some c ∧ c.binding = call.binding ∧
      place = ⟨c.viewId, c.generation, c.offset⟩ := by
  unfold resume at h
  split at h
  · cases h
  split at h
  · cases h
  rename_i c hc
  split at h
  · cases h
  rename_i hbind
  split at h
  · cases h
  cases h
  exact ⟨c, hc, not_not.mp hbind, rfl⟩

theorem resume_bound (h : Inv used s) (hshrinks : Shrinks s t)
    (hresume : resume host t call token = .ok place) : BoundAt t call.binding place.viewId := by
  intro view hview
  obtain ⟨c, hc, hbind, rfl⟩ := resume_ok hresume
  obtain ⟨v, hv, hsame, -, -⟩ := hshrinks.views _ view hview
  rw [hsame, h.bound token c v (hshrinks.cursors token c hc) hv, hbind]

theorem fresh_view (h : Inv used s) (hshrinks : Shrinks s t) {uuid : String}
    (hfresh : uuid ∉ used) : t.views.lookup uuid = none := by
  rw [Option.eq_none_iff_forall_ne_some]
  intro view hlook
  obtain ⟨v, hv, -⟩ := hshrinks.views _ view hlook
  exact hfresh (h.viewIds _ v hv)

theorem frozenPage_evolves (h : Inv used s) (hfresh : ∀ uuid ∈ (Call.page call).uuids,
      uuid ∉ used) :
    Evolves call.binding (Call.page call).uuids s (frozenPage host s call).1 := by
  have hview : call.viewUuid ∈ (Call.page call).uuids := by simp [Call.uuids]
  have htoken : call.tokenUuid ∈ (Call.page call).uuids := by simp [Call.uuids]
  have hprune := shrinks_pruneSnapshots s call.settings call.nowMs
  unfold frozenPage
  split
  · exact (Shrinks.refl s).evolves
  rename_i fingerprint bytes hadm
  simp only
  split
  · split
    · exact hprune.evolves
    · rename_i token _ _ place hresume
      exact servePage_evolves hprune.evolves (resume_bound h hprune hresume) htoken
  · obtain ⟨hevo, hbegun⟩ := beginFirst_spec _ call fingerprint bytes hview
      (fresh_view h hprune (hfresh _ hview))
    split
    · rename_i begun error heq
      rw [heq] at hevo
      exact hprune.trans_evolves hevo
    · rename_i begun place heq
      rw [heq] at hevo hbegun
      have hbound : BoundAt begun call.binding place.viewId :=
        fun view hlook => ((hbegun place rfl).view view hlook).1
      exact servePage_evolves (hprune.trans_evolves hevo) hbound htoken

theorem beginningCursor_evolves (call : BeginningCall) :
    Evolves binding (Call.beginning call).uuids s (beginningCursor s call).1 := by
  have htoken : call.tokenUuid ∈ (Call.beginning call).uuids := by simp [Call.uuids]
  have hprune := shrinks_pruneSnapshots s call.settings call.nowMs
  unfold beginningCursor
  split
  · exact (Shrinks.refl s).evolves
  simp only
  split
  · exact hprune.evolves
  rename_i view hview
  split
  · exact issueCursor_evolves hprune.evolves htoken hview rfl
  · split
    · exact issueCursor_evolves hprune.evolves htoken hview rfl
    · exact hprune.evolves

@[simp] theorem exec_page_state (host : Host) (s : State) (call : PageCall) :
    (exec host s (.page call)).1 = (frozenPage host s call).1 := by
  rw [exec, Prod.map_fst, id]

@[simp] theorem exec_beginning_state (host : Host) (s : State) (call : BeginningCall) :
    (exec host s (.beginning call)).1 = (beginningCursor s call).1 := by
  rw [exec, Prod.map_fst, id]

theorem exec_evolves (host : Host) (call : Call) (h : Inv used s)
    (hfresh : ∀ uuid ∈ call.uuids, uuid ∉ used) :
    ∃ binding, Evolves binding call.uuids s (exec host s call).1 := by
  cases call with
  | page call =>
    rw [exec_page_state]
    exact ⟨call.binding, frozenPage_evolves h hfresh⟩
  | beginning call =>
    rw [exec_beginning_state]
    exact ⟨⟨"", "", "", ""⟩, beginningCursor_evolves call⟩

structure Answer (s : State) (call : PageCall) (page : FrozenPage) (s' : State) (t : State)
    (place : Place) (saved : FrozenView) : Prop where
  limit : 0 < call.limit
  source : (call.cursor = none ∧ Begun call place t) ∨
    ∃ token c, call.cursor = some token ∧ s.cursors.lookup token = some c ∧
      c.binding = call.binding ∧ place = ⟨c.viewId, c.generation, c.offset⟩
  bound : BoundAt t call.binding place.viewId
  views : s'.views = (t.touch place.viewId call.nowMs).views
  served : Served call place saved page s'

variable {page : FrozenPage}

theorem servePage_views {fingerprint : String}
    (h : (servePage t call fingerprint place).2 = .ok page) :
    (servePage t call fingerprint place).1.views = (t.touch place.viewId call.nowMs).views := by
  have hout := servePage_outcome t call fingerprint place
  generalize servePage t call fingerprint place = result at h hout
  cases hout with
  | expired => cases h
  | refused => cases h
  | stuck => cases h
  | last => rfl
  | next saved page issued token _ _ _ _ heq =>
    have hviews := issueCursor_views (t.touch place.viewId call.nowMs) call.settings
      (nextPlace call place saved) call.nowMs call.tokenUuid
    rw [heq] at hviews
    exact hviews

variable {signed : String × ℕ}

theorem admission_limit (h : admission host call = .ok signed) : 0 < call.limit := by
  unfold admission at h
  split at h
  · cases h
  split at h
  · cases h
  omega

theorem frozenPage_ok (hinv : Inv used s) (hfresh : ∀ uuid ∈ (Call.page call).uuids, uuid ∉ used)
    (h : (frozenPage host s call).2 = .ok page) :
    ∃ t place saved, Answer s call page (frozenPage host s call).1 t place saved := by
  have hprune := shrinks_pruneSnapshots s call.settings call.nowMs
  cases hadm : admission host call with
  | error error =>
    simp only [frozenPage, hadm] at h
    cases h
  | ok signed =>
    have hlimit := admission_limit hadm
    cases hcursor : call.cursor with
    | some token =>
      cases hresume : resume host (s.pruneSnapshots call.settings call.nowMs) call token with
      | error error =>
        simp only [frozenPage, hadm, hcursor, hresume] at h
        cases h
      | ok place =>
        have heq : frozenPage host s call = servePage (s.pruneSnapshots call.settings call.nowMs)
            call signed.1 place := by
          simp only [frozenPage, hadm, hcursor, hresume]
        rw [heq] at h ⊢
        obtain ⟨c, hc, hbind, hplace⟩ := resume_ok hresume
        obtain ⟨saved, -, hserved⟩ := servePage_served h
        exact ⟨_, place, saved, hlimit,
          .inr ⟨token, c, hcursor, hprune.cursors token c hc, hbind, hplace⟩,
          resume_bound hinv hprune hresume, servePage_views h, hserved⟩
    | none =>
      cases hbegin : beginFirst (s.pruneSnapshots call.settings call.nowMs) call signed.1
          signed.2 with
      | mk begun result =>
        cases result with
        | error error =>
          simp only [frozenPage, hadm, hcursor, hbegin] at h
          cases h
        | ok place =>
          have heq : frozenPage host s call = servePage begun call signed.1 place := by
            simp only [frozenPage, hadm, hcursor, hbegin]
          rw [heq] at h ⊢
          have hview : call.viewUuid ∈ (Call.page call).uuids := by simp [Call.uuids]
          have hbegun := (beginFirst_spec _ call signed.1 signed.2 hview
            (fresh_view hinv hprune (hfresh _ hview))).2
          rw [hbegin] at hbegun
          obtain ⟨saved, -, hserved⟩ := servePage_served h
          exact ⟨begun, place, saved, hlimit, .inl ⟨hcursor, hbegun place rfl⟩,
            fun view hlook => ((hbegun place rfl).view view hlook).1,
            servePage_views h, hserved⟩

structure Tracks (binding : ViewBinding) (S : WorkSnapshot) (page : FrozenPage)
    (used : List String) (s : State) : Prop where
  pinned : Pinned binding S page.window.snapshotId page.window.seq used s
  next : ∀ token, page.window.nextCursor = some token →
    Means token binding ⟨page.window.snapshotId, page.window.seq, page.window.fin⟩ used s

theorem Tracks.step (h : Tracks owner S page used s) (hevo : Evolves binding uuids s s')
    (hfresh : ∀ uuid ∈ uuids, uuid ∉ used) : Tracks owner S page (uuids ++ used) s' where
  pinned := h.pinned.step hevo hfresh
  next token htoken := (h.next token htoken).step hevo hfresh

variable {saved : FrozenView}

theorem Served.means (h : Served call place saved page s) (hinv : Inv used s)
    (hbound : BoundAt s call.binding place.viewId) (token : String)
    (htoken : page.window.nextCursor = some token) :
    Means token call.binding ⟨page.window.snapshotId, page.window.seq, page.window.fin⟩
      used s := by
  obtain ⟨view, hlook, -⟩ := Option.bind_eq_some_iff.mp h.kept
  obtain ⟨-, c, hc, hid, hseq, hoffset⟩ := h.continued token htoken
  refine ⟨(hinv.tokens token c hc).1, fun c' hc' => ?_⟩
  rw [hc] at hc'
  cases hc'
  rw [h.pageOf.snapshotId, h.pageOf.seq, hid, hseq, hoffset]
  exact ⟨(hinv.bound token c view hc (hid ▸ hlook)).symm.trans (hbound view hlook), rfl⟩

theorem Served.tracks (h : Served call place saved page s) (hinv : Inv used s)
    (hview : ∀ view, s.views.lookup place.viewId = some view →
      view.binding = call.binding ∧ place.seq ≤ view.generation) :
    Tracks call.binding saved.snapshot page used s := by
  obtain ⟨view, hlook, -⟩ := Option.bind_eq_some_iff.mp h.kept
  constructor
  · rw [h.pageOf.snapshotId, h.pageOf.seq]
    refine ⟨hinv.viewIds _ view hlook, hview, fun kept hkept => ?_⟩
    rw [h.kept] at hkept
    cases hkept
    rfl
  · exact h.means hinv fun view hlook => (hview view hlook).1

/-- A page of `S`, which is the last one if and only if it reaches the end. -/
structure PageIs (S : WorkSnapshot) (page : FrozenPage) : Prop where
  ordered : page.window.offset ≤ page.window.fin
  inside : page.window.fin ≤ S.total
  snapshot : page.snapshot = S.slice page.window.offset page.window.fin
  total : page.total = S.total
  last : page.window.nextCursor = none ↔ page.window.fin = S.total
  advances : page.window.offset < page.window.fin ∨ page.window.fin = S.total

theorem Served.pageIs (h : Served call place saved page s) (hlimit : 0 < call.limit) :
    PageIs saved.snapshot page := by
  have hpage := h.pageOf
  have hfin := hpage.fin
  have hinside := hpage.inside
  refine ⟨?_, ?_, ?_, hpage.total, ⟨h.finished, ?_⟩, ?_⟩
  · rw [hpage.offset]
    omega
  · omega
  · rw [hpage.offset]
    exact hpage.snapshot
  · intro hend
    cases hnext : page.window.nextCursor with
    | none => rfl
    | some token =>
      have hless := (h.continued token hnext).1
      omega
  · rw [hpage.offset]
    omega

structure FirstPage (binding : ViewBinding) (S : WorkSnapshot) (event : Event)
    (page : FrozenPage) : Prop where
  asked : ∃ call, event.call = .page call ∧ call.binding = binding ∧ call.cursor = none
  answered : event.reply = .page (.ok page)
  stored : ∃ kept, event.after.frozenAt page.window.snapshotId page.window.seq = some kept ∧
    kept.snapshot = S

/-- A page call that presents the cursor of an earlier page under the same binding. -/
def Presents (binding : ViewBinding) (page : FrozenPage) (event : Event) : Prop :=
  ∃ call token, event.call = .page call ∧ call.binding = binding ∧
    page.window.nextCursor = some token ∧ call.cursor = some token

/-- The calls of a chain in their order, the page its next cursor comes from, and all its pages.
A call that fails may be tried again. -/
inductive Chain (binding : ViewBinding) (S : WorkSnapshot) :
    List Event → FrozenPage → List FrozenPage → Prop where
  | first (event : Event) (page : FrozenPage) : FirstPage binding S event page →
      Chain binding S [event] page [page]
  | served {events : List Event} {page : FrozenPage} {pages : List FrozenPage} (event : Event)
      (next : FrozenPage) : Chain binding S events page pages → Presents binding page event →
      event.reply = .page (.ok next) →
      Chain binding S (events ++ [event]) next (pages ++ [next])
  | failed {events : List Event} {page : FrozenPage} {pages : List FrozenPage} (event : Event)
      (error : WorkError) : Chain binding S events page pages → Presents binding page event →
      event.reply = .page (.error error) →
      Chain binding S (events ++ [event]) page pages

/-- The pages are pages of `S`, from its beginning on, each starting where the one before ends. -/
structure Tiled (S : WorkSnapshot) (pages : List FrozenPage) : Prop where
  each : ∀ page ∈ pages, PageIs S page
  start : ∀ page, pages.head? = some page → page.window.offset = 0
  adjacent : pages.IsChain fun page next => next.window.offset = page.window.fin

variable {trace : List Event}

theorem Run.inv (h : Run host trace s used) : Inv used s := by
  induction h with
  | nil => exact .empty
  | snoc call _ _ hfresh ih =>
    obtain ⟨binding, hevo⟩ := exec_evolves host call ih hfresh
    exact ih.step hevo hfresh

theorem first_tracks {call : Call} (hinv : Inv used s) (hfresh : ∀ uuid ∈ call.uuids, uuid ∉ used)
    (h : FirstPage binding S ⟨call, (exec host s call).2, (exec host s call).1⟩ page) :
    Tracks binding S page (call.uuids ++ used) (exec host s call).1 ∧ PageIs S page ∧
      page.window.offset = 0 := by
  obtain ⟨pageCall, rfl, rfl, hcursor⟩ := h.asked
  have hok : (frozenPage host s pageCall).2 = .ok page := Reply.page.inj h.answered
  obtain ⟨binding', hevo⟩ := exec_evolves host (.page pageCall) hinv hfresh
  have hinv' := hinv.step hevo hfresh
  obtain ⟨t, place, saved, hans⟩ := frozenPage_ok hinv hfresh hok
  have hserved := hans.served
  obtain ⟨kept, hstored, rfl⟩ := h.stored
  dsimp only at hstored
  rw [exec_page_state] at hstored hinv' ⊢
  have hsaved : kept = saved := by
    rw [hserved.pageOf.snapshotId, hserved.pageOf.seq] at hstored
    exact Option.some.inj (hstored.symm.trans hserved.kept)
  subst hsaved
  rcases hans.source with ⟨-, hbegun⟩ | ⟨token, c, hsome, -⟩
  · refine ⟨hserved.tracks hinv' ?_, hserved.pageIs hans.limit, ?_⟩
    · intro view hview
      rw [hans.views] at hview
      obtain ⟨v, hv, hbind, hgen, -⟩ := (shrinks_touch t _ _).views _ view hview
      obtain ⟨hsame, hseq⟩ := hbegun.view v hv
      exact ⟨hbind.trans hsame, by omega⟩
    · rw [hserved.pageOf.offset, hbegun.offset]
  · rw [hcursor] at hsome
    cases hsome

theorem next_tracks {call : Call} {next : FrozenPage} (hinv : Inv used s)
    (hfresh : ∀ uuid ∈ call.uuids, uuid ∉ used) (htracks : Tracks binding S page used s)
    (hpresents : Presents binding page ⟨call, (exec host s call).2, (exec host s call).1⟩)
    (hreply : (exec host s call).2 = .page (.ok next)) :
    Tracks binding S next (call.uuids ++ used) (exec host s call).1 ∧ PageIs S next ∧
      next.window.offset = page.window.fin := by
  obtain ⟨pageCall, token, rfl, rfl, htoken, hcursor⟩ := hpresents
  have hok : (frozenPage host s pageCall).2 = .ok next := Reply.page.inj hreply
  obtain ⟨binding', hevo⟩ := exec_evolves host (.page pageCall) hinv hfresh
  have hinv' := hinv.step hevo hfresh
  have hpinned := htracks.pinned.step hevo hfresh
  rw [exec_page_state] at hinv' hpinned ⊢
  obtain ⟨t, place, saved, hans⟩ := frozenPage_ok hinv hfresh hok
  have hserved := hans.served
  rcases hans.source with ⟨hnone, -⟩ | ⟨token', c, hsome, hc, -, hplace⟩
  · rw [hcursor] at hnone
    cases hnone
  · rw [hcursor] at hsome
    cases hsome
    have hmeans := ((htracks.next token htoken).found c hc).2
    rw [← hplace] at hmeans
    subst hmeans
    have hsaved : saved.snapshot = S := hpinned.kept saved hserved.kept
    subst hsaved
    exact ⟨hserved.tracks hinv' hpinned.view, hserved.pageIs hans.limit,
      hserved.pageOf.offset⟩

theorem sublist_snoc {α : Type*} {l trace : List α} {a : α} (h : l.Sublist (trace ++ [a])) :
    l.Sublist trace ∨ ∃ front, l = front ++ [a] ∧ front.Sublist trace := by
  obtain ⟨front, back, rfl, hfront, hback⟩ := sublist_append_iff.mp h
  rcases sublist_singleton.mp hback with rfl | rfl
  · rw [append_nil]
    exact .inl hfront
  · exact .inr ⟨front, rfl, hfront⟩

variable {pages : List FrozenPage}

variable {events : List Event}

theorem Chain.ne_nil (h : Chain binding S events page pages) : pages.getLast? = some page := by
  induction h with
  | first => rfl
  | served => simp
  | failed _ _ _ _ _ ih => exact ih

theorem Tiled.snoc {S : WorkSnapshot} {pages : List FrozenPage} {page next : FrozenPage}
    (h : Tiled S pages) (hlast : pages.getLast? = some page) (hnext : PageIs S next)
    (hoffset : next.window.offset = page.window.fin) : Tiled S (pages ++ [next]) where
  each other hother := by
    rcases mem_append.mp hother with hold | hnew
    · exact h.each other hold
    · rw [mem_singleton.mp hnew]
      exact hnext
  start first hfirst := by
    cases pages with
    | nil => cases hlast
    | cons head rest => exact h.start first hfirst
  adjacent := by
    refine isChain_append.mpr ⟨h.adjacent, isChain_singleton next, ?_⟩
    intro left hleft right hright
    rw [hlast] at hleft
    cases hleft
    cases hright
    exact hoffset

theorem Chain.tiled (hrun : Run host trace s used)
    (hchain : Chain binding S events page pages) (hsub : events.Sublist trace) :
    Tracks binding S page used s ∧ Tiled S pages := by
  induction hrun generalizing events page pages with
  | nil =>
    cases sublist_nil.mp hsub
    generalize hnil : ([] : List Event) = events at hchain
    cases hchain with
    | first => cases hnil
    | served => simp at hnil
    | failed => simp at hnil
  | snoc call hrun hnodup hfresh ih =>
    have hinv := hrun.inv
    obtain ⟨other, hevo⟩ := exec_evolves host call hinv hfresh
    rcases sublist_snoc hsub with hold | ⟨front, rfl, hfront⟩
    · obtain ⟨htracks, htiled⟩ := ih hchain hold
      exact ⟨htracks.step hevo hfresh, htiled⟩
    · generalize hevents : front ++ [_] = events at hchain
      cases hchain with
      | first event page hfirst =>
        have hsingle : front ++ [_] = [] ++ [event] := hevents
        obtain ⟨-, heq⟩ := append_inj' hsingle rfl
        cases heq
        obtain ⟨htracks, hpage, hoffset⟩ := first_tracks hinv hfresh hfirst
        refine ⟨htracks, ?_, ?_, isChain_singleton page⟩
        · intro other hother
          rw [mem_singleton.mp hother]
          exact hpage
        · intro other hother
          cases hother
          exact hoffset
      | served event next hchain hpresents hreply =>
        obtain ⟨rfl, heq⟩ := append_inj' hevents rfl
        cases heq
        obtain ⟨htracks, htiled⟩ := ih hchain hfront
        obtain ⟨htracks', hpage, hoffset⟩ := next_tracks hinv hfresh htracks hpresents hreply
        exact ⟨htracks', htiled.snoc hchain.ne_nil hpage hoffset⟩
      | failed event error hchain =>
        obtain ⟨rfl, heq⟩ := append_inj' hevents rfl
        obtain ⟨htracks, htiled⟩ := ih hchain hfront
        exact ⟨htracks.step hevo hfresh, htiled⟩

def Issues (token : String) (binding : ViewBinding) (event : Event) : Prop :=
  (∃ call page, event.call = .page call ∧ call.binding = binding ∧
    event.reply = .page (.ok page) ∧ page.window.nextCursor = some token) ∨
  ∃ call view, event.call = .beginning call ∧ event.reply = .token (.ok token) ∧
    event.after.views.lookup call.snapshotId = some view ∧ view.binding = binding

def Accepts (token : String) (binding : ViewBinding) (event : Event) : Prop :=
  ∃ call page, event.call = .page call ∧ call.binding = binding ∧ call.cursor = some token ∧
    event.reply = .page (.ok page)

theorem beginningCursor_ok {call : BeginningCall} (h : (beginningCursor s call).2 = .ok token) :
    ∃ c, (beginningCursor s call).1.cursors.lookup token = some c ∧
      c.viewId = call.snapshotId := by
  cases hbegin : beginningCursor s call with
  | mk after result =>
    rw [hbegin] at h
    cases h
    unfold beginningCursor at hbegin
    split at hbegin
    · cases hbegin
    simp only at hbegin
    split at hbegin
    · cases hbegin
    split at hbegin
    · obtain ⟨c, hc, hview, -⟩ := (issueCursor_ok hbegin).found
      exact ⟨c, hc, hview⟩
    split at hbegin
    · obtain ⟨c, hc, hview, -⟩ := (issueCursor_ok hbegin).found
      exact ⟨c, hc, hview⟩
    · cases hbegin

theorem issued_means {call : Call} (hinv : Inv used s) (hfresh : ∀ uuid ∈ call.uuids, uuid ∉ used)
    (h : Issues token binding ⟨call, (exec host s call).2, (exec host s call).1⟩) :
    ∃ place, Means token binding place (call.uuids ++ used) (exec host s call).1 := by
  obtain ⟨other, hevo⟩ := exec_evolves host call hinv hfresh
  have hinv' := hinv.step hevo hfresh
  rcases h with ⟨pageCall, page, rfl, rfl, hreply, htoken⟩ |
    ⟨beginCall, view, rfl, hreply, hview, rfl⟩
  · have hok : (frozenPage host s pageCall).2 = .ok page := Reply.page.inj hreply
    obtain ⟨t, place, saved, hans⟩ := frozenPage_ok hinv hfresh hok
    rw [exec_page_state] at hinv' ⊢
    refine ⟨_, hans.served.means hinv' ?_ token htoken⟩
    intro view hview
    rw [hans.views] at hview
    obtain ⟨v, hv, hsame, -⟩ := (shrinks_touch t _ _).views _ view hview
    exact hsame.trans (hans.bound v hv)
  · have hok : (beginningCursor s beginCall).2 = .ok token := Reply.token.inj hreply
    obtain ⟨c, hc, hid⟩ := beginningCursor_ok hok
    rw [exec_beginning_state] at hinv' ⊢
    refine ⟨⟨c.viewId, c.generation, c.offset⟩, (hinv'.tokens token c hc).1, fun c' hc' => ?_⟩
    cases hc.symm.trans hc'
    exact ⟨(hinv'.bound token c view hc (hid ▸ hview)).symm, rfl⟩

variable {event : Event}

theorem Run.means (hrun : Run host trace s used) (hevent : event ∈ trace)
    (hissues : Issues token binding event) : ∃ place, Means token binding place used s := by
  induction hrun with
  | nil => cases hevent
  | snoc call hrun hnodup hfresh ih =>
    rcases mem_append.mp hevent with hold | hnew
    · obtain ⟨other, hevo⟩ := exec_evolves host call hrun.inv hfresh
      obtain ⟨place, hmeans⟩ := ih hold
      exact ⟨place, hmeans.step hevo hfresh⟩
    · rw [mem_singleton.mp hnew] at hissues
      exact issued_means hrun.inv hfresh hissues

theorem Run.accepts {later : Event} {other : ViewBinding} (hrun : Run host trace s used)
    (hsub : [event, later].Sublist trace) (hissues : Issues token binding event)
    (haccepts : Accepts token other later) : other = binding := by
  induction hrun with
  | nil => cases hsub
  | snoc call hrun hnodup hfresh ih =>
    rcases sublist_snoc hsub with hold | ⟨front, hfront, hsubFront⟩
    · exact ih hold
    · have hpair : [event] ++ [later] = front ++ [_] := hfront
      obtain ⟨rfl, heq⟩ := append_inj' hpair rfl
      cases heq
      obtain ⟨place, hmeans⟩ := hrun.means (singleton_sublist.mp hsubFront) hissues
      obtain ⟨pageCall, page, rfl, rfl, hcursor, hreply⟩ := haccepts
      obtain ⟨t, at_, saved, hans⟩ :=
        frozenPage_ok hrun.inv hfresh (Reply.page.inj hreply)
      rcases hans.source with ⟨hnone, -⟩ | ⟨token', c, hsome, hc, hbind, -⟩
      · rw [hcursor] at hnone
        cases hnone
      · rw [hcursor] at hsome
        cases hsome
        exact hbind.symm.trans (hmeans.found c hc).1

def Admitted (host : Host) : Call → Prop
  | .page call => ∃ signed, admission host call = .ok signed
  | .beginning call => call.settings.violations = []

theorem frozenPage_within (h : admission host call = .ok signed) :
    WithinLimits call.settings (frozenPage host s call).1 := by
  have hprune := pruneSnapshots_within s call.settings call.nowMs
  unfold frozenPage
  rw [h]
  simp only
  split
  · split
    · exact hprune
    · exact servePage_within hprune
  · have hbegin : WithinLimits call.settings (beginFirst
        (s.pruneSnapshots call.settings call.nowMs) call signed.1 signed.2).1 :=
      beginFirst_within hprune
    split
    · rename_i heq
      rw [heq] at hbegin
      exact hbegin
    · rename_i heq
      rw [heq] at hbegin
      exact servePage_within hbegin

theorem beginningCursor_within {call : BeginningCall} (h : call.settings.violations = []) :
    WithinLimits call.settings (beginningCursor s call).1 := by
  have hprune := pruneSnapshots_within s call.settings call.nowMs
  have hissue : ∀ cursor, WithinLimits call.settings
      ((s.pruneSnapshots call.settings call.nowMs).issueCursor call.settings cursor call.nowMs
        call.tokenUuid).1 := by
    intro cursor
    apply hprune.of_subperm
    rw [frozen_eq, frozen_eq, issueCursor_views]
  unfold beginningCursor
  rw [if_neg (not_not.mpr h)]
  simp only
  split
  · exact hprune
  split
  · exact hissue _
  split
  · exact hissue _
  · exact hprune

theorem exec_within {call : Call} (h : Admitted host call) :
    WithinLimits call.settings (exec host s call).1 := by
  cases call with
  | page call =>
    obtain ⟨signed, hadm⟩ := h
    rw [exec_page_state]
    exact frozenPage_within hadm
  | beginning call =>
    rw [exec_beginning_state]
    exact beginningCursor_within h

theorem exec_refused {call : Call} (h : ¬ Admitted host call) : (exec host s call).1 = s := by
  cases call with
  | page call =>
    cases hadm : admission host call with
    | error error => simp only [exec, frozenPage, hadm, Prod.map_fst, id_eq]
    | ok signed => exact absurd ⟨signed, hadm⟩ h
  | beginning call =>
    have hinvalid : call.settings.violations ≠ [] := h
    simp only [exec, beginningCursor, if_pos hinvalid, Prod.map_fst, id_eq]

theorem Run.within {settings : PagingSettings} (hrun : Run host trace s used)
    (hsame : ∀ event ∈ trace, event.call.settings = settings) :
    WithinLimits settings s ∧ ∀ event ∈ trace, WithinLimits settings event.after := by
  induction hrun with
  | nil => exact ⟨withinLimits_of_nothing rfl, fun _ h => by cases h⟩
  | @snoc trace s used call hrun hnodup hfresh ih =>
    obtain ⟨hwithin, heach⟩ := ih fun event hevent => hsame event (mem_append_left _ hevent)
    have hcall : call.settings = settings :=
      hsame _ (mem_append_right _ (mem_singleton_self _))
    have hafter : WithinLimits settings (exec host s call).1 := by
      by_cases hadm : Admitted host call
      · exact hcall ▸ exec_within hadm
      · rw [exec_refused hadm]
        exact hwithin
    refine ⟨hafter, fun event hevent => ?_⟩
    rcases mem_append.mp hevent with hold | hnew
    · exact heach event hold
    · rw [mem_singleton.mp hnew]
      exact hafter

theorem Run.admitted_within (hrun : Run host trace s used) (hevent : event ∈ trace)
    (h : Admitted host event.call) : WithinLimits event.call.settings event.after := by
  induction hrun with
  | nil => cases hevent
  | snoc call hrun hnodup hfresh ih =>
    rcases mem_append.mp hevent with hold | hnew
    · exact ih hold
    · rw [mem_singleton.mp hnew] at h ⊢
      exact exec_within h

structure NeverSplices (host : Host) (trace : List Event) : Prop where
  chains : ∀ binding S events page pages, Chain binding S events page pages →
    events.Sublist trace → Tiled S pages
  bindings : ∀ token binding other event later, [event, later].Sublist trace →
    Issues token binding event → Accepts token other later → other = binding
  /-- A call that its own arguments refuse leaves the state as it was. -/
  limits : ∀ event ∈ trace, Admitted host event.call →
    WithinLimits event.call.settings event.after
  fixedLimits : ∀ settings, (∀ event ∈ trace, event.call.settings = settings) →
    ∀ event ∈ trace, WithinLimits settings event.after

/-- Whatever is called between two pages, a chain of cursors reads one snapshot. -/
theorem frozen_paging_never_splices (host : Host) (trace : List Event) (s : State)
    (used : List String) (hrun : Run host trace s used) : NeverSplices host trace where
  chains _ _ _ _ _ hchain hsub := (hchain.tiled hrun hsub).2
  bindings _ _ _ _ _ hsub hissues haccepts := hrun.accepts hsub hissues haccepts
  limits _ hevent hadmitted := hrun.admitted_within hevent hadmitted
  fixedLimits _ hsame := (hrun.within hsame).2

def inventoryBinding : ViewBinding := ⟨"p", "chat:c", "policy:model", "all"⟩

def twoRoots : WorkSnapshot where
  rows := []
  roots := [⟨"a-0", "project"⟩, ⟨"a-1", "project"⟩]
  detail := none
  degraded := []
  advisory := []
  fileProvenance := []
  waitGraph := none
  selectedPaths := []
  guardRows := []

def twoRootsHost : Host where
  signature _ _ := .ok ("f19c65953fbea1d6b55269acc19ce2c0cc089fd620c870976d3bc1a8dee6cd26", 350)
  parsesUuid _ := true

def twoRootsCall (cursor : Option String) (nowMs : ℕ) (viewUuid tokenUuid : String) :
    PageCall :=
  ⟨inventoryBinding, twoRoots, 1, cursor, PagingSettings.default, nowMs, fun _ => .ok (),
    viewUuid, tokenUuid⟩

def firstToken : String := "w1.00000000-0000-4000-8000-000000000002"

def firstCall : PageCall :=
  twoRootsCall none 10 "00000000-0000-4000-8000-000000000001"
    "00000000-0000-4000-8000-000000000002"

def secondCall : PageCall :=
  twoRootsCall (some firstToken) 11 "00000000-0000-4000-8000-000000000003"
    "00000000-0000-4000-8000-000000000004"

def twoRootsPage (offset : ℕ) (next : Option String) : FrozenPage where
  window := ⟨"00000000-0000-4000-8000-000000000001", 1, offset, offset + 1, next⟩
  snapshot := twoRoots.slice offset (offset + 1)
  total := 2
  observedAt := 10
  stale := false

theorem two_pages_never_splice : ∃ trace s used, Run twoRootsHost trace s used ∧
    (∃ page pages, Chain inventoryBinding twoRoots trace page pages ∧ pages.length = 2) ∧
    NeverSplices twoRootsHost trace := by
  have hfirst : Run twoRootsHost _ _ _ := .snoc (.page firstCall) .nil (by decide) (by decide)
  have hsecond := hfirst.snoc (.page secondCall) (by decide) (by decide)
  have hpage : (frozenPage twoRootsHost State.empty firstCall).2 =
      .ok (twoRootsPage 0 (some firstToken)) := by rfl
  have hkept : ((exec twoRootsHost State.empty (.page firstCall)).1.frozenAt
      "00000000-0000-4000-8000-000000000001" 1).map FrozenView.snapshot = some twoRoots := by rfl
  have hnext : (frozenPage twoRootsHost (exec twoRootsHost State.empty (.page firstCall)).1
      secondCall).2 = .ok (twoRootsPage 1 none) := by rfl
  refine ⟨_, _, _, hsecond, ⟨twoRootsPage 1 none, _,
    .served _ _ (.first _ (twoRootsPage 0 (some firstToken)) ⟨?_, ?_, ?_⟩) ?_ ?_, rfl⟩,
    frozen_paging_never_splices _ _ _ _ hsecond⟩
  · exact ⟨firstCall, rfl, rfl, rfl⟩
  · exact congrArg Reply.page hpage
  · exact Option.map_eq_some_iff.mp hkept
  · exact ⟨secondCall, firstToken, rfl, rfl, rfl, rfl⟩
  · exact congrArg Reply.page hnext

end WorkPaging
