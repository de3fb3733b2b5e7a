import RefactEngine.PatchPlan

/-! # Executing a plan realises it

Planning and executing agree on every sequence of operations, exactly when every file that is moved
away has a path that survives being written as a string.
-/
namespace PatchExecution

open ApplyPatch PatchPlan List Function

variable {host : Host} {disk : Disk}

def overlaid (disk : Disk) (overlay : Overlay) : Disk := fun path =>
  match overlay path with
  | some (.present content) => some content
  | some .deleted => none
  | none => disk path

variable {overlay : Overlay} {path : Path}

theorem overlaid_of_none (h : overlay path = none) : overlaid disk overlay path = disk path := by
  rw [overlaid, h]

theorem overlaid_of_deleted (h : overlay path = some .deleted) :
    overlaid disk overlay path = none := by
  rw [overlaid, h]

theorem overlaid_present (overlay : Overlay) (path : Path) (content : Text) :
    overlaid disk (update overlay path (some (.present content))) =
      update (overlaid disk overlay) path (some content) := by
  funext other
  by_cases h : other = path
  · subst h
    rw [overlaid, update_self, update_self]
  · rw [overlaid, update_of_ne h, update_of_ne h, overlaid]

theorem overlaid_deleted (overlay : Overlay) (path : Path) :
    overlaid disk (update overlay path (some .deleted)) =
      update (overlaid disk overlay) path none := by
  funext other
  by_cases h : other = path
  · subst h
    rw [overlaid, update_self, update_self]
  · rw [overlaid, update_of_ne h, update_of_ne h, overlaid]

def Resolves (host : Host) (name : Text) (path : Path) : Prop :=
  ∃ resolved, host.resolvePatchPath name = .ok resolved ∧ resolved.path = path

def ReadNow (host : Host) (disk : Disk) (overlay : Overlay) (path : Path) (content : Text) : Prop :=
  overlay path = some (.present content) ∨
    overlay path = none ∧ (disk path).isSome ∧ host.getFileText path = .ok content

inductive Planning (host : Host) (disk : Disk) (overlay : Overlay) :
    FileOperation → SingleFileResult → Overlay → Prop where
  | add {name contents : Text} {path : Path} {chunks : List DiffChunk} :
      Resolves host name path → overlaid disk overlay path = none →
      Planning host disk overlay (.add name contents) ⟨path, .add, [], contents, chunks⟩
        (update overlay path (some (.present contents)))
  | delete {name before : Text} {path : Path} {chunks : List DiffChunk} :
      Resolves host name path → ReadNow host disk overlay path before →
      Planning host disk overlay (.delete name) ⟨path, .delete, before, [], chunks⟩
        (update overlay path (some .deleted))
  | update {name before after : Text} {path : Path} {chunks : List UpdateChunk}
      {diff : List DiffChunk} :
      Resolves host name path → ReadNow host disk overlay path before →
      Planning host disk overlay (.update name none chunks) ⟨path, .update, before, after, diff⟩
        (update overlay path (some (.present after)))
  | move {name moveTo before after : Text} {source dest : Path} {chunks : List UpdateChunk}
      {chunk : DiffChunk} :
      Resolves host name source → Resolves host moveTo dest →
      ReadNow host disk overlay source before → overlaid disk overlay dest = none →
      chunk.fileName = toStringLossy source →
      Planning host disk overlay (.update name (some moveTo) chunks)
        ⟨dest, .rename, before, after, [chunk]⟩
        (update (update overlay source (some .deleted)) dest
          (some (.present after)))

variable {name : Text}

theorem resolves_of_resolveGuarded {resolved : ResolvedToolPath}
    (h : resolveGuarded host name = .ok resolved) : Resolves host name resolved.path := by
  simp only [resolveGuarded] at h
  split at h
  · cases h
  next found hfound =>
    split at h
    · cases h
      exact ⟨_, hfound, rfl⟩
    · split at h
      · cases h
      · cases h
        exact ⟨_, hfound, rfl⟩

theorem overlaid_eq_none (h : ¬ existsNow disk overlay path = true) :
    overlaid disk overlay path = none := by
  rw [existsNow] at h
  split at h
  next hoverlay => exact absurd rfl h
  next hoverlay => exact overlaid_of_deleted hoverlay
  next hoverlay =>
    rw [overlaid_of_none hoverlay]
    simpa using h

theorem readNow_of_contentNow {content : Text} {whenDeleted : PlanError}
    (h : contentNow host disk overlay path whenDeleted = .ok content) :
    ReadNow host disk overlay path content := by
  rw [contentNow] at h
  split at h
  next hoverlay =>
    cases h
    exact .inl hoverlay
  next => cases h
  next hoverlay =>
    split at h
    · cases h
    next hdisk =>
      split at h
      · cases h
      next hread =>
        cases h
        refine .inr ⟨hoverlay, ?_, hread⟩
        rwa [Bool.not_eq_true, Option.isNone_eq_false_iff] at hdisk

variable {planned planned' : Planned} {chunks : List UpdateChunk}

theorem planning_of_planMove {moveTo before after : Text} {source : ResolvedToolPath}
    (hsource : Resolves host name source.path)
    (hread : ReadNow host disk planned.overlay source.path before)
    (h : planMove host disk planned source moveTo before after = .ok planned') :
    ∃ result, Planning host disk planned.overlay (.update name (some moveTo) chunks) result
        planned'.overlay ∧
      planned'.plan.fileResults = planned.plan.fileResults ++ [result] := by
  simp only [planMove] at h
  split at h
  · cases h
  next dest hdest =>
    split at h
    · cases h
    next hfree =>
      cases h
      exact ⟨_, .move hsource (resolves_of_resolveGuarded hdest) hread (overlaid_eq_none hfree) rfl,
        rfl⟩

variable {operation : FileOperation}

theorem planning_of_planOperation (h : planOperation host disk planned operation = .ok planned') :
    ∃ result, Planning host disk planned.overlay operation result planned'.overlay ∧
      planned'.plan.fileResults = planned.plan.fileResults ++ [result] := by
  cases operation with
  | add name contents =>
    simp only [planOperation, planAdd] at h
    split at h
    · cases h
    next resolved hresolved =>
      split at h
      · cases h
      next hfree =>
        cases h
        exact ⟨_, .add (resolves_of_resolveGuarded hresolved) (overlaid_eq_none hfree), rfl⟩
  | delete name =>
    simp only [planOperation, planDelete] at h
    split at h
    · cases h
    next resolved hresolved =>
      split at h
      · cases h
      next before hbef =>
        cases h
        exact ⟨_, .delete (resolves_of_resolveGuarded hresolved) (readNow_of_contentNow hbef),
          rfl⟩
  | update name moveTo chunks =>
    simp only [planOperation, planUpdate] at h
    split at h
    · cases h
    next resolved hresolved =>
      have hname := resolves_of_resolveGuarded hresolved
      split at h
      · cases h
      next before hbef =>
        have hread := readNow_of_contentNow hbef
        split at h
        · cases h
        next after hafter =>
          split at h
          · exact planning_of_planMove hname hread h
          · cases h
            exact ⟨_, .update hname hread, rfl⟩

inductive Plans (host : Host) (disk : Disk) :
    Overlay → List FileOperation → List SingleFileResult → Overlay → Prop where
  | nil (overlay : Overlay) : Plans host disk overlay [] [] overlay
  | cons {overlay next last : Overlay} {operation : FileOperation} {result : SingleFileResult}
      {operations : List FileOperation} {results : List SingleFileResult} :
      Planning host disk overlay operation result next →
      Plans host disk next operations results last →
      Plans host disk overlay (operation :: operations) (result :: results) last

variable {operations : List FileOperation}

theorem plans_of_planOperations (h : planOperations host disk planned operations = .ok planned') :
    ∃ results, Plans host disk planned.overlay operations results planned'.overlay ∧
      planned'.plan.fileResults = planned.plan.fileResults ++ results := by
  induction operations generalizing planned with
  | nil =>
    cases h
    exact ⟨[], .nil _, (append_nil _).symm⟩
  | cons operation rest ih =>
    rw [planOperations] at h
    split at h
    · cases h
    next middle hmiddle =>
      obtain ⟨result, hplanning, hres⟩ := planning_of_planOperation hmiddle
      obtain ⟨results, hplans, hresults⟩ := ih h
      refine ⟨result :: results, .cons hplanning hplans, ?_⟩
      rw [hresults, hres, append_assoc, singleton_append]

def Touches (host : Host) (operations : List FileOperation) (path : Path) : Prop :=
  ∃ operation ∈ operations, ∃ name ∈ operationPaths operation, Resolves host name path

def ReadsDisk (host : Host) (disk : Disk) (path : Path) : Prop :=
  ∀ text content, disk path = some text → host.getFileText path = .ok content → content = text

/-- Nobody else writes: buffers are as the files, different paths are different files, the acting
chat's record of a file is of its present contents, and there is room to record the writes. -/
structure Undisturbed (host : Host) (disk : Disk) (operations : List FileOperation) : Prop where
  buffers : ∀ path, Touches host operations path → ReadsDisk host disk path
  distinct : ∀ path other, Touches host operations path → Touches host operations other →
    host.key path = host.key other → path = other
  canonical : ∀ path, Touches host operations path →
    ∃ candidate, host.canonicalCandidate path = .ok candidate
  seen : ∀ path, Touches host operations path → ∀ text seen, disk path = some text →
    host.observed (host.key path) = some seen → seen = host.digest text
  records : ∀ paths : List Path, paths.Nodup → (∀ path ∈ paths, Touches host operations path) →
    paths.length ≤ host.maxWriteRecords

/-- Every path that a move takes a file away from is the same after it was a string. -/
def SourcesUnicode (host : Host) (operations : List FileOperation) : Prop :=
  ∀ name moveTo chunks, .update name (some moveTo) chunks ∈ operations →
    ∀ source, Resolves host name source → ofString (toStringLossy source) = source

variable {others : List FileOperation}

theorem Touches.mono (h : Touches host operations path) (hsub : operations ⊆ others) :
    Touches host others path := by
  obtain ⟨operation, hop, hpath⟩ := h
  exact ⟨operation, hsub hop, hpath⟩

theorem SourcesUnicode.mono (h : SourcesUnicode host others) (hsub : operations ⊆ others) :
    SourcesUnicode host operations :=
  fun name moveTo chunks hmem => h name moveTo chunks (hsub hmem)

theorem touches_of_name (hname : name ∈ operationPaths operation) (hpath : Resolves host name path)
      :
    Touches host [operation] path :=
  ⟨operation, mem_singleton_self _, name, hname, hpath⟩

theorem moveSource_of_unicode {source dest : Path} {before after : Text} {chunk : DiffChunk}
    (hchunk : chunk.fileName = toStringLossy source)
    (hunicode : ofString (toStringLossy source) = source) :
    moveSource ⟨dest, .rename, before, after, [chunk]⟩ = some source := by
  rw [moveSource, List.head?_cons, Option.map_some, hchunk, hunicode]

def effect (result : SingleFileResult) (disk : Disk) : Disk :=
  match result.action with
  | .add | .update => update disk result.path (some result.after)
  | .delete => update disk result.path none
  | .rename =>
    match moveSource result with
    | none => update disk result.path (some result.after)
    | some source =>
      update (update disk result.path (some result.after)) source none

/-- Nothing stands in the way of the step: what it creates is free, and what it replaces, deletes
or moves is there with the contents that were planned from. -/
def Fits (disk : Disk) (result : SingleFileResult) : Prop :=
  match result.action with
  | .add => disk result.path = none
  | .update | .delete => disk result.path = some result.before
  | .rename => disk result.path = none ∧
      ∃ source, moveSource result = some source ∧ disk source = some result.before

def StepsFit : Disk → List SingleFileResult → Prop
  | _, [] => True
  | disk, result :: rest => Fits disk result ∧ StepsFit (effect result disk) rest

def runEffects (disk : Disk) (results : List SingleFileResult) : Disk :=
  results.foldl (fun disk result => effect result disk) disk

/-- The plan is executed: every step fits, and the files are as the overlay showed them. -/
def Realised (host : Host) (disk : Disk) (planned : Planned) : Prop :=
  StepsFit disk planned.plan.fileResults ∧
    ∃ final, apply host disk planned.plan = .ok final ∧
      final.disk = overlaid disk planned.overlay

theorem ReadNow.content {content : Text} (h : ReadNow host disk overlay path content)
    (hbuffers : ReadsDisk host disk path) : overlaid disk overlay path = some content := by
  rcases h with hpresent | ⟨hnone, hdisk, hread⟩
  · rw [overlaid, hpresent]
  · obtain ⟨text, htext⟩ := Option.isSome_iff_exists.mp hdisk
    rw [overlaid_of_none hnone, htext, hbuffers text content htext hread]

variable {result : SingleFileResult} {next : Overlay}

theorem fits_of_planning (h : Planning host disk overlay operation result next)
    (hbuffers : ∀ path, Touches host [operation] path → ReadsDisk host disk path)
    (hunicode : SourcesUnicode host [operation]) : Fits (overlaid disk overlay) result ∧
      effect result (overlaid disk overlay) = overlaid disk next := by
  cases h with
  | add hname hfree => exact ⟨hfree, (overlaid_present _ _ _).symm⟩
  | delete hname hread =>
    exact ⟨hread.content (hbuffers _ (touches_of_name mem_cons_self hname)),
      (overlaid_deleted _ _).symm⟩
  | update hname hread =>
    exact ⟨hread.content (hbuffers _ (touches_of_name mem_cons_self hname)),
      (overlaid_present _ _ _).symm⟩
  | @move name moveTo before after source dest chunks chunk hname hdest hread hfree hchunk =>
    have hsource := @moveSource_of_unicode source dest before after chunk hchunk
      (hunicode name moveTo chunks (mem_singleton_self _) source hname)
    have hcont := hread.content (hbuffers source (touches_of_name mem_cons_self hname))
    have hne : dest ≠ source := by
      rintro rfl
      rw [hfree] at hcont
      cases hcont
    refine ⟨⟨hfree, source, hsource, hcont⟩, ?_⟩
    rw [effect]
    dsimp only
    rw [hsource, overlaid_present, overlaid_deleted]
    exact update_comm hne _ _ _

variable {results : List SingleFileResult} {last : Overlay}

theorem stepsFit_of_plans (h : Plans host disk overlay operations results last)
    (hbuffers : ∀ path, Touches host operations path → ReadsDisk host disk path)
    (hunicode : SourcesUnicode host operations) : StepsFit (overlaid disk overlay) results ∧
      runEffects (overlaid disk overlay) results = overlaid disk last := by
  induction h with
  | nil overlay => exact ⟨trivial, rfl⟩
  | @cons overlay next last operation result operations results hplanning hplans ih =>
    have hfirst : [operation] ⊆ operation :: operations := by simp
    have hrest : operations ⊆ operation :: operations := subset_cons_self _ _
    obtain ⟨hfits, heffect⟩ := fits_of_planning hplanning
      (fun path hpath => hbuffers path (hpath.mono hfirst)) (hunicode.mono hfirst)
    obtain ⟨hsteps, hrun⟩ := ih (fun path hpath => hbuffers path (hpath.mono hrest))
      (hunicode.mono hrest)
    rw [← heffect] at hsteps hrun
    exact ⟨⟨hfits, hsteps⟩, hrun⟩

def resultPaths (result : SingleFileResult) : List Path :=
  match result.action with
  | .rename => result.path :: (moveSource result).toList
  | .add | .update | .delete => [result.path]

variable {files : Disk}

theorem effect_of_not_mem (h : path ∉ resultPaths result) :
    effect result files path = files path := by
  obtain ⟨other, action, before, after, chunks⟩ := result
  cases action with
  | rename =>
    rw [resultPaths] at h
    rw [effect]
    dsimp only at h ⊢
    cases hsource : moveSource ⟨other, .rename, before, after, chunks⟩ with
    | none =>
      rw [hsource] at h
      exact update_of_ne (by simpa using h) _ _
    | some source =>
      rw [hsource] at h
      simp only [Option.toList_some, mem_cons, not_mem_nil, or_false, not_or] at h
      dsimp only
      rw [update_of_ne h.2, update_of_ne h.1]
  | add => exact update_of_ne (by simpa [resultPaths] using h) _ _
  | delete => exact update_of_ne (by simpa [resultPaths] using h) _ _
  | update => exact update_of_ne (by simpa [resultPaths] using h) _ _

variable {s s' : FileState}

theorem writeFileDurably_eq_ok {contents : Text} {mode : ReplaceMode}
    (h : writeFileDurably s path contents mode = .ok s') :
    s' = { s with disk := update s.disk path (some contents) } := by
  rw [writeFileDurably] at h
  split at h
  · cases h
  · cases h
    rfl

theorem removeFile_eq_ok (h : removeFile s path = .ok s') :
    s' = { s with disk := update s.disk path none } := by
  rw [removeFile] at h
  split at h
  · cases h
    rfl
  · cases h

variable {guards : List (Path × WriteGuard)}

theorem recordBytes_disk {kind : WriteKind} {bytes : Option Text} {missing : StepError}
    (h : recordBytes guards s path kind bytes missing = .ok s') : s'.disk = s.disk := by
  rw [recordBytes] at h
  split at h
  · cases h
    rfl
  · cases h

theorem bind_eq_ok {ε α β : Type*} {x : Except ε α} {f : α → Except ε β} {b : β}
    (h : x.bind f = .ok b) : ∃ a, x = .ok a ∧ f a = .ok b := by
  cases x with
  | error error => cases h
  | ok a => exact ⟨a, rfl, h⟩

theorem exists_bind_ok {ε α β : Type*} {x : Except ε α} {f : α → Except ε β} {a : α}
    (hx : x = .ok a) (hf : ∃ b, f a = .ok b) : ∃ b, x.bind f = .ok b := by
  rw [hx]
  exact hf

theorem disk_of_applyResult (h : applyResult guards s result = .ok s') :
    s'.disk = effect result s.disk := by
  obtain ⟨path, action, before, after, chunks⟩ := result
  rw [applyResult] at h
  rw [effect]
  cases action with
  | delete =>
    dsimp only at h ⊢
    obtain ⟨removed, hrem, hrec⟩ := bind_eq_ok h
    rw [recordBytes_disk hrec, removeFile_eq_ok hrem]
  | add =>
    dsimp only at h ⊢
    obtain ⟨written, hwrit, hrec⟩ := bind_eq_ok h
    rw [recordBytes_disk hrec, writeFileDurably_eq_ok hwrit]
  | update =>
    dsimp only at h ⊢
    obtain ⟨written, hwrit, hrec⟩ := bind_eq_ok h
    rw [recordBytes_disk hrec, writeFileDurably_eq_ok hwrit]
  | rename =>
    dsimp only at h ⊢
    cases hsource : moveSource ⟨path, .rename, before, after, chunks⟩ with
    | none =>
      rw [hsource] at h
      cases h
    | some source =>
      rw [hsource] at h
      obtain ⟨written, hwrit, h⟩ := bind_eq_ok h
      obtain ⟨recorded, hrecd, h⟩ := bind_eq_ok h
      obtain ⟨removed, hrem, hrec⟩ := bind_eq_ok h
      rw [recordBytes_disk hrec, removeFile_eq_ok hrem]
      dsimp only
      rw [recordBytes_disk hrecd, writeFileDurably_eq_ok hwrit]

theorem disk_of_applyResults {changed : List Path}
    (h : applyResults guards s changed results = .ok s') : s'.disk = runEffects s.disk results := by
  induction results generalizing s changed with
  | nil =>
    cases h
    rfl
  | cons result rest ih =>
    rw [applyResults] at h
    split at h
    next next hnext =>
      rw [ih h, disk_of_applyResult hnext]
      rfl
    next => cases h

theorem writeFileDurably_createNew (contents : Text) (h : s.disk path = none) :
    writeFileDurably s path contents .createNew =
      .ok { s with disk := update s.disk path (some contents) } := by
  rw [writeFileDurably, if_neg]
  rw [h]
  rintro ⟨-, hsome⟩
  cases hsome

theorem removeFile_of_some {s : FileState} {path : Path} {before : Text}
    (h : s.disk path = some before) :
    removeFile s path = .ok { s with disk := update s.disk path none } := by
  rw [removeFile, if_pos]
  rw [h]
  rfl

theorem recordBytes_of_mem (h : path ∈ guards.map Prod.fst) (s : FileState) (kind : WriteKind)
    (bytes : Option Text) (missing : StepError) : recordBytes guards s path kind bytes missing =
      .ok { s with recorded := s.recorded ++ [(path, kind, bytes)] } := by
  rw [recordBytes, if_pos h]

theorem applyResult_of_fits (hfits : Fits s.disk result)
    (hguards : ∀ path ∈ resultPaths result, path ∈ guards.map Prod.fst) :
    ∃ s', applyResult guards s result = .ok s' := by
  obtain ⟨path, action, before, after, chunks⟩ := result
  cases action with
  | add =>
    apply exists_bind_ok (writeFileDurably_createNew after hfits)
    exact ⟨_, recordBytes_of_mem (hguards path mem_cons_self) _ _ _ _⟩
  | delete =>
    apply exists_bind_ok (removeFile_of_some hfits)
    exact ⟨_, recordBytes_of_mem (hguards path mem_cons_self) _ _ _ _⟩
  | update => exact ⟨_, recordBytes_of_mem (hguards path mem_cons_self) _ _ _ _⟩
  | rename =>
    obtain ⟨hfree, source, hsource, hbef⟩ := hfits
    have hmem : source ∈ resultPaths ⟨path, .rename, before, after, chunks⟩ := by
      simp [resultPaths, hsource]
    have hne : source ≠ path := by
      rintro rfl
      rw [hfree] at hbef
      cases hbef
    have hleft : update s.disk path (some after) source = some before := by
      rw [update_of_ne hne]
      exact hbef
    rw [applyResult]
    dsimp only
    rw [hsource]
    apply exists_bind_ok (writeFileDurably_createNew after hfree)
    apply exists_bind_ok (recordBytes_of_mem (hguards path mem_cons_self) _ _ _ _)
    apply exists_bind_ok (@removeFile_of_some _ source before hleft)
    exact ⟨_, recordBytes_of_mem (hguards source hmem) _ _ _ _⟩

theorem applyResults_of_stepsFit {guards : List (Path × WriteGuard)} {s : FileState}
    {changed : List Path} {results : List SingleFileResult} (hsteps : StepsFit s.disk results)
    (hguards : ∀ result ∈ results, ∀ path ∈ resultPaths result, path ∈ guards.map Prod.fst) :
    ∃ s', applyResults guards s changed results = .ok s' := by
  induction results generalizing s changed with
  | nil => exact ⟨s, rfl⟩
  | cons result rest ih =>
    obtain ⟨next, hnext⟩ := applyResult_of_fits hsteps.1 (hguards result mem_cons_self)
    have hrest := hsteps.2
    rw [← disk_of_applyResult hnext] at hrest
    rw [applyResults, hnext]
    exact ih hrest fun other hother => hguards other (mem_cons_of_mem _ hother)

/-- The entries are the paths that the overlay knows, with what the disk and the buffers hold. -/
structure InitialOk (host : Host) (disk : Disk) (overlay : Overlay) (initial : Preimages) :
    Prop where
  known : ∀ path, path ∈ initial.map Prod.fst ↔ overlay path ≠ none
  nodup : (initial.map Prod.fst).Nodup
  expected : ∀ entry ∈ initial, disk entry.1 = entry.2
  read : ∀ path before, (path, some before) ∈ initial → host.getFileText path = .ok before

variable {initial : Preimages} {state : OverlayState}

theorem InitialOk.orInsert {before : Option Text} (h : InitialOk host disk overlay initial)
    (hdisk : overlay path = none → disk path = before)
    (hread : overlay path = none → ∀ text, before = some text → host.getFileText path = .ok text) :
    InitialOk host disk (update overlay path (some state))
      (orInsert initial path before) := by
  by_cases hmem : path ∈ initial.map Prod.fst
  · rw [PatchPlan.orInsert, if_pos hmem]
    refine ⟨?_, h.nodup, h.expected, h.read⟩
    intro other
    by_cases hother : other = path
    · subst hother
      rw [update_self]
      exact ⟨fun _ => Option.some_ne_none _, fun _ => hmem⟩
    · rw [update_of_ne hother]
      exact h.known other
  · have hnone : overlay path = none := by
      by_contra hne
      exact hmem ((h.known path).mpr hne)
    rw [PatchPlan.orInsert, if_neg hmem]
    refine ⟨?_, ?_, ?_, ?_⟩
    · intro other
      rw [map_append, mem_append, h.known other]
      by_cases hother : other = path
      · subst hother
        simp
      · rw [update_of_ne hother]
        simp [hother]
    · rw [map_append, nodup_append]
      refine ⟨h.nodup, nodup_singleton _, ?_⟩
      rintro a ha b hb rfl
      have heq : a = path := mem_singleton.mp hb
      exact hmem (heq ▸ ha)
    · intro entry hentry
      rcases mem_append.mp hentry with hentry | hentry
      · exact h.expected entry hentry
      · rw [mem_singleton.mp hentry]
        exact hdisk hnone
    · intro other text hentry
      rcases mem_append.mp hentry with hentry | hentry
      · exact h.read other text hentry
      · cases mem_singleton.mp hentry
        exact hread hnone text rfl

theorem ReadNow.first {content : Text} (h : ReadNow host disk overlay path content)
    (hbuffers : ReadsDisk host disk path) (hnone : overlay path = none) :
    disk path = some content ∧ host.getFileText path = .ok content := by
  have hcont := h.content hbuffers
  rw [overlaid_of_none hnone] at hcont
  rcases h with hpresent | ⟨-, -, hread⟩
  · rw [hnone] at hpresent
    cases hpresent
  · exact ⟨hcont, hread⟩

theorem InitialOk.read_now {overlay : Overlay} {initial : Preimages} {path : Path} {before : Text}
    {state : OverlayState} (h : InitialOk host disk overlay initial)
    (hread : ReadNow host disk overlay path before)
    (hbuffers : ReadsDisk host disk path) :
    InitialOk host disk (update overlay path (some state))
      (PatchPlan.orInsert initial path (some before)) := by
  apply h.orInsert
  · exact fun hnone => (hread.first hbuffers hnone).1
  · rintro hnone text ⟨⟩
    exact (hread.first hbuffers hnone).2

theorem InitialOk.free_now (h : InitialOk host disk overlay initial)
    (hfree : overlay path = none → disk path = none) :
    InitialOk host disk (update overlay path (some state))
      (PatchPlan.orInsert initial path none) := by
  apply h.orInsert hfree
  rintro - text ⟨⟩

theorem initialOk_of_planning (h : Planning host disk overlay operation result next)
    (hinit : InitialOk host disk overlay initial)
    (hbuffers : ∀ path, Touches host [operation] path → ReadsDisk host disk path)
    (hunicode : SourcesUnicode host [operation]) :
    ∃ more, addPreimages initial result = some more ∧ InitialOk host disk next more ∧
      ∀ path ∈ resultPaths result, next path ≠ none := by
  cases h with
  | add hname hfree =>
    refine ⟨_, rfl, hinit.free_now fun hnone => ?_, ?_⟩
    · rwa [overlaid_of_none hnone] at hfree
    · simp [resultPaths]
  | delete hname hread =>
    refine ⟨_, rfl, hinit.read_now hread (hbuffers _ ?_), by simp [resultPaths]⟩
    exact touches_of_name mem_cons_self hname
  | update hname hread =>
    refine ⟨_, rfl, hinit.read_now hread (hbuffers _ ?_), by simp [resultPaths]⟩
    exact touches_of_name mem_cons_self hname
  | @move name moveTo before after source dest chunks chunk hname hdest hread hfree hchunk =>
    have hsource := @moveSource_of_unicode source dest before after chunk hchunk
      (hunicode name moveTo chunks (mem_singleton_self _) source hname)
    have hfirst := @InitialOk.read_now _ _ _ _ _ _ .deleted hinit hread
      (hbuffers source (touches_of_name mem_cons_self hname))
    refine ⟨PatchPlan.orInsert (PatchPlan.orInsert initial source (some before)) dest none,
      ?_, hfirst.free_now ?_, ?_⟩
    · rw [addPreimages]
      dsimp only
      rw [hsource, Option.map_some]
    · intro hnone
      have hne : dest ≠ source := by
        rintro rfl
        rw [update_self] at hnone
        cases hnone
      rw [update_of_ne hne] at hnone
      rwa [overlaid_of_none hnone] at hfree
    · intro path hpath
      simp only [resultPaths, hsource, Option.toList_some, mem_cons, not_mem_nil,
        or_false] at hpath
      rcases hpath with rfl | rfl
      · rw [update_self]
        exact Option.some_ne_none _
      · by_cases hsame : path = dest
        · rw [hsame, update_self]
          exact Option.some_ne_none _
        · rw [update_of_ne hsame, update_self]
          exact Option.some_ne_none _

variable {other : Path}

theorem update_ne_none_iff : update overlay other (some state) path ≠ none ↔
      path = other ∨ overlay path ≠ none := by
  by_cases hsame : path = other
  · rw [hsame, update_self]
    simp
  · rw [update_of_ne hsame]
    simp [hsame]

theorem known_of_planning (h : Planning host disk overlay operation result next) :
    ∃ paths : List Path, (∀ path ∈ paths, Touches host [operation] path) ∧
      ∀ path, next path ≠ none ↔ path ∈ paths ∨ overlay path ≠ none := by
  cases h with
  | @add _ _ path _ hname =>
    refine ⟨[path], ?_, fun other => ?_⟩
    · simpa using touches_of_name mem_cons_self hname
    · rw [update_ne_none_iff, mem_singleton]
  | @delete _ _ path _ hname =>
    refine ⟨[path], ?_, fun other => ?_⟩
    · simpa using touches_of_name mem_cons_self hname
    · rw [update_ne_none_iff, mem_singleton]
  | @update _ _ _ path _ _ hname =>
    refine ⟨[path], ?_, fun other => ?_⟩
    · simpa using touches_of_name mem_cons_self hname
    · rw [update_ne_none_iff, mem_singleton]
  | @move _ _ _ _ source dest _ _ hname hdest =>
    refine ⟨[dest, source], ?_, fun other => ?_⟩
    · intro path hpath
      simp only [mem_cons, not_mem_nil, or_false] at hpath
      rcases hpath with rfl | rfl
      · exact touches_of_name (by simp [operationPaths]) hdest
      · exact touches_of_name mem_cons_self hname
    · rw [update_ne_none_iff, update_ne_none_iff]
      simp [or_assoc]

theorem known_of_plans (h : Plans host disk overlay operations results last) :
    ∃ paths : List Path, (∀ path ∈ paths, Touches host operations path) ∧
      ∀ path, last path ≠ none ↔ path ∈ paths ∨ overlay path ≠ none := by
  induction h with
  | nil => exact ⟨[], by simp⟩
  | cons hplanning _ ih =>
    obtain ⟨first, hfirst, hnext⟩ := known_of_planning hplanning
    obtain ⟨others, hothers, hlast⟩ := ih
    refine ⟨others ++ first, ?_, ?_⟩
    · intro path hpath
      rcases mem_append.mp hpath with hpath | hpath
      · exact (hothers path hpath).mono (subset_cons_self _ _)
      · exact (hfirst path hpath).mono (by simp)
    · intro path
      rw [hlast, hnext, mem_append, or_assoc]

theorem initialOk_of_plans (h : Plans host disk overlay operations results last)
    (hinit : InitialOk host disk overlay initial)
    (hbuffers : ∀ path, Touches host operations path → ReadsDisk host disk path)
    (hunicode : SourcesUnicode host operations) :
    ∃ all, initialPreimages initial results = some all ∧ InitialOk host disk last all ∧
      ∀ result ∈ results, ∀ path ∈ resultPaths result, last path ≠ none := by
  induction h generalizing initial with
  | nil => exact ⟨initial, rfl, hinit, by simp⟩
  | @cons overlay next last operation result operations results hplanning hplans ih =>
    have hfirst : [operation] ⊆ operation :: operations := by simp
    have hrest : operations ⊆ operation :: operations := subset_cons_self _ _
    obtain ⟨more, hmore, hnext, hknown⟩ := initialOk_of_planning hplanning hinit
      (fun path hpath => hbuffers path (hpath.mono hfirst)) (hunicode.mono hfirst)
    obtain ⟨all, hall, hlast, hothers⟩ := ih hnext
      (fun path hpath => hbuffers path (hpath.mono hrest)) (hunicode.mono hrest)
    refine ⟨all, ?_, hlast, ?_⟩
    · rw [initialPreimages, hmore]
      exact hall
    · intro other hother path hpath
      rcases mem_cons.mp hother with rfl | hother
      · obtain ⟨paths, -, hkept⟩ := known_of_plans hplans
        exact (hkept path).mpr (.inr (hknown path hpath))
      · exact hothers other hother path hpath

theorem validateWrites_eq_ok {paths : List (Path × WriteIntent)}
    (h : ∀ entry ∈ paths, validateWrite host disk entry.1 entry.2 =
      .ok ⟨host.key entry.1, entry.1, (disk entry.1).map host.digest⟩) :
    validateWrites host disk paths =
      .ok (paths.map fun entry =>
        ⟨host.key entry.1, entry.1, (disk entry.1).map host.digest⟩) := by
  induction paths with
  | nil => rfl
  | cons entry rest ih =>
    obtain ⟨path, intent⟩ := entry
    rw [validateWrites, h (path, intent) mem_cons_self]
    dsimp only
    rw [ih fun other hother => h other (mem_cons_of_mem _ hother)]
    rfl

theorem checkCanonical_eq_ok {paths : List (Path × WriteIntent)}
    (h : ∀ entry ∈ paths, ∃ candidate, host.canonicalCandidate entry.1 = .ok candidate) :
    checkCanonical host paths = .ok () := by
  induction paths with
  | nil => rfl
  | cons entry rest ih =>
    obtain ⟨path, intent⟩ := entry
    obtain ⟨candidate, hcandidate⟩ := h (path, intent) mem_cons_self
    rw [checkCanonical, hcandidate]
    exact ih fun other hother => h other (mem_cons_of_mem _ hother)

theorem validateWrite_eq_ok {before : Option Text} (hdisk : disk path = before)
    (hseen : ∀ text seen, disk path = some text → host.observed (host.key path) = some seen →
      seen = host.digest text) :
    validateWrite host disk path (writeIntent before) =
      .ok ⟨host.key path, path, (disk path).map host.digest⟩ := by
  unfold validateWrite
  dsimp only
  split
  · rfl
  · cases before with
    | none => simp [writeIntent, hdisk]
    | some text =>
      have hintent : writeIntent (some text) = .contextual := rfl
      rw [hintent, hdisk]
      dsimp only [Option.map_some]
      split
      next digest seen hdigest hobserved =>
        cases hdigest
        rw [if_neg (not_not.mpr (hseen text seen hdisk hobserved))]
      next => rfl

variable {entries : Preimages}

theorem checkPreimages_eq_ok (hexpected : ∀ entry ∈ entries, disk entry.1 = entry.2)
    (hread : ∀ path before, (path, some before) ∈ entries → host.getFileText path = .ok before) :
    checkPreimages host disk entries = .ok () := by
  induction entries with
  | nil => rfl
  | cons entry rest ih =>
    obtain ⟨path, expected⟩ := entry
    have hrest := ih (fun other hother => hexpected other (mem_cons_of_mem _ hother))
      (fun other before hother => hread other before (mem_cons_of_mem _ hother))
    cases expected with
    | none => rw [checkPreimages, if_neg (not_not.mpr (hexpected _ mem_cons_self)), hrest]
    | some current =>
      rw [checkPreimages, if_neg (not_not.mpr (hexpected _ mem_cons_self)),
        hread path current mem_cons_self]
      dsimp only
      rw [if_neg (not_not.mpr rfl), hrest]

theorem InitialOk.perm (h : InitialOk host disk overlay initial) (hperm : entries.Perm initial) :
    InitialOk host disk overlay entries := by
  refine ⟨fun path => ?_, ?_, ?_, ?_⟩
  · rw [(hperm.map Prod.fst).mem_iff]
    exact h.known path
  · exact (hperm.map Prod.fst).nodup_iff.mpr h.nodup
  · exact fun entry hentry => h.expected entry (hperm.mem_iff.mp hentry)
  · exact fun path before hentry => h.read path before (hperm.mem_iff.mp hentry)

theorem beginWrites_of_initialOk (hne : entries ≠ []) (h : InitialOk host disk overlay entries)
    (htouches : ∀ path, overlay path ≠ none → Touches host operations path)
    (hundist : Undisturbed host disk operations) :
    ∃ guards, beginWrites host disk (entries.map fun entry => (entry.1, writeIntent entry.2)) =
        .ok guards ∧ (guards.map WriteGuard.key).Nodup ∧ guards.length = entries.length := by
  have htouched : ∀ entry ∈ entries, Touches host operations entry.1 := fun entry hentry =>
    htouches _ ((h.known _).mp (mem_map_of_mem hentry))
  have hpaths : ∀ path ∈ entries.map Prod.fst, Touches host operations path := by
    intro path hpath
    obtain ⟨entry, hentry, rfl⟩ := mem_map.mp hpath
    exact htouched entry hentry
  have hcount := hundist.records _ h.nodup hpaths
  rw [length_map] at hcount
  have hcanonical : checkCanonical host
      (entries.map fun entry => (entry.1, writeIntent entry.2)) = .ok () := by
    apply checkCanonical_eq_ok
    intro item hitem
    obtain ⟨entry, hentry, rfl⟩ := mem_map.mp hitem
    exact hundist.canonical _ (htouched entry hentry)
  have hvalid := @validateWrites_eq_ok host disk
    (entries.map fun entry => (entry.1, writeIntent entry.2)) (by
      intro item hitem
      obtain ⟨entry, hentry, rfl⟩ := mem_map.mp hitem
      exact validateWrite_eq_ok (h.expected entry hentry)
        (hundist.seen _ (htouched entry hentry)))
  have hkeys : ((entries.map Prod.fst).map host.key).Nodup :=
    List.Nodup.map_on (fun path hpath other hother =>
      hundist.distinct path other (hpaths path hpath) (hpaths other hother)) h.nodup
  have hroom : ¬ (entries.map (fun entry => (entry.1, writeIntent entry.2)) = [] ∨
      host.maxWriteRecords < (entries.map fun entry => (entry.1, writeIntent entry.2)).length) := by
    rw [not_or, length_map]
    exact ⟨by simpa using hne, by omega⟩
  have hbegin : beginWrites host disk
      (entries.map fun entry => (entry.1, writeIntent entry.2)) = validateWrites host disk
        (entries.map fun entry => (entry.1, writeIntent entry.2)) := by
    rw [beginWrites, if_neg hroom, hcanonical]
  refine ⟨_, hbegin.trans hvalid, ?_, ?_⟩
  · rw [map_map] at hkeys
    rw [map_map, map_map]
    exact hkeys
  · rw [length_map, length_map]

variable {plan : ApplyPatchResult}

/-- A plan whose steps fit is executed once its guards and first contents are in order. -/
theorem apply_eq_ok (hpreimages : initialPreimages [] plan.fileResults = some initial)
    (hinit : InitialOk host disk last initial)
    (hknown : ∀ result ∈ plan.fileResults, ∀ path ∈ resultPaths result, last path ≠ none)
    (htouches : ∀ path, last path ≠ none → Touches host operations path)
    (hundist : Undisturbed host disk operations) (hsteps : StepsFit disk plan.fileResults) :
    ∃ final, apply host disk plan = .ok final ∧
      final.disk = runEffects disk plan.fileResults := by
  by_cases hempty : initial = []
  · have hresults : plan.fileResults = [] := by
      rw [eq_nil_iff_forall_not_mem]
      intro result hres
      have hpath : result.path ∈ resultPaths result := by
        rw [resultPaths]
        split <;> exact mem_cons_self
      have hmem := (hinit.known _).mpr (hknown result hres _ hpath)
      rw [hempty] at hmem
      cases hmem
    refine ⟨⟨disk, []⟩, ?_, ?_⟩
    · rw [apply, hpreimages]
      dsimp only
      rw [if_pos hempty]
    · rw [hresults]
      rfl
  · have hperm : (sortedPreimages host initial).Perm initial := perm_insertionSort _ _
    have hents := hinit.perm hperm
    have hne : sortedPreimages host initial ≠ [] := fun hnil =>
      hempty (nil_perm.mp (hnil ▸ hperm))
    obtain ⟨guards, hguards, hkeys, hlen⟩ :=
      beginWrites_of_initialOk hne hents htouches hundist
    have hzip : ((sortedPreimages host initial).map Prod.fst |>.zip guards).map Prod.fst =
        (sortedPreimages host initial).map Prod.fst := by
      apply map_fst_zip
      rw [length_map, hlen]
    obtain ⟨final, hfinal⟩ := @applyResults_of_stepsFit
      (((sortedPreimages host initial).map Prod.fst).zip guards) ⟨disk, []⟩ [] _ hsteps (by
        intro result hres path hpath
        rw [hzip, hents.known]
        exact hknown result hres path hpath)
    refine ⟨final, ?_, disk_of_applyResults hfinal⟩
    rw [apply, hpreimages]
    dsimp only
    rw [if_neg hempty, hguards]
    dsimp only
    rw [if_neg (not_not.mpr hkeys), checkPreimages_eq_ok hents.expected hents.read]
    exact hfinal

theorem ofString_of_moveSource {source : Path} (h : moveSource result = some source) :
    ofString (toStringLossy source) = source := by
  rw [moveSource, Option.map_eq_some_iff] at h
  obtain ⟨chunk, -, rfl⟩ := h
  simp only [ofString, toStringLossy, map_map]
  rfl

structure Stranded (files : Disk) (overlay : Overlay) (path : Path) : Prop where
  present : files path ≠ none
  deleted : overlay path = some .deleted
  notUnicode : ofString (toStringLossy path) ≠ path

theorem Stranded.ne_of_free (h : Stranded files overlay path) (hfree : files other = none) :
    path ≠ other := by
  rintro rfl
  exact h.present hfree

theorem Stranded.ne_of_read {content : Text} (h : Stranded files overlay path)
    (hread : ReadNow host disk overlay other content) : path ≠ other := by
  rintro rfl
  rcases hread with hpresent | ⟨hnone, -⟩
  · rw [h.deleted] at hpresent
    cases hpresent
  · rw [h.deleted] at hnone
    cases hnone

theorem stranded_of_planning (h : Planning host disk overlay operation result next)
    (hfits : Fits files result) (hstranded : Stranded files overlay path) :
    Stranded (effect result files) next path := by
  suffices hframe : path ∉ resultPaths result ∧ next path = overlay path by
    refine ⟨?_, hframe.2.trans hstranded.deleted, hstranded.notUnicode⟩
    rw [effect_of_not_mem hframe.1]
    exact hstranded.present
  cases h with
  | @add _ _ other _ hname hfree =>
    have hne : path ≠ other := hstranded.ne_of_free hfits
    exact ⟨by simpa [resultPaths] using hne, update_of_ne hne _ _⟩
  | @delete _ _ other _ hname hread =>
    have hne : path ≠ other := hstranded.ne_of_read hread
    exact ⟨by simpa [resultPaths] using hne, update_of_ne hne _ _⟩
  | @update _ _ _ other _ _ hname hread =>
    have hne : path ≠ other := hstranded.ne_of_read hread
    exact ⟨by simpa [resultPaths] using hne, update_of_ne hne _ _⟩
  | @move _ _ _ _ source dest _ _ hname hdest hread hfree hchunk =>
    obtain ⟨hfree, moved, hmoved, -⟩ := hfits
    have hdestNe : path ≠ dest := hstranded.ne_of_free hfree
    have hmovedNe : path ≠ moved := by
      rintro rfl
      exact hstranded.notUnicode (ofString_of_moveSource hmoved)
    refine ⟨by simp [resultPaths, hmoved, hdestNe, hmovedNe], ?_⟩
    rw [update_of_ne hdestNe, update_of_ne (hstranded.ne_of_read hread)]

theorem stranded_of_plans (h : Plans host disk overlay operations results last)
    (hsteps : StepsFit files results) (hstranded : Stranded files overlay path) :
    Stranded (runEffects files results) last path := by
  induction h generalizing files with
  | nil => exact hstranded
  | cons hplanning _ ih =>
    exact ih hsteps.2 (stranded_of_planning hplanning hsteps.1 hstranded)

theorem Resolves.unique (h : Resolves host name path) (h' : Resolves host name other) :
    path = other := by
  obtain ⟨resolved, hresolved, rfl⟩ := h
  obtain ⟨resolved', hresolved', rfl⟩ := h'
  rw [hresolved] at hresolved'
  cases hresolved'
  rfl

theorem stranded_of_move {moveTo : Text}
    (h : Planning host disk overlay (.update name (some moveTo) chunks) result next)
    (hbuffers : ReadsDisk host disk path) (hpath : Resolves host name path)
    (hunicode : ofString (toStringLossy path) ≠ path) (hfits : Fits (overlaid disk overlay) result)
      :
    Stranded (effect result (overlaid disk overlay)) next path := by
  cases h with
  | @move _ _ before after source dest _ chunk hname hdest hread hfree hchunk =>
    cases hpath.unique hname
    have hcont := hread.content hbuffers
    have hne : path ≠ dest := by
      rintro rfl
      rw [hfree] at hcont
      cases hcont
    obtain ⟨-, moved, hmoved, -⟩ := hfits
    have hmovedNe : path ≠ moved := by
      rintro rfl
      exact hunicode (ofString_of_moveSource hmoved)
    refine ⟨?_, ?_, hunicode⟩
    · rw [effect_of_not_mem (by simp [resultPaths, hmoved, hne, hmovedNe]), hcont]
      exact Option.some_ne_none _
    · rw [update_of_ne hne, update_self]

theorem sourcesUnicode_of_plans (h : Plans host disk overlay operations results last)
    (hbuffers : ∀ path, Touches host operations path → ReadsDisk host disk path)
    (hsteps : StepsFit (overlaid disk overlay) results)
    (hfinal : runEffects (overlaid disk overlay) results = overlaid disk last) :
    SourcesUnicode host operations := by
  induction h with
  | nil => simp [SourcesUnicode]
  | @cons overlay next last operation result operations results hplanning hplans ih =>
    have hfirst : [operation] ⊆ operation :: operations := by simp
    have hunicode : SourcesUnicode host [operation] := by
      intro name moveTo chunks hmem source hsource
      by_contra hbad
      cases mem_singleton.mp hmem
      have htouches : Touches host (.update name (some moveTo) chunks :: operations) source :=
        ⟨_, mem_cons_self, name, mem_cons_self, hsource⟩
      have hstranded := stranded_of_plans hplans hsteps.2
        (stranded_of_move hplanning (hbuffers source htouches) hsource hbad hsteps.1)
      -- The file is still on the disk, where the last overlay has none.
      apply hstranded.present
      exact (congrFun hfinal source).trans (overlaid_of_deleted hstranded.deleted)
    obtain ⟨-, heffect⟩ := fits_of_planning hplanning
      (fun path hpath => hbuffers path (hpath.mono hfirst)) hunicode
    have hrest := ih (fun path hpath => hbuffers path (hpath.mono (subset_cons_self _ _)))
      (heffect ▸ hsteps.2) (heffect ▸ hfinal)
    intro name moveTo chunks hmem
    rcases mem_cons.mp hmem with rfl | hmem
    · exact hunicode name moveTo chunks (mem_singleton_self _)
    · exact hrest name moveTo chunks hmem

theorem orInsert_ne_nil (initial : Preimages) (path : Path) (before : Option Text) :
    orInsert initial path before ≠ [] := by
  rw [orInsert]
  split
  next hmem =>
    rintro rfl
    cases hmem
  next => simp

theorem addPreimages_ne_nil {more : Preimages} (h : addPreimages initial result = some more) :
    more ≠ [] := by
  rw [addPreimages] at h
  split at h
  · cases h
    exact orInsert_ne_nil _ _ _
  · obtain ⟨source, -, rfl⟩ := Option.map_eq_some_iff.mp h
    exact orInsert_ne_nil _ _ _
  · cases h
    exact orInsert_ne_nil _ _ _
  · cases h
    exact orInsert_ne_nil _ _ _

theorem initialPreimages_ne_nil {all : Preimages} (hne : initial ≠ [])
    (h : initialPreimages initial results = some all) : all ≠ [] := by
  induction results generalizing initial with
  | nil =>
    cases h
    exact hne
  | cons result rest ih =>
    rw [initialPreimages, Option.bind_eq_some_iff] at h
    obtain ⟨more, hmore, h⟩ := h
    exact ih (addPreimages_ne_nil hmore) h

theorem disk_of_apply {final : FileState} (h : apply host disk plan = .ok final) :
    final.disk = runEffects disk plan.fileResults := by
  simp only [apply] at h
  split at h
  · cases h
  next initial hinit =>
    split at h
    next hempty =>
      cases h
      cases hresults : plan.fileResults with
      | nil => rfl
      | cons result rest =>
        rw [hresults, initialPreimages, Option.bind_eq_some_iff] at hinit
        obtain ⟨more, hmore, hrest⟩ := hinit
        exact absurd hempty (initialPreimages_ne_nil (addPreimages_ne_nil hmore) hrest)
    next =>
      split at h
      · cases h
      · split at h
        · cases h
        · split at h
          · cases h
          · exact disk_of_applyResults h

theorem plans_of_planPatch {patch : Text} (hparse : parsePatch patch = .ok operations)
    (h : planPatch host disk patch = .ok planned) :
    Plans host disk (fun _ => none) operations planned.plan.fileResults planned.overlay := by
  rw [planPatch, hparse] at h
  dsimp only at h
  split at h
  · cases h
  · obtain ⟨results, hplans, hresults⟩ := plans_of_planOperations h
    rw [hresults]
    exact hplans

/-- An undisturbed patch that can be planned is executed as planned exactly when every path that a
file is moved away from is Unicode. -/
theorem realised_iff_sourcesUnicode (host : Host) (disk : Disk) (patch : Text)
    (operations : List FileOperation) (planned : Planned)
    (hparse : parsePatch patch = .ok operations)
    (hplan : planPatch host disk patch = .ok planned)
    (hundisturbed : Undisturbed host disk operations) :
    Realised host disk planned ↔ SourcesUnicode host operations := by
  have hplans := plans_of_planPatch hparse hplan
  have hstart : overlaid disk (fun _ => none) = disk := rfl
  constructor
  · rintro ⟨hsteps, final, hfinal, hdisk⟩
    rw [disk_of_apply hfinal] at hdisk
    exact sourcesUnicode_of_plans hplans hundisturbed.buffers hsteps hdisk
  · intro hunicode
    obtain ⟨hsteps, hrun⟩ := stepsFit_of_plans hplans hundisturbed.buffers hunicode
    rw [hstart] at hsteps hrun
    have hempty : InitialOk host disk (fun _ => none) [] := ⟨by simp, by simp, by simp, by simp⟩
    obtain ⟨initial, hinitial, hok, hknown⟩ :=
      initialOk_of_plans hplans hempty hundisturbed.buffers hunicode
    obtain ⟨paths, hpaths, hlast⟩ := known_of_plans hplans
    have htouches : ∀ path, planned.overlay path ≠ none → Touches host operations path := by
      intro path hpath
      rcases (hlast path).mp hpath with hmem | hnone
      · exact hpaths path hmem
      · exact absurd rfl hnone
    obtain ⟨final, hfinal, hdisk⟩ :=
      apply_eq_ok hinitial hok hknown htouches hundisturbed hsteps
    exact ⟨hsteps, final, hfinal, hdisk.trans hrun⟩

def directoryHost (root : Path) (disk : Disk) : Host where
  resolvePatchPath name := .ok ⟨root ++ ofString ('/' :: name), []⟩
  scopeGuard := none
  getFileText path :=
    match disk (ofString (toStringLossy path)) with
    | some text => .ok text
    | none => .error "Not found in memory, not found on disk".toList
  convertEditToDiffchunks path before after :=
    [⟨toStringLossy path, "edit", 1, 1, before, after, none, false⟩]
  canonicalCandidate path := .ok path
  key := toStringLossy
  digest := id
  observed _ := none
  enabled := true
  maxWriteRecords := 64
  pathLe a b := decide (toStringLossy a ≤ toStringLossy b)

theorem toStringLossy_ofString (text : Text) : toStringLossy (ofString text) = text := by
  rw [toStringLossy, ofString, map_map]
  exact map_id text

theorem directoryHost_undisturbed {root : Path}
    (hbuffers : ∀ path, ReadsDisk (directoryHost root disk) disk path)
    (hcount : (operations.flatMap operationPaths).length ≤ 64) :
    Undisturbed (directoryHost root disk) disk operations := by
  refine ⟨fun path _ => hbuffers path, ?_, ?_, ?_, ?_⟩
  · rintro path other ⟨_, -, name, -, _, hname, rfl⟩ ⟨_, -, name', -, _, hname', rfl⟩ hkey
    cases hname
    cases hname'
    simp only [directoryHost, toStringLossy, map_append, append_cancel_left_eq] at hkey
    have heq := toStringLossy_ofString ('/' :: name)
    have heq' := toStringLossy_ofString ('/' :: name')
    rw [toStringLossy] at heq heq'
    rw [heq, heq'] at hkey
    rw [hkey]
  · exact fun path _ => ⟨path, rfl⟩
  · intro path _ text seen _ hseen
    cases hseen
  · intro paths hnodup htouches
    have hsub : paths ⊆ (operations.flatMap operationPaths).map
        fun name => root ++ ofString ('/' :: name) := by
      intro path hpath
      obtain ⟨operation, hop, name, hname, _, hresolved, rfl⟩ := htouches path hpath
      cases hresolved
      exact mem_map.mpr ⟨name, mem_flatMap.mpr ⟨operation, hop, hname⟩, rfl⟩
    have hle := (subperm_of_subset hnodup hsub).length_le
    rw [length_map] at hle
    exact hle.trans hcount

theorem toList_literal {s : String} {chars : Text} (h : s = String.ofList chars) :
    s.toList = chars := by
  rw [h, String.toList_ofList]

theorem toList_literals {s t : String} {chars more : Text} (hs : s = String.ofList chars)
    (ht : t = String.ofList more) : (s ++ t).toList = chars ++ more := by
  rw [String.toList_append, toList_literal hs, toList_literal ht]

def twoFiles : Disk := fun path =>
  if path = ofString "/w/a".toList then some "one\n".toList
  else if path = ofString "/w/c".toList then some "x\n".toList
  else none

def movesAndDelete : Text :=
  ("*** Begin Patch\n*** Update File: a\n*** Move to: b\n@@\n-one\n+two\n" ++
    "*** Delete File: b\n*** Update File: c\n*** Move to: a\n@@\n x\n+y\n*** End Patch").toList

def unicodeDirectory : Host := directoryHost (ofString "/w".toList) twoFiles

theorem movesAndDelete_realised :
    ∃ planned, planPatch unicodeDirectory twoFiles movesAndDelete = .ok planned ∧
      Realised unicodeDirectory twoFiles planned := by
  have hparse : parsePatch movesAndDelete = .ok
      [.update "a".toList (some "b".toList) [⟨[], ["one".toList], ["two".toList], false⟩],
        .delete "b".toList,
        .update "c".toList (some "a".toList)
          [⟨[], ["x".toList], ["x".toList, "y".toList], false⟩]] := by
    rw [show movesAndDelete = _ from toList_literals rfl rfl]
    decide +kernel
  have hplanned :
      (planPatch unicodeDirectory twoFiles movesAndDelete).toOption.isSome = true := by
    rw [planPatch, hparse]
    decide
  cases hplan : planPatch unicodeDirectory twoFiles movesAndDelete with
  | error error =>
    rw [hplan] at hplanned
    cases hplanned
  | ok planned =>
    refine ⟨planned, rfl, (realised_iff_sourcesUnicode _ _ _ _ _ hparse hplan ?_).mpr ?_⟩
    · apply directoryHost_undisturbed
      · intro path text content htext hread
        have hsame : ofString (toStringLossy path) = path := by
          rw [twoFiles] at htext
          split at htext
          next hpath => rw [hpath, toStringLossy_ofString]
          next =>
            split at htext
            next hpath => rw [hpath, toStringLossy_ofString]
            next => cases htext
        rw [directoryHost] at hread
        dsimp only at hread
        rw [hsame, htext] at hread
        cases hread
        rfl
      · decide
    · rintro name moveTo chunks hmem source ⟨resolved, hresolved, rfl⟩
      cases hresolved
      exact congrArg ofString (toStringLossy_ofString ("/w".toList ++ '/' :: name))

/-- A file is added to a directory whose name is no Unicode, and moved. -/
def addAndMove : Text :=
  ("*** Begin Patch\n*** Add File: a\n+one\n*** Update File: a\n*** Move to: b\n@@\n-one\n+two\n" ++
    "*** End Patch").toList

def noFiles : Disk := fun _ => none

def invalidDirectory : Host := directoryHost [.char '/', .invalid [0xff]] noFiles

theorem addAndMove_not_realised :
    ∃ operations planned, parsePatch addAndMove = .ok operations ∧
      planPatch invalidDirectory noFiles addAndMove = .ok planned ∧
      Undisturbed invalidDirectory noFiles operations ∧
      ¬ Realised invalidDirectory noFiles planned := by
  have hparse : parsePatch addAndMove = .ok
      [.add "a".toList "one\n".toList, .update "a".toList (some "b".toList)
        [⟨[], ["one".toList], ["two".toList], false⟩]] := by
    rw [show addAndMove = _ from toList_literals rfl rfl]
    decide
  have hfails : (match planPatch invalidDirectory noFiles addAndMove with
    | .ok planned => (apply invalidDirectory noFiles planned.plan).toOption.isNone
    | .error _ => false) = true := by
    rw [planPatch, hparse]
    decide
  cases hplan : planPatch invalidDirectory noFiles addAndMove with
  | error error =>
    rw [hplan] at hfails
    cases hfails
  | ok planned =>
    rw [hplan] at hfails
    refine ⟨_, planned, hparse, rfl, ?_, ?_⟩
    · apply directoryHost_undisturbed
      · rintro path text content ⟨⟩
      · decide
    · rintro ⟨-, final, hfinal, -⟩
      dsimp only at hfails
      rw [hfinal] at hfails
      cases hfails

end PatchExecution
