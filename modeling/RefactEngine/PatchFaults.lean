import RefactEngine.PatchExecution

/-! # A patch that stops on the way

Every file operation of a step may fail. A patch that stops reports the paths of the results before
the step as changed, and those from it on as unchanged.
-/
namespace PatchFaults

open TextLines ApplyPatch PatchPlan PatchExecution List

/-- How the file operations of one step end; nothing for those that succeed. A file that cannot be
written, flushed or synced is left with some contents. -/
structure StepIo where
  createDirs : Option Text
  inspect : Option Text
  isFile : Bool
  hardLinked : Bool
  openFile : Option Text
  written : Option (Text × Text)
  setPermissions : Option Text
  rename : Option Text
  cleanup : Option Text
  syncDir : Option Text
  sourceMetadata : Option Text
  destPermissions : Option Text
  remove : Option Text

def StepIo.faultless : StepIo :=
  ⟨none, none, true, false, none, none, none, none, none, none, none, none, none⟩

/-- The files, those that the patch has replaced, created or removed so far, and whether a temporary
file was left. A file that a failed creation removes again does not count. -/
structure PatchState where
  files : FileState
  touched : List Path
  tempLeft : Bool

inductive Stop where
  | refused (error : StepError)
  | notRegular (path : Path)
  | failed (message : Text)
  deriving DecidableEq

abbrev IoM := Except (PatchState × Stop)

def demand (s : PatchState) : Option Text → IoM Unit
  | none => .ok ()
  | some message => .error (s, .failed message)

def put (s : PatchState) (path : Path) (contents : Option Text) : PatchState :=
  { s with
    files := { s.files with disk := Function.update s.files.disk path contents }
    touched := s.touched ++ [path] }

variable (io : StepIo)

def createExclusively (s : PatchState) (target : Path) (contents : Text) :
    IoM PatchState :=
  if (s.files.disk target).isSome then .error (s, .refused (.fileExists target))
  else do
    demand s io.openFile
    match io.written with
    | none => .ok (put s target (some contents))
    | some (left, message) =>
      if io.cleanup.isNone then .error (s, .failed message)
      else .error (put s target (some left), .failed message)

def writeTempThenRename (s : PatchState) (target : Path) (contents : Text) :
    IoM PatchState := do
  demand s io.openFile
  let left := if io.cleanup.isNone then s else { s with tempLeft := true }
  demand left (io.written.map Prod.snd)
  demand left io.setPermissions
  demand left io.rename
  .ok (put s target (some contents))

def writeInPlace (s : PatchState) (target : Path) (contents : Text) :
    IoM PatchState := do
  demand s io.openFile
  match io.written with
  | none => .ok (put s target (some contents))
  | some (left, message) => .error (put s target (some left), .failed message)

def writeFileDurably (s : PatchState) (path : Path) (contents : Text)
    (mode : ReplaceMode) : IoM PatchState := do
  demand s io.inspect
  if mode = .createNew ∨ (s.files.disk path).isNone then
    let s ← createExclusively io s path contents
    demand s io.syncDir
    .ok s
  else if io.isFile = false then .error (s, .notRegular path)
  else if io.hardLinked then writeInPlace io s path contents
  else
    let s ← writeTempThenRename io s path contents
    demand s io.syncDir
    .ok s

def removeFile (s : PatchState) (path : Path) : IoM PatchState :=
  if (s.files.disk path).isNone then .error (s, .refused (.fileMissing path))
  else do
    demand s io.remove
    .ok (put s path none)

variable (guards : List (Path × WriteGuard))

def recordBytes (s : PatchState) (path : Path)
    (kind : WriteKind) (bytes : Option Text) (missing : StepError) : IoM PatchState :=
  if path ∈ guards.map Prod.fst then
    .ok { s with files := { s.files with recorded := s.files.recorded ++ [(path, kind, bytes)] } }
  else .error (s, .refused missing)

/-- Removes the source of a move whose destination is written. -/
def removeSource (io : StepIo) (s : PatchState)
    (source : Path) : IoM PatchState :=
  if (s.files.disk source).isNone then .error (s, .refused (.fileMissing source))
  else do
    demand s io.sourceMetadata
    demand s io.destPermissions
    let s ← removeFile io s source
    recordBytes guards s source .deleted none .missingSourceGuard

def writeResult (io : StepIo) (s : PatchState)
    (result : SingleFileResult) (mode : ReplaceMode) (kind : WriteKind) : IoM PatchState := do
  demand s io.createDirs
  let s ← writeFileDurably io s result.path result.after mode
  recordBytes guards s result.path kind (some result.after) .missingGuard

def applyStep (io : StepIo) (s : PatchState)
    (result : SingleFileResult) : IoM PatchState :=
  match result.action with
  | .delete => do
    let s ← removeFile io s result.path
    recordBytes guards s result.path .deleted none .missingGuard
  | .add => writeResult guards io s result .createNew .created
  | .update => writeResult guards io s result .replace .modified
  | .rename =>
    match moveSource result with
    | none => .error (s, .refused .moveHasNoSource)
    | some source => do
      let s ← writeResult guards io s result .createNew .created
      removeSource guards io s source

structure Report where
  path : Path
  applied : ℕ
  total : ℕ
  changed : List Path
  unchanged : List Path
  error : Stop
  deriving DecidableEq

inductive PatchError where
  | refused (error : ApplyError)
  | stopped (report : Report)

def applySteps (guards : List (Path × WriteGuard)) (io : ℕ → StepIo) :
    PatchState → List Path → List SingleFileResult → Except (PatchState × PatchError) PatchState
  | s, _, [] => .ok s
  | s, changed, result :: rest =>
    match applyStep guards (io changed.length) s result with
    | .ok s => applySteps guards io s (changed ++ [result.path]) rest
    | .error (s, stop) => .error (s, .stopped ⟨result.path, changed.length,
        changed.length + (rest.length + 1), changed, result.path :: rest.map (·.path), stop⟩)

/-- The guards of the paths of a plan, after its preimages are checked; nothing without paths. -/
def prepare (host : Host) (disk : Disk) (plan : ApplyPatchResult) :
    Except ApplyError (Option (List (Path × WriteGuard))) :=
  match initialPreimages [] plan.fileResults with
  | none => .error .moveHasNoSource
  | some initial =>
    if initial = [] then .ok none
    else
      let entries := sortedPreimages host initial
      match beginWrites host disk (entries.map fun entry => (entry.1, writeIntent entry.2)) with
      | .error refusal => .error (.refused refusal)
      | .ok guards =>
        if ¬ (guards.map WriteGuard.key).Nodup then .error .pathsAlias
        else match checkPreimages host disk entries with
          | .error error => .error error
          | .ok () => .ok (some ((entries.map Prod.fst).zip guards))

def untouched (disk : Disk) : PatchState := ⟨⟨disk, []⟩, [], false⟩

def apply (host : Host) (disk : Disk) (io : ℕ → StepIo) (plan : ApplyPatchResult) :
    Except (PatchState × PatchError) PatchState :=
  match prepare host disk plan with
  | .error error => .error (untouched disk, .refused error)
  | .ok none => .ok (untouched disk)
  | .ok (some guards) => applySteps guards io (untouched disk) [] plan.fileResults

variable (s : PatchState) (path : Path)

theorem bind_eq_error {ε α β : Type*} {x : Except ε α} {f : α → Except ε β} {error : ε}
    (h : x.bind f = .error error) : x = .error error ∨ ∃ a, x = .ok a ∧ f a = .error error := by
  cases x with
  | error _ =>
    cases h
    exact .inl rfl
  | ok a => exact .inr ⟨a, rfl, h⟩

variable {outcome : Option Text}

theorem demand_ok {s : PatchState} {u : Unit} (h : demand s outcome = .ok u) : outcome = none := by
  cases outcome with
  | none => rfl
  | some message => cases h

theorem demand_error {s s' : PatchState} {stop : Stop}
    (h : demand s outcome = .error (s', stop)) : outcome.isSome = true ∧ s' = s := by
  cases outcome with
  | none => cases h
  | some message =>
    cases h
    exact ⟨rfl, rfl⟩

/-- Everything but the records of the guards. -/
structure Same (s s' : PatchState) : Prop where
  disk : s'.files.disk = s.files.disk
  touched : s'.touched = s.touched
  tempLeft : s'.tempLeft = s.tempLeft

theorem Same.refl : Same s s := ⟨rfl, rfl, rfl⟩

structure Touched (s s' : PatchState) (path : Path) : Prop where
  disk : ∀ other ≠ path, s'.files.disk other = s.files.disk other
  touched : s'.touched = s.touched ++ [path]
  tempLeft : s'.tempLeft = s.tempLeft

theorem touched_put (contents : Option Text) :
    Touched s (put s path contents) path :=
  ⟨fun _ hne => Function.update_of_ne hne _ _, rfl, rfl⟩

/-- An operation that failed: it has left everything as it was if it was harmless, and the file or
a temporary one otherwise. -/
inductive Failed (s s' : PatchState) (path : Path) (harmless : Prop) : Prop where
  | clean (h : harmless) (same : Same s s') : Failed s s' path harmless
  | dirty (h : ¬ harmless) (touched : Touched s s' path) : Failed s s' path harmless
  | temp (h : ¬ harmless) (disk : s'.files.disk = s.files.disk) (touched : s'.touched = s.touched)
    (tempLeft : s'.tempLeft = true) : Failed s s' path harmless

theorem Failed.congr {s s' : PatchState} {path : Path} {p q : Prop} (h : Failed s s' path p)
    (hiff : p ↔ q) : Failed s s' path q := by
  cases h with
  | clean h same => exact .clean (hiff.mp h) same
  | dirty h touched => exact .dirty (fun hq => h (hiff.mpr hq)) touched
  | temp h disk touched tempLeft => exact .temp (fun hq => h (hiff.mpr hq)) disk touched tempLeft

def CreationClean (files : Disk) (path : Path) (io : StepIo) : Prop :=
  (files path).isSome = true ∨ io.openFile.isSome = true ∨
    (io.written.isSome = true ∧ io.cleanup = none)

def RenameClean : Prop :=
  io.openFile.isSome = true ∨
    ((io.written.isSome = true ∨ io.setPermissions.isSome = true ∨ io.rename.isSome = true) ∧
      io.cleanup = none)

def WriteClean (files : Disk) (path : Path) (mode : ReplaceMode) (io : StepIo) : Prop :=
  io.inspect.isSome = true ∨
    if mode = .createNew ∨ (files path).isNone = true then CreationClean files path io
    else io.isFile = false ∨
      if io.hardLinked = true then io.openFile.isSome = true else RenameClean io

/-- What a failed step of the plan has to be for its report to be right: it has not yet written,
created or removed a file. -/
def Harmless (files : Disk) (result : SingleFileResult) (io : StepIo) : Prop :=
  match result.action with
  | .delete => True
  | .add => io.createDirs.isSome = true ∨ WriteClean files result.path .createNew io
  | .rename => moveSource result = none ∨ io.createDirs.isSome = true ∨
      WriteClean files result.path .createNew io
  | .update => io.createDirs.isSome = true ∨ WriteClean files result.path .replace io

section Operations

variable {io : StepIo} {s s' : PatchState} {path : Path} {contents : Text} {stop : Stop}

theorem createExclusively_ok (h : createExclusively io s path contents = .ok s') :
    s' = put s path (some contents) ∧ ¬ CreationClean s.files.disk path io := by
  rw [createExclusively] at h
  by_cases hexists : (s.files.disk path).isSome = true
  · rw [if_pos hexists] at h
    cases h
  · rw [if_neg hexists] at h
    obtain ⟨_, hopen, h⟩ := bind_eq_ok h
    have hopen := demand_ok hopen
    cases hwrit : io.written with
    | some left =>
      simp only [hwrit] at h
      split_ifs at h
    | none =>
      simp only [hwrit] at h
      cases h
      refine ⟨rfl, ?_⟩
      rw [CreationClean]
      simp [hexists, hopen, hwrit]

theorem createExclusively_error (h : createExclusively io s path contents = .error (s', stop)) :
    Failed s s' path (CreationClean s.files.disk path io) := by
  rw [createExclusively] at h
  by_cases hexists : (s.files.disk path).isSome = true
  · rw [if_pos hexists] at h
    cases h
    exact .clean (.inl hexists) (.refl s)
  · rw [if_neg hexists] at h
    rcases bind_eq_error h with hopen | ⟨_, hopen, h⟩
    · obtain ⟨hfails, rfl⟩ := demand_error hopen
      exact .clean (.inr (.inl hfails)) (.refl _)
    · have hopen := demand_ok hopen
      cases hwrit : io.written with
      | none =>
        simp only [hwrit] at h
        cases h
      | some left =>
        simp only [hwrit] at h
        cases hcleanup : io.cleanup with
        | none =>
          simp only [hcleanup] at h
          cases h
          exact .clean (.inr (.inr ⟨by rw [hwrit]; rfl, hcleanup⟩)) (.refl s)
        | some message =>
          simp only [hcleanup] at h
          cases h
          refine .dirty ?_ (touched_put _ _ _)
          rw [CreationClean]
          simp [hexists, hopen, hcleanup]

theorem writeTempThenRename_ok (h : writeTempThenRename io s path contents = .ok s') :
    s' = put s path (some contents) ∧ ¬ RenameClean io := by
  obtain ⟨_, hopen, h⟩ := bind_eq_ok h
  obtain ⟨_, hwrit, h⟩ := bind_eq_ok h
  obtain ⟨_, hpermissions, h⟩ := bind_eq_ok h
  obtain ⟨_, hrename, h⟩ := bind_eq_ok h
  cases h
  refine ⟨rfl, ?_⟩
  have hwrit := Option.map_eq_none_iff.mp (demand_ok hwrit)
  rw [RenameClean, demand_ok hopen, demand_ok hpermissions, demand_ok hrename, hwrit]
  simp

theorem writeTempThenRename_error
    (h : writeTempThenRename io s path contents = .error (s', stop)) :
    Failed s s' path (RenameClean io) := by
  have hleft : ∀ {message : Option Text} {s' stop},
      demand (if io.cleanup.isNone then s else { s with tempLeft := true }) message =
        .error (s', stop) → io.openFile = none →
      (message.isSome = true → io.written.isSome = true ∨ io.setPermissions.isSome = true ∨
        io.rename.isSome = true) → Failed s s' path (RenameClean io) := by
    intro message s' stop hfails hopen hone
    obtain ⟨hmsg, rfl⟩ := demand_error hfails
    cases hcleanup : io.cleanup with
    | none => exact .clean (.inr ⟨hone hmsg, hcleanup⟩) (.refl _)
    | some _ =>
      refine .temp ?_ rfl rfl rfl
      rw [RenameClean, hopen, hcleanup]
      simp
  rcases bind_eq_error h with hopen | ⟨_, hopen, h⟩
  · obtain ⟨hfails, rfl⟩ := demand_error hopen
    exact .clean (.inl hfails) (.refl _)
  · have hopen := demand_ok hopen
    rcases bind_eq_error h with hwrit | ⟨_, -, h⟩
    · exact hleft hwrit hopen fun hsome => .inl (by simpa using hsome)
    · rcases bind_eq_error h with hpermissions | ⟨_, -, h⟩
      · exact hleft hpermissions hopen fun hsome => .inr (.inl hsome)
      · rcases bind_eq_error h with hrename | ⟨_, -, h⟩
        · exact hleft hrename hopen fun hsome => .inr (.inr hsome)
        · cases h

theorem writeInPlace_ok (h : writeInPlace io s path contents = .ok s') :
    s' = put s path (some contents) ∧ ¬ io.openFile.isSome = true := by
  obtain ⟨_, hopen, h⟩ := bind_eq_ok h
  cases hwrit : io.written with
  | some left =>
    simp only [hwrit] at h
    cases h
  | none =>
    simp only [hwrit] at h
    cases h
    rw [demand_ok hopen]
    exact ⟨rfl, Bool.false_ne_true⟩

theorem writeInPlace_error (h : writeInPlace io s path contents = .error (s', stop)) :
    Failed s s' path (io.openFile.isSome = true) := by
  rcases bind_eq_error h with hopen | ⟨_, hopen, h⟩
  · obtain ⟨hfails, rfl⟩ := demand_error hopen
    exact .clean hfails (.refl _)
  · cases hwrit : io.written with
    | none =>
      simp only [hwrit] at h
      cases h
    | some left =>
      simp only [hwrit] at h
      cases h
      refine .dirty ?_ (touched_put _ _ _)
      rw [demand_ok hopen]
      exact Bool.false_ne_true

theorem failed_syncDir {harmless : Prop} (hput : s' = put s path (some contents))
    (hnot : ¬ harmless) {s'' : PatchState}
    (h : demand s' io.syncDir = .error (s'', stop)) : Failed s s'' path harmless := by
  obtain ⟨-, rfl⟩ := demand_error h
  exact hput ▸ .dirty hnot (touched_put _ _ _)

variable {mode : ReplaceMode}

theorem writeFileDurably_ok (h : writeFileDurably io s path contents mode = .ok s') :
    s' = put s path (some contents) ∧ ¬ WriteClean s.files.disk path mode io := by
  obtain ⟨_, hinspect, h⟩ := bind_eq_ok h
  rw [WriteClean, demand_ok hinspect]
  by_cases hnew : mode = .createNew ∨ (s.files.disk path).isNone = true
  · rw [if_pos hnew] at h ⊢
    obtain ⟨created, hcreated, h⟩ := bind_eq_ok h
    obtain ⟨_, -, h⟩ := bind_eq_ok h
    cases h
    obtain ⟨hput, hnot⟩ := createExclusively_ok hcreated
    exact ⟨hput, by simpa using hnot⟩
  · rw [if_neg hnew] at h ⊢
    by_cases hfile : io.isFile = false
    · rw [if_pos hfile] at h
      cases h
    · rw [if_neg hfile] at h
      by_cases hlinked : io.hardLinked = true
      · rw [if_pos hlinked] at h ⊢
        obtain ⟨hput, hnot⟩ := writeInPlace_ok h
        exact ⟨hput, by simpa [hfile] using hnot⟩
      · rw [if_neg hlinked] at h ⊢
        obtain ⟨renamed, hrenamed, h⟩ := bind_eq_ok h
        obtain ⟨_, -, h⟩ := bind_eq_ok h
        cases h
        obtain ⟨hput, hnot⟩ := writeTempThenRename_ok hrenamed
        exact ⟨hput, by simpa [hfile] using hnot⟩

theorem writeFileDurably_error (h : writeFileDurably io s path contents mode = .error (s', stop)) :
    Failed s s' path (WriteClean s.files.disk path mode io) := by
  rcases bind_eq_error h with hinspect | ⟨_, hinspect, h⟩
  · obtain ⟨hfails, rfl⟩ := demand_error hinspect
    exact .clean (.inl hfails) (.refl _)
  · rw [WriteClean, demand_ok hinspect]
    by_cases hnew : mode = .createNew ∨ (s.files.disk path).isNone = true
    · rw [if_pos hnew] at h ⊢
      have hiff : CreationClean s.files.disk path io ↔
          (none : Option Text).isSome = true ∨ CreationClean s.files.disk path io := by simp
      rcases bind_eq_error h with hcreated | ⟨created, hcreated, h⟩
      · exact (createExclusively_error hcreated).congr hiff
      · obtain ⟨hput, hnot⟩ := createExclusively_ok hcreated
        rcases bind_eq_error h with hsync | ⟨_, -, h⟩
        · exact (failed_syncDir hput hnot hsync).congr hiff
        · cases h
    · rw [if_neg hnew] at h ⊢
      by_cases hfile : io.isFile = false
      · rw [if_pos hfile] at h
        cases h
        exact .clean (.inr (.inl hfile)) (.refl _)
      · rw [if_neg hfile] at h
        by_cases hlinked : io.hardLinked = true
        · rw [if_pos hlinked] at h ⊢
          exact (writeInPlace_error h).congr (by simp [hfile])
        · rw [if_neg hlinked] at h ⊢
          have hiff : RenameClean io ↔
              (none : Option Text).isSome = true ∨ io.isFile = false ∨ RenameClean io := by
            simp [hfile]
          rcases bind_eq_error h with hrenamed | ⟨renamed, hrenamed, h⟩
          · exact (writeTempThenRename_error hrenamed).congr hiff
          · obtain ⟨hput, hnot⟩ := writeTempThenRename_ok hrenamed
            rcases bind_eq_error h with hsync | ⟨_, -, h⟩
            · exact (failed_syncDir hput hnot hsync).congr hiff
            · cases h

theorem removeFile_ok (h : removeFile io s path = .ok s') : s' = put s path none := by
  rw [removeFile] at h
  split_ifs at h
  obtain ⟨_, -, h⟩ := bind_eq_ok h
  cases h
  rfl

theorem removeFile_error (h : removeFile io s path = .error (s', stop)) : s' = s := by
  rw [removeFile] at h
  split_ifs at h
  · cases h
    rfl
  · rcases bind_eq_error h with hremove | ⟨_, -, h⟩
    · exact (demand_error hremove).2
    · cases h

variable {guards : List (Path × WriteGuard)} {kind : WriteKind}

variable {bytes : Option Text} {missing : StepError}

theorem recordBytes_ok (h : recordBytes guards s path kind bytes missing = .ok s') : Same s s' := by
  rw [recordBytes] at h
  split_ifs at h
  cases h
  exact ⟨rfl, rfl, rfl⟩

theorem recordBytes_ne_error {error : PatchState × Stop} (hguard : path ∈ guards.map Prod.fst) :
    recordBytes guards s path kind bytes missing ≠ .error error := by
  rw [recordBytes, if_pos hguard]
  rintro ⟨⟩

theorem removeSource_ok (h : removeSource guards io s path = .ok s') :
    Same (put s path none) s' := by
  rw [removeSource] at h
  split_ifs at h
  obtain ⟨_, -, h⟩ := bind_eq_ok h
  obtain ⟨_, -, h⟩ := bind_eq_ok h
  obtain ⟨removed, hrem, h⟩ := bind_eq_ok h
  exact removeFile_ok hrem ▸ recordBytes_ok h

theorem removeSource_error (hguard : path ∈ guards.map Prod.fst)
    (h : removeSource guards io s path = .error (s', stop)) : s' = s := by
  rw [removeSource] at h
  split_ifs at h
  · cases h
    rfl
  · rcases bind_eq_error h with hmetadata | ⟨_, -, h⟩
    · exact (demand_error hmetadata).2
    · rcases bind_eq_error h with hpermissions | ⟨_, -, h⟩
      · exact (demand_error hpermissions).2
      · rcases bind_eq_error h with hremove | ⟨_, -, h⟩
        · exact removeFile_error hremove
        · exact absurd h (recordBytes_ne_error hguard)

variable {result : SingleFileResult}

theorem writeResult_ok (h : writeResult guards io s result mode kind = .ok s') :
    Same (put s result.path (some result.after)) s' ∧
      ¬ (io.createDirs.isSome = true ∨ WriteClean s.files.disk result.path mode io) := by
  obtain ⟨_, hdirs, h⟩ := bind_eq_ok h
  obtain ⟨written, hwrit, h⟩ := bind_eq_ok h
  obtain ⟨hput, hnot⟩ := writeFileDurably_ok hwrit
  refine ⟨hput ▸ recordBytes_ok h, ?_⟩
  rw [demand_ok hdirs]
  simpa using hnot

theorem writeResult_error (hguard : result.path ∈ guards.map Prod.fst)
    (h : writeResult guards io s result mode kind = .error (s', stop)) :
    Failed s s' result.path
      (io.createDirs.isSome = true ∨ WriteClean s.files.disk result.path mode io) := by
  rcases bind_eq_error h with hdirs | ⟨_, hdirs, h⟩
  · obtain ⟨hfails, rfl⟩ := demand_error hdirs
    exact .clean (.inl hfails) (.refl _)
  · rcases bind_eq_error h with hwrit | ⟨_, -, h⟩
    · refine (writeFileDurably_error hwrit).congr ?_
      rw [demand_ok hdirs]
      simp
    · exact absurd h (recordBytes_ne_error hguard)

end Operations

structure Completed (s s' : PatchState) (results : List SingleFileResult) : Prop where
  disk : s'.files.disk = runEffects s.files.disk results
  touched : s'.touched = s.touched ++ results.flatMap resultPaths
  tempLeft : s'.tempLeft = s.tempLeft

theorem Completed.nil (s : PatchState) : Completed s s [] := ⟨rfl, by simp, rfl⟩

theorem Completed.cons {s middle s' : PatchState} {result : SingleFileResult}
    {rest : List SingleFileResult} (h : Completed s middle [result])
    (hrest : Completed middle s' rest) : Completed s s' (result :: rest) := by
  refine ⟨?_, ?_, hrest.tempLeft.trans h.tempLeft⟩
  · rw [hrest.disk, h.disk]
    rfl
  · rw [hrest.touched, h.touched, append_assoc]
    simp

variable {guards : List (Path × WriteGuard)} {io : StepIo} {s s' : PatchState}
  {result : SingleFileResult} {stop : Stop}

theorem applyStep_ok (h : applyStep guards io s result = .ok s') : Completed s s' [result] := by
  obtain ⟨path, action, before, after, chunks⟩ := result
  rw [applyStep] at h
  cases action with
  | delete =>
    obtain ⟨removed, hrem, h⟩ := bind_eq_ok h
    obtain rfl := removeFile_ok hrem
    have hsame := recordBytes_ok h
    exact ⟨hsame.disk, hsame.touched, hsame.tempLeft⟩
  | add =>
    have hsame := (writeResult_ok h).1
    exact ⟨hsame.disk, hsame.touched, hsame.tempLeft⟩
  | update =>
    have hsame := (writeResult_ok h).1
    exact ⟨hsame.disk, hsame.touched, hsame.tempLeft⟩
  | rename =>
    dsimp only at h
    cases hsource : moveSource ⟨path, .rename, before, after, chunks⟩ with
    | none =>
      rw [hsource] at h
      cases h
    | some source =>
      rw [hsource] at h
      obtain ⟨written, hwrit, h⟩ := bind_eq_ok h
      have hdest := (writeResult_ok hwrit).1
      have hrem := removeSource_ok h
      refine ⟨?_, ?_, hrem.tempLeft.trans hdest.tempLeft⟩
      · rw [hrem.disk, runEffects, foldl_cons, foldl_nil, effect, hsource]
        exact congrArg (fun files => Function.update files source none) hdest.disk
      · rw [hrem.touched]
        simp [put, hdest.touched, resultPaths, hsource]

/-- A step that fails has touched the file of its result, or left a temporary one, unless it was
harmless. -/
theorem applyStep_error (hguards : ∀ path ∈ resultPaths result, path ∈ guards.map Prod.fst)
    (h : applyStep guards io s result = .error (s', stop)) :
    Failed s s' result.path (Harmless s.files.disk result io) := by
  obtain ⟨path, action, before, after, chunks⟩ := result
  rw [applyStep] at h
  cases action with
  | delete =>
    rcases bind_eq_error h with hremove | ⟨_, -, h⟩
    · exact removeFile_error hremove ▸ .clean trivial (.refl _)
    · exact absurd h (recordBytes_ne_error (hguards path mem_cons_self))
  | add => exact writeResult_error (hguards path mem_cons_self) h
  | update => exact writeResult_error (hguards path mem_cons_self) h
  | rename =>
    dsimp only at h
    cases hsource : moveSource ⟨path, .rename, before, after, chunks⟩ with
    | none =>
      rw [hsource] at h
      cases h
      exact .clean (.inl hsource) (.refl _)
    | some source =>
      rw [hsource] at h
      have hiff : (io.createDirs.isSome = true ∨ WriteClean s.files.disk path .createNew io) ↔
          Harmless s.files.disk ⟨path, .rename, before, after, chunks⟩ io := by
        simp [Harmless, hsource]
      rcases bind_eq_error h with hwrite | ⟨written, hwrit, h⟩
      · exact (writeResult_error (hguards path mem_cons_self) hwrite).congr hiff
      · -- The destination is there, whatever keeps the source from being removed.
        obtain ⟨hdest, hnot⟩ := writeResult_ok hwrit
        have hmem : source ∈ resultPaths ⟨path, .rename, before, after, chunks⟩ := by
          simp [resultPaths, hsource]
        obtain rfl := removeSource_error (hguards source hmem) h
        refine (Failed.dirty hnot ⟨fun other hne => ?_, hdest.touched, hdest.tempLeft⟩).congr hiff
        rw [hdest.disk]
        exact (touched_put _ _ _).disk other hne

variable {results : List SingleFileResult}

/-- A run that stops: the results before the failing step have taken effect, and the report lists
their paths as changed. -/
theorem applySteps_stopped {io : ℕ → StepIo} {changed : List Path} {error : PatchError}
    (hguards : ∀ result ∈ results, ∀ path ∈ resultPaths result, path ∈ guards.map Prod.fst)
    (h : applySteps guards io s changed results = .error (s', error)) :
    ∃ before result after stop middle, results = before ++ result :: after ∧
      error = .stopped ⟨result.path, changed.length + before.length,
        changed.length + results.length, changed ++ before.map (·.path),
        (result :: after).map (·.path), stop⟩ ∧
      Completed s middle before ∧ Failed middle s' result.path
        (Harmless middle.files.disk result (io (changed.length + before.length))) := by
  induction results generalizing s changed with
  | nil => cases h
  | cons result rest ih =>
    rw [applySteps] at h
    cases hstep : applyStep guards (io changed.length) s result with
    | error failed =>
      obtain ⟨failed, stop⟩ := failed
      rw [hstep] at h
      cases h
      refine ⟨[], result, rest, stop, s, rfl, ?_, .nil s, ?_⟩
      · simp
      · exact applyStep_error (hguards result mem_cons_self) hstep
    | ok next =>
      rw [hstep] at h
      obtain ⟨before, failing, after, stop, middle, rfl, herror, hcompleted, hfailed⟩ :=
        ih (fun other hother => hguards other (mem_cons_of_mem _ hother)) h
      have hlen : (changed ++ [result.path]).length + before.length =
          changed.length + (result :: before).length := by
        simp only [length_append, length_cons, length_nil]
        omega
      refine ⟨result :: before, failing, after, stop, middle, rfl, ?_,
        (applyStep_ok hstep).cons hcompleted, hlen ▸ hfailed⟩
      rw [herror, hlen]
      simp only [length_append, length_cons, length_nil, append_assoc,
        map_cons, singleton_append]
      congr 2
      omega

variable {initial : Preimages}

theorem mem_orInsert {path other : Path} {before : Option Text} :
    other ∈ (orInsert initial path before).map Prod.fst ↔
      other = path ∨ other ∈ initial.map Prod.fst := by
  rw [orInsert]
  split_ifs with hmem
  · constructor
    · exact .inr
    · rintro (rfl | hother)
      · exact hmem
      · exact hother
  · rw [map_append, mem_append, or_comm]
    simp

theorem mem_addPreimages {more : Preimages} {result : SingleFileResult} {path : Path}
    (h : addPreimages initial result = some more) :
    path ∈ more.map Prod.fst ↔ path ∈ resultPaths result ∨ path ∈ initial.map Prod.fst := by
  rw [addPreimages] at h
  rw [resultPaths]
  split at h
  next haction =>
    cases h
    rw [haction, mem_orInsert]
    simp
  next haction =>
    obtain ⟨source, hsource, rfl⟩ := Option.map_eq_some_iff.mp h
    rw [haction, mem_orInsert, mem_orInsert, hsource]
    simp [or_assoc]
  next haction =>
    cases h
    rw [haction, mem_orInsert]
    simp
  next haction =>
    cases h
    rw [haction, mem_orInsert]
    simp

theorem mem_initialPreimages {all : Preimages} {path : Path}
    (h : initialPreimages initial results = some all) :
    path ∈ all.map Prod.fst ↔ path ∈ results.flatMap resultPaths ∨ path ∈ initial.map Prod.fst := by
  induction results generalizing initial with
  | nil =>
    cases h
    simp
  | cons result rest ih =>
    rw [initialPreimages, Option.bind_eq_some_iff] at h
    obtain ⟨more, hmore, h⟩ := h
    rw [ih h, mem_addPreimages hmore, flatMap_cons, mem_append, ← or_assoc,
      or_comm (a := path ∈ rest.flatMap resultPaths)]

variable {paths : List (Path × WriteIntent)} {disk : Disk} {host : Host}

theorem validateWrites_length {guards : List WriteGuard}
    (h : validateWrites host disk paths = .ok guards) : guards.length = paths.length := by
  induction paths generalizing guards with
  | nil =>
    cases h
    rfl
  | cons entry rest ih =>
    rw [validateWrites] at h
    split at h
    · cases h
    · split at h
      · cases h
      next others hothers =>
        cases h
        rw [length_cons, length_cons, ih hothers]

theorem beginWrites_length {guards : List WriteGuard} (h : beginWrites host disk paths =
      .ok guards) :
    guards.length = paths.length := by
  rw [beginWrites] at h
  split_ifs at h
  split at h
  · cases h
  · exact validateWrites_length h

theorem guarded_of_prepare {plan : ApplyPatchResult} {guards : List (Path × WriteGuard)}
    (h : prepare host disk plan = .ok (some guards)) :
    ∀ result ∈ plan.fileResults, ∀ path ∈ resultPaths result, path ∈ guards.map Prod.fst := by
  intro result hres path hpath
  rw [prepare] at h
  split at h
  · cases h
  next initial hinit =>
    by_cases hempty : initial = []
    · rw [if_pos hempty] at h
      cases h
    rw [if_neg hempty] at h
    dsimp only at h
    split at h
    · cases h
    next granted hgranted =>
      split_ifs at h
      split at h
      · cases h
      · cases h
        rw [map_fst_zip (by simpa using (beginWrites_length hgranted).ge)]
        have hperm := (perm_insertionSort
          (fun a b : Path × Option Text => host.pathLe a.1 b.1 = true) initial).map Prod.fst
        rw [sortedPreimages, hperm.mem_iff, mem_initialPreimages hinit]
        exact .inl (mem_flatMap.mpr ⟨result, hres, hpath⟩)

/-- What is reported as unchanged is as before the patch, what is reported as changed was touched
by it, no path is both, and nothing else was touched. -/
structure Truthful (disk : Disk) (s : PatchState) (report : Report) : Prop where
  unchanged : ∀ path ∈ report.unchanged, s.files.disk path = disk path
  changed : ∀ path ∈ report.changed, path ∈ s.touched
  separate : ∀ path ∈ report.changed, path ∉ report.unchanged
  complete : ∀ path ∈ s.touched, path ∈ report.changed
  noTemp : s.tempLeft = false

/-- The sources of the moves before the failing step are paths of results before it, no path is on
both sides of its place, and it fails before it takes effect. -/
structure Reportable (disk : Disk) (before : List SingleFileResult) (result : SingleFileResult)
    (after : List SingleFileResult) (io : StepIo) : Prop where
  sources : ∀ done ∈ before, ∀ path ∈ resultPaths done, path ∈ before.map (·.path)
  separate : ∀ path ∈ before.map (·.path), path ∉ (result :: after).map (·.path)
  harmless : Harmless (runEffects disk before) result io

theorem runEffects_of_not_mem {path : Path} (h : path ∉ results.flatMap resultPaths) :
    runEffects disk results path = disk path := by
  induction results generalizing disk with
  | nil => rfl
  | cons result rest ih =>
    rw [flatMap_cons, mem_append, not_or] at h
    exact (ih h.2).trans (effect_of_not_mem h.1)

theorem truthful_iff_reportable {middle : PatchState} {io : StepIo}
    {before after : List SingleFileResult} {total : ℕ}
    (hbef : Completed (untouched disk) middle before)
    (hfailed : Failed middle s result.path (Harmless middle.files.disk result io)) :
    Truthful disk s ⟨result.path, before.length, total, before.map (·.path),
      (result :: after).map (·.path), stop⟩ ↔ Reportable disk before result after io := by
  have htouched : middle.touched = before.flatMap resultPaths := hbef.touched
  have hmem : result.path ∈ (result :: after).map (·.path) := mem_cons_self
  rw [hbef.disk] at hfailed
  constructor
  · intro htruthful
    refine ⟨fun done hdone path hpath => htruthful.complete path ?_, htruthful.separate, ?_⟩
    · have hdone : path ∈ middle.touched :=
        htouched ▸ mem_flatMap.mpr ⟨done, hdone, hpath⟩
      cases hfailed with
      | clean _ hsame => exact hsame.touched ▸ hdone
      | dirty _ hone => exact hone.touched ▸ mem_append_left _ hdone
      | temp _ _ hsame => exact hsame ▸ hdone
    · cases hfailed with
      | clean hharmless => exact hharmless
      | dirty _ hone =>
        have hlisted := htruthful.complete result.path (hone.touched ▸ by simp)
        exact absurd hmem (htruthful.separate _ hlisted)
      | temp _ _ _ hleft =>
        rw [htruthful.noTemp] at hleft
        cases hleft
  · intro hreportable
    cases hfailed with
    | dirty hnot => exact absurd hreportable.harmless hnot
    | temp hnot => exact absurd hreportable.harmless hnot
    | clean _ hsame =>
      have hcomplete : ∀ path ∈ s.touched, path ∈ before.map (·.path) := by
        rw [hsame.touched, htouched]
        intro path hpath
        obtain ⟨done, hdone, hpath⟩ := mem_flatMap.mp hpath
        exact hreportable.sources done hdone path hpath
      refine ⟨fun path hpath => ?_, fun path hpath => ?_, hreportable.separate, hcomplete,
        hsame.tempLeft.trans hbef.tempLeft⟩
      · rw [hsame.disk, hbef.disk]
        apply runEffects_of_not_mem
        intro hdone
        rw [← htouched, ← hsame.touched] at hdone
        exact hreportable.separate path (hcomplete path hdone) hpath
      · obtain ⟨done, hdone, rfl⟩ := mem_map.mp hpath
        rw [hsame.touched, htouched]
        refine mem_flatMap.mpr ⟨done, hdone, ?_⟩
        rw [resultPaths]
        split <;> exact mem_cons_self

/-- The report of a patch that stops is right exactly when its failing step has not taken effect,
no path has results both before the step and from it on, and every file that was moved away before
the step is the path of another result before it. -/
theorem report_truthful_iff (host : Host) (disk : Disk) (io : ℕ → StepIo) (plan : ApplyPatchResult)
    (before : List SingleFileResult) (result : SingleFileResult) (after : List SingleFileResult)
    (s : PatchState) (report : Report) (hresults : plan.fileResults = before ++ result :: after)
    (hstopped : apply host disk io plan = .error (s, .stopped report))
    (hstep : report.applied = before.length) :
    Truthful disk s report ↔ Reportable disk before result after (io before.length) := by
  rw [apply] at hstopped
  split at hstopped
  · cases hstopped
  · cases hstopped
  next guards hprepare =>
    obtain ⟨before', result', after', stop, middle, hsplit, hreport, hcompleted, hfailed⟩ :=
      applySteps_stopped (guarded_of_prepare hprepare) hstopped
    cases hreport
    rw [length_nil, Nat.zero_add] at hstep hfailed
    obtain ⟨rfl, hrest⟩ := append_inj (hsplit.symm.trans hresults) hstep
    obtain ⟨rfl, rfl⟩ := cons_eq_cons.mp hrest
    rw [length_nil, Nat.zero_add]
    exact truthful_iff_reportable hcompleted hfailed

def reportOf : Except (PatchState × PatchError) PatchState → Option Report
  | .error (_, .stopped report) => some report
  | _ => none

theorem exists_stopped {run : Except (PatchState × PatchError) PatchState} {report : Report}
    (h : reportOf run = some report) : ∃ s, run = .error (s, .stopped report) := by
  cases run with
  | ok _ => cases h
  | error failed =>
    obtain ⟨s, error⟩ := failed
    cases error with
    | refused _ => cases h
    | stopped _ =>
      cases h
      exact ⟨s, rfl⟩

def pathA : Path := ofString "/w/a".toList

def pathB : Path := ofString "/w/b".toList

def pathC : Path := ofString "/w/c".toList

def updateA : SingleFileResult := ⟨pathA, .update, "one\n".toList, "two\n".toList, []⟩

def updateC : SingleFileResult := ⟨pathC, .update, "x\n".toList, "y\n".toList, []⟩

/-- The second file cannot be renamed into place. -/
def renameFails : ℕ → StepIo
  | 1 => { StepIo.faultless with rename := some "Failed to rename".toList }
  | _ => .faultless

theorem second_update_truthful :
    ∃ s report, apply unicodeDirectory twoFiles renameFails ⟨[updateA, updateC], [], []⟩ =
      .error (s, .stopped report) ∧ Truthful twoFiles s report := by
  have hreport : reportOf (apply unicodeDirectory twoFiles renameFails
      ⟨[updateA, updateC], [], []⟩) = some ⟨pathC, 1, 2, [pathA], [pathC],
        .failed "Failed to rename".toList⟩ := by
    decide
  obtain ⟨s, hstopped⟩ := exists_stopped hreport
  refine ⟨s, _, hstopped, (report_truthful_iff _ _ _ _ [updateA] updateC [] _ _ rfl hstopped
    rfl).mpr ⟨?_, ?_, ?_⟩⟩
  · decide
  · decide
  · refine .inr (.inr ?_)
    rw [if_neg (by decide)]
    exact .inr (.inr ⟨.inr (.inr rfl), rfl⟩)

def moveAToB : SingleFileResult :=
  ⟨pathB, .rename, "one\n".toList, "two\n".toList,
    [wholeFileChunk pathA "rename" "one\n".toList "two\n".toList (some "/w/b".toList)]⟩

/-- The source of a move cannot be removed. -/
def removeFails : ℕ → StepIo := fun _ =>
  { StepIo.faultless with remove := some "Permission denied".toList }

/-- The destination of the move was created, and is reported as unchanged. -/
theorem half_move_not_truthful :
    ∃ s report, apply unicodeDirectory twoFiles removeFails ⟨[moveAToB], [], []⟩ =
      .error (s, .stopped report) ∧ ¬ Truthful twoFiles s report := by
  have hrun : (match apply unicodeDirectory twoFiles removeFails ⟨[moveAToB], [], []⟩ with
    | .error (s, .stopped report) =>
      decide (pathB ∈ report.unchanged ∧ s.files.disk pathB ≠ twoFiles pathB)
    | _ => false) = true := by
    decide
  split at hrun
  next s report hstopped =>
    obtain ⟨hlisted, hcreated⟩ := of_decide_eq_true hrun
    exact ⟨s, report, hstopped, fun htruthful => hcreated (htruthful.unchanged pathB hlisted)⟩
  next => cases hrun

end PatchFaults
