import RefactEngine.FileLocks

/-! # The registry of reads and the checks before a write

Every read that a chat is shown leaves a stamp, up to a limit, and updates what the registry knows
of the chat and the file. A write is refused when that knowledge is missing, is of another content
or covers a part only. Files are named by keys, which follow the identity of a file through its
names. `history` is a history variable: all reads, with what they showed.
-/
namespace ReadEvidence

open TextLines ApplyPatch FileLocks CoordinationSettings
open PatchPlan hiding WriteIntent

abbrev Bytes := List UInt8

def utf8 (text : Text) : Bytes := text.flatMap String.utf8EncodeChar

variable {Digest : Type} [DecidableEq Digest]

structure Files where
  canonicalCandidate : PatchPlan.Path → Except Text PatchPlan.Path
  fileAlias : PatchPlan.Path → Option Text
  read : PatchPlan.Path → Except Text (Option Bytes)
  isDir : PatchPlan.Path → Bool

variable (files : Files) (path : PatchPlan.Path)

def Files.canonicalString : Text :=
  match files.canonicalCandidate path with
  | .ok resolved => toStringLossy resolved
  | .error _ => toStringLossy path

def Files.exists : Bool :=
  files.isDir path || match files.read path with
  | .ok content => content.isSome
  | .error _ => false

variable (digest : Bytes → Digest)

def currentState (files : Files) (path : PatchPlan.Path) :
    Except Text (Option (Digest × ℕ)) :=
  (files.read path).map fun content => content.map fun bytes => (digest bytes, bytes.length)

def components : Bool × List PatchPlan.Path :=
  match path.splitOn (.char '/') with
  | [] => (false, [])
  | first :: rest =>
    let inner := rest.filter fun name => decide (name ≠ [] ∧ name ≠ [.char '.'])
    if first = [] then (decide (rest ≠ []), inner) else (false, first :: inner)

def startsWith (path base : PatchPlan.Path) : Bool :=
  (components path).1 == (components base).1 &&
    (components base).2.isPrefixOf (components path).2

structure Actor where
  name : Text
  nonempty : name ≠ []
  deriving DecidableEq

structure ReadObservation (Digest : Type) where
  actor : Text
  key : Text
  path : Text
  fileAlias : Option Text
  line1 : ℕ
  line2 : ℕ
  totalLines : ℕ
  whole : Bool
  partialReason : Option Text
  bytes : ℕ
  digest : Digest
  atMs : ℕ

structure ActorState (Digest : Type) where
  digest : Digest
  bytes : ℕ
  whole : Bool
  partialReason : Option Text
  atMs : ℕ
  fromWrite : Bool

abbrev ActorStates (Digest : Type) := AList fun _ : Text × Text => ActorState Digest

structure Registry (Digest : Type) where
  aliasToKey : AList fun _ : Text => Text
  reads : List (ReadObservation Digest)
  /-- The keys of the recorded writes, which is what the registry uses of them here. -/
  writes : List Text
  actorState : ActorStates Digest
  readsDropped : ℕ

def Registry.default : Registry Digest := ⟨∅, [], [], ∅, 0⟩

structure ActivitySettings where
  enabled : Bool
  maxReadStamps : ℕ
  maxWriteRecords : ℕ
  deriving DecidableEq

def resolveKey (settings : ActivitySettings) (reg : Registry Digest)
    (path : PatchPlan.Path) : Text × Option Text × AList fun _ : Text => Text :=
  let canonical := files.canonicalString path
  match files.fileAlias path with
  | none => (canonical, none, reg.aliasToKey)
  | some id =>
    let table :=
      match reg.aliasToKey.lookup id with
      | some existing =>
        if files.fileAlias (ofString existing) ≠ some id then reg.aliasToKey.erase id
        else reg.aliasToKey
      | none => reg.aliasToKey
    let table :=
      if table.entries.length ≥ settings.maxReadStamps + settings.maxWriteRecords then
        table.retain fun _ key => reg.reads.any (fun r => decide (r.key = key)) ||
          decide (key ∈ reg.writes)
      else table
    match table.lookup id with
    | some existing => (existing, some id, table)
    | none => (canonical, some id, table.insert id canonical)

/-- `while reads.len() > max_reads`: the oldest stamp goes, and with the last stamp of a chat on a
file what is known of them. -/
def evictOld (maxReads : ℕ) : List (ReadObservation Digest) → ActorStates Digest → ℕ →
    List (ReadObservation Digest) × ActorStates Digest × ℕ
  | [], states, dropped => ([], states, dropped)
  | removed :: rest, states, dropped =>
    if (removed :: rest).length > maxReads then
      let states :=
        if rest.any fun r => decide (r.actor = removed.actor ∧ r.key = removed.key) then states
        else states.erase (removed.actor, removed.key)
      evictOld maxReads rest states (dropped + 1)
    else (removed :: rest, states, dropped)

/-- A partial read of a content that was read whole leaves it so; a partial read of another content
does not count as whole. -/
def updateState (slot : ActorState Digest) (o : ReadObservation Digest) : ActorState Digest :=
  let slot' := { slot with digest := o.digest, bytes := o.bytes, atMs := o.atMs, fromWrite := false }
  if o.whole then { slot' with whole := true, partialReason := none }
  else if slot.digest ≠ o.digest then { slot' with whole := false, partialReason := o.partialReason }
  else slot'

def freshState (o : ReadObservation Digest) : ActorState Digest :=
  ⟨o.digest, o.bytes, o.whole, o.partialReason, o.atMs, false⟩

structure ReadArgs where
  actor : Option Actor
  path : PatchPlan.Path
  content : Text
  line1 : ℕ
  line2 : ℕ
  totalLines : ℕ
  partialReason : Option Text
  atMs : ℕ

def observe (args : ReadArgs) (key : Text) (fileAlias : Option Text) :
    ReadObservation Digest where
  actor := (args.actor.map Actor.name).getD []
  key := key
  path := toStringLossy args.path
  fileAlias := fileAlias
  line1 := args.line1
  line2 := args.line2
  totalLines := args.totalLines
  whole := args.partialReason.isNone && decide (args.line1 ≤ 1) &&
    decide (args.line2 ≥ args.totalLines)
  partialReason := args.partialReason
  bytes := (utf8 args.content).length
  digest := digest (utf8 args.content)
  atMs := args.atMs

def storeRead (maxReadStamps : ℕ) (reg : Registry Digest) (actor : Option Actor)
    (o : ReadObservation Digest) : Registry Digest :=
  let evicted := evictOld (max maxReadStamps 1) (reg.reads ++ [o]) reg.actorState reg.readsDropped
  let states := evicted.2.1
  { reg with
    reads := evicted.1
    readsDropped := evicted.2.2
    actorState :=
      match actor with
      | none => states
      | some a =>
        states.insert (a.name, o.key)
          (updateState ((states.lookup (a.name, o.key)).getD (freshState o)) o) }

def splitOnce (separator : Text) : Text → Option (Text × Text)
  | [] => none
  | c :: rest =>
    if separator.isPrefixOf (c :: rest) then some ([], (c :: rest).drop separator.length)
    else (splitOnce separator rest).map fun pair => (c :: pair.1, pair.2)

def parseUsize (text : Text) : Option ℕ :=
  let digits := match text with
    | '+' :: rest => rest
    | _ => text
  if digits ≠ [] ∧ digits.all Char.isDigit then
    let value := Nat.ofDigitChars 10 digits 0
    if value < 2 ^ 64 then some value else none
  else none

inductive Refusal (Digest : Type) where
  | pathCount
  | notCanonical (message : Text)
  | inspect (message : Text)
  | directoryRequired
  | alreadyExists (path : PatchPlan.Path)
  | notRead (path : PatchPlan.Path)
  | stale (path : PatchPlan.Path) (state : ActorState Digest) (key : Text) (actor : Option Actor)
  | partiallyRead (path : PatchPlan.Path) (reason : Text)
  | doesNotExist (path : PatchPlan.Path)

structure WriteGuard (Digest : Type) where
  actor : Option Actor
  key : Text
  fileAlias : Option Text
  path : PatchPlan.Path
  digestBefore : Option Digest

def observedState (reg : Registry Digest) (actor : Option Actor) (key : Text) :
    Option (ActorState Digest) :=
  actor.bind fun a => reg.actorState.lookup (a.name, key)

def checkTree (digest : Bytes → Digest) (files : Files) (reg : Registry Digest)
    (actor : Option Actor) : List (ReadObservation Digest) → Except (Refusal Digest) Unit
  | [] => .ok ()
  | read :: rest =>
    match reg.actorState.lookup (read.actor, read.key) with
    | none => checkTree digest files reg actor rest
    | some observed =>
      match currentState digest files (ofString read.path) with
      | .error message => .error (.inspect message)
      | .ok current =>
        if current.map Prod.fst ≠ some observed.digest then
          .error (.stale (ofString read.path) observed read.key actor)
        else checkTree digest files reg actor rest

def checkOverwrite (key : Text) (actor : Option Actor) (current : Digest) :
    Option (ActorState Digest) → Except (Refusal Digest) Unit
  | none => .error (.notRead path)
  | some state =>
    if state.digest ≠ current then .error (.stale path state key actor)
    else if !state.whole then
      .error (.partiallyRead path
        (state.partialReason.getD "only part of the file was returned".toList))
    else .ok ()

def checkIntent (files : Files) (reg : Registry Digest)
    (actor : Option Actor) (path : PatchPlan.Path) (key : Text) (current : Option (Digest × ℕ)) :
    WriteIntent → Except (Refusal Digest) Unit
  | .tree =>
    if files.exists path && !files.isDir path then .error .directoryRequired
    else checkTree digest files reg actor <| reg.reads.filter fun read =>
      decide (some read.actor = actor.map Actor.name) && startsWith (ofString read.path) path
  | .create => if current.isSome then .error (.alreadyExists path) else .ok ()
  | .overwrite authorized =>
    match current with
    | none => .ok ()
    | some (digest, _) =>
      if authorized then .ok ()
      else checkOverwrite path key actor digest (observedState reg actor key)
  | .contextual => checkSeen
  | .delete => (checkSeen).bind fun _ => mustExist
  | .rename => (checkSeen).bind fun _ => mustExist
where
  checkSeen : Except (Refusal Digest) Unit :=
    match current, observedState reg actor key with
    | some (digest, _), some state =>
      if state.digest ≠ digest then .error (.stale path state key actor) else .ok ()
    | _, _ => .ok ()
  mustExist : Except (Refusal Digest) Unit :=
    if current.isNone then .error (.doesNotExist path) else .ok ()

/-- The guard of a permitted write, or why it is refused; either way the table of identities may
have changed. -/
def validateWrite (files : Files) (settings : ActivitySettings)
    (reg : Registry Digest) (actor : Option Actor) (path : PatchPlan.Path) (intent : WriteIntent) :
    Except (Refusal Digest) (WriteGuard Digest) × Registry Digest :=
  let (key, fileAlias, aliasToKey) := resolveKey files settings reg path
  let reg := { reg with aliasToKey }
  let before := if intent = .tree then .ok none else currentState digest files path
  match before with
  | .error message => (.error (.inspect message), reg)
  | .ok current =>
    let guard : WriteGuard Digest := ⟨actor, key, fileAlias, path, current.map Prod.fst⟩
    if !settings.enabled then (.ok guard, reg)
    else ((checkIntent digest files reg actor path key current intent).map fun _ => guard, reg)

def beginWrite (files : Files) (settings : ActivitySettings)
    (reg : Registry Digest) (actor : Option Actor) (path : PatchPlan.Path) (intent : WriteIntent) :
    Except (Refusal Digest) (WriteGuard Digest) × Registry Digest :=
  if settings.maxWriteRecords < 1 then (.error .pathCount, reg)
  else
    match files.canonicalCandidate path with
    | .error message => (.error (.notCanonical message), reg)
    | .ok _ => validateWrite digest files settings reg actor path intent

structure PastRead (Digest : Type) where
  actor : Option Actor
  content : Bytes
  observation : ReadObservation Digest

structure State (Digest : Type) where
  files : Files
  settings : ActivitySettings
  registry : Registry Digest
  history : List (PastRead Digest)
  /-- The limit that the last read was stored under. -/
  stampLimit : ℕ

inductive Event where
  | changeFiles (files : Files)
  | configure (settings : ActivitySettings)
  | recordRead (args : ReadArgs)
  | recordWrite (key : Text)
  | resolve (path : PatchPlan.Path)
  | beginWrite (actor : Option Actor) (path : PatchPlan.Path) (intent : WriteIntent)

def recordRead (s : State Digest) (args : ReadArgs) : State Digest :=
  let (key, fileAlias, aliasToKey) := resolveKey s.files s.settings s.registry args.path
  let o := observe digest args key fileAlias
  { s with
    registry := storeRead s.settings.maxReadStamps { s.registry with aliasToKey } args.actor o
    history := s.history ++ [⟨args.actor, utf8 args.content, o⟩]
    stampLimit := s.settings.maxReadStamps }

def recordWrite (maxWriteRecords : ℕ) (reg : Registry Digest) (key : Text) : Registry Digest :=
  { reg with
    writes := (reg.writes ++ [key]).drop ((reg.writes ++ [key]).length - max maxWriteRecords 1) }

def step (s : State Digest) : Event → State Digest
  | .changeFiles files => { s with files }
  | .configure settings => { s with settings }
  | .recordRead args => recordRead digest s args
  | .recordWrite key =>
    { s with registry := recordWrite s.settings.maxWriteRecords s.registry key }
  | .resolve path =>
    { s with registry :=
        { s.registry with aliasToKey := (resolveKey s.files s.settings s.registry path).2.2 } }
  | .beginWrite actor path intent =>
    { s with registry := (beginWrite digest s.files s.settings s.registry actor path intent).2 }

def initial (settings : ActivitySettings) : State Digest :=
  ⟨files, settings, .default, [], settings.maxReadStamps⟩

def run (files : Files) (settings : ActivitySettings)
    (events : List Event) : State Digest :=
  events.foldl (step digest) (initial files settings)

end ReadEvidence
