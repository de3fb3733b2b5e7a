import RefactEngine.CoordinationSettings
import RefactEngine.FiniteMap
import Mathlib.Data.List.MinMax
import Mathlib.Algebra.Order.Ring.Nat

/-! # Frozen pages of the work inventory

A reader without a cursor is shown the first page of a snapshot, which is then kept for the pages
that follow. A cursor is an unguessable token for one offset of one kept snapshot. Snapshots and
cursors expire, and the oldest make room for new ones.
-/
namespace WorkPaging

open CoordinationSettings

structure ViewBinding where
  project : String
  principal : String
  disclosure : String
  filter : String
  deriving DecidableEq

/-- `key` is the displayed key; `body` is everything that paging copies without looking at it. -/
structure WorkRow where
  key : String
  rootId : String
  sourceRecords : List String
  body : String
  deriving DecidableEq

structure WorkRootRef where
  id : String
  body : String
  deriving DecidableEq

structure WaitGraphView where
  nodes : List String
  edges : List (String × String)
  deriving DecidableEq

structure WorkSnapshot where
  rows : List WorkRow
  roots : List WorkRootRef
  detail : Option WorkRow
  degraded : List String
  advisory : List String
  fileProvenance : List String
  waitGraph : Option WaitGraphView
  selectedPaths : List String
  guardRows : List WorkRow
  deriving DecidableEq

variable (s : WorkSnapshot)

def WorkSnapshot.total : ℕ :=
  if s.rows = [] then s.roots.length else s.rows.length

def saturate (n : ℕ) : ℕ := min n usizeMax

def WorkSnapshot.units : ℕ :=
  saturate (s.rows.length + s.roots.length + s.detail.toList.length + s.advisory.length +
    s.selectedPaths.length + s.fileProvenance.length + s.guardRows.length +
    (s.waitGraph.elim 0 fun g => g.nodes.length + g.edges.length) +
    ((s.rows ++ s.detail.toList ++ s.guardRows).map fun row => row.sourceRecords.length).sum)

def WorkSnapshot.slice (offset fin : ℕ) : WorkSnapshot :=
  let rows := (s.rows.drop offset).take (fin - offset)
  { s with
    advisory := s.advisory.filter fun key => rows.any fun row => row.key = key
    rows := rows
    roots :=
      if s.rows = [] then (s.roots.drop offset).take (fin - offset)
      else s.roots.filter fun root => rows.any fun row => row.rootId = root.id }

inductive WorkFailureCause where
  | snapshotRowCapacity
  | snapshotByteCapacity
  | settingsUnavailable
  | snapshotEncodingUnavailable
  | projectionUnavailable

inductive WorkError where
  | projectionFailure (cause : WorkFailureCause)
  | invalid (message : String)
  | invalidCursor
  | cursorExpired
  | other (code : String)

def WorkError.unavailable : WorkError := .projectionFailure .projectionUnavailable

structure PagingSettings where
  overviewMaxRows : ℕ
  maxWorkViews : ℕ
  maxWorkCursors : ℕ
  maxWorkHistoryRows : ℕ
  maxWorkHistoryBytes : ℕ
  workCursorTtlSecs : ℕ
  others : List SettingsViolation
  deriving DecidableEq

def PagingSettings.default : PagingSettings where
  overviewMaxRows := 500
  maxWorkViews := 4096
  maxWorkCursors := 16384
  maxWorkHistoryRows := 16384
  maxWorkHistoryBytes := 64 * 1024 * 1024
  workCursorTtlSecs := 300
  others := []

def PagingSettings.violations (s : PagingSettings) : List SettingsViolation :=
  atLeast "max_work_views" s.maxWorkViews 1 ++
  atLeast "max_work_cursors" s.maxWorkCursors 1 ++
  atLeast "max_work_history_rows" s.maxWorkHistoryRows 1 ++
  atLeast "max_work_history_bytes" s.maxWorkHistoryBytes 1 ++
  atLeast "work_cursor_ttl_secs" s.workCursorTtlSecs 1 ++
  atLeast "overview_max_rows" s.overviewMaxRows 1 ++
  s.others

def u64Max : ℕ := 2 ^ 64 - 1

def saturatingAdd (a b : ℕ) : ℕ := min (a + b) u64Max

def PagingSettings.ttlMs (s : PagingSettings) : ℕ := min (s.workCursorTtlSecs * 1000) u64Max

/-- Evicts while there is too much. The flag says whether enough could be evicted; the fuel is the
number of things that there are to evict. -/
def evictWhile {σ : Type*} (exceeds : σ → Bool) (evict : σ → Option σ) : ℕ → σ → σ × Bool
  | 0, s => (s, !exceeds s)
  | fuel + 1, s =>
    if exceeds s then
      match evict s with
      | none => (s, false)
      | some s' => evictWhile exceeds evict fuel s'
    else (s, true)

structure FrozenView where
  snapshot : WorkSnapshot
  fingerprint : String
  observedAt : ℕ
  expiresAt : ℕ
  units : ℕ
  bytes : ℕ

structure View where
  binding : ViewBinding
  fingerprint : String
  generation : ℕ
  accessedAt : ℕ
  snapshots : AList fun _ : ℕ => FrozenView

structure Cursor where
  binding : ViewBinding
  viewId : String
  generation : ℕ
  offset : ℕ
  expiresAt : ℕ
  deriving DecidableEq

structure State where
  views : AList fun _ : String => View
  cursors : AList fun _ : String => Cursor

def State.empty : State := ⟨∅, ∅⟩

structure PageWindow where
  snapshotId : String
  seq : ℕ
  offset : ℕ
  fin : ℕ
  nextCursor : Option String
  deriving DecidableEq

structure FrozenPage where
  window : PageWindow
  snapshot : WorkSnapshot
  total : ℕ
  observedAt : ℕ
  stale : Bool

namespace State

variable (s : State)

variable (viewId : String)

def frozenAt (seq : ℕ) : Option FrozenView :=
  (s.views.lookup viewId).bind fun view => view.snapshots.lookup seq

def frozen : List (String × ℕ × FrozenView) :=
  s.views.entries.flatMap fun view =>
    view.2.snapshots.entries.map fun kept => (view.1, kept.1, kept.2)

def removeSnapshot (seq : ℕ) : State where
  views :=
    match s.views.lookup viewId with
    | none => s.views
    | some view =>
      if (view.snapshots.erase seq).entries = [] then s.views.erase viewId
      else s.views.insert viewId { view with snapshots := view.snapshots.erase seq }
  cursors := s.cursors.retain fun _ c => c.viewId ≠ viewId || c.generation ≠ seq

def snapshotUsage : ℕ × ℕ × ℕ :=
  s.frozen.foldl (fun usage kept =>
    (saturate (usage.1 + 1), saturate (usage.2.1 + kept.2.2.units),
      saturate (usage.2.2 + kept.2.2.bytes))) (0, 0, 0)

def evictionOrder (kept : String × ℕ × FrozenView) : ℕ ×ₗ String ×ₗ ℕ :=
  toLex (kept.2.2.observedAt, toLex (kept.1, kept.2.1))

def evictSnapshot : Option State :=
  (s.frozen.argmin evictionOrder).map fun kept => s.removeSnapshot kept.1 kept.2.1

def exceedsLimits (settings : PagingSettings) : Bool :=
  s.snapshotUsage.1 > settings.maxWorkViews ||
    s.snapshotUsage.2.1 > settings.maxWorkHistoryRows ||
    s.snapshotUsage.2.2 > settings.maxWorkHistoryBytes

def hasExpired (settings : PagingSettings) (nowMs : ℕ) (kept : FrozenView) : Bool :=
  kept.expiresAt ≤ nowMs || settings.ttlMs ≤ nowMs - kept.observedAt

def dropExpired (settings : PagingSettings) (nowMs : ℕ) : State :=
  let expired := s.frozen.filter fun kept => hasExpired settings nowMs kept.2.2
  let kept := expired.foldl (fun state kept => state.removeSnapshot kept.1 kept.2.1) s
  { kept with cursors := kept.cursors.retain fun _ c => nowMs < c.expiresAt }

def pruneSnapshots (settings : PagingSettings) (nowMs : ℕ) : State :=
  let kept := s.dropExpired settings nowMs
  (evictWhile (fun state => state.exceedsLimits settings) evictSnapshot kept.frozen.length kept).1

def leavesNoRoom (settings : PagingSettings) (units bytes : ℕ) : Bool :=
  settings.maxWorkViews ≤ s.snapshotUsage.1 ||
    saturate (s.snapshotUsage.2.1 + units) > settings.maxWorkHistoryRows ||
    saturate (s.snapshotUsage.2.2 + bytes) > settings.maxWorkHistoryBytes

def removeView : State where
  views := s.views.erase viewId
  cursors := s.cursors.retain fun _ c => c.viewId ≠ viewId

def evictView : Option State :=
  (s.views.entries.argmin fun view => toLex (view.2.accessedAt, view.1)).map fun view =>
    s.removeView view.1

def lacksPlace (settings : PagingSettings) (viewId : String) : Bool :=
  (s.views.lookup viewId).isNone && settings.maxWorkViews ≤ s.views.entries.length

def reserveSnapshot (settings : PagingSettings) (units bytes : ℕ) (viewId : String) :
    State × Except WorkError Unit :=
  if units > settings.maxWorkHistoryRows then
    (s, .error (.projectionFailure .snapshotRowCapacity))
  else if bytes > settings.maxWorkHistoryBytes then
    (s, .error (.projectionFailure .snapshotByteCapacity))
  else
    match evictWhile (fun state => state.leavesNoRoom settings units bytes) evictSnapshot
        s.frozen.length s with
    | (roomy, false) => (roomy, .error .unavailable)
    | (roomy, true) =>
      match evictWhile (fun state => state.lacksPlace settings viewId) evictView
          roomy.views.entries.length roomy with
      | (placed, false) => (placed, .error .unavailable)
      | (placed, true) => (placed, .ok ())

def fileSnapshot (binding : ViewBinding) (viewId : String) (seq nowMs : ℕ) (kept : FrozenView) :
    State :=
  let view := (s.views.lookup viewId).getD ⟨binding, "", seq, nowMs, ∅⟩
  { s with
    views := s.views.insert viewId
      { view with generation := seq, snapshots := view.snapshots.insert seq kept } }

def touch (nowMs : ℕ) : State :=
  { s with views := s.views.modify viewId fun view => { view with accessedAt := nowMs } }

def findCursor (seq offset nowMs : ℕ) : Option String :=
  (s.cursors.entries.find? fun c => c.2.viewId = viewId && c.2.generation = seq &&
    c.2.offset = offset && nowMs < c.2.expiresAt).map Sigma.fst

def evictCursor : Option State :=
  (s.cursors.entries.argmin fun c => toLex (c.2.expiresAt, c.1)).map fun c =>
    { s with cursors := s.cursors.erase c.1 }

def tokenOf (uuid : String) : String := "w1." ++ uuid

def issueCursor (settings : PagingSettings) (cursor : Cursor) (nowMs : ℕ) (uuid : String) :
    State × Except WorkError String :=
  match s.findCursor cursor.viewId cursor.generation cursor.offset nowMs with
  | some token => (s, .ok token)
  | none =>
    match evictWhile (fun state => decide (settings.maxWorkCursors ≤ state.cursors.entries.length))
        evictCursor s.cursors.entries.length s with
    | (roomy, false) => (roomy, .error .unavailable)
    | (roomy, true) =>
      ({ roomy with cursors := roomy.cursors.insert (tokenOf uuid) cursor }, .ok (tokenOf uuid))

end State

/-- What a page request takes from its environment: the digest and size of the serialised
snapshot, and the syntax of identifiers. -/
structure Host where
  signature : ViewBinding → WorkSnapshot → Except WorkError (String × ℕ)
  parsesUuid : String → Bool

structure PageCall where
  binding : ViewBinding
  current : WorkSnapshot
  limit : ℕ
  cursor : Option String
  settings : PagingSettings
  nowMs : ℕ
  revalidate : WorkSnapshot → Except WorkError Unit
  viewUuid : String
  tokenUuid : String

structure BeginningCall where
  snapshotId : String
  seq : ℕ
  settings : PagingSettings
  nowMs : ℕ
  tokenUuid : String

structure Place where
  viewId : String
  seq : ℕ
  offset : ℕ
  deriving DecidableEq

variable (host : Host)

def isToken (token : String) : Bool :=
  "w1.".toList.isPrefixOf token.toList && host.parsesUuid (String.ofList (token.toList.drop 3))

def resume (s : State) (call : PageCall) (token : String) :
    Except WorkError Place :=
  if !isToken host token then .error .invalidCursor
  else
    match s.cursors.lookup token with
    | none => .error .cursorExpired
    | some saved =>
      if saved.binding ≠ call.binding then .error .invalidCursor
      else if saved.expiresAt ≤ call.nowMs then .error .cursorExpired
      else .ok ⟨saved.viewId, saved.generation, saved.offset⟩

def latest (s : State) (call : PageCall) : String × ℕ :=
  ((s.views.entries.find? fun view =>
      view.2.binding = call.binding && view.2.snapshots.entries ≠ []).map
    fun view => (view.1, view.2.generation)).getD (call.viewUuid, 0)

def freeze (call : PageCall) (fingerprint : String) (bytes : ℕ) : FrozenView where
  snapshot := call.current
  fingerprint := fingerprint
  observedAt := call.nowMs
  expiresAt := saturatingAdd call.nowMs call.settings.ttlMs
  units := call.current.units
  bytes := bytes

/-- Without a cursor: the latest snapshot of this binding if nothing has changed since, else a new
one under the next sequence number. -/
def beginFirst (s : State) (call : PageCall) (fingerprint : String) (bytes : ℕ) :
    State × Except WorkError Place :=
  if call.current.units > call.settings.maxWorkHistoryRows then
    (s, .error (.projectionFailure .snapshotRowCapacity))
  else if bytes > call.settings.maxWorkHistoryBytes then
    (s, .error (.projectionFailure .snapshotByteCapacity))
  else
    let (viewId, seq) := latest s call
    if (s.frozenAt viewId seq).any fun kept => kept.fingerprint = fingerprint then
      (s, .ok ⟨viewId, seq, 0⟩)
    else if seq = u64Max then (s, .error .unavailable)
    else
      match s.reserveSnapshot call.settings call.current.units bytes viewId with
      | (reserved, .error error) => (reserved, .error error)
      | (reserved, .ok ()) =>
        (reserved.fileSnapshot call.binding viewId (seq + 1) call.nowMs
          (freeze call fingerprint bytes), .ok ⟨viewId, seq + 1, 0⟩)

/-- The page at a place. The end is at most the total, so the sum does not overflow. -/
def servePage (s : State) (call : PageCall) (fingerprint : String) (place : Place) :
    State × Except WorkError FrozenPage :=
  match s.frozenAt place.viewId place.seq with
  | none => (s, .error .cursorExpired)
  | some saved =>
    match call.revalidate saved.snapshot with
    | .error error => (s.removeSnapshot place.viewId place.seq, .error error)
    | .ok () =>
      if place.offset > saved.snapshot.total then (s, .error .cursorExpired)
      else
        let fin := min (place.offset + call.limit) saved.snapshot.total
        let touched := s.touch place.viewId call.nowMs
        let page (next : Option String) : FrozenPage :=
          { window := ⟨place.viewId, place.seq, place.offset, fin, next⟩
            snapshot := saved.snapshot.slice place.offset fin
            total := saved.snapshot.total
            observedAt := saved.observedAt
            stale := saved.fingerprint ≠ fingerprint }
        if fin < saved.snapshot.total then
          match touched.issueCursor call.settings
              ⟨call.binding, place.viewId, place.seq, fin, saved.expiresAt⟩ call.nowMs
              call.tokenUuid with
          | (issued, .error error) => (issued, .error error)
          | (issued, .ok token) => (issued, .ok (page (some token)))
        else (touched, .ok (page none))

def admission (call : PageCall) : Except WorkError (String × ℕ) :=
  if call.settings.violations ≠ [] then .error (.projectionFailure .settingsUnavailable)
  else if call.limit = 0 ∨ call.limit > call.settings.overviewMaxRows then
    .error (.invalid "limit is outside the configured page range")
  else host.signature call.binding call.current

def frozenPage (s : State) (call : PageCall) :
    State × Except WorkError FrozenPage :=
  match admission host call with
  | .error error => (s, .error error)
  | .ok (fingerprint, bytes) =>
    let pruned := s.pruneSnapshots call.settings call.nowMs
    match call.cursor with
    | some token =>
      match resume host pruned call token with
      | .error error => (pruned, .error error)
      | .ok place => servePage pruned call fingerprint place
    | none =>
      match beginFirst pruned call fingerprint bytes with
      | (begun, .error error) => (begun, .error error)
      | (begun, .ok place) => servePage begun call fingerprint place

def beginningCursor (s : State) (call : BeginningCall) : State × Except WorkError String :=
  if call.settings.violations ≠ [] then (s, .error (.projectionFailure .settingsUnavailable))
  else
    let pruned := s.pruneSnapshots call.settings call.nowMs
    match pruned.views.lookup call.snapshotId with
    | none => (pruned, .error .cursorExpired)
    | some view =>
      match view.snapshots.lookup call.seq with
      | some kept =>
        pruned.issueCursor call.settings
          ⟨view.binding, call.snapshotId, call.seq, 0, kept.expiresAt⟩ call.nowMs call.tokenUuid
      | none =>
        if view.snapshots.entries = [] ∧ view.generation = call.seq then
          pruned.issueCursor call.settings
            ⟨view.binding, call.snapshotId, call.seq, 0,
              saturatingAdd call.nowMs call.settings.ttlMs⟩ call.nowMs call.tokenUuid
        else (pruned, .error .cursorExpired)

inductive Call where
  | page (call : PageCall)
  | beginning (call : BeginningCall)

inductive Reply where
  | page (result : Except WorkError FrozenPage)
  | token (result : Except WorkError String)

def Call.settings : Call → PagingSettings
  | .page call => call.settings
  | .beginning call => call.settings

def Call.uuids : Call → List String
  | .page call => [call.viewUuid, call.tokenUuid]
  | .beginning call => [call.tokenUuid]

def exec (s : State) : Call → State × Reply
  | .page call => (frozenPage host s call).map id .page
  | .beginning call => (beginningCursor s call).map id .token

structure Event where
  call : Call
  reply : Reply
  after : State

inductive Run (host : Host) : List Event → State → List String → Prop where
  | nil : Run host [] State.empty []
  | snoc {trace : List Event} {s : State} {used : List String} (call : Call) :
      Run host trace s used → call.uuids.Nodup → (∀ uuid ∈ call.uuids, uuid ∉ used) →
      Run host (trace ++ [⟨call, (exec host s call).2, (exec host s call).1⟩])
        (exec host s call).1 (call.uuids ++ used)

end WorkPaging
