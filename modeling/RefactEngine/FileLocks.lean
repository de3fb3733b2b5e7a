import RefactEngine.FiniteMap
import RefactEngine.LockOrder
import RefactEngine.PatchPlan

/-! # Cooperative file locks

A transaction locks its paths, their file identities and their directories under textual keys, in
the order of the keys. A key stands for a lock of the process, which is fair, and for a lock file,
which every waiting process polls; the lock of the process is taken first. After the last key the
keys are computed again, and the transaction starts anew if they changed.
-/
namespace FileLocks

open ApplyPatch PatchPlan LockOrder

inductive WriteIntent where
  | create
  | overwrite (authorized : Bool)
  | contextual
  | delete
  | rename
  | tree
  deriving DecidableEq

structure FileId where
  dev : ℕ
  ino : ℕ

structure ResolvedPath where
  components : List PatchPlan.Path
  wellFormed : ∀ name ∈ components, name ≠ [] ∧ PathUnit.char '/' ∉ name

/-- A path of a transaction, as the file system shows it when the keys are computed. -/
structure Target where
  resolved : ResolvedPath
  fileAlias : Option FileId
  intent : WriteIntent

abbrev Key := Text

def Target.canonical (target : Target) : List Text := target.resolved.components.map toStringLossy

variable (components : List Text)

def display : Text := '/' :: ['/'].intercalate components

def pathKey : Key := "path:".toList ++ display components

def directoryKey : Key := "directory:".toList ++ display components

def aliasKey (id : FileId) : Key :=
  "id:".toList ++ Nat.toDigits 10 id.dev ++ ':' :: Nat.toDigits 10 id.ino

def properAncestors : List (List Text) :=
  (List.range components.length).reverse.map components.take

abbrev KeyMap := AList fun _ : Key => Mode

def orInsert (keys : KeyMap) (key : Key) (mode : Mode) : KeyMap :=
  if (keys.lookup key).isSome then keys else keys.insert key mode

def insertTarget (keys : KeyMap) (target : Target) : KeyMap :=
  let canonical := target.canonical
  let keys := keys.insert (pathKey canonical) .exclusive
  let keys := (properAncestors canonical).foldl
    (fun keys parent => orInsert keys (directoryKey parent) .shared) keys
  let keys :=
    if target.intent = .tree then keys.insert (directoryKey canonical) .exclusive else keys
  match target.fileAlias with
  | some id => keys.insert (aliasKey id) .exclusive
  | none => keys

def lockKeys (targets : List Target) : KeyMap := targets.foldl insertTarget ∅

variable {Txn Proc : Type} [DecidableEq Txn] [DecidableEq Proc]

/-- The lock of a key inside a process, or the lock file that all processes share. -/
structure Lock (Proc : Type) where
  key : Key
  proc : Option Proc
  deriving DecidableEq

def Lock.rank (lock : Lock Proc) : Key ×ₗ Bool := toLex (lock.key, lock.proc.isNone)

/-- The lock inside a process is granted in the order of the requests, a lock file is not. -/
def Lock.fair (lock : Lock Proc) : Bool := lock.proc.isSome

def plan (proc : Proc) (targets : List Target) : List (Lock Proc × Mode) :=
  (lockKeys targets).inOrder.flatMap fun entry =>
    [(⟨entry.1, some proc⟩, entry.2), (⟨entry.1, none⟩, entry.2)]

structure State (Txn Proc : Type) where
  table : Table Txn (Lock Proc)
  targets : Txn → List Target
  granted : Txn → Bool

def State.initial : State Txn Proc := ⟨.initial, fun _ => [], fun _ => false⟩

/-- The steps of `begin_writes` and of its guards. `close` stands for a time-out, for an error and
for the drop of the last guard; the locks are then let go one by one. -/
inductive Step (proc : Txn → Proc) : State Txn Proc → State Txn Proc → Prop where
  | start {s t targets} : targets ≠ [] → s.table.task t = .idle →
      Step proc s { s with
        table := s.table.setTask t ⟨[], plan (proc t) targets, false⟩
        targets := Function.update s.targets t targets }
  | request {s t l table} : LockOrder.Step Lock.rank Lock.fair s.table (.request t l) table →
      Step proc s { s with table }
  | acquire {s t l table} : LockOrder.Step Lock.rank Lock.fair s.table (.acquire t l) table →
      Step proc s { s with table }
  | grant {s t observed} : (s.table.task t).closing = false →
      (s.table.task t).held = plan (proc t) (s.targets t) → (s.table.task t).rest = [] →
      s.targets t ≠ [] → (lockKeys (s.targets t)).inOrder = (lockKeys observed).inOrder →
      Step proc s { s with granted := Function.update s.granted t true }
  | close {s t table} : LockOrder.Step Lock.rank Lock.fair s.table (.close t) table →
      Step proc s { s with table, granted := Function.update s.granted t false }
  | release {s t l table} : LockOrder.Step Lock.rank Lock.fair s.table (.release t l) table →
      Step proc s { s with table }
  | finish {s t table} : LockOrder.Step Lock.rank Lock.fair s.table (.finish t) table →
      Step proc s { s with table }

inductive Reachable (proc : Txn → Proc) : State Txn Proc → Prop where
  | initial : Reachable proc .initial
  | step {s s'} : Reachable proc s → Step proc s s' → Reachable proc s'

/-- A path of one transaction and a path of another that must not be written at once. -/
def Touches (x y : Target) : Prop :=
  x.canonical = y.canonical ∨ (∃ id, x.fileAlias = some id ∧ y.fileAlias = some id) ∨
    x.intent = .tree ∧ x.canonical <+: y.canonical

def Related (xs ys : List Target) : Prop :=
  ∃ x ∈ xs, ∃ y ∈ ys, Touches x y ∨ Touches y x

end FileLocks
