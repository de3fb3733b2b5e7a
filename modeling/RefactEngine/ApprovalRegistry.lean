import RefactEngine.FiniteMap
import Mathlib.Data.Prod.Lex
import Mathlib.Data.String.Basic

/-! # The approval registry

A child's tool call waits for its parent's decision in a bounded table. Every operation first
runs a pass that marks what has expired and drops the oldest expired requests beyond the
capacity. The capacity is fixed, or read from the settings at each call. The arguments of a
tool call are compared by the equality of their type only.
-/
namespace ApprovalRegistry

structure ExecutionApproval where
  command : String
  argv : List String
  cwd : String
  environmentKeys : List String
  fingerprint : String
  privilege : String
  reason : String
  deriving BEq, DecidableEq

structure PendingApproval (Value : Type) where
  id : String
  childWorkId : String
  parentChatId : String
  runGeneration : ℕ
  toolCallId : String
  toolName : String
  args : Value
  digest : Option String
  createdAt : ℕ
  expiresAt : ℕ
  execution : Option ExecutionApproval
  deriving BEq, DecidableEq

inductive ApprovalDecision where
  | approved
  | rejected
  | cancelled
  | expired
  deriving DecidableEq

inductive ApprovalError where
  | capacity
  | duplicate
  | notFound
  | notOwner
  | generationMismatch
  | expired
  | alreadyDecided
  | bindingMismatch
  | notApproved
  | consumed
  deriving DecidableEq

structure UserOnceGrant (Value : Type) where
  pending : PendingApproval Value
  wrapperToolCallId : String
  consumed : Bool

structure Entry (Value : Type) where
  pending : PendingApproval Value
  decision : Option ApprovalDecision
  denialReason : Option String
  userOnce : Option (UserOnceGrant Value)
  consumed : Bool

abbrev Registry (Value : Type) := AList fun _ : String => Entry Value

variable {Value : Type}

def Entry.expire (entry : Entry Value) (now : ℕ) : Entry Value :=
  if entry.pending.expiresAt ≤ now then
    { entry with decision := some .expired, denialReason := none, userOnce := none }
  else entry

def expiredInOrder (entries : Registry Value) : List (ℕ ×ₗ String) :=
  ((entries.entries.filter fun entry => entry.2.decision = some .expired).map fun entry =>
    toLex (entry.2.pending.expiresAt, entry.1)).insertionSort (· ≤ ·)

/-- Marks what is due and drops the oldest expired entries beyond the capacity. -/
def expireLocked (capacity : ℕ) (entries : Registry Value) (now : ℕ) : Registry Value :=
  let marked := entries.mapValues fun _ entry => entry.expire now
  let expired := expiredInOrder marked
  let purgeCount := expired.length - capacity
  if 0 < purgeCount then
    marked.eraseAll ((expired.take purgeCount).map fun key => (ofLex key).2)
  else marked

/-- A check of one entry: the entry that it leaves is stored, with an error as well. -/
def onEntry {α : Type} (entries : Registry Value) (id : String)
    (f : Entry Value → Entry Value × Except ApprovalError α) :
    Registry Value × Except ApprovalError α :=
  match entries.lookup id with
  | none => (entries, .error .notFound)
  | some entry => (entries.insert id (f entry).1, (f entry).2)

/-- The child, its run and its call, whatever the id of the request. -/
def SameCall (a b : PendingApproval Value) : Prop :=
  a.parentChatId = b.parentChatId ∧ a.childWorkId = b.childWorkId ∧
    a.runGeneration = b.runGeneration ∧ a.toolCallId = b.toolCallId

instance (a b : PendingApproval Value) : Decidable (SameCall a b) :=
  inferInstanceAs (Decidable (_ ∧ _))

def register (capacity : ℕ) (s : Registry Value) (pending : PendingApproval Value) (now : ℕ) :
    Registry Value × Except ApprovalError Unit :=
  let entries := expireLocked capacity s now
  if (entries.lookup pending.id).isSome ∨ entries.entries.any (fun entry =>
      SameCall entry.2.pending pending ∧ now < entry.2.pending.expiresAt) then
    (entries, .error .duplicate)
  else if pending.expiresAt ≤ now then (entries, .error .expired)
  else if capacity ≤ entries.countValues (fun entry => now < entry.pending.expiresAt) then
    (entries, .error .capacity)
  else
    (entries.insert pending.id
      { pending := pending
        decision := none
        denialReason := none
        userOnce := none
        consumed := false }, .ok ())

def checkUserOnceEntry (entry : Entry Value) (parent : String) (generation : ℕ) :
    Except ApprovalError Unit :=
  if entry.pending.parentChatId ≠ parent then .error .notOwner
  else if entry.pending.runGeneration ≠ generation then .error .generationMismatch
  else
    match entry.decision with
    | some .expired => .error .expired
    | some _ => .error .alreadyDecided
    | none => .ok ()

section Binding

variable [BEq Value]

def grantUserOnceEntry (parent : String) (generation : ℕ) (wrapperToolCallId : String)
    (entry : Entry Value) : Entry Value × Except ApprovalError Unit :=
  match checkUserOnceEntry entry parent generation with
  | .error err => (entry, .error err)
  | .ok () =>
    if wrapperToolCallId = "" then (entry, .error .bindingMismatch)
    else
      match entry.userOnce with
      | some grant =>
        if grant.pending != entry.pending ∨ grant.wrapperToolCallId ≠ wrapperToolCallId then
          (entry, .error .bindingMismatch)
        else if grant.consumed then (entry, .error .consumed)
        else (entry, .ok ())
      | none =>
        ({ entry with userOnce := some ⟨entry.pending, wrapperToolCallId, false⟩ }, .ok ())

def grantUserOnce (capacity : ℕ) (s : Registry Value) (parent id : String) (generation : ℕ)
    (wrapperToolCallId : String) (now : ℕ) : Registry Value × Except ApprovalError Unit :=
  onEntry (expireLocked capacity s now) id (grantUserOnceEntry parent generation wrapperToolCallId)

def consumeUserOnceEntry (parent : String) (generation : ℕ) (wrapperToolCallId : String)
    (entry : Entry Value) : Entry Value × Except ApprovalError Unit :=
  match checkUserOnceEntry entry parent generation with
  | .error err => (entry, .error err)
  | .ok () =>
    match entry.userOnce with
    | none => (entry, .error .notApproved)
    | some grant =>
      if grant.pending != entry.pending ∨ grant.wrapperToolCallId ≠ wrapperToolCallId then
        (entry, .error .bindingMismatch)
      else if grant.consumed then (entry, .error .consumed)
      else ({ entry with userOnce := some { grant with consumed := true } }, .ok ())

def consumeUserOnce (capacity : ℕ) (s : Registry Value) (parent id : String) (generation : ℕ)
    (wrapperToolCallId : String) (now : ℕ) : Registry Value × Except ApprovalError Unit :=
  onEntry (expireLocked capacity s now) id
    (consumeUserOnceEntry parent generation wrapperToolCallId)

def consumeEntry (toolCallId : String) (args : Value) (entry : Entry Value) :
    Entry Value × Except ApprovalError (PendingApproval Value) :=
  match entry.decision with
  | some .approved =>
    if entry.pending.toolCallId ≠ toolCallId ∨ entry.pending.args != args then
      (entry, .error .bindingMismatch)
    else if entry.consumed then (entry, .error .consumed)
    else ({ entry with consumed := true }, .ok entry.pending)
  | some .expired => (entry, .error .expired)
  | some .cancelled => (entry, .error .notApproved)
  | some .rejected => (entry, .error .notApproved)
  | none => (entry, .error .notApproved)

def consume (capacity : ℕ) (s : Registry Value) (id toolCallId : String) (args : Value)
    (now : ℕ) : Registry Value × Except ApprovalError (PendingApproval Value) :=
  onEntry (expireLocked capacity s now) id (consumeEntry toolCallId args)

end Binding

variable (callerParent : String) (expectedGeneration : ℕ)

def decideEntry (approve : Bool)
    (denialReason : Option String) (entry : Entry Value) :
    Entry Value × Except ApprovalError ApprovalDecision :=
  if entry.pending.parentChatId ≠ callerParent then (entry, .error .notOwner)
  else if entry.pending.runGeneration ≠ expectedGeneration then
    (entry, .error .generationMismatch)
  else if entry.decision = some .expired then (entry, .error .expired)
  else
    let wanted : ApprovalDecision := if approve then .approved else .rejected
    match entry.decision with
    | some existing =>
      -- a repeated rejection may still bring the reason that the first one lacked
      let entry' := if existing = wanted ∧ wanted = .rejected ∧ entry.denialReason.isNone then
        { entry with denialReason := denialReason } else entry
      (entry', if existing = wanted then .ok existing else .error .alreadyDecided)
    | none =>
      ({ entry with
        decision := some wanted
        denialReason := if wanted = .rejected then denialReason else none
        userOnce := none }, .ok wanted)

def decideWithReason (capacity : ℕ) (s : Registry Value) (callerParent : String)
    (expectedGeneration : ℕ) (id : String) (approve : Bool) (denialReason : Option String)
    (now : ℕ) : Registry Value × Except ApprovalError ApprovalDecision :=
  onEntry (expireLocked capacity s now) id
    (decideEntry callerParent expectedGeneration approve denialReason)

def cancelEntry (entry : Entry Value) :
    Entry Value × Except ApprovalError Unit :=
  if entry.pending.parentChatId ≠ callerParent then (entry, .error .notOwner)
  else if entry.pending.runGeneration ≠ expectedGeneration then
    (entry, .error .generationMismatch)
  else if entry.decision.isSome then (entry, .error .alreadyDecided)
  else ({ entry with decision := some .cancelled, userOnce := none }, .ok ())

def cancel (capacity : ℕ) (s : Registry Value) (callerParent : String) (expectedGeneration : ℕ)
    (id : String) (now : ℕ) : Registry Value × Except ApprovalError Unit :=
  onEntry (expireLocked capacity s now) id (cancelEntry callerParent expectedGeneration)

def get (capacity : ℕ) (s : Registry Value) (callerParent id : String) (now : ℕ) :
    Registry Value × Except ApprovalError (PendingApproval Value) :=
  let entries := expireLocked capacity s now
  match entries.lookup id with
  | none => (entries, .error .notFound)
  | some entry =>
    if entry.pending.parentChatId ≠ callerParent then (entries, .error .notOwner)
    else (entries, .ok entry.pending)

def inCreationOrder (entries : Registry Value) (p : Entry Value → Bool) :
    List (PendingApproval Value) :=
  (((entries.entries.map Sigma.snd).filter p).map Entry.pending).insertionSort fun left right =>
    toLex (left.createdAt, left.id) ≤ toLex (right.createdAt, right.id)

def listForParent (capacity : ℕ) (s : Registry Value) (callerParent : String) (now : ℕ) :
    Registry Value × List (PendingApproval Value) :=
  let entries := expireLocked capacity s now
  (entries, inCreationOrder entries fun entry => entry.pending.parentChatId = callerParent)

def undecided (capacity : ℕ) (s : Registry Value) (now : ℕ) :
    Registry Value × List (PendingApproval Value) :=
  let entries := expireLocked capacity s now
  (entries, inCreationOrder entries fun entry => entry.decision.isNone)

def waitNow (capacity : ℕ) (s : Registry Value) (id : String) (now : ℕ) :
    Registry Value × Except ApprovalError ApprovalDecision :=
  let entries := expireLocked capacity s now
  match entries.lookup id with
  | none => (entries, .error .notFound)
  | some entry =>
    match entry.decision with
    | none => (entries, .error .notApproved)
    | some decision => (entries, .ok decision)

inductive Op (Value : Type) where
  | register (pending : PendingApproval Value)
  | grantUserOnce (parent id : String) (generation : ℕ) (wrapperToolCallId : String)
  | consumeUserOnce (parent id : String) (generation : ℕ) (wrapperToolCallId : String)
  | decideWithReason (callerParent : String) (expectedGeneration : ℕ) (id : String)
      (approve : Bool) (denialReason : Option String)
  | cancel (callerParent : String) (expectedGeneration : ℕ) (id : String)
  | consume (id toolCallId : String) (args : Value)
  | get (callerParent id : String)
  | listForParent (callerParent : String)
  | undecided
  | expire
  | waitNow (id : String)

def Op.decide (id : String) (approve : Bool) :
    Op Value :=
  .decideWithReason callerParent expectedGeneration id approve none

structure Call (Value : Type) where
  capacity : ℕ
  now : ℕ
  op : Op Value

inductive Reply (Value : Type) where
  | done (result : Except ApprovalError Unit)
  | decided (result : Except ApprovalError ApprovalDecision)
  | found (result : Except ApprovalError (PendingApproval Value))
  | listed (pending : List (PendingApproval Value))
  deriving DecidableEq

def Reply.of {α : Type} (f : α → Reply Value) (out : Registry Value × α) :
    Registry Value × Reply Value :=
  (out.1, f out.2)

def perform [BEq Value] (s : Registry Value) (call : Call Value) :
    Registry Value × Reply Value :=
  match call.op with
  | .register pending => Reply.of .done (register call.capacity s pending call.now)
  | .grantUserOnce parent id generation wrapper =>
    Reply.of .done (grantUserOnce call.capacity s parent id generation wrapper call.now)
  | .consumeUserOnce parent id generation wrapper =>
    Reply.of .done (consumeUserOnce call.capacity s parent id generation wrapper call.now)
  | .decideWithReason parent generation id approve reason =>
    Reply.of .decided
      (decideWithReason call.capacity s parent generation id approve reason call.now)
  | .cancel parent generation id =>
    Reply.of .done (cancel call.capacity s parent generation id call.now)
  | .consume id toolCallId args =>
    Reply.of .found (consume call.capacity s id toolCallId args call.now)
  | .get parent id => Reply.of .found (get call.capacity s parent id call.now)
  | .listForParent parent => Reply.of .listed (listForParent call.capacity s parent call.now)
  | .undecided => Reply.of .listed (undecided call.capacity s call.now)
  | .expire => (expireLocked call.capacity s call.now, .done (.ok ()))
  | .waitNow id => Reply.of .decided (waitNow call.capacity s id call.now)

end ApprovalRegistry
