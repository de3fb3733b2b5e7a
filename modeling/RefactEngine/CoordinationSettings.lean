import RefactEngine.WorkIdentity

/-! # The coordination settings that admission reads

Only the settings read by the modelled components are fields. `others` stands for what
`validate` reports about the remaining ones, so that a configuration can still be refused
for a reason that admission never looks at.
-/
namespace CoordinationSettings

open WorkIdentity

structure SettingsViolation where
  field : String
  message : String
  deriving DecidableEq

structure SettingsError where
  violations : List SettingsViolation
  deriving DecidableEq

structure Settings where
  enabled : Bool
  maxActiveEngine : ℕ
  maxActiveProject : ℕ
  maxActiveRoot : ℕ
  rootFairnessQuantum : ℕ
  rootWeights : Std.TreeMap String ℕ
  maxRootWeightEntries : ℕ
  maxResumeBurst : ℕ
  defaultPriority : WorkPriority
  maxPriorityBurst : ℕ
  maxPending : ℕ
  maxOutstanding : ℕ
  maxParkedResidency : ℕ
  maxSubchatDepth : ℕ
  others : List SettingsViolation

def default : Settings where
  enabled := true
  maxActiveEngine := 32
  maxActiveProject := 16
  maxActiveRoot := 16
  rootFairnessQuantum := 1
  rootWeights := ∅
  maxRootWeightEntries := 4096
  maxResumeBurst := 4
  defaultPriority := .normal
  maxPriorityBurst := 4
  maxPending := 1024
  maxOutstanding := 4096
  maxParkedResidency := 256
  maxSubchatDepth := 5
  others := []

def usizeMax : ℕ := 2 ^ 64 - 1

def Settings.rootQuantum (settings : Settings) (root : CheckoutKey) : ℕ :=
  min (settings.rootFairnessQuantum * (settings.rootWeights[root]?).getD 1) usizeMax

def atLeast (field : String) (value minimum : ℕ) : List SettingsViolation :=
  if value < minimum then [⟨field, s!"must be at least {minimum}, got {value}"⟩] else []

def notGreater (field : String) (value : ℕ) (otherField : String) (other : ℕ) :
    List SettingsViolation :=
  if value > other then [⟨field, s!"must not exceed {otherField} ({other}), got {value}"⟩]
  else []

def isWhitespace (c : Char) : Bool :=
  let n := c.toNat
  (9 ≤ n && n ≤ 13) || n == 0x20 || n == 0x85 || n == 0xA0 || n == 0x1680 ||
    (0x2000 ≤ n && n ≤ 0x200A) || n == 0x2028 || n == 0x2029 || n == 0x202F ||
    n == 0x205F || n == 0x3000

def isControl (c : Char) : Bool := c.toNat < 0x20 || (0x7F ≤ c.toNat && c.toNat < 0xA0)

def validRootId (root : String) : Bool :=
  match root.toList with
  | [] => false
  | c :: cs =>
    !isWhitespace c && !isWhitespace ((c :: cs).getLastD c) && !(c :: cs).any isControl

def rootWeightViolations (entry : String × ℕ) : List SettingsViolation :=
  (if validRootId entry.1 then []
    else [⟨"root_weights",
      "root IDs must be nonempty, trimmed and contain no control characters"⟩]) ++
    atLeast "root_weights" entry.2 1

def Settings.violations (s : Settings) : List SettingsViolation :=
  atLeast "max_active_engine" s.maxActiveEngine 1 ++
  atLeast "max_active_project" s.maxActiveProject 1 ++
  atLeast "max_active_root" s.maxActiveRoot 1 ++
  atLeast "root_fairness_quantum" s.rootFairnessQuantum 1 ++
  atLeast "max_resume_burst" s.maxResumeBurst 1 ++
  atLeast "max_priority_burst" s.maxPriorityBurst 1 ++
  atLeast "max_root_weight_entries" s.maxRootWeightEntries 1 ++
  notGreater "root_weights" s.rootWeights.size "max_root_weight_entries"
    s.maxRootWeightEntries ++
  s.rootWeights.toList.flatMap rootWeightViolations ++
  atLeast "max_pending" s.maxPending 1 ++
  atLeast "max_outstanding" s.maxOutstanding 1 ++
  atLeast "max_parked_residency" s.maxParkedResidency 1 ++
  notGreater "max_parked_residency" s.maxParkedResidency "max_outstanding"
    s.maxOutstanding ++
  atLeast "max_subchat_depth" s.maxSubchatDepth 1 ++
  notGreater "max_active_project" s.maxActiveProject "max_active_engine"
    s.maxActiveEngine ++
  notGreater "max_active_root" s.maxActiveRoot "max_active_engine" s.maxActiveEngine ++
  notGreater "max_pending" s.maxPending "max_outstanding" s.maxOutstanding ++
  s.others

def Settings.validate (s : Settings) : Except SettingsError Unit :=
  if s.violations.isEmpty then .ok () else .error ⟨s.violations⟩

example : default.validate = .ok () := by decide

end CoordinationSettings
