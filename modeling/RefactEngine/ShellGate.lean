import RefactEngine.CommandRules

/-! # The gate of shell commands

A command passes, needs a confirmation or is denied, by the first layer that decides. An allow rule
lets a command pass as a whole when it covers one of its segments.
-/
namespace ShellGate

open ApplyPatch CommandClassify CommandRules

inductive ApprovalMode where
  | strict
  | balanced
  | permissive
  | yolo
  deriving DecidableEq

def ApprovalMode.askThreshold : ApprovalMode → Option RiskLevel
  | .strict => some .low
  | .balanced => some .medium
  | .permissive => some .high
  | .yolo => none

structure ShellGatePolicy where
  mode : ApprovalMode
  deny : List Text
  ask : List Text
  allow : List Text
  trustCallerConfirmation : Bool
  catalogue : List RiskEntry

structure GateContext where
  workspaceRoots : List Text
  needsConfirmation : Bool
  deriving DecidableEq

inductive Decision where
  | pass
  | confirmation
  | deny
  deriving DecidableEq

inductive Layer where
  | denyRule
  | unparsable
  | allowRule
  | callerRequested
  | yolo
  | structural
  | askRule
  | risk
  | default
  deriving DecidableEq

structure GateOutcome where
  result : Decision
  rule : Text
  layer : Layer
  reason : Text
  riskLevel : Option RiskLevel
  deriving DecidableEq

def flagName : StructuralFlag → Text
  | .unclassifiable => "unclassifiable-command".toList
  | .pipeToShell => "pipe-to-shell".toList

/-- The pattern of a rule that is no regular expression and not about the whole text. -/
def literalDenyPattern (rule : Text) : Option Text :=
  if startsWith "re:" rule || startsWith "raw:" rule then none
  else if startsWith "exec:" rule || startsWith "argv:" rule then some (rule.drop 5)
  else some rule

variable (lib : Libraries) (command : Text)

def denyOnUnparsable (segments : CommandSegments)
    (deny : List Text) : Option Text :=
  deny.find? fun rule => (literalDenyPattern rule).any fun pattern =>
    (firstMatchingRule lib command segments ["raw:*".toList ++ pattern ++ ['*']]).isSome

def byRule (result : Decision) (layer : Layer) (before : String) (rule : Text) (after : String) :
    GateOutcome :=
  ⟨result, rule, layer, before.toList ++ rule ++ after.toList, none⟩

def byLayer (result : Decision) (layer : Layer) (rule reason : String) : GateOutcome :=
  ⟨result, rule.toList, layer, reason.toList, none⟩

def evaluateRest (segments : CommandSegments)
    (policy : ShellGatePolicy) (ctx : GateContext) : GateOutcome :=
  if policy.trustCallerConfirmation && ctx.needsConfirmation then
    byLayer .confirmation .callerRequested "caller-requested"
      "The model asked for confirmation before running this."
  else if policy.mode = .yolo then byLayer .pass .yolo "yolo-mode" "Allowed by yolo mode."
  else match structuralFlags segments with
    | flag :: _ => byRule .confirmation .structural "Command has the structural risk `"
        (flagName flag) "`."
    | [] =>
      match firstMatchingRule lib command segments policy.ask with
      | some rule => byRule .confirmation .askRule "Confirmation required by rule `" rule "`."
      | none =>
        match policy.mode.askThreshold,
          classifyCommand lib segments policy.catalogue ctx.workspaceRoots with
        | some threshold, some finding =>
          if threshold.rank ≤ finding.level.rank then
            ⟨.confirmation, "risk:".toList ++ finding.entryId, .risk, finding.reason,
              some finding.level⟩
          else byLayer .pass .default "" "No approval rule matched."
        | _, _ => byLayer .pass .default "" "No approval rule matched."

def evaluate (policy : ShellGatePolicy) (ctx : GateContext) :
    GateOutcome :=
  let segments := extractCommandSegments lib command
  match firstMatchingRule lib command segments policy.deny with
  | some rule => byRule .deny .denyRule "Denied by rule `" rule "`."
  | none =>
    let unparsable :=
      if segments.parseOk then none
      else match denyOnUnparsable lib command segments policy.deny with
        | some rule => some (byRule .deny .denyRule "Denied by rule `" rule "`.")
        | none =>
          if policy.mode = .yolo then none
          else some (byLayer .confirmation .unparsable "unparsable-command"
            "Command could not be parsed safely.")
    match unparsable with
    | some outcome => outcome
    | none =>
      match firstMatchingRule lib command segments policy.allow with
      | some rule => byRule .pass .allowRule "Allowed by rule `" rule "`."
      | none => evaluateRest lib command segments policy ctx

variable {lib : Libraries} {command : Text} {policy : ShellGatePolicy} {ctx : GateContext}

def Consulted (lib : Libraries) (command : Text) (policy : ShellGatePolicy) : Prop :=
  let segments := extractCommandSegments lib command
  firstMatchingRule lib command segments policy.deny = none ∧
    (segments.parseOk = true ∨
      denyOnUnparsable lib command segments policy.deny = none ∧ policy.mode = .yolo)

def allowedBy (lib : Libraries) (command : Text) (policy : ShellGatePolicy) : Option Text :=
  firstMatchingRule lib command (extractCommandSegments lib command) policy.allow

theorem evaluateRest_layer (lib : Libraries) (command : Text) (segments : CommandSegments)
    (policy : ShellGatePolicy) (ctx : GateContext) :
    (evaluateRest lib command segments policy ctx).layer ≠ .allowRule := by
  rw [evaluateRest]
  split_ifs
  · rintro ⟨⟩
  · rintro ⟨⟩
  · split
    · rintro ⟨⟩
    · split
      · rintro ⟨⟩
      · split
        · split_ifs
          · rintro ⟨⟩
          · rintro ⟨⟩
        · rintro ⟨⟩

theorem evaluate_of_consulted (h : Consulted lib command policy) :
    evaluate lib command policy ctx =
      match allowedBy lib command policy with
      | some rule => byRule .pass .allowRule "Allowed by rule `" rule "`."
      | none => evaluateRest lib command (extractCommandSegments lib command) policy ctx := by
  obtain ⟨hdeny, hparsed⟩ := h
  rw [evaluate, allowedBy]
  dsimp only
  rw [hdeny]
  dsimp only
  rcases hparsed with hparsed | ⟨hliteral, hyolo⟩
  · rw [if_pos hparsed]
  · rw [hliteral]
    dsimp only
    rw [if_pos hyolo, ite_self]

theorem consulted_of_layer (h : (evaluate lib command policy ctx).layer = .allowRule) :
    Consulted lib command policy := by
  rw [evaluate] at h
  dsimp only at h
  cases hdeny : firstMatchingRule lib command (extractCommandSegments lib command) policy.deny with
  | some rule =>
    rw [hdeny] at h
    cases h
  | none =>
    rw [hdeny] at h
    dsimp only at h
    refine ⟨hdeny, ?_⟩
    by_cases hparsed : (extractCommandSegments lib command).parseOk = true
    · exact .inl hparsed
    · rw [if_neg hparsed] at h
      cases hliteral : denyOnUnparsable lib command (extractCommandSegments lib command)
          policy.deny with
      | some rule =>
        rw [hliteral] at h
        cases h
      | none =>
        rw [hliteral] at h
        dsimp only at h
        by_cases hyolo : policy.mode = .yolo
        · exact .inr ⟨rfl, hyolo⟩
        · rw [if_neg hyolo] at h
          cases h

theorem layer_allowRule_iff :
    (evaluate lib command policy ctx).layer = .allowRule ↔
      Consulted lib command policy ∧ (allowedBy lib command policy).isSome = true := by
  constructor
  · intro h
    have hcons := consulted_of_layer h
    refine ⟨hcons, ?_⟩
    rw [evaluate_of_consulted hcons] at h
    cases hallow : allowedBy lib command policy with
    | some rule => rfl
    | none =>
      rw [hallow] at h
      exact absurd h (evaluateRest_layer _ _ _ _ _)
  · rintro ⟨hcons, hsome⟩
    obtain ⟨rule, hrule⟩ := Option.isSome_iff_exists.mp hsome
    rw [evaluate_of_consulted hcons, hrule]
    rfl

theorem evaluate_allowed {source : Text} (h : Consulted lib command policy)
    (hallow : allowedBy lib command policy = some source) :
    evaluate lib command policy ctx =
      byRule .pass .allowRule "Allowed by rule `" source "`." := by
  rw [evaluate_of_consulted h, hallow]

def CoveredBy (lib : Libraries) (rules : List Text) (argv : List Text) : Prop :=
  ∃ source ∈ rules, ∃ rule, CommandRule.parse lib source = some rule ∧ rule.covers argv = true

structure Covered (lib : Libraries) (policy : ShellGatePolicy) (segments : CommandSegments) :
    Prop where
  parsed : segments.parseOk = true
  covered : ∀ segment ∈ segments.segments, CoveredBy lib policy.allow segment.argv

def PassesBySegment (lib : Libraries) (command : Text) (policy : ShellGatePolicy)
    (ctx : GateContext) : Prop :=
  let outcome := evaluate lib command policy ctx
  outcome.result = .pass ∧ outcome.layer = .allowRule ∧
    ∀ rule, CommandRule.parse lib outcome.rule = some rule → rule.kind ≠ .raw

/-- Whatever passes by an allow rule is covered, and what was put into it, such that one of its own
segments is there, is matched by an allow rule itself. -/
structure VouchesForCovered (lib : Libraries) (command : Text) (policy : ShellGatePolicy)
    (ctx : GateContext) : Prop where
  covered : PassesBySegment lib command policy ctx →
    Covered lib policy (extractCommandSegments lib command)
  inside : PassesBySegment lib command policy ctx → ∀ part : Text,
    (∃ segment ∈ (extractCommandSegments lib part).segments,
      ∃ whole ∈ (extractCommandSegments lib command).segments, whole.argv = segment.argv) →
    (allowedBy lib part policy).isSome = true

/-- The first allow rule that matches is about a segment, and the command was not parsed or has a
segment that no allow rule covers. -/
structure Overreaches (lib : Libraries) (command : Text) (policy : ShellGatePolicy) : Prop where
  consulted : Consulted lib command policy
  bySegment : ∃ source rule, allowedBy lib command policy = some source ∧
    CommandRule.parse lib source = some rule ∧ rule.kind ≠ .raw
  beyond : (extractCommandSegments lib command).parseOk = false ∨
    ∃ segment ∈ (extractCommandSegments lib command).segments,
      ¬ CoveredBy lib policy.allow segment.argv

theorem parse_of_allowedBy {source : Text} (h : allowedBy lib command policy = some source) :
    source ∈ policy.allow ∧ ∃ rule, CommandRule.parse lib source = some rule ∧
      rule.accepts command (extractCommandSegments lib command) = true := by
  rw [allowedBy, firstMatchingRule] at h
  exact ⟨List.mem_of_find?_eq_some h, ruleMatches_iff.mp (List.find?_some h)⟩

theorem passesBySegment_iff :
    PassesBySegment lib command policy ctx ↔ Consulted lib command policy ∧
      ∃ source rule, allowedBy lib command policy = some source ∧
        CommandRule.parse lib source = some rule ∧ rule.kind ≠ .raw := by
  constructor
  · rintro ⟨-, hlayer, hkind⟩
    obtain ⟨hcons, hsome⟩ := layer_allowRule_iff.mp hlayer
    obtain ⟨source, hallow⟩ := Option.isSome_iff_exists.mp hsome
    obtain ⟨-, rule, hparse, -⟩ := parse_of_allowedBy hallow
    rw [evaluate_allowed hcons hallow] at hkind
    exact ⟨hcons, source, rule, hallow, hparse, hkind rule hparse⟩
  · rintro ⟨hcons, source, rule, hallow, hparse, hkind⟩
    rw [PassesBySegment, evaluate_allowed hcons hallow]
    refine ⟨rfl, rfl, fun other hother => ?_⟩
    obtain rfl := Option.some.inj (hparse.symm.trans hother)
    exact hkind

theorem allowedBy_of_covered {part : Text} {segment : Segment}
    (hsegment : segment ∈ (extractCommandSegments lib part).segments)
    (h : CoveredBy lib policy.allow segment.argv) :
    (allowedBy lib part policy).isSome = true := by
  obtain ⟨source, hsource, rule, hparse, hcovers⟩ := h
  rw [allowedBy, firstMatchingRule, List.find?_isSome]
  exact ⟨source, hsource, ruleMatches_iff.mpr ⟨rule, hparse, accepts_of_covers hsegment hcovers⟩⟩

/-- An allow rule vouches only for what it covers exactly unless it lets pass a command that was not
parsed, or a segment that no allow rule covers. -/
theorem vouches_iff (lib : Libraries) (command : Text) (policy : ShellGatePolicy)
    (ctx : GateContext) :
    VouchesForCovered lib command policy ctx ↔ ¬ Overreaches lib command policy := by
  constructor
  · rintro hvouches ⟨hconsulted, hrule, hbeyond⟩
    obtain ⟨hparsed, hcovered⟩ :=
      hvouches.covered (passesBySegment_iff.mpr ⟨hconsulted, hrule⟩)
    rcases hbeyond with hfailed | ⟨segment, hsegment, hnot⟩
    · rw [hparsed] at hfailed
      cases hfailed
    · exact hnot (hcovered segment hsegment)
  · intro hnot
    have hcovered : PassesBySegment lib command policy ctx →
        Covered lib policy (extractCommandSegments lib command) := by
      intro hpasses
      obtain ⟨hconsulted, hrule⟩ := passesBySegment_iff.mp hpasses
      constructor
      · by_contra hparsed
        exact hnot ⟨hconsulted, hrule, .inl (by simpa using hparsed)⟩
      · intro segment hsegment
        by_contra huncovered
        exact hnot ⟨hconsulted, hrule, .inr ⟨segment, hsegment, huncovered⟩⟩
    refine ⟨hcovered, ?_⟩
    rintro hpasses part ⟨segment, hsegment, whole, hwhole, hargv⟩
    exact allowedBy_of_covered hsegment (hargv ▸ (hcovered hpasses).covered whole hwhole)

def plainLibraries : Libraries where
  split text := some ((text.splitOn ' ').filter (· ≠ []))
  join words := [' '].intercalate words
  glob pattern := some fun value => value == pattern
  regex _ := none

/-- What is appended, piped into or substituted is inside. -/
example : ∀ whole ∈ ["ls; rm -rf x", "ls && rm -rf x", "ls | rm -rf x", "ls $(rm -rf x)"],
    ["rm".toList, "-rf".toList, "x".toList] ∈
      (extractCommandSegments plainLibraries whole.toList).segments.map Segment.argv := by
  decide

def removal : RiskEntry :=
  ⟨"rm.recursive_force".toList, "rm".toList, ["-r".toList, "-f".toList], [], .medium,
    "Recursively and forcibly removes files.".toList, true, false⟩

/-- Nothing but `ls` is allowed. -/
def listingAllowed : ShellGatePolicy :=
  ⟨.strict, ["sudo".toList, "doas".toList], [], ["ls".toList], true, [removal]⟩

def workspace : GateContext := ⟨["/workspace".toList], false⟩

/-- A removal passes behind a listing, and is confirmed when it is alone. -/
theorem removal_passes_behind_listing :
    ¬ VouchesForCovered plainLibraries "ls; rm -rf x".toList listingAllowed workspace ∧
      (evaluate plainLibraries "rm -rf x".toList listingAllowed workspace).result =
        .confirmation := by
  have hallowed : evaluate plainLibraries "ls; rm -rf x".toList listingAllowed workspace =
      byRule .pass .allowRule "Allowed by rule `" "ls".toList "`." := by
    decide
  have hparse : CommandRule.parse plainLibraries "ls".toList =
      some ⟨.exec, fun value => value == "ls".toList⟩ := rfl
  constructor
  · intro hvouches
    have hpasses :
        PassesBySegment plainLibraries "ls; rm -rf x".toList listingAllowed workspace := by
      rw [PassesBySegment, hallowed]
      refine ⟨rfl, rfl, fun rule hrule => ?_⟩
      obtain rfl := Option.some.inj (hparse.symm.trans hrule)
      rintro ⟨⟩
    have hinside := hvouches.inside hpasses "rm -rf x".toList
      ⟨⟨["rm".toList, "-rf".toList, "x".toList], false⟩, by decide,
        ⟨["rm".toList, "-rf".toList, "x".toList], false⟩, by decide, rfl⟩
    have hnone : (allowedBy plainLibraries "rm -rf x".toList listingAllowed).isSome = false := by
      decide
    rw [hnone] at hinside
    cases hinside
  · decide

end ShellGate
