import RefactEngine.CommandClassify

/-! # Rules and risks of commands

A rule tests the executable or the words of some segment, or the whole text. The risk of a command
is the highest level of a catalogue entry that one of its segments meets.
-/
namespace CommandRules

open ApplyPatch CommandClassify List

inductive RuleKind where
  | exec
  | argv
  | regex
  | raw

/-- The test is of a regular expression for the kind that has one, and of a glob otherwise. -/
structure CommandRule where
  kind : RuleKind
  test : Text → Bool

def isAsciiWhitespace (c : Char) : Bool :=
  c = ' ' || c = '\t' || c = '\n' || c = '\r' || c = '\x0C'

def ruleKind (rule : Text) : RuleKind × Text :=
  if startsWith "exec:" rule then (.exec, rule.drop 5)
  else if startsWith "argv:" rule then (.argv, rule.drop 5)
  else if startsWith "re:" rule then (.regex, rule.drop 3)
  else if startsWith "raw:" rule then (.raw, rule.drop 4)
  else if rule.any isAsciiWhitespace then (.argv, rule)
  else (.exec, rule)

variable (lib : Libraries)

def CommandRule.parse (rule : Text) : Option CommandRule :=
  let (kind, pattern) := ruleKind rule
  match kind with
  | .regex => (lib.regex pattern).map fun test => ⟨kind, test⟩
  | .exec | .argv | .raw => (lib.glob pattern).map fun test => ⟨kind, test⟩

def CommandRule.accepts (rule : CommandRule) (command : Text) (segments : CommandSegments) :
    Bool :=
  match rule.kind with
  | .exec => segments.segments.any fun segment => (executableBasename segment).any rule.test
  | .argv | .regex => segments.segments.any fun segment => rule.test (segmentCommand segment)
  | .raw => rule.test command

def ruleMatches (command : Text) (segments : CommandSegments) (source : Text) :
    Bool :=
  (CommandRule.parse lib source).any fun rule => rule.accepts command segments

def firstMatchingRule (command : Text) (segments : CommandSegments)
    (rules : List Text) : Option Text :=
  rules.find? (ruleMatches lib command segments)

inductive RiskLevel where
  | low
  | medium
  | high
  | critical
  deriving DecidableEq

def RiskLevel.rank : RiskLevel → ℕ
  | .low => 0
  | .medium => 1
  | .high => 2
  | .critical => 3

structure RiskEntry where
  id : Text
  exec : Text
  requiresFlags : List Text
  requiresArgGlobs : List Text
  level : RiskLevel
  reason : Text
  escalateOutsideWorkspace : Bool
  requiresRedirect : Bool

structure RiskFinding where
  entryId : Text
  level : RiskLevel
  reason : Text
  segment : Text

def shortFlag (name : Text) : Option Text :=
  if isOneOf ["recursive", "remove"] name then some "-r".toList
  else if isOneOf ["force"] name then some "-f".toList
  else if isOneOf ["all"] name then some "-a".toList
  else if isOneOf ["directory", "delete"] name then some "-d".toList
  else if isOneOf ["hard"] name then some "--hard".toList
  else none

def flagsOf (arg : Text) : List Text :=
  if startsWith "--" arg then [(shortFlag ((arg.drop 2).takeWhile (· ≠ '='))).getD arg]
  else if startsWith "-" arg then
    if 2 < (arg.map Char.utf8Size).sum then arg.tail.map fun flag => ['-', flag] else [arg]
  else []

def normalizedFlags (argv : List Text) : List Text :=
  (argv.tail.takeWhile (· ≠ "--".toList)).flatMap flagsOf

def lexicalParts (rest : Text) : List Text :=
  (rest.splitOn '/').foldl (fun parts part =>
    if part = [] ∨ part = ['.'] then parts
    else if part = ['.', '.'] then parts.dropLast
    else parts ++ [part]) []

def lexicalNormalize (path : Text) : Text :=
  let path := path.map fun c => if c = '\\' then '/' else c
  let (start, rest) : Text × Text :=
    if startsWith "//" path then ("//".toList, path)
    else match path with
      | c :: ':' :: rest => if c.toNat < 128 then ([c.toLower, ':'], rest) else (['/'], path)
      | _ => (['/'], path)
  let parts := lexicalParts (rest.dropWhile (· = '/'))
  if parts = [] then start
  else if start.getLast? = some '/' then start ++ ['/'].intercalate parts
  else start ++ '/' :: ['/'].intercalate parts

def isOutsideWorkspace (arg : Text) (roots : List Text) : Bool :=
  if startsWith "~" arg || isOneOf [".."] arg || startsWith "../" arg then true
  else if !startsWith "/" arg && !(hasDrive arg || startsWith "\\\\" arg) then false
  else
    let path := lexicalNormalize arg
    !roots.any fun root =>
      let root := lexicalNormalize root
      path = root || (root.isPrefixOf path &&
        (root.getLast? = some '/' || (path.drop root.length).head? = some '/'))

def escalate : RiskLevel → RiskLevel
  | .low => .medium
  | .medium => .high
  | .high | .critical => .critical

def meets (entry : RiskEntry) (exec : Text → Bool) (args : List (Text → Bool))
    (segment : Segment) : Bool :=
  (executableBasename segment).any exec &&
    entry.requiresFlags.all (fun flag => decide (flag ∈ normalizedFlags segment.argv)) &&
    (!entry.requiresRedirect || segment.argv.any (isOneOf [">", ">>"])) &&
    args.all fun test => segment.argv.tail.any test

def findingOf (entry : RiskEntry) (roots : List Text) (segment : Segment) : RiskFinding :=
  let outside := segment.argv.tail.any fun arg => isOutsideWorkspace arg roots
  ⟨entry.id,
    if entry.escalateOutsideWorkspace && outside then escalate entry.level else entry.level,
    entry.reason, segmentCommand segment⟩

def entryFindings (roots : List Text) (segments : CommandSegments)
    (entry : RiskEntry) : List RiskFinding :=
  match lib.glob entry.exec, entry.requiresArgGlobs.mapM lib.glob with
  | some exec, some args =>
    (segments.segments.filter (meets entry exec args)).map (findingOf entry roots)
  | _, _ => []

/-- The finding that is held and the next one: the higher, the earlier of equal ones. -/
def higher (best : Option RiskFinding) (finding : RiskFinding) : Option RiskFinding :=
  match best with
  | none => some finding
  | some held => if held.level.rank < finding.level.rank then some finding else some held

def classifyCommand (segments : CommandSegments) (catalogue : List RiskEntry)
    (roots : List Text) : Option RiskFinding :=
  (catalogue.flatMap (entryFindings lib roots segments)).foldl higher none

variable {lib : Libraries}

def CommandRule.covers (rule : CommandRule) (argv : List Text) : Bool :=
  match rule.kind with
  | .exec => (executableBasename ⟨argv, false⟩).any rule.test
  | .argv | .regex => rule.test (segmentCommand ⟨argv, false⟩)
  | .raw => false

variable {segments : CommandSegments} {command : Text}

theorem accepts_iff_covers {rule : CommandRule} (hkind : rule.kind ≠ .raw) :
    rule.accepts command segments = true ↔
      ∃ segment ∈ segments.segments, rule.covers segment.argv = true := by
  obtain ⟨kind, test⟩ := rule
  cases kind with
  | raw => exact absurd rfl hkind
  | exec => exact any_eq_true
  | argv => exact any_eq_true
  | regex => exact any_eq_true

theorem accepts_of_covers {rule : CommandRule} {segment : Segment}
    (hsegment : segment ∈ segments.segments) (hcovers : rule.covers segment.argv = true) :
    rule.accepts command segments = true := by
  have hkind : rule.kind ≠ .raw := by
    intro hraw
    rw [CommandRule.covers, hraw] at hcovers
    cases hcovers
  exact (accepts_iff_covers hkind).mpr ⟨segment, hsegment, hcovers⟩

theorem ruleMatches_iff {source : Text} : ruleMatches lib command segments source = true ↔
      ∃ rule, CommandRule.parse lib source = some rule ∧ rule.accepts command segments = true := by
  rw [ruleMatches, Option.any_eq_true]

end CommandRules
