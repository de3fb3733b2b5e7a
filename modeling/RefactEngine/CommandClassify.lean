import RefactEngine.ApplyPatch

/-! # The simple commands of a shell command

A command is divided at the top level, and what its segments run inside of them is divided again,
at most four levels deep. Where a scanner fails, the segments found before stay.
-/
namespace CommandClassify

open CoordinationSettings TextLines ApplyPatch

/-- The libraries that the scanners and the rules call: the words of a command and the command of
words, and the test of a glob pattern and of a regular expression, if it is one. -/
structure Libraries where
  split : Text → Option (List Text)
  join : List Text → Text
  glob : Text → Option (Text → Bool)
  regex : Text → Option (Text → Bool)

structure Segment where
  argv : List Text
  pipeFromPrevious : Bool
  deriving DecidableEq

structure CommandSegments where
  segments : List Segment
  parseOk : Bool

inductive Quote where
  | single
  | double
  | backtick
  deriving DecidableEq

structure RawSegment where
  command : Text
  pipeFromPrevious : Bool

def isOneOf (names : List String) (value : Text) : Bool :=
  names.any fun name => name.toList == value

def startsWith (start : String) (value : Text) : Bool := start.toList.isPrefixOf value

variable (value : Text)

def baseName : Text := value.rtakeWhile fun c => c ≠ '/' && c ≠ '\\'

variable (segment : Segment)

def executableBasename : Option Text :=
  (segment.argv.head?.map baseName).filter fun name => name ≠ []

def segmentCommand : Text := [' '].intercalate segment.argv

def shells : List String := ["sh", "bash", "zsh", "dash", "ksh"]

def isShell : Bool := (executableBasename segment).any (isOneOf shells)

def isNameStart (c : Char) : Bool := c = '_' || c.isAlpha

def isAssignment : Bool :=
  decide ('=' ∈ value) &&
    match value.takeWhile (· ≠ '=') with
    | [] => false
    | c :: rest => isNameStart c && rest.all fun c => c = '_' || c.isAlphanum

def stripLeadingAssignments (argv : List Text) : List Text := argv.dropWhile isAssignment

/-- The word or the command starts with an expansion, or the word holds a backtick. -/
def commandWordIsDynamic (value command : Text) : Bool :=
  let trimmed := trim command
  startsWith "$" value || decide ('`' ∈ value) || startsWith "$(" trimmed || startsWith "`" trimmed

def isCommandGroupStart (before : Text) : Bool :=
  if before.head? = some '$' then false
  else match before.find? fun c => !isWhitespace c with
    | none => true
    | some c => c = ';' || c = '&' || c = '|' || c = '(' || c = '{'

def isBraceGroupStart (before rest : Text) : Bool :=
  isCommandGroupStart before && rest.head?.all isWhitespace

def isBraceGroupEnd (before rest : Text) : Bool :=
  (before.find? fun c => !isWhitespace c).any
    (fun c => c = ';' || c = '&' || c = '\n' || c = '{') &&
  rest.head?.all fun c => isWhitespace c || c = ';' || c = '&' || c = '|'

def findBacktickEnd : Bool → Text → Option ℕ
  | _, [] => none
  | true, _ :: rest => (findBacktickEnd false rest).map (· + 1)
  | false, c :: rest =>
    if c = '\\' then (findBacktickEnd true rest).map (· + 1)
    else if c = '`' then some 0
    else (findBacktickEnd false rest).map (· + 1)

def nextQuote (quote : Option Quote) (c : Char) : Option Quote :=
  match quote with
  | some .single => if c = '\'' then none else quote
  | some .double => if c = '"' then none else quote
  | some .backtick => if c = '`' then none else quote
  | none =>
    if c = '\'' then some .single
    else if c = '"' then some .double
    else if c = '`' then some .backtick
    else none

def findClosingParen (quote : Option Quote) (escaped : Bool) (depth : ℕ) : Text → Option ℕ
  | [] => none
  | c :: rest =>
    if escaped then (findClosingParen quote false depth rest).map (· + 1)
    else if c = '\\' ∧ quote ≠ some .single then
      (findClosingParen quote true depth rest).map (· + 1)
    else if quote = none ∧ c = '(' then
      (findClosingParen none false (depth + 1) rest).map (· + 1)
    else if quote = none ∧ c = ')' then
      if depth = 1 then some 0 else (findClosingParen none false (depth - 1) rest).map (· + 1)
    else (findClosingParen (nextQuote quote c) false depth rest).map (· + 1)

def findClosingBrace (quote : Option Quote) (escaped : Bool) (depth : ℕ) (before : Text) :
    Text → Option ℕ
  | [] => none
  | c :: rest =>
    if escaped then (findClosingBrace quote false depth (c :: before) rest).map (· + 1)
    else if c = '\\' ∧ quote ≠ some .single then
      (findClosingBrace quote true depth (c :: before) rest).map (· + 1)
    else if quote = none ∧ c = '{' ∧ isBraceGroupStart before rest = true then
      (findClosingBrace none false (depth + 1) (c :: before) rest).map (· + 1)
    else if quote = none ∧ c = '}' ∧ isBraceGroupEnd before rest = true then
      if depth = 1 then some 0
      else (findClosingBrace none false (depth - 1) (c :: before) rest).map (· + 1)
    else (findClosingBrace (nextQuote quote c) false depth (c :: before) rest).map (· + 1)

def delimiterLen (before : Text) (c : Char) (rest : Text) : ℕ :=
  if c = ';' ∨ c = '\n' then 1
  else if c = '|' then if rest.head? = some '|' then 2 else 1
  else if c = '&' then
    if before.head? = some '>' ∨ before.head? = some '<' ∨ rest.head? = some '>' then 0
    else if rest.head? = some '&' then 2
    else 1
  else 0

def pushRawSegment (output : List RawSegment) (command : Text) (pipeFromPrevious : Bool) :
    List RawSegment :=
  if trim command = [] then output else output ++ [⟨command, pipeFromPrevious⟩]

structure SplitState where
  quote : Option Quote
  escaped : Bool
  parenDepth : ℕ
  braceDepth : ℕ
  incomingPipe : Bool
  text : Text
  segments : List RawSegment

def SplitState.start : SplitState := ⟨none, false, 0, 0, false, [], []⟩

def SplitState.group (s : SplitState) (before : Text) (c : Char) (rest : Text) :
    Option SplitState :=
  if c = '(' then some { s with parenDepth := s.parenDepth + 1 }
  else if c = ')' then
    if s.parenDepth = 0 then none else some { s with parenDepth := s.parenDepth - 1 }
  else if c = '{' ∧ isBraceGroupStart before rest = true then
    some { s with braceDepth := s.braceDepth + 1 }
  else if c = '}' ∧ 0 < s.braceDepth ∧ isBraceGroupEnd before rest = true then
    some { s with braceDepth := s.braceDepth - 1 }
  else some { s with quote := nextQuote none c }

/-- The scan from a character on; `skip` of the next characters belong to a delimiter. -/
def splitFrom (before : Text) (skip : ℕ) (s : SplitState) : Text → Option (List RawSegment)
  | [] =>
    if s.escaped ∨ s.quote.isSome ∨ s.parenDepth ≠ 0 ∨ s.braceDepth ≠ 0 then none
    else some (pushRawSegment s.segments s.text s.incomingPipe)
  | c :: rest =>
    if 0 < skip then splitFrom (c :: before) (skip - 1) s rest
    else if s.escaped then
      splitFrom (c :: before) 0 { s with escaped := false, text := s.text ++ [c] } rest
    else if c = '\\' ∧ s.quote ≠ some .single then
      splitFrom (c :: before) 0 { s with escaped := true, text := s.text ++ [c] } rest
    else if s.quote.isSome then
      splitFrom (c :: before) 0 { s with quote := nextQuote s.quote c, text := s.text ++ [c] } rest
    else match s.group before c rest with
      | none => none
      | some s =>
        let length := delimiterLen before c rest
        if s.parenDepth = 0 ∧ s.braceDepth = 0 ∧ 0 < length then
          splitFrom (c :: before) (length - 1)
            { s with
              incomingPipe := c = '|' && length = 1
              text := []
              segments := pushRawSegment s.segments s.text s.incomingPipe } rest
        else splitFrom (c :: before) 0 { s with text := s.text ++ [c] } rest

def splitTopLevel (command : Text) : Option (List RawSegment) := splitFrom [] 0 .start command

/-- The contents of substitutions and groups, and whether they read the pipe of the segment. -/
def nestedFrom (before : Text) (skip : ℕ) (quote : Option Quote) (escaped : Bool)
    (commands : List (Text × Bool)) : Text → Option (List (Text × Bool))
  | [] => some commands
  | c :: rest =>
    if 0 < skip then nestedFrom (c :: before) (skip - 1) quote escaped commands rest
    else if escaped then nestedFrom (c :: before) 0 quote false commands rest
    else if c = '\\' ∧ quote ≠ some .single then
      nestedFrom (c :: before) 0 quote true commands rest
    else if quote = some .single then
      nestedFrom (c :: before) 0 (if c = '\'' then none else quote) false commands rest
    else if c = '\'' ∧ quote = none then
      nestedFrom (c :: before) 0 (some .single) false commands rest
    else if c = '"' then
      nestedFrom (c :: before) 0 (if quote = some .double then none else some .double) false
        commands rest
    else if c = '`' then
      match findBacktickEnd false rest with
      | none => none
      | some n =>
        nestedFrom (c :: before) (n + 1) quote false (commands ++ [(rest.take n, false)]) rest
    else if c = '$' ∧ rest.head? = some '(' then
      match findClosingParen none false 1 rest.tail with
      | none => none
      | some n =>
        nestedFrom (c :: before) (n + 2) quote false (commands ++ [(rest.tail.take n, false)]) rest
    else if c = '(' ∧ isCommandGroupStart before = true then
      match findClosingParen none false 1 rest with
      | none => none
      | some n =>
        nestedFrom (c :: before) (n + 1) quote false (commands ++ [(rest.take n, true)]) rest
    else if c = '{' ∧ isBraceGroupStart before rest = true then
      match findClosingBrace none false 1 (c :: before) rest with
      | none => none
      | some n =>
        nestedFrom (c :: before) (n + 1) quote false (commands ++ [(rest.take n, true)]) rest
    else nestedFrom (c :: before) 0 quote false commands rest

def nestedCommands (command : Text) : Option (List (Text × Bool)) :=
  nestedFrom [] 0 none false [] command

inductive OptionKind where
  | flag
  | takesValue
  | refused
  | command
  deriving DecidableEq

def walkOptions (kind : Text → OptionKind) : List Text → Option (List Text)
  | [] => some []
  | value :: rest =>
    if value = "--".toList then some rest
    else match kind value with
      | .flag => walkOptions kind rest
      | .takesValue =>
        match rest with
        | [] => none
        | _ :: rest => walkOptions kind rest
      | .refused => none
      | .command => some (value :: rest)

def optionKind (values flags starts : List String) (value : Text) : OptionKind :=
  if isOneOf values value then .takesValue
  else if isOneOf flags value || starts.any (startsWith · value) then .flag
  else if startsWith "-" value then .refused
  else .command

def unwrapCommand : List Text → Option (List Text)
  | [] => some []
  | value :: rest =>
    if value = "--".toList then some rest
    else if value = "-p".toList then unwrapCommand rest
    else if isOneOf ["-v", "-V"] value then some []
    else if startsWith "-" value then none
    else some (value :: rest)

def unwrapSimple : List Text → Option (List Text) := walkOptions (optionKind [] [] [])

def unwrapExec : List Text → Option (List Text) := walkOptions (optionKind ["-a"] ["-c", "-l"] [])

variable (lib : Libraries)

def splitString (value : Text) (rest : List Text) : Option (List Text) :=
  (lib.split value).map fun words => words ++ rest

def unwrapEnv (lib : Libraries) : List Text → Option (List Text)
  | [] => some []
  | value :: rest =>
    if value = "--".toList then some (stripLeadingAssignments rest)
    else if isOneOf ["-i", "--ignore-environment", "-0", "--null", "-v", "--debug"] value then
      unwrapEnv lib rest
    else if isOneOf ["-u", "--unset", "-C", "--chdir"] value then
      match rest with
      | [] => none
      | _ :: rest => unwrapEnv lib rest
    else if isOneOf ["-S", "--split-string"] value then
      match rest with
      | [] => none
      | text :: rest => splitString lib text rest
    else if startsWith "--unset=" value || startsWith "--chdir=" value || isAssignment value then
      unwrapEnv lib rest
    else if startsWith "--split-string=" value then
      splitString lib (value.drop "--split-string=".length) rest
    else if startsWith "-" value then none
    else some (stripLeadingAssignments (value :: rest))

def isI32 (text : Text) : Bool :=
  let digits := match text with
    | '+' :: rest | '-' :: rest => rest
    | _ => text
  let bound := if text.head? = some '-' then 2 ^ 31 else 2 ^ 31 - 1
  digits ≠ [] && digits.all Char.isDigit && decide (Nat.ofDigitChars 10 digits 0 ≤ bound)

def niceOption : OptionKind :=
  if isOneOf ["-n", "--adjustment"] value then .takesValue
  else if startsWith "--adjustment=" value || (startsWith "-" value && isI32 value.tail) then .flag
  else if startsWith "-" value then .refused
  else .command

def unwrapNice : List Text → Option (List Text) := walkOptions niceOption

def unwrapIonice : List Text → Option (List Text) :=
  walkOptions (optionKind ["-c", "--class", "-n", "--classdata", "-p", "--pid", "-P", "--pgid",
    "-u", "--uid"] ["-t", "--ignore"]
    ["--class=", "--classdata=", "--pid=", "--pgid=", "--uid="])

def unwrapTime : List Text → Option (List Text) :=
  walkOptions (optionKind ["-o", "--output", "-f", "--format"]
    ["-a", "--append", "-p", "--portability", "-v", "--verbose"] ["--output=", "--format="])

def unwrapTimeout (args : List Text) : Option (List Text) :=
  (walkOptions (optionKind ["-s", "--signal", "-k", "--kill-after"]
    ["--foreground", "--preserve-status", "-v", "--verbose"]
    ["--signal=", "--kill-after="]) args).map List.tail

def unwrapStdbuf : List Text → Option (List Text) :=
  walkOptions (optionKind ["-i", "--input", "-o", "--output", "-e", "--error"] []
    ["--input=", "--output=", "--error="])

def unwrapSetsid : List Text → Option (List Text) :=
  walkOptions (optionKind [] ["-f", "--fork", "-c", "--ctty", "-w", "--wait"] [])

def unwrapXargs : List Text → Option (List Text) :=
  walkOptions (optionKind ["-a", "--arg-file", "-d", "--delimiter", "-E", "--eof", "-I",
    "--replace", "-L", "--max-lines", "-n", "--max-args", "-P", "--max-procs", "-s", "--max-chars"]
    ["-0", "--null", "-r", "--no-run-if-empty", "-t", "--verbose", "-x", "--exit"]
    ["--arg-file=", "--delimiter=", "--eof=", "--replace=", "--max-lines=", "--max-args=",
      "--max-procs=", "--max-chars="])

def sudoOption : OptionKind :=
  if isAssignment value then .flag
  else optionKind ["-u", "--user", "-g", "--group", "-h", "--host", "-p", "--prompt", "-C",
    "--close-from", "-D", "--chdir", "-R", "--chroot", "-T", "--command-timeout", "-r", "--role",
    "-t", "--type"]
    ["-A", "--askpass", "-b", "--background", "-E", "--preserve-env", "-H", "--set-home", "-i",
      "--login", "-n", "--non-interactive", "-P", "--preserve-groups", "-S", "--stdin"]
    ["--user=", "--group=", "--host=", "--prompt=", "--close-from=", "--chdir=", "--chroot=",
      "--command-timeout=", "--role=", "--type=", "--preserve-env="] value

def unwrapSudo : List Text → Option (List Text) := walkOptions sudoOption

def unwrapDoas : List Text → Option (List Text) :=
  walkOptions (optionKind ["-a", "-C", "-u"] ["-n", "-s"] [])

/-- The commands between an action and its end; `current` is the one that is open. -/
def findExecFrom (current : Option (List Text)) (commands : List (List Text)) :
    List Text → Option (List (List Text))
  | [] => if current.isSome then none else some commands
  | value :: rest =>
    match current with
    | none =>
      findExecFrom (if isOneOf ["-exec", "-execdir"] value then some [] else none) commands rest
    | some words =>
      if isOneOf [";", "+"] value then
        if words = [] then none else findExecFrom none (commands ++ [words]) rest
      else findExecFrom (some (words ++ [value])) commands rest

def forwardedCommands : List Text → Option (List (List Text))
  | [] => some []
  | word :: args =>
    let one := fun forwarded : Option (List Text) =>
      forwarded.map fun words => if words = [] then [] else [words]
    let name := baseName word
    if isOneOf ["command"] name then one (unwrapCommand args)
    else if isOneOf ["builtin", "nohup"] name then one (unwrapSimple args)
    else if isOneOf ["exec"] name then one (unwrapExec args)
    else if isOneOf ["env"] name then one (unwrapEnv lib args)
    else if isOneOf ["nice"] name then one (unwrapNice args)
    else if isOneOf ["ionice"] name then one (unwrapIonice args)
    else if isOneOf ["time"] name then one (unwrapTime args)
    else if isOneOf ["timeout"] name then one (unwrapTimeout args)
    else if isOneOf ["stdbuf"] name then one (unwrapStdbuf args)
    else if isOneOf ["setsid"] name then one (unwrapSetsid args)
    else if isOneOf ["xargs"] name then one (unwrapXargs args)
    else if isOneOf ["sudo"] name then one (unwrapSudo args)
    else if isOneOf ["doas"] name then one (unwrapDoas args)
    else if isOneOf ["find"] name then findExecFrom none [] args
    else some []

def allOptions (letters : String) (options : Text) : Bool :=
  options.all fun c => decide (c ∈ letters.toList)

def shellPlusOptionConsumesOperand : Bool :=
  startsWith "+" value && value.tail ≠ [] && decide ('o' ∈ value.tail ∨ 'O' ∈ value.tail) &&
    allOptions "abcCDefhiklmnopqrstuvxBEHOPT" value.tail

def shellOptionRunsCommand : Bool :=
  startsWith "-" value && value.tail ≠ [] && !startsWith "-" value.tail &&
    decide ('c' ∈ value.tail) && allOptions "abcCDefhiklmnopqrstuvxBEHPT" value.tail

def shellOptionConsumesOperand : Bool :=
  isOneOf ["-o", "+o", "-O", "+O", "--rcfile", "--init-file"] value ||
    shellPlusOptionConsumesOperand value ||
    (startsWith "-" value && !startsWith "--" value && decide ('o' ∈ value.tail))

def shellInnerFrom : List Text → Option (Option Text)
  | [] => some none
  | value :: rest =>
    if isOneOf ["--", "-"] value ||
        (!startsWith "-" value && !shellPlusOptionConsumesOperand value) then some none
    else if shellOptionConsumesOperand value then
      match rest with
      | [] => none
      | _ :: rest =>
        if shellOptionRunsCommand value then rest.head?.map some else shellInnerFrom rest
    else if shellOptionRunsCommand value then rest.head?.map some
    else shellInnerFrom rest

def shellInnerCommand : List Text → Option (Option Text)
  | [] => some none
  | word :: args => if isOneOf shells (baseName word) then shellInnerFrom args else some none

def hereStringFrom : List Text → Option (Option Text)
  | [] => some none
  | value :: rest =>
    if value = "<<<".toList then rest.head?.map some
    else if startsWith "<<<" value then some (some (value.drop 3))
    else hereStringFrom rest

def shellHereString (argv : List Text) : Option (Option Text) :=
  if argv.head?.any fun word => isOneOf shells (baseName word) then hereStringFrom argv
  else some none

def evalInnerCommand : List Text → Option (Option Text)
  | [] => some none
  | word :: args =>
    if baseName word ≠ "eval".toList ∨ args = [] then some none
    else
      let inner := [' '].intercalate args
      if '$' ∈ inner ∨ '`' ∈ inner then none else some (some inner)

def readDelimiter (text : Text) : Option (Text × Bool) :=
  let text := if text.head? = some '-' then text.tail else text
  match text.dropWhile isWhitespace with
  | [] => none
  | c :: rest =>
    if c = '\'' ∨ c = '"' then
      let delimiter := rest.takeWhile (· ≠ c)
      if delimiter = [] ∨ delimiter.length = rest.length then none else some (delimiter, true)
    else
      let delimiter := (c :: rest).takeWhile fun c =>
        !isWhitespace c && c ≠ ';' && c ≠ '|' && c ≠ '&'
      if delimiter = [] then none else some (delimiter, false)

def hereDocDelimiter (previous : Option Char) : Text → Option (Option (Text × Bool))
  | [] => some none
  | c :: rest =>
    if c = '<' ∧ rest.head? = some '<' ∧ rest.tail.head? ≠ some '<' ∧ previous ≠ some '<' then
      (readDelimiter rest.tail).map some
    else hereDocDelimiter (some c) rest

structure HereDocs where
  outer : List Text
  bodies : List Text

/-- A here-document whose delimiter is not reached. -/
structure OpenHereDoc where
  delimiter : Text
  shellReceivesBody : Bool
  body : List Text

def OpenHereDoc.close (doc : OpenHereDoc) (docs : HereDocs) : HereDocs :=
  if doc.shellReceivesBody then { docs with bodies := docs.bodies ++ [['\n'].intercalate doc.body] }
  else docs

def hereDocsFrom (lib : Libraries) (opened : Option OpenHereDoc) (docs : HereDocs) :
    List Text → Option HereDocs
  | [] => if opened.isSome then none else some docs
  | line :: rest =>
    match opened with
    | some doc =>
      if trim line = doc.delimiter then hereDocsFrom lib none (doc.close docs) rest
      else hereDocsFrom lib (some { doc with body := doc.body ++ [line] }) docs rest
    | none =>
      match hereDocDelimiter none line with
      | none => none
      | some none => hereDocsFrom lib none { docs with outer := docs.outer ++ [line] } rest
      | some (some (delimiter, literal)) =>
        if literal = false then none
        else match lib.split line with
          | none => none
          | some argv =>
            let receives := (stripLeadingAssignments argv).head?.any fun word =>
              isOneOf shells (baseName word)
            hereDocsFrom lib (some ⟨delimiter, receives, []⟩)
              { docs with outer := docs.outer ++ [line] } rest

def extractHereDocs (command : Text) : Option (Text × List Text) :=
  (hereDocsFrom lib none ⟨[], []⟩ (lines command)).map fun docs =>
    (['\n'].intercalate docs.outer, docs.bodies)

/-- The segments so far, the commands to divide next, and whether a command word was dynamic. -/
structure Extraction where
  output : List Segment
  nested : List (Text × Bool)
  ambiguous : Bool

abbrev ExtractM := Except (List Segment)

def orFail {α : Type} (output : List Segment) : Option α → ExtractM α
  | none => .error output
  | some a => .ok a

def innerCommands (argv : List Text) (pipe : Bool) :
    Option (List (Text × Bool)) := do
  let shell ← shellInnerCommand argv
  let here ← shellHereString argv
  let eval ← evalInnerCommand argv
  let forwarded ← forwardedCommands lib argv
  return (shell.toList ++ here.toList ++ eval.toList).map (·, false) ++
    forwarded.map fun words => (lib.join words, pipe)

def extractRaw (s : Extraction) (command : Text) (pipe : Bool) :
    ExtractM Extraction := do
  let inner ← orFail s.output (nestedCommands command)
  let nested := s.nested ++ inner.map fun entry => (entry.1, entry.2 && pipe)
  let words ← orFail s.output (lib.split (trim command))
  match stripLeadingAssignments words with
  | [] => .ok { s with nested := nested }
  | word :: args =>
    if commandWordIsDynamic word command then .ok ⟨s.output, nested, true⟩
    else
      let output := s.output ++ [⟨word :: args, pipe⟩]
      let inner ← orFail output (innerCommands lib (word :: args) pipe)
      .ok ⟨output, nested ++ inner, s.ambiguous⟩

def extractRaws (lib : Libraries) :
    Bool → Extraction → List RawSegment → ExtractM Extraction
  | _, s, [] => .ok s
  | incomingPipe, s, raw :: rest => do
    let s ← extractRaw lib s raw.command (raw.pipeFromPrevious || incomingPipe)
    extractRaws lib false s rest

/-- The segments before a failure or before the nested commands, and these if nothing failed. -/
def extractLevel (output : List Segment) (command : Text) (incomingPipe : Bool) :
    ExtractM Extraction :=
  if "<(".toList <:+: command ∨ ">(".toList <:+: command then .error output
  else do
    let (outerCommand, hereDocBodies) ← orFail output (extractHereDocs lib command)
    let rawSegments ← orFail output (splitTopLevel outerCommand)
    let s ← extractRaws lib incomingPipe ⟨output, [], false⟩ rawSegments
    .ok { s with nested := s.nested ++ hereDocBodies.map (·, false) }

def maxRecursionDepth : ℕ := 4

def extractRecursive (lib : Libraries) : ℕ → List Segment → Text × Bool → List Segment × Bool
  | 0, output, _ => (output, false)
  | levels + 1, output, (command, incomingPipe) =>
    match extractLevel lib output command incomingPipe with
    | .error output => (output, false)
    | .ok s =>
      let (output, ok) := s.nested.foldl (fun (state : List Segment × Bool) inner =>
        if state.2 then extractRecursive lib levels state.1 inner else state) (s.output, true)
      (output, ok && !s.ambiguous)

def isWindowsExecutable (executable : Text) : Bool :=
  isOneOf ["cmd", "cmd.exe", "powershell", "powershell.exe", "pwsh", "pwsh.exe"]
    (executable.map Char.toLower)

def hasDrive : Text → Bool
  | c :: ':' :: _ => c.isAlpha
  | _ => false

def isWindowsCommand (command : Text) : Bool :=
  let trimmed := command.dropWhile isWhitespace
  let word := trimmed.takeWhile fun c => !isWhitespace c
  isWindowsExecutable (baseName (trimBy (fun c => c = '\'' || c = '"') word)) ||
    hasDrive trimmed || decide ("$env:".toList <:+: trimmed ∨ "$Env:".toList <:+: trimmed)

def extractCommandSegments (command : Text) : CommandSegments :=
  if isWindowsCommand command then ⟨[], false⟩
  else
    let (segments, ok) := extractRecursive lib (maxRecursionDepth + 1) [] (command, false)
    ⟨segments, ok && !segments.any fun segment =>
      (executableBasename segment).any isWindowsExecutable⟩

inductive StructuralFlag where
  | unclassifiable
  | pipeToShell
  deriving DecidableEq

def structuralFlags (segments : CommandSegments) : List StructuralFlag :=
  if segments.parseOk = false then [.unclassifiable]
  else if segments.segments.any fun segment => segment.pipeFromPrevious && isShell segment then
    [.pipeToShell]
  else []

end CommandClassify
