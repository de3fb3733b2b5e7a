import RefactEngine.CoordinationSettings
import RefactEngine.TextLines

/-! # Repairing a chat history before it is sent to a provider

Four passes over the messages: calls with broken arguments become instructions, unanswered calls
and unasked results are removed, results move behind the message that asked for them, and the
outcome is validated.
-/
namespace HistoryRepair

open CoordinationSettings TextLines

inductive Role where
  | system
  | user
  | assistant
  | tool
  | diff
  | contextFile
  | event
  | plan
  | goal
  | cdInstruction
  | other (name : String)
  deriving DecidableEq

def Role.name : Role → String
  | .system => "system"
  | .user => "user"
  | .assistant => "assistant"
  | .tool => "tool"
  | .diff => "diff"
  | .contextFile => "context_file"
  | .event => "event"
  | .plan => "plan"
  | .goal => "goal"
  | .cdInstruction => "cd_instruction"
  | .other name => name

structure ChatToolCall where
  id : String
  name : String
  arguments : String
  deriving DecidableEq

/-- No pass reads a content; `other` stands for every content that is not plain text. -/
inductive ChatContent where
  | simpleText (text : String)
  | other (body : String)
  deriving DecidableEq

structure ChatMessage where
  role : Role
  content : ChatContent
  finishReason : Option String
  toolCalls : Option (List ChatToolCall)
  toolCallId : String
  deriving DecidableEq

structure SamplingParameters where
  maxNewTokens : ℕ

def ChatMessage.calls (m : ChatMessage) : List ChatToolCall := m.toolCalls.getD []

def ChatMessage.isResult (m : ChatMessage) : Bool :=
  m.role = .tool || m.role = .diff || m.role = .contextFile

def ChatMessage.isReply (m : ChatMessage) : Bool := m.role = .tool || m.role = .diff

def ChatMessage.answers (m : ChatMessage) (id : String) : Bool :=
  m.isResult && m.toolCallId = id && m.toolCallId ≠ ""

/-- Parses the text of a JSON object, or says what is wrong with it. -/
abbrev ParseObject := String → Except String Unit

def trim (text : String) : String := String.ofList (trimBy isWhitespace text.toList)

def ChatToolCall.parseArgs (parse : ParseObject) (call : ChatToolCall) : Except String Unit :=
  if (trim call.arguments).toList.head? = some '\x7b' then parse (trim call.arguments)
  else parse "\x7b\x7d"

def firstNChars (text : String) (n : ℕ) : String :=
  let taken := text.toList.take n
  let shown := if taken.length = n then taken ++ "...".toList else taken
  String.ofList (shown.flatMap fun c => if c = '\n' then "\\n".toList else [c])

def ChatToolCall.incorrectReason (parse : ParseObject) (call : ChatToolCall) : Option String :=
  match parse call.arguments with
  | .ok () => none
  | .error err => some s!"broken {call.name}({firstNChars call.arguments 100}): {err}"

def incorrectReasons (parse : ParseObject) (m : ChatMessage) : List String :=
  m.calls.filterMap (ChatToolCall.incorrectReason parse)

def isBroken (parse : ParseObject) (m : ChatMessage) : Bool := incorrectReasons parse m ≠ []

def tokensMessage (sampling : SamplingParameters) (newMaxNewTokens : ℕ) : String :=
  if sampling.maxNewTokens < newMaxNewTokens then
    "The message was stripped (finish_reason=`length`), the tokens budget was too small for the " ++
      s!"tool calls. Increasing `max_new_tokens` to {newMaxNewTokens}."
  else
    "The message was stripped (finish_reason=`length`), the tokens budget cannot fit those tool " ++
      "calls."

def extraMessage (sampling : SamplingParameters) (newMaxNewTokens : ℕ) (m : ChatMessage) :
    String :=
  if m.calls.any fun call => call.name = "write" then
    s!"{tokensMessage sampling newMaxNewTokens} Try to make changes one by one (ie using `patch()`)."
  else s!"{tokensMessage sampling newMaxNewTokens} Change your strategy."

/-- The last index whose element satisfies the test. -/
def rposition {α : Type*} (p : α → Bool) : List α → Option ℕ
  | [] => none
  | a :: rest =>
    match rposition p rest with
    | some i => some (i + 1)
    | none => if p a then some 0 else none

/-- One message of `replaceBrokenToolCallMessages`; only the last assistant message that was cut
short raises the budget. -/
def replaceBroken (parse : ParseObject) (newMaxNewTokens : ℕ) (isLastAssistant : Bool)
    (sampling : SamplingParameters) (m : ChatMessage) : ChatMessage × SamplingParameters :=
  if isBroken parse m then
    let stripped := isLastAssistant && m.finishReason = some "length"
    let extra := if stripped then extraMessage sampling newMaxNewTokens m else ""
    let reasons := "\n".intercalate (incorrectReasons parse m)
    ({ m with
        role := .cdInstruction
        content := .simpleText s!" Previous tool calls are not valid: {reasons}.\n{extra}"
        toolCalls := none },
      if stripped then ⟨max sampling.maxNewTokens newMaxNewTokens⟩ else sampling)
  else (m, sampling)

def replaceBrokenFrom (parse : ParseObject) (newMaxNewTokens lastAssistant : ℕ) :
    ℕ → SamplingParameters → List ChatMessage → List ChatMessage × SamplingParameters
  | _, sampling, [] => ([], sampling)
  | i, sampling, m :: rest =>
    let (m', sampling') := replaceBroken parse newMaxNewTokens (i = lastAssistant) sampling m
    let (rest', sampling'') :=
      replaceBrokenFrom parse newMaxNewTokens lastAssistant (i + 1) sampling' rest
    (m' :: rest', sampling'')

def replaceBrokenToolCallMessages (parse : ParseObject) (newMaxNewTokens : ℕ)
    (sampling : SamplingParameters) (messages : List ChatMessage) :
    List ChatMessage × SamplingParameters :=
  let lastAssistant := (rposition (fun m => m.role = .assistant) messages).getD 0
  replaceBrokenFrom parse newMaxNewTokens lastAssistant 0 sampling messages

def isAnswered (messages : List ChatMessage) (id : String) : Bool :=
  messages.any fun m => m.answers id

def dropUnanswered (messages : List ChatMessage) : List ChatMessage :=
  messages.filter fun m => m.calls.all fun call => isAnswered messages call.id

def isCalled (messages : List ChatMessage) (id : String) : Bool :=
  messages.any fun m => m.calls.any fun call => call.id = id

def dropUnasked (messages : List ChatMessage) : List ChatMessage :=
  messages.filter fun m =>
    !(m.isResult && m.toolCallId ≠ "" && !isCalled messages m.toolCallId)

def ChatMessage.isRepeatedBy (m later : ChatMessage) : Bool :=
  m.isReply && m.toolCallId ≠ "" && later.isReply && later.toolCallId = m.toolCallId

def keepLastReplies : List ChatMessage → List ChatMessage
  | [] => []
  | m :: rest =>
    if rest.any m.isRepeatedBy then keepLastReplies rest else m :: keepLastReplies rest

def removeInvalidToolCallsAndToolCallsResults (messages : List ChatMessage) :
    List ChatMessage :=
  keepLastReplies (dropUnasked (dropUnanswered messages))

def ChatMessage.declaresCall (m : ChatMessage) (id : String) : Bool :=
  m.role = .assistant && m.calls.any fun call => call.id = id

def ownerFor (messages : List ChatMessage) (idx : ℕ) (id : String) : Option ℕ :=
  match rposition (fun m => m.declaresCall id) (messages.take idx) with
  | some i => some i
  | none =>
    ((messages.drop (idx + 1)).findIdx? fun m => m.declaresCall id).map fun offset =>
      idx + 1 + offset

def owner (messages : List ChatMessage) (entry : ChatMessage × ℕ) : Option ℕ :=
  if entry.1.isResult && entry.1.toolCallId ≠ "" then
    ownerFor messages entry.2 entry.1.toolCallId
  else none

def relocateToolResultsAfterTheirCalls (messages : List ChatMessage) : List ChatMessage :=
  if messages.all fun m => m.calls = [] then messages
  else if messages.zipIdx.all fun entry => (owner messages entry).isNone then messages
  else
    (messages.zipIdx.filter fun entry => (owner messages entry).isNone).flatMap fun entry =>
      entry.1 :: (messages.zipIdx.filter fun result =>
        owner messages result = some entry.2).map Prod.fst

def Role.isAnchor (role : Role) : Bool :=
  role = .system || role = .user || role = .event || role = .plan || role = .goal

def Role.endsTurn (role : Role) : Bool := role = .user || role = .assistant || role = .system

def isAnsweredNext (id : String) : List ChatMessage → Bool
  | [] => false
  | later :: rest =>
    if later.isResult && later.toolCallId = id then true
    else if later.role.endsTurn then false
    else isAnsweredNext id rest

/-- The first call of the messages whose arguments do not parse. -/
def unparseableCall (parse : ParseObject) : ℕ → List ChatMessage → Option String
  | _, [] => none
  | idx, m :: rest =>
    (m.calls.findSome? fun call =>
      match call.parseArgs parse with
      | .ok () => none
      | .error e => some (s!"Message at index {idx} has an unparseable tool call arguments for " ++
          s!"tool '{call.name}': {e} (arguments: {call.arguments})")).or
      (unparseableCall parse (idx + 1) rest)

/-- The first call of an assistant message that is not answered before the next turn. -/
def unrespondedCall : ℕ → List ChatMessage → Option String
  | _, [] => none
  | idx, m :: rest =>
    ((if m.role = .assistant then m.calls else []).findSome? fun call =>
      if isAnsweredNext call.id rest then none
      else some (s!"Assistant message at index {idx} has a tool call id '{call.id}' that is " ++
        "unresponded before the next conversation turn (no contiguous tool message with that id)")).or
      (unrespondedCall (idx + 1) rest)

def validateChatHistory (parse : ParseObject) (messages : List ChatMessage) :
    Except String (List ChatMessage) :=
  match messages with
  | [] => .error "Invalid chat history: no messages present"
  | first :: _ =>
    if !messages.any fun m => m.role.isAnchor then
      .error ("Invalid chat history: must have at least one message of role 'system', 'user', " ++
        "'event', 'plan', or 'goal'")
    else if !first.role.isAnchor then
      .error ("Invalid chat history: first message must be 'system', 'user', 'event', 'plan', " ++
        s!"or 'goal', got '{first.role.name}'")
    else
      match (unparseableCall parse 0 messages).or (unrespondedCall 0 messages) with
      | some error => .error error
      | none => .ok messages

def fixAndLimitMessagesHistory (parse : ParseObject) (messages : List ChatMessage)
    (sampling : SamplingParameters) : Except String (List ChatMessage) × SamplingParameters :=
  let (replaced, sampling') := replaceBrokenToolCallMessages parse 16000 sampling messages
  (validateChatHistory parse
    (relocateToolResultsAfterTheirCalls (removeInvalidToolCallsAndToolCallsResults replaced)),
    sampling')

end HistoryRepair
