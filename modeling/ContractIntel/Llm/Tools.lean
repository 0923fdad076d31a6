import ContractIntel.Lib.Dict
import ContractIntel.Llm.Client

/-!
# The tool loop (`app/llm/client.py`)

`complete_with_tools`. A model call and the run of a handler are one operation each: what the model
replies, and what a handler returns or raises, is the world's answer. The `json` module is a
parameter, so that every statement holds for whatever texts it accepts. Log lines are left out, but
not the rendering of the arguments that the line before a handler needs.
-/

namespace ContractIntel.Llm

/-- What the loop raises or lets through. -/
inductive ToolExn where
  /-- An exception of the client, or one of the SDK. -/
  | client (e : Exn)
  /-- `LlmError` itself, or a subclass without a constructor of its own. -/
  | llmError (message : Str)
  | jsonDecodeError (message : Str)
  /-- Any other `Exception`. -/
  | exception (message : Str)
  /-- What `except Exception` does not catch, a cancellation among it. -/
  | baseException (message : Str)

namespace ToolExn

/-- `LlmOutputError(message)`. -/
def outputError (message : Str) : ToolExn := .client (.llmOutputError message none)

/-- `isinstance(exc, LlmError)`. -/
def isLlmError : ToolExn → Bool
  | .client (.llmCallError ..) | .client (.llmOutputError ..) | .llmError _ => true
  | _ => false

/-- `isinstance(exc, Exception)`. -/
def isException : ToolExn → Bool
  | .baseException _ => false
  | _ => true

/-- `str(exc)`. -/
def str : ToolExn → Str
  | .client e => e.str
  | .llmError message | .jsonDecodeError message | .exception message | .baseException message =>
    message

end ToolExn

/-- Python's `json` module over the Python values `V`. -/
class JsonModule (V : Type) where
  loads : Str → Except ToolExn V
  dumps : V → Except ToolExn Str

/-- One callable tool the model may invoke; its handler is what `ToolOp.handle` runs. -/
structure LlmTool (V : Type) where
  name : Str
  description : Str
  /-- JSON Schema for the arguments object. -/
  parameters : V

/-- A requested call. The name and the arguments are read for a call of type `function` only. -/
structure ToolCall where
  id : Str
  type : Str
  name : Str
  arguments : Str
  deriving DecidableEq

/-- The message of a choice. Without requested calls the list is empty or missing, alike. -/
structure ReplyMessage (V : Type) where
  content : Option Str
  toolCalls : List ToolCall
  /-- The other fields, which the client only hands back. -/
  rest : V

/-- The tokens a reply reports. -/
structure TokenUsage where
  promptTokens : Nat
  completionTokens : Nat
  deriving DecidableEq

/-- The response to a model call. -/
structure ToolReply (V : Type) where
  usage : Option TokenUsage
  choices : List (ReplyMessage V)
  /-- Milliseconds since the loop started. -/
  latencyMs : Nat

/-- A message of a request. -/
inductive Message (V : Type) where
  | system (content : Str)
  | user (content : Str)
  /-- `message.model_dump()`. -/
  | assistant (message : ReplyMessage V)
  | tool (toolCallId content : Str)

/-- A tool as the request declares it. -/
structure WireTool (V : Type) where
  type : Str
  name : Str
  description : Str
  parameters : V

structure LlmResult where
  text : Str
  model : Str
  promptTokens : Nat
  completionTokens : Nat
  costUsd : Rat
  latencyMs : Nat
  deriving DecidableEq

/-- The operations of the loop. -/
inductive ToolOp (V : Type) where
  | create (model : Str) (messages : List (Message V)) (tools : List (WireTool V))
  | handle (tool : LlmTool V) (arguments : V)

abbrev ToolOp.Res {V : Type} : ToolOp V → Type
  | .create .. => ToolReply V
  | .handle .. => V

/-- A program over the operations of the loop. -/
abbrev ToolLoop (V : Type) := Lib.Prog (ToolOp V) ToolOp.Res ToolExn

/-- The world's answer to an operation: how a model call ends, or a handler. -/
structure ToolAnswer (V : Type) where
  reply : Except ToolExn (ToolReply V)
  outcome : Except ToolExn V

/-- The loop keeps no state beside its own messages and counts. -/
def toolExec {V : Type} : Lib.Exec (ToolOp V) ToolOp.Res ToolExn (ToolAnswer V) Unit Unit
  | .create .., a, l, s => (a.reply, l, s)
  | .handle .., a, l, s => (a.outcome, l, s)

variable {V : Type}

def wireTools (tools : List (LlmTool V)) : List (WireTool V) :=
  tools.map fun tool => ⟨"function".toList, tool.name, tool.description, tool.parameters⟩

def TOOL_ARGS_LOG_LIMIT : Nat := 200

/-- `_redact`. -/
def redact [JsonModule V] (arguments : V) : Except ToolExn Str := do
  let rendered ← JsonModule.dumps arguments
  if rendered.length > TOOL_ARGS_LOG_LIMIT then
    return rendered.take TOOL_ARGS_LOG_LIMIT ++ "…".toList
  return rendered

/-- `json.loads(arguments or "{}")`. -/
def loadArguments [JsonModule V] (arguments : Str) : Except ToolExn V :=
  JsonModule.loads (if arguments.isEmpty then "{}".toList else arguments)

/-- `except json.JSONDecodeError`. -/
def argumentsError (model : Str) : ToolExn → ToolExn
  | .jsonDecodeError _ =>
    .outputError ("model tool arguments failed to parse model=".toList ++ model)
  | e => e

/-- The two `except` clauses around a handler. -/
def handlerError (tool : LlmTool V) (e : ToolExn) : ToolExn :=
  if e.isLlmError then e
  else if e.isException then
    .llmError ("tool handler failed tool=".toList ++ tool.name ++ ": ".toList ++ e.str)
  else e

/-- `except OpenAIError` around a model call. -/
def createError (model : Str) : ToolExn → ToolExn
  | .client (.openAiError cause) => .client (.llmCallError model cause)
  | e => e

/-- The body of `for call in tool_calls`, up to the message it appends. -/
def answerCall [JsonModule V] (llm : OpenAiClient) (byName : List (Str × LlmTool V))
    (call : ToolCall) : ToolLoop V (Message V) :=
  if call.type ≠ "function".toList then
    throw (.outputError ("model requested unsupported tool call type ".toList ++ call.type))
  else
    match Lib.Dict.get? byName call.name with
    | none => throw (.outputError ("model requested unregistered tool ".toList ++ call.name))
    | some tool => do
      let arguments ← Lib.Prog.ofResult ((loadArguments call.arguments).mapError
        (argumentsError llm.model))
      let _ ← Lib.Prog.ofResult (redact arguments)
      let result : V ← (Lib.Prog.call (ToolOp.handle tool arguments)).tryCatch fun e =>
        throw (handlerError tool e)
      let content ← Lib.Prog.ofResult (JsonModule.dumps result)
      return .tool call.id content

/-- `for call in tool_calls`. -/
def answerCalls [JsonModule V] (llm : OpenAiClient) (byName : List (Str × LlmTool V)) :
    List ToolCall → List (Message V) → ToolLoop V (List (Message V))
  | [], messages => return messages
  | call :: calls, messages => do
    let message ← answerCall llm byName call
    answerCalls llm byName calls (messages ++ [message])

/-- The result that is returned for a message without requested calls. -/
def finalAnswer (model : Str) (content : Option Str) (promptTokens completionTokens latencyMs : Nat) :
    Except Exn LlmResult := do
  let usage ← usageRecord model (some promptTokens) (some completionTokens) latencyMs
  return ⟨content.getD [], usage.model, usage.promptTokens, usage.completionTokens, usage.costUsd,
    usage.latencyMs⟩

/-- `for _ in range(max_rounds)`, with the rounds still to go. -/
def toolRounds [JsonModule V] (llm : OpenAiClient) (tools : List (LlmTool V)) (maxRounds : Int) :
    Nat → List (Message V) → (promptTokens completionTokens : Nat) → ToolLoop V LlmResult
  | 0, _, _, _ =>
    throw (.outputError ("model exceeded ".toList ++ (toString maxRounds).toList ++
      " tool rounds without a final answer".toList))
  | rounds + 1, messages, promptTokens, completionTokens => do
    let response ← (Lib.Prog.call (ToolOp.create llm.model messages (wireTools tools))).tryCatch fun e =>
      throw (createError llm.model e)
    match response.choices with
    | [] => throw (.outputError ("model returned no choices model=".toList ++ llm.model))
    | message :: _ =>
      let promptTokens := promptTokens + (response.usage.map TokenUsage.promptTokens).getD 0
      let completionTokens :=
        completionTokens + (response.usage.map TokenUsage.completionTokens).getD 0
      if message.toolCalls.isEmpty then
        Lib.Prog.ofResult ((finalAnswer llm.model message.content promptTokens completionTokens
          response.latencyMs).mapError .client)
      else
        let messages ← answerCalls llm
          (Lib.Dict.ofPairs (tools.map fun tool => (tool.name, tool))) message.toolCalls
          (messages ++ [.assistant message])
        toolRounds llm tools maxRounds rounds messages promptTokens completionTokens

def completeWithTools [JsonModule V] (llm : OpenAiClient) (system user : Str)
    (tools : List (LlmTool V)) (maxRounds : Int) : ToolLoop V LlmResult :=
  toolRounds llm tools maxRounds maxRounds.toNat [.system system, .user user] 0 0

end ContractIntel.Llm
