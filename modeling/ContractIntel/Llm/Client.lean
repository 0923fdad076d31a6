import ContractIntel.Llm.Cost
import ContractIntel.Store.Ops

/-!
# The model client (`app/llm/client.py`)

`complete_structured` and `embed`. The call itself is one operation; what the client does with the
response is here: the errors of the SDK become `LlmError`s, the cost is looked up (and the lookup
raises `KeyError` for a model without a price, `TypeError` for usage without numbers), the first
choice is taken (and indexing raises `IndexError` when there is none), and a choice without parsed
content is a refusal that carries its usage. Logging and the system prompts are left out.
-/

namespace ContractIntel.Llm

/-- The configured models. -/
structure OpenAiClient where
  model : Str
  embeddingModel : Str

structure StructuredResult (schema : Schema) where
  data : schema.Data
  usage : LlmUsage

/-- One vector per input text (input order), with the call's usage record. -/
structure EmbeddingResult where
  vectors : List Embedding
  usage : LlmUsage

/-- What the client's `except` clauses make of the SDK's exceptions. -/
def sdkError (model : Str) : Exn → Exn
  | .unusableReply =>
    .llmOutputError ("model output failed schema validation model=".toList ++ model) none
  | .openAiError cause => .llmCallError model cause
  | e => e

/-- `_log_usage` without the log line, and the cost it is given. -/
def usageRecord (model : Str) (promptTokens completionTokens : Option Nat) (latencyMs : Nat) :
    Except Exn LlmUsage := do
  let cost ← costUsd model promptTokens completionTokens
  return ⟨model, promptTokens.getD 0, completionTokens.getD 0, cost, latencyMs⟩

/-- What `complete_structured` makes of the first choice. -/
def readChoices (model : Str) {schema : Schema} (usage : LlmUsage) :
    List (Option schema.Data) → Except Exn (StructuredResult schema)
  | [] => .error (.indexError "list index out of range".toList)
  | none :: _ =>
    .error (.llmOutputError ("model output failed schema validation model=".toList ++ model)
      (some usage))
  | some data :: _ => .ok ⟨data, usage⟩

/-- What `complete_structured` makes of a response. -/
def readReply (model : Str) {schema : Schema} (response : ChatReply schema) :
    Except Exn (StructuredResult schema) := do
  let usage ← usageRecord model response.promptTokens response.completionTokens response.latencyMs
  readChoices model usage response.choices

def completeStructured (llm : OpenAiClient) (schema : Schema) (user : Str) :
    Service (StructuredResult schema) := do
  let response ← (perform (.parseChat schema llm.model user)).tryCatch
    fun e => throw (sdkError llm.model e)
  lift (readReply llm.model response)

/-- What `embed` makes of a response: the vectors sorted by the index of their item. -/
def readEmbeddings (model : Str) (response : EmbedReply) : Except Exn EmbeddingResult := do
  let usage ← usageRecord model response.promptTokens (some 0) response.latencyMs
  return ⟨(response.items.insertionSort fun a b => a.1 ≤ b.1).map (·.2), usage⟩

def embed (llm : OpenAiClient) (texts : List Str) : Service EmbeddingResult := do
  let response ← (perform (.createEmbeddings llm.embeddingModel texts)).tryCatch
    fun e => throw (sdkError llm.embeddingModel e)
  lift (readEmbeddings llm.embeddingModel response)

/-- What services do with the usage of a call. -/
abbrev UsageSink := LlmUsage → Service Unit

/-- `usage_sink=None`: nothing is recorded. -/
def UsageSink.none : UsageSink := fun _ => return ()

end ContractIntel.Llm
