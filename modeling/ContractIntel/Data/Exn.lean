import ContractIntel.Data.Rows

/-!
# Exceptions

One constructor for each exception class the services raise, catch or let through, with the data
the class carries. `Exn.str` is Python's `str(exc)`, which failed jobs record.
-/

namespace ContractIntel

inductive Exn where
  | valueError (message : Str)
  /-- A failed dictionary lookup; its `str` is the `repr` of the key. -/
  | keyError (key : Str)
  | indexError (message : Str)
  | assertionError (message : Str)
  /-- An exception of a class that no clause of the services names, by the class's name. -/
  | otherError (error message : Str)
  | osError (message : Str)
  /-- Whatever a third-party parser raises. -/
  | parserError (message : Str)
  /-- The SDK's `LengthFinishReasonError`, `ContentFilterFinishReasonError` or a pydantic
  `ValidationError` of the reply. -/
  | unusableReply
  /-- Any other `OpenAIError`. -/
  | openAiError (cause : Str)
  | llmCallError (model cause : Str)
  | llmOutputError (message : Str) (usage : Option LlmUsage)
  /-- A violated unique or foreign key constraint. -/
  | integrityError
  /-- An `UPDATE` or `DELETE` of a loaded row that is gone. -/
  | staleDataError
  /-- A `refresh` of a row that is gone. -/
  | invalidRequestError
  /-- A statement on a session whose transaction failed and was not rolled back. -/
  | pendingRollbackError
  /-- Any other failure of a statement: a lost connection, a value the column cannot hold. -/
  | databaseError (message : Str)
  | mimeNotAllowedError (contentType sniffed : Option Str)
  | uploadTooLargeError (maxBytes : Nat)
  | documentAlreadyExistsError (existingId : Option Uuid)
  | documentNotFoundError (documentId : Uuid)
  | documentHasAmendmentsError (documentId : Uuid)
  | ingestionJobConflictError (jobId : Uuid)
  | extractionJobConflictError (jobId : Uuid)
  | documentNotParsedError (ingestionJobId : Option Uuid)
  | amendmentMismatchError (baseDocumentId amendedDocumentId : Uuid)
  | prerequisiteMissingError (documentId : Uuid) (kind : JobKind) (jobId : Option Uuid)
  /-- `IngestionJobNotFoundError`, `ExtractionJobNotFoundError`, `ChangeReportJobNotFoundError`. -/
  | jobNotFoundError (kind : JobKind) (jobId : Uuid)
  | reviewItemNotFoundError (itemId : Uuid)
  | reviewItemAlreadyResolvedError (itemId : Uuid)

/-- `except (LlmError, ValueError)`. -/
def Exn.isLlmErrorOrValueError : Exn → Bool
  | .valueError _ | .llmCallError .. | .llmOutputError .. => true
  | _ => false

/-- An exception of a class that no `except` of the program names. -/
def Exn.isOther : Exn → Bool
  | .otherError .. => true
  | _ => false

/-- The quote of `repr(value)`: a double one around single quotes without double ones. -/
def reprQuote (value : Str) : Char :=
  if '\'' ∈ value ∧ '"' ∉ value then '"' else '\''

/-- A character in `repr(value)`. Beyond Latin-1 every character counts as printable. -/
def reprChar (quote c : Char) : Str :=
  if c = quote ∨ c = '\\' then ['\\', c]
  else if c = '\t' then "\\t".toList
  else if c = '\n' then "\\n".toList
  else if c = '\r' then "\\r".toList
  else if c.toNat < 0x20 ∨ 0x7f ≤ c.toNat ∧ c.toNat ≤ 0xa0 ∨ c.toNat = 0xad then
    "\\x".toList ++ [Nat.digitChar (c.toNat / 16), Nat.digitChar (c.toNat % 16)]
  else [c]

/-- `repr(value)` of a string. -/
def reprStr (value : Str) : Str :=
  let quote := reprQuote value
  quote :: value.flatMap (reprChar quote) ++ [quote]

/-- `repr(value)` of an optional string. -/
def reprOption : Option Str → Str
  | none => "None".toList
  | some value => reprStr value

/-- The name of a job kind in the messages. -/
def JobKind.label : JobKind → Str
  | .ingestion => "ingestion".toList
  | .extraction => "extraction".toList
  | .changeReport => "change report".toList

/-- `str(exc)`. -/
def Exn.str : Exn → Str
  | .valueError message | .indexError message | .assertionError message | .osError message
  | .parserError message | .openAiError message | .databaseError message | .otherError _ message
  | .llmOutputError message _ => message
  | .keyError key => reprStr key
  | .unusableReply => "the reply is not usable output".toList
  | .llmCallError model cause => "llm call failed model=".toList ++ model ++ ": ".toList ++ cause
  | .integrityError => "constraint violated".toList
  | .staleDataError => "statement on table expected to update 1 row(s); 0 were matched.".toList
  | .invalidRequestError => "Could not refresh instance".toList
  | .pendingRollbackError =>
    "This Session's transaction has been rolled back due to a previous exception during flush.".toList
  | .mimeNotAllowedError contentType _ => "unsupported media type ".toList ++ reprOption contentType
  | .uploadTooLargeError maxBytes =>
    "upload exceeds limit of ".toList ++ Str.ofNat maxBytes ++ " bytes".toList
  | .documentAlreadyExistsError _ => "document already exists".toList
  | .documentNotFoundError id => "document ".toList ++ Uuid.str id ++ " not found".toList
  | .documentHasAmendmentsError id =>
    "document ".toList ++ Uuid.str id ++ " has amendments; delete them first".toList
  | .ingestionJobConflictError id =>
    "ingestion job ".toList ++ Uuid.str id ++ " is already queued or running".toList
  | .extractionJobConflictError id =>
    "extraction job ".toList ++ Uuid.str id ++ " is already queued or running".toList
  | .documentNotParsedError _ =>
    "document is not parsed; extraction requires a completed ingestion".toList
  | .amendmentMismatchError baseId amendedId =>
    "document ".toList ++ Uuid.str amendedId ++ " does not amend document ".toList ++
      Uuid.str baseId
  | .prerequisiteMissingError id kind jobId =>
    "document ".toList ++ Uuid.str id ++ " has no completed ".toList ++ kind.label ++
      " job".toList ++
        match jobId with
        | some job => "; run job ".toList ++ Uuid.str job ++ " first".toList
        | none => []
  | .jobNotFoundError kind id => kind.label ++ " job ".toList ++ Uuid.str id ++ " not found".toList
  | .reviewItemNotFoundError id => "review item ".toList ++ Uuid.str id ++ " not found".toList
  | .reviewItemAlreadyResolvedError id =>
    "review item ".toList ++ Uuid.str id ++ " is already resolved".toList

end ContractIntel
