import ContractIntel.Auth.Verifier
import ContractIntel.Services.Documents
import Mathlib.Data.Char
import Mathlib.Data.List.Lex

/-!
# The error table (`app/errors.py`)

Every exception a request may end with, and the response it is mapped to. What the table has no entry
for is the server's error page.
-/

namespace ContractIntel.Api

open Auth (AuthError)

/-- What a request may end with. -/
inductive ApiExn where
  | service (e : Exn)
  | auth (e : AuthError)
  | llmNotConfiguredError
  | rateLimitExceededError (retryAfterSeconds : Nat)
  /-- The framework's: a path, query or body value is not what the endpoint declares. -/
  | requestValidationError

/-- A response. The bodies of successful ones are the rows that the calls return. -/
structure Response where
  status : Nat
  /-- `detail`, of an error. -/
  detail : Option Json
  headers : List (Str × Str)

def detailResponse (status : Nat) (detail : Json) : Response := ⟨status, some detail, []⟩

def optionalId (id : Option Uuid) : Json := .ofOption (id.map Uuid.str)

/-- `f"{sorted(values)}"`. -/
def sortedRepr (values : List Str) : Str :=
  "[".toList ++ Str.join ", ".toList
    ((values.insertionSort fun a b => decide (a ≤ b)).map reprStr) ++
    "]".toList

def mimeNotAllowed [Platform] (contentType sniffed : Option Str) : Str :=
  (Exn.mimeNotAllowedError contentType sniffed).str ++ "; allowed: ".toList ++
    sortedRepr Documents.ALLOWED_MIME_TYPES ++
    match sniffed with
    | none => []
    | some sniffed => "; content identified as ".toList ++ sniffed

/-- The `kind` of a missing prerequisite. -/
def kindValue : JobKind → Str
  | .ingestion => "ingestion".toList
  | .extraction => "extraction".toList
  | .changeReport => "change_report".toList

/-- What no handler takes reaches the error page of the server. -/
def internalServerError : Response := detailResponse 500 (.str "Internal Server Error".toList)

/-- The handlers of the exceptions that services raise. -/
def serviceErrorResponse [Platform] (e : Exn) : Response :=
  match e with
  | .mimeNotAllowedError contentType sniffed =>
    detailResponse 415 (.str (mimeNotAllowed contentType sniffed))
  | .uploadTooLargeError maxBytes =>
    detailResponse 413 (.str ("upload exceeds limit of ".toList ++
      Str.ofNat (maxBytes / (1024 * 1024)) ++ " MiB".toList))
  | .documentAlreadyExistsError (some existing) =>
    detailResponse 409 (.obj [("existing_id".toList, .str (Uuid.str existing))])
  | .documentAlreadyExistsError none => detailResponse 409 (.str e.str)
  | .ingestionJobConflictError job | .extractionJobConflictError job =>
    detailResponse 409 (.obj [("existing_job_id".toList, .str (Uuid.str job))])
  | .documentNotParsedError job =>
    detailResponse 409 (.obj [("ingestion_job_id".toList, optionalId job)])
  | .prerequisiteMissingError document kind job =>
    detailResponse 409 (.obj [("document_id".toList, .str (Uuid.str document)),
      ("kind".toList, .str (kindValue kind)), ("job_id".toList, optionalId job)])
  | .documentHasAmendmentsError _ | .amendmentMismatchError .. | .reviewItemAlreadyResolvedError _ =>
    detailResponse 409 (.str e.str)
  | .documentNotFoundError _ | .jobNotFoundError .. | .reviewItemNotFoundError _ =>
    detailResponse 404 (.str e.str)
  | .llmCallError model _ =>
    -- no internals beyond the model name
    detailResponse 502 (.str ("llm call failed model=".toList ++ model))
  | .llmOutputError .. => detailResponse 502 (.str e.str)
  | _ => internalServerError

/-- The handlers of the exceptions of authentication. -/
def authErrorResponse : AuthError → Response
  | .authenticationError message =>
    ⟨401, some (.str message), [("WWW-Authenticate".toList, "Bearer".toList)]⟩
  | .authorizationError message => detailResponse 403 (.str message)
  | .authNotConfiguredError => detailResponse 503
    (.str "auth is not configured: set AUTH0_DOMAIN and AUTH0_AUDIENCE".toList)
  | .jwksUnavailableError url =>
    detailResponse 502 (.str ("jwks fetch failed url=".toList ++ url))
  | .raised _ => internalServerError

/-- `register_exception_handlers`. -/
def errorResponse [Platform] : ApiExn → Response
  | .service e => serviceErrorResponse e
  | .auth e => authErrorResponse e
  | .llmNotConfiguredError =>
    detailResponse 503 (.str "LLM client not configured: OPENAI_API_KEY is empty".toList)
  | .rateLimitExceededError seconds =>
    ⟨429, some (.str ("rate limit exceeded; retry after ".toList ++ Str.ofNat seconds ++
      "s".toList)), [("Retry-After".toList, Str.ofNat seconds)]⟩
  | .requestValidationError => ⟨422, none, []⟩

end ContractIntel.Api
