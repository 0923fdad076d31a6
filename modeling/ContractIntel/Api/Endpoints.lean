import ContractIntel.Api.Errors
import ContractIntel.Services.Requests
import ContractIntel.Services.Search
import ContractIntel.Store.System

/-!
# The endpoints (`app/api`, `app/middleware.py`)

A request carries headers and the values of one endpoint; a value that is not of its declared type is
`none`. The framework resolves the dependencies in the order of the signature (the model client, the
principal and its role, the limiter) before it looks at the values, so a request may be turned away,
and may spend the tenant's budget, whatever they are. Then the service is called, and what it raises
goes through the error table.

What the process keeps for requests is part of an `Incoming`: what the signing-key cache and the
limiter answer it, the id drawn for it. Requests that the framework cannot read at all are left out,
and so are the probe and the audit log.
-/

namespace ContractIntel.Api

open Auth (AuthSettings Identity JwksError Principal Role getPrincipal requireRole)
open Llm (OpenAiClient)
open ReviewQueue (ReviewDispositionCreate)

structure Settings extends AuthSettings where
  openaiApiKey : Str
  openaiModel : Str
  openaiEmbeddingModel : Str
  maxUploadMb : Nat

/-! ## Request ids -/

def MAX_REQUEST_ID_LEN : Nat := 64

/-- `sanitize_request_id`, with the id to take when nothing is left. -/
def sanitizeRequestId (raw drawn : Str) : Str :=
  let cleaned := (raw.filter fun c => 0x21 ≤ c.toNat && c.toNat ≤ 0x7E).take MAX_REQUEST_ID_LEN
  if cleaned = [] then drawn else cleaned

/-! ## Endpoints -/

/-- The endpoints with the values of their paths, queries and bodies; a query without a value has its
default. -/
inductive Endpoint where
  | postDocuments (filename contentType : Option Str) (stream : List Parsing.Bytes)
      (amendsDocumentId : Option (Option Uuid))
  | getDocuments (limit offset : Option Int)
  | getDocument (documentId : Option Uuid)
  | getDocumentContent (documentId : Option Uuid)
  | deleteDocument (documentId : Option Uuid)
  | postDocumentIngestion (documentId : Option Uuid)
  | postDocumentExtraction (documentId : Option Uuid)
  | postAgreementChangeReport (agreementId amendmentDocumentId : Option Uuid)
  | getAgreementChangeReportJobs (agreementId : Option Uuid)
  /-- The three job endpoints. -/
  | getJob (kind : JobKind) (jobId : Option Uuid)
  | getReviewItems (status : Option (Option ReviewItemStatus))
  | getReviewItem (itemId : Option Uuid)
  | postReviewItemDisposition (itemId : Option Uuid) (request : Option ReviewDispositionCreate)
  | getSearch (q : Str) (limit : Option Int)
  | getUsageSpend (groupBy : Option (Option Usage.GroupBy))

/-- The roles of `AdminPrincipal` and `ReviewerPrincipal`; any role will do for `PrincipalDep`. -/
def Endpoint.allowed : Endpoint → List Role
  | .postDocuments .. | .deleteDocument _ | .postDocumentIngestion _ | .postDocumentExtraction _
  | .postAgreementChangeReport .. | .getUsageSpend _ => [.admin]
  | .postReviewItemDisposition .. => [.reviewer, .admin]
  | _ => [.admin, .reviewer]

/-- The two endpoints that spend the tenant's budget. -/
def Endpoint.limited : Endpoint → Bool
  | .postDocumentExtraction _ | .postAgreementChangeReport .. => true
  | _ => false

/-- Whether the endpoint depends on the model client. -/
def Endpoint.usesLlm : Endpoint → Bool
  | .getSearch .. => true
  | _ => false

def Endpoint.successStatus : Endpoint → Nat
  | .postDocuments .. => 201
  | .postDocumentIngestion _ | .postDocumentExtraction _ | .postAgreementChangeReport .. => 202
  | .deleteDocument _ => 204
  | _ => 200

/-- What an endpoint has the services do. -/
inductive Action where
  | call (work : Call)
  | search (requestId query : Str) (limit : Nat)

def DEFAULT_LIST_LIMIT : Nat := 50

def MAX_LIST_LIMIT : Nat := 100

def DEFAULT_SEARCH_LIMIT : Nat := 10

def MAX_SEARCH_LIMIT : Nat := 50

/-- A query value between bounds. -/
def bounded (default low : Nat) (high : Option Nat) : Option Int → Option Nat
  | none => some default
  | some value =>
    if (low : Int) ≤ value ∧ high.all fun high => value ≤ (high : Int) then some value.toNat else none

/-- The call with its values, `none` when one of them is not what the endpoint declares. -/
def Endpoint.action (settings : Settings) (context : RequestContext) : Endpoint → Option Action
  | .postDocuments filename contentType stream amendsDocumentId => do
    let amended ← match amendsDocumentId with
      | none => some none
      | some id => id.map some
    -- the tenant of the upload is the caller's, see `Call.program`
    return .call (.uploadDocument context
      ⟨0, filename, contentType, stream, settings.maxUploadMb * 1024 * 1024, amended⟩)
  | .getDocuments limit offset => do
    let limit ← bounded DEFAULT_LIST_LIMIT 1 (some MAX_LIST_LIMIT) limit
    let offset ← bounded 0 0 none offset
    return .call (.listDocuments limit offset)
  | .getDocument documentId => documentId.map fun id => .call (.getDocument id)
  | .getDocumentContent documentId => documentId.map fun id => .call (.resolveDocumentFile id)
  | .deleteDocument documentId => documentId.map fun id => .call (.deleteDocument context id)
  | .postDocumentIngestion documentId => documentId.map fun id => .call (.enqueueIngestion context id)
  | .postDocumentExtraction documentId =>
    documentId.map fun id => .call (.enqueueExtraction context id)
  | .postAgreementChangeReport agreementId amendmentDocumentId => do
    return .call (.enqueueChangeReport context (← agreementId) (← amendmentDocumentId))
  | .getAgreementChangeReportJobs agreementId =>
    agreementId.map fun id => .call (.listChangeReportJobs id)
  | .getJob kind jobId => jobId.map fun id => .call (.getJob kind id)
  | .getReviewItems status =>
    match status with
    | none => some (.call (.listReviewItems none))
    | some status => status.map fun status => .call (.listReviewItems (some status))
  | .getReviewItem itemId => itemId.map fun id => .call (.getReviewItem id)
  | .postReviewItemDisposition itemId request => do
    return .call (.resolveReviewItem context (← itemId) (← request))
  | .getSearch q limit => do
    let limit ← bounded DEFAULT_SEARCH_LIMIT 1 (some MAX_SEARCH_LIMIT) limit
    if q = [] then none else return .search context.requestId q limit
  | .getUsageSpend groupBy =>
    match groupBy with
    | none => some (.call (.spend .jobType))
    | some groupBy => groupBy.map fun groupBy => .call (.spend groupBy)

/-! ## Requests -/

/-- A request, and what the process answers on its way. -/
structure Incoming (Key : Type) where
  /-- `x-request-id`. -/
  requestId : Option Str
  /-- The id drawn for a request that brings none. -/
  drawnId : Str
  authorization : Option Str
  /-- What the signing-key cache answers for an id. -/
  getKey : Str → Except JwksError (Option Key)
  /-- What the limiter answers: the seconds to wait once the budget is spent. -/
  retryAfter : Option Nat
  endpoint : Endpoint

variable {Key : Type} [Identity Key]

def Incoming.id (incoming : Incoming Key) : Str :=
  sanitizeRequestId (incoming.requestId.getD []) incoming.drawnId

/-- The dependencies of the endpoint, in their order. -/
def Incoming.authorize (settings : Settings) (incoming : Incoming Key) :
    Except ApiExn Principal := do
  if incoming.endpoint.usesLlm ∧ settings.openaiApiKey = [] then throw .llmNotConfiguredError
  let principal ← (getPrincipal incoming.getKey settings.toAuthSettings
    incoming.authorization).mapError .auth
  let principal ← (requireRole incoming.endpoint.allowed principal).mapError .auth
  if incoming.endpoint.limited then
    if let some seconds := incoming.retryAfter then throw (.rateLimitExceededError seconds)
  return principal

variable [Platform]

/-- What the service of an action returns. -/
abbrev Action.Returns : Action → Type
  | .call work => work.Returns
  | .search .. => List Search.SearchHit

/-- What the body of a response is made from. -/
abbrev Body := (action : Action) × action.Returns

def Action.program (settings : Settings) (tenantId : Uuid) : Action → Service Body
  | .call work => do
    let returned ← work.program tenantId
    return ⟨.call work, returned⟩
  | .search requestId query limit => do
    let hits ← Search.search requestId ⟨settings.openaiModel, settings.openaiEmbeddingModel⟩ tenantId
      query limit
    return ⟨.search requestId query limit, hits⟩

/-- The middleware puts the request's id on every response but the server's error page. -/
def Response.withRequestId (id : Str) (response : Response) : Response :=
  if response.status = 500 then response
  else { response with headers := response.headers ++ [("x-request-id".toList, id)] }

/-- The response to a request that is turned away before its service is called, or else what is to be
done for whom. -/
def Incoming.resolve (settings : Settings) (incoming : Incoming Key) :
    Except ApiExn (Principal × Action) := do
  let principal ← incoming.authorize settings
  match incoming.endpoint.action settings ⟨incoming.id, some principal.subject⟩ with
  | none => throw .requestValidationError
  | some action => return (principal, action)

/-- A request from its arrival to its response, with what the body is made from. -/
def respond (settings : Settings) (incoming : Incoming Key) : Service (Response × Option Body) := do
  let (response, body) ← match incoming.resolve settings with
    | .error e => pure (errorResponse e, none)
    | .ok (principal, action) => do
      match ← (action.program settings principal.tenantId).attempt with
      | .error e => pure (errorResponse (.service e), none)
      | .ok body => pure (⟨incoming.endpoint.successStatus, none, []⟩, some body)
  return (response.withRequestId incoming.id, body)

/-- The response without its body, which no header and no status depends on. -/
def serve (settings : Settings) (incoming : Incoming Key) : Service Response := do
  let (response, _body) ← respond settings incoming
  return response

end ContractIntel.Api
