import ContractIntel.Store.Ops

/-!
# Repository functions of more than one statement (`app/repositories`)

`create`, `claim_next`, the terminal writes and `set_status` commit and then `refresh` the row
object, which is a query of its own: a row deleted between the two raises.
-/

namespace ContractIntel.Repositories

open Jobs (JobRow)

/-- `session.refresh(document)`. -/
def refreshDocument (documentId : Uuid) : Service DocumentRow := do
  require .invalidRequestError (← perform (.readDocument documentId))

/-- `documents.create`. -/
def createDocument (tenantId : Uuid) (filename mimeType sha256 : Str)
    (amendsDocumentId : Option Uuid) : Service DocumentRow := do
  let document ← perform (.insertDocument tenantId filename mimeType sha256 amendsDocumentId)
  refreshDocument document.id

/-- `documents.set_status`. -/
def setStatus (document : DocumentRow) (status : DocumentStatus) : Service DocumentRow := do
  perform (.setDocumentStatus document status)
  refreshDocument document.id

/-- `session.refresh(job)`. -/
def refreshJob (kind : JobKind) (id : Uuid) : Service JobRow := do
  require .invalidRequestError (← perform (.readJob kind id))

/-- `create` of the three job repositories. -/
def createJob (kind : JobKind) (tenantId documentId : Uuid) (amendedDocumentId : Option Uuid) :
    Service JobRow := do
  let job ← perform (.insertJob kind tenantId documentId amendedDocumentId)
  refreshJob kind job.id

/-- `claim_next_queued` of the three job repositories. -/
def claimNextQueued (kind : JobKind) : Service (Option JobRow) := do
  match ← perform (.claimJob kind) with
  | none => return none
  | some job => return some (← refreshJob kind job.id)

def markCompleted (kind : JobKind) (job : JobRow) (result : Json) : Service JobRow := do
  perform (.completeJob kind job.id result)
  refreshJob kind job.id

def markFailed (kind : JobKind) (job : JobRow) (error : Str) : Service JobRow := do
  perform (.failJob kind job.id error)
  refreshJob kind job.id

end ContractIntel.Repositories
