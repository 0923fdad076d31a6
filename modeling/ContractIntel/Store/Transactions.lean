import ContractIntel.Store.State
import Mathlib.Data.List.Dedup

/-!
# Transactions of the repositories (`app/repositories`, `app/storage/local.py`)

What one committed transaction does to the store, constraints included: the unique
`(tenant_id, sha256)`, and the foreign keys into `documents`. A violated constraint, and an
`UPDATE` whose row is gone, leave the store as it was. The document-delete sweep and the
replacement of a document's text and chunks are several statements with one commit, hence one
transaction each.
-/

namespace ContractIntel

open Jobs (JobRow)
open Parsing (Bytes PageSpan)
open Chunking (Chunk)

/-- A new identifier: the drawn one, or one above all in use when that one is taken. -/
def draw (issued : List Uuid) (drawn : Uuid) : Uuid :=
  if drawn ∈ issued then issued.foldr max 0 + 1 else drawn

/-- One new identifier after the other, for a number of rows. -/
def drawMany : Nat → List Uuid → List Uuid → List Uuid
  | 0, _, _ => []
  | n + 1, issued, drawn =>
    let id := draw issued (drawn.headD 0)
    id :: drawMany n (id :: issued) drawn.tail

namespace Store

/-- `now()`: the start of the transaction, which began so long ago. -/
def started (began : Time) (s : Store) : Time := s.now - began

/-! ## Documents -/

def findDocument (tenantId documentId : Uuid) (s : Store) : Option DocumentRow :=
  s.documents.find? fun d => d.id = documentId && d.tenantId = tenantId

def findDocumentBySha256 (tenantId : Uuid) (sha256 : Str) (s : Store) : Option DocumentRow :=
  s.documents.find? fun d => d.tenantId = tenantId && d.sha256 = sha256

def document? (documentId : Uuid) (s : Store) : Option DocumentRow :=
  s.documents.find? (·.id = documentId)

def hasAmendments (documentId : Uuid) (s : Store) : Bool :=
  s.documents.any (·.amendsDocumentId = some documentId)

def insertDocument (tenantId : Uuid) (filename mimeType sha256 : Str)
    (amendsDocumentId : Option Uuid) (drawn : Uuid) (began : Time) (s : Store) :
    Except Exn (DocumentRow × Store) :=
  if (s.findDocumentBySha256 tenantId sha256).isSome then .error .integrityError
  else if amendsDocumentId.any fun parent => (s.document? parent).isNone then
    .error .integrityError
  else
    let id := draw s.issued drawn
    let row : DocumentRow :=
      ⟨id, tenantId, filename, mimeType, sha256, amendsDocumentId, .uploaded, s.started began⟩
    .ok (row, { s with documents := s.documents ++ [row], issued := id :: s.issued })

/-- `set_status` on a loaded row: without a change to the loaded status there is no `UPDATE`. -/
def setDocumentStatus (document : DocumentRow) (status : DocumentStatus) (s : Store) :
    Except Exn (Unit × Store) :=
  if document.status = status then .ok ((), s)
  else if (s.document? document.id).isNone then .error .staleDataError
  else .ok ((), { s with
    documents := s.documents.map fun d => if d.id = document.id then { d with status } else d })

/-- The change reports naming the document as the amendment. -/
def reportsOfAmendment (documentId : Uuid) (s : Store) : List Uuid :=
  ((s.jobs .changeReport).filter (·.amendedDocumentId = some documentId)).map JobRow.id

/-- The statements of `delete_document` up to its commit: everything that hangs on the document,
the review items routed from its change reports, and the row itself. A row that is gone already is
no error. -/
def deleteSweep (documentId : Uuid) (s : Store) : Except Exn (Unit × Store) :=
  let reports := s.reportsOfAmendment documentId
  let jobs : JobKind → List JobRow
    | .changeReport =>
      (s.jobs .changeReport).filter (·.amendedDocumentId ≠ some documentId)
    | kind => (s.jobs kind).filter (·.documentId ≠ documentId)
  if s.hasAmendments documentId || (jobs .changeReport).any (·.documentId = documentId) then
    .error .integrityError
  else .ok ((), { s with
    documents := s.documents.filter (·.id ≠ documentId)
    texts := s.texts.filter (·.documentId ≠ documentId)
    chunks := s.chunks.filter (·.documentId ≠ documentId)
    jobs := jobs
    reviewItems := s.reviewItems.filter fun item =>
      item.jobId ∉ reports && item.documentId ≠ documentId })

/-! ## Jobs -/

def withJobs (kind : JobKind) (rows : List JobRow) (s : Store) : Store :=
  { s with jobs := fun k => if k = kind then rows else s.jobs k }

def insertJob (kind : JobKind) (tenantId documentId : Uuid) (amendedDocumentId : Option Uuid)
    (drawn : Uuid) (began : Time) (s : Store) : Except Exn (JobRow × Store) :=
  if (s.document? documentId).isNone then .error .integrityError
  else if amendedDocumentId.any fun amended => (s.document? amended).isNone then
    .error .integrityError
  else
    let id := draw s.issued drawn
    let row := JobRow.create id tenantId documentId amendedDocumentId (s.started began)
    .ok (row, { s.withJobs kind (s.jobs kind ++ [row]) with issued := id :: s.issued })

def claimJob (kind : JobKind) (locked : List Uuid) (s : Store) :
    Except Exn (Option JobRow × Store) :=
  let answer := Jobs.claimNext s.now locked (s.jobs kind)
  .ok (answer.1, s.withJobs kind answer.2)

def completeJob (kind : JobKind) (id : Uuid) (result : Json) (s : Store) :
    Except Exn (Unit × Store) :=
  if (Jobs.row? id (s.jobs kind)).isNone then .error .staleDataError
  else .ok ((), s.withJobs kind (Jobs.markCompleted id result (s.jobs kind)))

def failJob (kind : JobKind) (id : Uuid) (error : Str) (s : Store) : Except Exn (Unit × Store) :=
  if (Jobs.row? id (s.jobs kind)).isNone then .error .staleDataError
  else .ok ((), s.withJobs kind (Jobs.markFailed id error (s.jobs kind)))

/-! ## Parsed text and chunks -/

def findText (documentId : Uuid) (s : Store) : Option TextRow :=
  s.texts.find? (·.documentId = documentId)

/-- `document_texts.replace`. -/
def replaceText (tenantId documentId : Uuid) (text : Str) (pageMap : List PageSpan) (s : Store) :
    Except Exn Store :=
  if (s.document? documentId).isNone then .error .integrityError
  else .ok { s with
    texts := s.texts.filter (·.documentId ≠ documentId) ++ [⟨documentId, tenantId, text, pageMap⟩] }

/-- The rows of `replace_with_embeddings`: ordinals count from zero. -/
def chunkRows (tenantId documentId : Uuid) (chunks : List Chunk) (embeddings : List Embedding)
    (ids : List Uuid) : List ChunkRow :=
  ((chunks.zip embeddings).zip ids).zipIdx.map fun entry =>
    let ((chunk, embedding), id) := entry.1
    ⟨id, tenantId, documentId, entry.2, chunk.text, chunk.charStart, chunk.charEnd, some embedding⟩

/-- `document_chunks.replace_with_embeddings`. -/
def replaceWithEmbeddings (tenantId documentId : Uuid) (chunks : List Chunk)
    (embeddings : List Embedding) (drawn : List Uuid) (s : Store) : Except Exn Store :=
  if chunks.length ≠ embeddings.length then
    .error (.valueError "every chunk needs exactly one embedding vector".toList)
  else
    let ids := drawMany chunks.length s.issued drawn
    .ok { s with
      chunks := s.chunks.filter (·.documentId ≠ documentId) ++
        chunkRows tenantId documentId chunks embeddings ids
      issued := ids ++ s.issued }

/-- The transaction of an ingestion's results: text and chunks, one commit. -/
def replaceTextAndChunks (tenantId documentId : Uuid) (text : Str) (pageMap : List PageSpan)
    (chunks : List Chunk) (embeddings : List Embedding) (drawn : List Uuid) (s : Store) :
    Except Exn (Unit × Store) := do
  let s ← s.replaceText tenantId documentId text pageMap
  let s ← s.replaceWithEmbeddings tenantId documentId chunks embeddings drawn
  return ((), s)

/-- The rows of a ranking: chunks of the tenant, and of one document if one is named, in the order
the ranking gives, joined with their documents. -/
def rankedRows (tenantId : Uuid) (documentId : Option Uuid) (limit : Nat) (ranking : List Uuid)
    (s : Store) : List (ChunkRow × DocumentRow) :=
  (ranking.dedup.filterMap fun id => do
    let chunk ← s.chunks.find? fun c =>
      c.id = id && c.tenantId = tenantId && documentId.all (c.documentId = ·)
    let document ← s.document? chunk.documentId
    return (chunk, document)).take limit

/-! ## Usage, audit, review items -/

def insertUsage (tenantId : Uuid) (jobType : UsageJobKind) (jobId : Option Uuid)
    (usage : LlmUsage) (requestId : Str) (began : Time) (s : Store) : Store :=
  { s with usage := s.usage ++ [⟨tenantId, jobType, jobId, usage, requestId, s.started began⟩] }

def insertAudit (tenantId : Uuid) (actor : Option Str) (requestId action resourceType : Str)
    (resourceId : Option Uuid) (detail : Option Json) (began : Time) (s : Store) : Store :=
  { s with
    audit := s.audit ++
      [⟨tenantId, actor, requestId, action, resourceType, resourceId, detail, s.started began⟩] }

/-- `review_items.create_many`: pending items, one commit. -/
def insertReviewItems (tenantId : Uuid) (source : ReviewItemSource) (documentId jobId : Uuid)
    (items : List (Str × Json × Rat)) (drawn : List Uuid) (began : Time) (s : Store) :
    Except Exn (List ReviewItemRow × Store) :=
  if (s.document? documentId).isNone then .error .integrityError
  else
    let ids := drawMany items.length s.issued drawn
    let rows := (items.zip ids).map fun entry =>
      let ((itemType, payload, confidence), id) := entry
      ⟨id, tenantId, source, itemType, documentId, jobId, payload, confidence, .pending, none, none,
        s.started began⟩
    .ok (rows, { s with reviewItems := s.reviewItems ++ rows, issued := ids ++ s.issued })

/-! ## Files -/

def setFile (tenantId : Uuid) (sha256 : Str) (content : Option Bytes) (s : Store) : Store :=
  { s with files := fun tenant sha =>
      if tenant = tenantId ∧ sha = sha256 then content else s.files tenant sha }

/-- The `str` of the `FileNotFoundError` for a stored document. -/
def missingFileMessage (tenantId : Uuid) (sha256 : Str) : Str :=
  "[Errno 2] No such file or directory: '".toList ++ Uuid.str tenantId ++ "/".toList ++ sha256 ++
    "'".toList

/-- `Path.read_bytes` of a stored document. -/
def readFile (tenantId : Uuid) (sha256 : Str) (s : Store) : Except Exn (Bytes × Store) :=
  match s.files tenantId sha256 with
  | some content => .ok (content, s)
  | none => .error (.osError (missingFileMessage tenantId sha256))

end Store

end ContractIntel
