import ContractIntel.Store.Repositories
import ContractIntel.Store.System

/-!
# Document flows (`app/services/documents.py`)

Upload and delete, statement by statement. An upload checks for a duplicate, saves the file and
then inserts the row; a delete commits the row's removal and then unlinks the file. All six are
separate operations. The upload stream is the list of chunks its `read` returns.
-/

namespace ContractIntel.Documents

open Parsing (Bytes PDF_MIME TEXT_MIME DOCX_MIME)
open Repositories

variable [Platform]

def ALLOWED_MIME_TYPES : List Str := [PDF_MIME, DOCX_MIME, TEXT_MIME]

def PDF_MAGIC : Bytes := [0x25, 0x50, 0x44, 0x46, 0x2d]

def ZIP_MAGIC : Bytes := [0x50, 0x4b, 0x03, 0x04]

/-- The loop of `_read_upload`: an empty chunk ends the stream. -/
def readChunks (maxBytes : Nat) : List Bytes → Bytes → Except Exn Bytes
  | [], content => .ok content
  | [] :: _, content => .ok content
  | chunk :: rest, content =>
    if maxBytes < (content ++ chunk).length then .error (.uploadTooLargeError maxBytes)
    else readChunks maxBytes rest (content ++ chunk)

/-- `_read_upload`: digest and content. -/
def readUpload (stream : List Bytes) (maxBytes : Nat) : Except Exn (Str × Bytes) := do
  let content ← readChunks maxBytes stream []
  return (Platform.sha256 content, content)

/-- The branch of `sniff_mime` for an archive. What `ZipFile` raises beside `BadZipFile` goes
through. -/
def sniffZip (content : Bytes) : Except Exn (Option Str) :=
  match Platform.zipNames content with
  | .error .badZipFile => .ok none
  | .error (.other error message) => .error (.otherError error message)
  | .ok names =>
    if "[Content_Types].xml".toList ∈ names ∧
        names.any fun name => Str.startswith name "word/".toList then .ok (some DOCX_MIME)
    else .ok none

def sniffMime (content : Bytes) : Except Exn (Option Str) :=
  if content = [] then .ok none
  else if PDF_MAGIC.isPrefixOf content then .ok (some PDF_MIME)
  else if ZIP_MAGIC.isPrefixOf content then sniffZip content
  else if 0 ∈ content then .ok none
  else if (Parsing.decodeUtf8 content).isNone then .ok none
  else .ok (some TEXT_MIME)

structure UploadRequest where
  tenantId : Uuid
  filename : Option Str
  contentType : Option Str
  stream : List Bytes
  maxBytes : Nat
  amendsDocumentId : Option Uuid

/-- `filename or "untitled"`: an empty name is replaced too. -/
def orDefault (value : Option Str) (fallback : String) : Str :=
  match value with
  | some (c :: cs) => c :: cs
  | _ => fallback.toList

/-- The checks of an upload before anything is read from the store. -/
def checkUpload (request : UploadRequest) : Except Exn (Str × Bytes) := do
  if ¬ request.contentType.any (· ∈ ALLOWED_MIME_TYPES) then
    throw (.mimeNotAllowedError request.contentType none)
  let (sha256, content) ← readUpload request.stream request.maxBytes
  let sniffed ← sniffMime content
  if sniffed ≠ request.contentType then
    throw (.mimeNotAllowedError request.contentType sniffed)
  return (sha256, content)

/-- The parent check: a parent is linkable from its own tenant only. -/
def checkParent (request : UploadRequest) : Service Unit := do
  match request.amendsDocumentId with
  | none => return ()
  | some parent =>
    match ← perform (.findDocument request.tenantId parent) with
    | none => throw (.documentNotFoundError parent)
    | some _ => return ()

/-- The row insert. A violated constraint is taken for a lost race against an upload of the same
bytes; the saved file is left where it is. -/
def insertUploaded (request : UploadRequest) (sha256 : Str) : Service DocumentRow :=
  (createDocument request.tenantId (orDefault request.filename "untitled")
    (orDefault request.contentType "application/octet-stream") sha256
    request.amendsDocumentId).tryCatch fun e =>
      match e with
      | .integrityError => do
        perform .rollback
        let raced ← perform (.findDocumentBySha256 request.tenantId sha256)
        throw (.documentAlreadyExistsError (raced.map DocumentRow.id))
      | e => throw e

/-- Save the bytes, then insert the row. -/
def store (request : UploadRequest) (sha256 : Str) (content : Bytes) : Service DocumentRow := do
  perform (.saveFile request.tenantId sha256 content)
  insertUploaded request sha256

/-- The audit detail of an upload. -/
def uploadDetail (document : DocumentRow) (content : Bytes) (amendsDocumentId : Option Uuid) :
    Json :=
  .obj <| [("filename".toList, .str document.filename), ("sha256".toList, .str document.sha256),
      ("mime_type".toList, .str document.mimeType), ("size_bytes".toList, .num content.length)] ++
    match amendsDocumentId with
    | none => []
    | some parent => [("amends_document_id".toList, .str (Uuid.str parent))]

def uploadDocument (context : RequestContext) (request : UploadRequest) : Service DocumentRow := do
  let (sha256, content) ← lift (checkUpload request)
  checkParent request
  match ← perform (.findDocumentBySha256 request.tenantId sha256) with
  | some existing => throw (.documentAlreadyExistsError (some existing.id))
  | none =>
    let document ← store request sha256 content
    perform (.insertAudit document.tenantId context.actor context.requestId
      "document.upload".toList "document".toList (some document.id)
      (some (uploadDetail document content request.amendsDocumentId)))
    return document

omit [Platform] in
def getDocument (tenantId documentId : Uuid) : Service DocumentRow := do
  require (.documentNotFoundError documentId) (← perform (.findDocument tenantId documentId))

omit [Platform] in
/-- One page of the tenant's documents (newest first) plus the total count. -/
def listDocuments (tenantId : Uuid) (limit offset : Nat) : Service (List DocumentRow × Nat) := do
  let items ← perform (.listDocuments tenantId limit offset)
  let total ← perform (.countDocuments tenantId)
  return (items, total)

omit [Platform] in
/-- The row and the path of its file, which is named by tenant and digest; a row without a file
reads as not found. -/
def resolveDocumentFile (tenantId documentId : Uuid) : Service (DocumentRow × Uuid × Str) := do
  let document ← getDocument tenantId documentId
  if ¬ (← perform (.isFile tenantId document.sha256)) then
    throw (.documentNotFoundError documentId)
  return (document, tenantId, document.sha256)

omit [Platform] in
/-- The sweep and its commit. A violated constraint is reported as amendments only if there are
some once the transaction is rolled back. -/
def sweep (documentId : Uuid) : Service Unit :=
  (perform (.deleteSweep documentId)).tryCatch fun e =>
    match e with
    | .integrityError => do
      perform .rollback
      if ← perform (.hasAmendments documentId) then
        throw (.documentHasAmendmentsError documentId)
      else throw .integrityError
    | e => throw e

omit [Platform] in
def deleteDocument (context : RequestContext) (tenantId documentId : Uuid) : Service Unit := do
  let document ← getDocument tenantId documentId
  if ← perform (.hasAmendments documentId) then
    throw (.documentHasAmendmentsError documentId)
  sweep document.id
  let _removed ← perform (.unlinkFile tenantId document.sha256)
  perform (.insertAudit tenantId context.actor context.requestId "document.delete".toList
    "document".toList (some document.id)
    (some (.obj [("filename".toList, .str document.filename),
      ("sha256".toList, .str document.sha256)])))

/-- A client's request to these two endpoints. -/
inductive Request where
  | upload (context : RequestContext) (request : UploadRequest)
  | delete (context : RequestContext) (tenantId documentId : Uuid)

def Request.program : Request → Service Unit
  | .upload context request => do
    let _document ← uploadDocument context request
    return ()
  | .delete context tenantId documentId => deleteDocument context tenantId documentId

/-- Clients that are about to send their requests. -/
def clients {ι : Type} (s : Store) (requests : ι → Option Request) : System ι :=
  System.start s fun i => (requests i).map Request.program

end ContractIntel.Documents
