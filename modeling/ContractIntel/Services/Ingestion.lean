import ContractIntel.Services.Documents
import ContractIntel.Services.Usage

/-!
# Document ingestion (`app/services/ingestion.py`)

The request side checks for an active job and then inserts one, two transactions. The worker side
claims a job, reads and parses the stored bytes, chunks and embeds the text, and only then writes:
text and chunks in one transaction, the job, the document's status. The `try` covers the part up
to the embeddings and catches everything; what comes after it is not covered.
-/

namespace ContractIntel.Ingestion

open Jobs (JobRow)
open Chunking (Chunk chunkDocument)
open Llm (OpenAiClient UsageSink)
open Parsing (ParsedDocument)
open Repositories

def EMBED_BATCH : Nat := 128

/-! ## Enqueueing -/

/-- The check and the insert of an enqueue, with the conflict that names the active job. -/
def insertUnlessActive (kind : JobKind) (conflict : Uuid → Exn) (tenantId documentId : Uuid) :
    Service JobRow := do
  match ← perform (.findActiveJob kind documentId) with
  | some active => throw (conflict active.id)
  | none => createJob kind tenantId documentId none

def enqueueIngestion (context : RequestContext) (tenantId documentId : Uuid) : Service JobRow := do
  match ← perform (.findDocument tenantId documentId) with
  | none => throw (.documentNotFoundError documentId)
  | some _ =>
    let job ← insertUnlessActive .ingestion .ingestionJobConflictError tenantId documentId
    perform (.insertAudit tenantId context.actor context.requestId "ingestion.enqueue".toList
      "ingestion_job".toList (some job.id)
      (some (.obj [("document_id".toList, .str (Uuid.str documentId))])))
    return job

/-- `get_ingestion_job`, `get_extraction_job` and `get_change_report_job`. -/
def getJob (kind : JobKind) (tenantId jobId : Uuid) : Service JobRow := do
  require (.jobNotFoundError kind jobId) (← perform (.findJob kind tenantId jobId))

def getIngestionJob (tenantId jobId : Uuid) : Service JobRow := getJob .ingestion tenantId jobId

/-! ## The worker's part -/

/-- `texts[start : start + _EMBED_BATCH]` for every `start`. -/
def batches (texts : List Str) : List (List Str) :=
  if texts = [] then [] else texts.take EMBED_BATCH :: batches (texts.drop EMBED_BATCH)
termination_by texts.length
decreasing_by
  rename_i hne
  have := List.length_pos_iff.mpr hne
  simp only [List.length_drop, EMBED_BATCH]
  omega

/-- One call and one usage row for each batch. -/
def embedBatches (llm : OpenAiClient) (usageSink : UsageSink) :
    List (List Str) → Service (List Embedding)
  | [] => return []
  | batch :: rest => do
    let reply ← Llm.embed llm batch
    usageSink reply.usage
    return reply.vectors ++ (← embedBatches llm usageSink rest)

def embedChunkTexts (llm : OpenAiClient) (texts : List Str) (usageSink : UsageSink) :
    Service (List Embedding) :=
  embedBatches llm usageSink (batches texts)

/-- An ingested document: the parse, its chunks and their vectors. -/
structure Ingested where
  parsed : ParsedDocument
  chunks : List Chunk
  embeddings : List Embedding

variable [Platform]

/-- `_ingest`: parse stored bytes, chunk the parsed text, embed the chunk texts. -/
def ingest (llm : OpenAiClient) (document : DocumentRow) (usageSink : UsageSink) :
    Service Ingested := do
  let content ← perform (.readFile document.tenantId document.sha256)
  let parsed ← lift ((Parsing.parse document.mimeType content).mapError .parserError)
  let chunks := chunkDocument parsed
  let embeddings ← embedChunkTexts llm (chunks.map Chunk.text) usageSink
  return ⟨parsed, chunks, embeddings⟩

omit [Platform] in
/-- After the `try`: the text and chunks, the job, the document. -/
def persist (job : JobRow) (document : DocumentRow) (ingested : Ingested) : Service Bool := do
  perform (.replaceTextAndChunks job.tenantId document.id ingested.parsed.text
    ingested.parsed.pageMap ingested.chunks ingested.embeddings)
  let _job ← markCompleted .ingestion job
    (.obj [("chunk_count".toList, .num ingested.chunks.length)])
  let _document ← setStatus document .parsed
  return true

omit [Platform] in
/-- The `except` branch. -/
def abandon (job : JobRow) (document : DocumentRow) (e : Exn) : Service Bool := do
  let _job ← markFailed .ingestion job e.str
  let _document ← setStatus document .failed
  return true

/-- What `run_next_ingestion_job` does with a claimed job. -/
def runClaimed (llm : OpenAiClient) (job : JobRow) : Service Bool := do
  if job.status = .failed then
    match ← perform (.findDocument job.tenantId job.documentId) with
    | none => return true
    | some document =>
      let _document ← setStatus document .failed
      return true
  match ← perform (.findDocument job.tenantId job.documentId) with
  | none =>
    let _job ← markFailed .ingestion job
      ("document ".toList ++ Uuid.str job.documentId ++ " vanished after enqueue".toList)
    return true
  | some document =>
    let usageSink := Usage.sink [] job.tenantId .ingestion (some job.id)
    -- the outcome of the `try` block decides between its `except` branch and what follows it
    match ← (ingest llm document usageSink).attempt with
    | .error e => abandon job document e
    | .ok ingested => persist job document ingested

def runNextIngestionJob (llm : OpenAiClient) : Service Bool := do
  match ← claimNextQueued .ingestion with
  | none => return false
  | some job => runClaimed llm job

end ContractIntel.Ingestion
