import ContractIntel.Services.Ingestion

/-!
# Obligation extraction (`app/services/extraction.py`)

The worker's `try` catches `LlmError` and `ValueError` only; everything else a call or a statement
raises goes through.
-/

namespace ContractIntel.Extraction

open Jobs (JobRow)
open Llm (OpenAiClient UsageSink)
open Repositories

def CITATION_ATTEMPTS : Nat := 2

/-! ## The citation gate -/

/-- `str(n)` of an integer. -/
def intStr (n : Int) : Str := if n < 0 then '-' :: Str.ofNat n.natAbs else Str.ofNat n.natAbs

/-- `0 <= span.char_start < span.char_end <= len(text)`. -/
def grounded (text : Str) (c : Citation) : Bool :=
  0 ≤ c.charStart && c.charStart < c.charEnd && c.charEnd ≤ text.length

def rejection (c : Citation) : Str :=
  "span [".toList ++ intStr c.charStart ++ ", ".toList ++ intStr c.charEnd ++
    ") outside the document text".toList

/-- `_split_cited`: the grounded items, and the messages for the others. -/
def splitCited (extraction : ObligationExtraction) (text : Str) :
    ObligationExtraction × List Str :=
  (⟨extraction.obligations.filter (grounded text ·.citation),
      extraction.definedTerms.filter (grounded text ·.citation)⟩,
    ((extraction.obligations.map Obligation.citation ++
        extraction.definedTerms.map DefinedTerm.citation).filter (!grounded text ·)).map rejection)

def extractionPrompt (documentText : Str) : Str :=
  "Extract the obligations and defined terms from this agreement text:\n\n".toList ++ documentText

/-- The loop of `extract_obligations`, with so many attempts left. -/
def extractAttempts (llm : OpenAiClient) (documentText : Str) (usageSink : UsageSink) :
    Nat → Service ObligationExtraction
  | 0 => throw (.assertionError "unreachable: _CITATION_ATTEMPTS >= 1".toList)
  | left + 1 => do
    let reply ← Llm.completeStructured llm .obligationExtraction (extractionPrompt documentText)
    usageSink reply.usage
    let (kept, rejected) := splitCited reply.data documentText
    if rejected = [] then return reply.data
    if 0 < left then extractAttempts llm documentText usageSink left
    else if kept.obligations = [] ∧ kept.definedTerms = [] then
      throw (.llmOutputError ("model output failed citation validation: ".toList ++
        "every item cited a span outside the document text".toList) none)
    else return kept

def extractObligations (llm : OpenAiClient) (documentText : Str) (usageSink : UsageSink) :
    Service ObligationExtraction :=
  extractAttempts llm documentText usageSink CITATION_ATTEMPTS

/-! ## Enqueueing -/

def enqueueExtraction (context : RequestContext) (tenantId documentId : Uuid) :
    Service JobRow := do
  match ← perform (.findDocument tenantId documentId) with
  | none => throw (.documentNotFoundError documentId)
  | some document =>
    if document.status ≠ .parsed then
      let latest ← perform (.findLatestJob .ingestion documentId)
      throw (.documentNotParsedError (latest.map JobRow.id))
    let job ← Ingestion.insertUnlessActive .extraction .extractionJobConflictError tenantId
      documentId
    perform (.insertAudit tenantId context.actor context.requestId "extraction.enqueue".toList
      "extraction_job".toList (some job.id)
      (some (.obj [("document_id".toList, .str (Uuid.str documentId))])))
    return job

def getExtractionJob (tenantId jobId : Uuid) : Service JobRow :=
  Ingestion.getJob .extraction tenantId jobId

/-! ## The worker's part -/

/-- The body of the `try`. -/
def extract (llm : OpenAiClient) (job : JobRow) (usageSink : UsageSink) :
    Service ObligationExtraction := do
  match ← perform (.findDocument job.tenantId job.documentId) with
  | none =>
    throw (.valueError
      ("document ".toList ++ Uuid.str job.documentId ++ " vanished after enqueue".toList))
  | some _ =>
    match ← perform (.findText job.documentId) with
    | none =>
      throw (.valueError ("document ".toList ++ Uuid.str job.documentId ++
        " has no parsed text; extraction requires a completed ingestion".toList))
    | some row => extractObligations llm row.text usageSink

/-- The review candidates of an extraction: obligations, then defined terms. -/
def reviewCandidates (extraction : ObligationExtraction) : List (Str × Json × Rat) :=
  (extraction.obligations.map fun o => ("obligation".toList, o.modelDump, o.confidence)) ++
    extraction.definedTerms.map fun t => ("defined_term".toList, t.modelDump, t.confidence)

/-- After the `try`: the job, then the review items. -/
def finish (job : JobRow) (extraction : ObligationExtraction) (reviewThreshold : Rat) :
    Service Bool := do
  let _job ← markCompleted .extraction job extraction.modelDump
  let _count ← ReviewQueue.routeForReview job.tenantId .extraction job.documentId job.id
    (reviewCandidates extraction) reviewThreshold
  return true

/-- An `except (LlmError, ValueError)` branch of the two handlers: other exceptions go through. -/
def abandon (kind : JobKind) (job : JobRow) (usageSink : UsageSink) (e : Exn) : Service Bool :=
  if e.isLlmErrorOrValueError then do
    let _job ← markFailed kind job e.str
    Usage.accountRejectedOutput e usageSink
    return true
  else throw e

/-- What `run_next_extraction_job` does with a claimed job. -/
def runClaimed (llm : OpenAiClient) (reviewThreshold : Rat) (job : JobRow) : Service Bool := do
  if job.status = .failed then return true
  let usageSink := Usage.sink [] job.tenantId .extraction (some job.id)
  match ← (extract llm job usageSink).attempt with
  | .error e => abandon .extraction job usageSink e
  | .ok extraction => finish job extraction reviewThreshold

def runNextExtractionJob (llm : OpenAiClient) (reviewThreshold : Rat) : Service Bool := do
  match ← claimNextQueued .extraction with
  | none => return false
  | some job => runClaimed llm reviewThreshold job

end ContractIntel.Extraction
