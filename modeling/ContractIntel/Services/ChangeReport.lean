import ContractIntel.Services.Impact

/-!
# Change reports (`app/services/change_report.py`)

A report diffs two parsed texts, has the changes explained in one call and each change's impacts
mapped in one call per change, all inside one `try` that catches `LlmError` and `ValueError`. The
result is assembled from strict zips after the `try`.
-/

namespace ContractIntel.ChangeReport

open Diffing (Change Span detectChanges)
open Impact (CANDIDATE_LIMIT excerpt excerptLines kindValue clauseLabel mapChangeImpacts
  selectCandidates)
open Jobs (JobRow)
open Llm (OpenAiClient UsageSink)
open Repositories

def IMPACT_CHUNK_LIMIT : Nat := 5

/-! ## Enqueueing -/

/-- The two prerequisites of one version: ingestion first, then extraction. -/
def requireVersion (document : DocumentRow) : Service Unit := do
  if document.status ≠ .parsed then
    let latest ← perform (.findLatestJob .ingestion document.id)
    throw (.prerequisiteMissingError document.id .ingestion (latest.map JobRow.id))
  match ← perform (.findLatestJob .extraction document.id) with
  | none => throw (.prerequisiteMissingError document.id .extraction none)
  | some latest =>
    if latest.status ≠ .completed then
      throw (.prerequisiteMissingError document.id .extraction (some latest.id))

def enqueueChangeReport (context : RequestContext) (tenantId baseDocumentId amendedDocumentId : Uuid) :
    Service JobRow := do
  let base ← require (.documentNotFoundError baseDocumentId)
    (← perform (.findDocument tenantId baseDocumentId))
  let amended ← require (.documentNotFoundError amendedDocumentId)
    (← perform (.findDocument tenantId amendedDocumentId))
  if amended.amendsDocumentId ≠ some base.id then
    throw (.amendmentMismatchError base.id amended.id)
  requireVersion base
  requireVersion amended
  let job ← createJob .changeReport tenantId base.id (some amended.id)
  perform (.insertAudit tenantId context.actor context.requestId "change_report.enqueue".toList
    "change_report_job".toList (some job.id)
    (some (.obj [("base_document_id".toList, .str (Uuid.str base.id)),
      ("amended_document_id".toList, .str (Uuid.str amended.id))])))
  return job

def listChangeReportJobs (tenantId baseDocumentId : Uuid) : Service (List JobRow) := do
  let _document ← require (.documentNotFoundError baseDocumentId)
    (← perform (.findDocument tenantId baseDocumentId))
  perform (.listReports tenantId baseDocumentId)

def getChangeReportJob (tenantId jobId : Uuid) : Service JobRow :=
  Ingestion.getJob .changeReport tenantId jobId

/-! ## Explanations -/

def explanationPrompt (changes : List Change) (baseText amendedText : Str) : Str :=
  Str.join ['\n'] <|
    "Explain each of these changes between the base agreement and its amendment.".toList ::
    changes.zipIdx.flatMap fun entry =>
      ("Change ".toList ++ Str.ofNat entry.2 ++ " (".toList ++ kindValue entry.1.kind ++
        ", clause ".toList ++ clauseLabel entry.1 ++ "):".toList) ::
      excerptLines entry.1 baseText amendedText

/-- `by_index[index]`: of two explanations with one index the later one is kept. -/
def explanationAt (explanations : List ChangeExplanation) (index : Nat) :
    Except Exn ChangeExplanation :=
  match explanations.reverse.find? (·.index = (index : Int)) with
  | some explanation => .ok explanation
  | none => .error (.keyError (Str.ofNat index))

/-- The keys of `by_index` are exactly `0..n-1`. -/
def coversIndices (explanations : List ChangeExplanation) (n : Nat) : Bool :=
  (explanations.all fun e => 0 ≤ e.index && e.index < (n : Int)) &&
    (List.range n).all fun i => explanations.any fun e => e.index = (i : Int)

/-- The explanations in the order of the changes. -/
def readExplanations (explanations : List ChangeExplanation) (n : Nat) :
    Except Exn (List ChangeExplanation) :=
  if coversIndices explanations n then (List.range n).mapM (explanationAt explanations)
  else .error (.llmOutputError ("model output failed change-index validation: ".toList ++
    "expected exactly one explanation per index 0..".toList ++ Extraction.intStr (n - 1)) none)

def explainChanges (llm : OpenAiClient) (changes : List Change) (baseText amendedText : Str)
    (usageSink : UsageSink) : Service (List ChangeExplanation) := do
  if changes = [] then return []
  let reply ← Llm.completeStructured llm .changeExplanations
    (explanationPrompt changes baseText amendedText)
  usageSink reply.usage
  lift (readExplanations reply.data changes.length)

/-! ## Impacts -/

section Impacts

variable [Platform]

/-- `_base_obligations`, off the latest extraction job if that one is completed. A stored result
that no longer validates skips impact mapping. -/
def baseObligations (documentId : Uuid) : Service (List Obligation) := do
  match ← perform (.findLatestJob .extraction documentId) with
  | none => return []
  | some latest =>
    if latest.status ≠ .completed then return []
    match latest.result with
    | none => return []
    | some result =>
      match Platform.validateExtraction result with
      | none => return []
      | some extraction => return extraction.obligations

omit [Platform] in
/-- `_impact_query`: the amendment's wording, the base wording of a removal. -/
def impactQuery (change : Change) (baseText amendedText : Str) : Option Str :=
  match change.amendedSpan, change.baseSpan with
  | some span, _ => some (excerpt amendedText span)
  | none, some span => some (excerpt baseText span)
  | none, none => none

/-- An impact as the report stores it. -/
structure ImpactEntry where
  clauseRef : Str
  description : Str
  owner : Option Str
  confidence : Rat

omit [Platform] in
/-- The chunks of the base document nearest to a change. -/
def recalled (llm : OpenAiClient) (tenantId baseDocumentId : Uuid) (baseText amendedText : Str)
    (usageSink : UsageSink) (change : Change) : Service (List Search.SearchHit) :=
  match impactQuery change baseText amendedText with
  | none => return []
  | some query =>
    Search.searchDocument llm tenantId baseDocumentId query IMPACT_CHUNK_LIMIT usageSink

omit [Platform] in
def mapChange (llm : OpenAiClient) (tenantId baseDocumentId : Uuid) (obligations : List Obligation)
    (baseText amendedText : Str) (usageSink : UsageSink) (change : Change) :
    Service (List ImpactEntry) := do
  let hits ← recalled llm tenantId baseDocumentId baseText amendedText usageSink change
  let candidates := selectCandidates obligations hits CANDIDATE_LIMIT
  let mapped ← mapChangeImpacts llm change candidates baseText amendedText usageSink
  return mapped.map fun m => ⟨m.1.clauseRef, m.1.description, m.1.owner, m.2⟩

omit [Platform] in
/-- The loop over the changes. -/
def mapEach (map : Change → Service (List ImpactEntry)) :
    List Change → Service (List (List ImpactEntry))
  | [] => return []
  | change :: rest => do
    let impacts ← map change
    return impacts :: (← mapEach map rest)

def mapImpacts (llm : OpenAiClient) (tenantId baseDocumentId : Uuid) (changes : List Change)
    (baseText amendedText : Str) (usageSink : UsageSink) : Service (List (List ImpactEntry)) := do
  let obligations ← baseObligations baseDocumentId
  if obligations = [] then return changes.map fun _ => []
  mapEach (mapChange llm tenantId baseDocumentId obligations baseText amendedText usageSink) changes

end Impacts

/-! ## The worker's part -/

def parsedText (documentId : Uuid) : Service Str := do
  match ← perform (.findText documentId) with
  | none =>
    throw (.valueError ("document ".toList ++ Uuid.str documentId ++
      " has no parsed text; change reports require completed ingestions".toList))
  | some row => return row.text

/-- What the `try` block computes. -/
structure Findings where
  baseText : Str
  amendedText : Str
  changes : List Change
  explanations : List ChangeExplanation
  impacts : List (List ImpactEntry)

/-- The `ValueError` of the text functions. -/
def textError (e : ValueError) : Exn := .valueError e.message.toList

/-- The body of the `try`. A change report job names its amendment. -/
def examine [Ucd] [Platform] (llm : OpenAiClient) (job : JobRow) (usageSink : UsageSink) :
    Service Findings := do
  let baseText ← parsedText job.documentId
  let amendedText ← parsedText (job.amendedDocumentId.getD 0)
  let changes ← lift ((detectChanges baseText amendedText).mapError textError)
  let explanations ← explainChanges llm changes baseText amendedText usageSink
  let impacts ← mapImpacts llm job.tenantId job.documentId changes baseText amendedText usageSink
  return ⟨baseText, amendedText, changes, explanations, impacts⟩

/-- `zip(xs, ys, strict=True)`. -/
def zipStrict {α β : Type} : List α → List β → Except Exn (List (α × β))
  | [], [] => .ok []
  | x :: xs, y :: ys => (zipStrict xs ys).map ((x, y) :: ·)
  | _, _ => .error (.valueError "zip() argument lengths differ".toList)

def spanJson : Option Span → Json
  | none => .null
  | some span =>
    .obj [("char_start".toList, .num span.charStart), ("char_end".toList, .num span.charEnd)]

def ImpactEntry.json (impact : ImpactEntry) : List (Str × Json) :=
  [("clause_ref".toList, .str impact.clauseRef), ("description".toList, .str impact.description),
    ("owner".toList, .ofOption impact.owner), ("confidence".toList, .num impact.confidence)]

/-- One entry of `result["changes"]`. -/
def reportEntry (baseText amendedText : Str) (change : Change) (explanation : ChangeExplanation)
    (impacts : List ImpactEntry) : Json :=
  .obj [("kind".toList, .str (kindValue change.kind)),
    ("clause_ref".toList, .ofOption change.clauseRef),
    ("base_span".toList, spanJson change.baseSpan),
    ("amended_span".toList, spanJson change.amendedSpan),
    ("base_excerpt".toList, .ofOption (change.baseSpan.map (excerpt baseText))),
    ("amended_excerpt".toList, .ofOption (change.amendedSpan.map (excerpt amendedText))),
    ("description".toList, .str explanation.description),
    ("severity".toList, .str explanation.severity.value),
    ("impacts".toList, .arr (impacts.map fun impact => .obj impact.json))]

/-- `_review_change`. -/
def reviewChange (change : Change) (explanation : ChangeExplanation) : Json :=
  .obj [("kind".toList, .str (kindValue change.kind)),
    ("clause_ref".toList, .ofOption change.clauseRef),
    ("severity".toList, .str explanation.severity.value),
    ("description".toList, .str explanation.description)]

/-- The review candidates of one change. -/
def reviewCandidates (change : Change) (explanation : ChangeExplanation)
    (impacts : List ImpactEntry) : List (Str × Json × Rat) :=
  impacts.map fun impact => ("impact".toList,
    .obj (impact.json ++ [("change".toList, reviewChange change explanation)]), impact.confidence)

/-- The strict zip of changes, explanations and impacts. -/
def Findings.zipped (f : Findings) :
    Except Exn (List (Change × ChangeExplanation × List ImpactEntry)) := do
  zipStrict f.changes (← zipStrict f.explanations f.impacts)

/-- After the `try`: the result, the job, the review items. -/
def finish (job : JobRow) (findings : Findings) (reviewThreshold : Rat) : Service Bool := do
  let rows ← lift findings.zipped
  let _job ← markCompleted .changeReport job (.obj [("changes".toList, .arr (rows.map fun row =>
    reportEntry findings.baseText findings.amendedText row.1 row.2.1 row.2.2))])
  let _count ← ReviewQueue.routeForReview job.tenantId .impactMapping job.documentId job.id
    (rows.flatMap fun row => reviewCandidates row.1 row.2.1 row.2.2) reviewThreshold
  return true

/-- What `run_next_change_report_job` does with a claimed job. -/
def runClaimed [Ucd] [Platform] (llm : OpenAiClient) (reviewThreshold : Rat) (job : JobRow) :
    Service Bool := do
  if job.status = .failed then return true
  let usageSink := Usage.sink [] job.tenantId .changeReport (some job.id)
  match ← (examine llm job usageSink).attempt with
  | .error e => Extraction.abandon .changeReport job usageSink e
  | .ok findings => finish job findings reviewThreshold

def runNextChangeReportJob [Ucd] [Platform] (llm : OpenAiClient) (reviewThreshold : Rat) :
    Service Bool := do
  match ← claimNextQueued .changeReport with
  | none => return false
  | some job => runClaimed llm reviewThreshold job

end ContractIntel.ChangeReport
