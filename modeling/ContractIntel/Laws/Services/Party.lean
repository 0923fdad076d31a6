import ContractIntel.Laws.Services.Workers
import ContractIntel.Services.Party

/-!
# What the parties do

Requests look up, insert and delete documents and their files, insert jobs and record audit rows;
workers do what workers do; a resolution fetches its item and resolves it (`Party.program_performs`).
-/

namespace ContractIntel

open Lib.Prog (Performs)
open Repositories

/-- The operations of uploads and deletes. -/
def Op.ofDocuments : Op → Bool
  | .findDocument .. | .findDocumentBySha256 .. | .readDocument .. | .hasAmendments ..
  | .insertDocument .. | .deleteSweep .. | .insertAudit .. | .rollback | .saveFile ..
  | .unlinkFile .. => true
  | _ => false

/-- The operations of uploads, deletes and enqueues. -/
def Op.ofRequest : Op → Bool
  | .findDocument .. | .findDocumentBySha256 .. | .readDocument .. | .hasAmendments ..
  | .insertDocument .. | .deleteSweep .. | .readJob .. | .findActiveJob .. | .findLatestJob ..
  | .insertJob .. | .insertAudit .. | .rollback | .saveFile .. | .unlinkFile .. => true
  | _ => false

theorem Op.ofRequest_of_ofDocuments {o : Op} (h : o.ofDocuments = true) : o.ofRequest = true := by
  cases o <;> first | rfl | cases h

/-- A program made of operations of uploads and deletes. -/
abbrev DocumentProgram {α : Type} (p : Service α) : Prop := p.Performs fun o => o.ofDocuments = true

/-- A program made of operations of uploads, deletes and enqueues. -/
abbrev RequestProgram {α : Type} (p : Service α) : Prop := p.Performs fun o => o.ofRequest = true

theorem DocumentProgram.request {α : Type} {p : Service α} (h : DocumentProgram p) :
    RequestProgram p :=
  h.mono fun _ _ => Op.ofRequest_of_ofDocuments

/-! ## Checks -/

section Checks

variable {P : Op → Prop}

/-- The check of a parent is one lookup. -/
theorem checkParent_performs (h : ∀ tenantId documentId, P (.findDocument tenantId documentId))
    {request : Documents.UploadRequest} : (Documents.checkParent request).Performs P := by
  unfold Documents.checkParent
  cases request.amendsDocumentId with
  | none => exact .ret _
  | some parent =>
    refine .bind (.call (h _ _)) fun found => ?_
    cases found with
    | none => exact .raise _
    | some document => exact .ret _

/-- The check of a version is a lookup of its latest job. -/
theorem requireVersion_performs (h : ∀ kind documentId, P (.findLatestJob kind documentId))
    {document : DocumentRow} : (ChangeReport.requireVersion document).Performs P := by
  unfold ChangeReport.requireVersion
  split
  · exact .bind (.call (h _ _)) fun _ => .raise _
  · refine .bind (.call (h _ _)) fun latest => ?_
    cases latest with
    | none => exact .raise _
    | some latest =>
      dsimp only
      split
      · exact .raise _
      · exact .ret _

end Checks

/-! ## Documents -/

namespace DocumentProgram

theorem checkParent (request : Documents.UploadRequest) :
    DocumentProgram (Documents.checkParent request) :=
  checkParent_performs fun _ _ => rfl

theorem insertUploaded (request : Documents.UploadRequest) (sha256 : Str) :
    DocumentProgram (Documents.insertUploaded request sha256) := by
  refine .tryCatch (createDocument_performs rfl fun _ => rfl) fun e => ?_
  split
  · exact .bind (.call rfl) fun _ => .bind (.call rfl) fun _ => .raise _
  · exact .raise _

theorem uploadDocument [Platform] (context : RequestContext) (request : Documents.UploadRequest) :
    DocumentProgram (Documents.uploadDocument context request) := by
  refine .bind (.ofResult _) fun checked => .bind (checkParent request) fun _ => ?_
  refine .bind (.call rfl) fun found => ?_
  cases found with
  | some existing => exact .raise _
  | none =>
    refine .bind ?_ fun document => .bind (.call rfl) fun _ => .ret _
    exact .bind (.call rfl) fun _ => insertUploaded _ _

theorem sweep (documentId : Uuid) : DocumentProgram (Documents.sweep documentId) := by
  refine .tryCatch (.call rfl) fun e => ?_
  split
  · refine .bind (.call rfl) fun _ => .bind (.call rfl) fun amended => ?_
    cases amended <;> exact .raise _
  · exact .raise _

theorem deleteDocument (context : RequestContext) (tenantId documentId : Uuid) :
    DocumentProgram (Documents.deleteDocument context tenantId documentId) := by
  refine .bind (.bind (.call rfl) fun _ => require_performs _ _) fun document => ?_
  refine .bind (.call rfl) fun amended => ?_
  cases amended with
  | true => exact .raise _
  | false =>
    exact .bind (sweep _) fun _ => .bind (.call rfl) fun _ => .call rfl

end DocumentProgram

/-! ## Enqueues -/

namespace RequestProgram

theorem insertUnlessActive (kind : JobKind) (conflict : Uuid → Exn) (tenantId documentId : Uuid) :
    RequestProgram (Ingestion.insertUnlessActive kind conflict tenantId documentId) := by
  refine .bind (.call rfl) fun active => ?_
  cases active with
  | some job => exact .raise _
  | none => exact createJob_performs rfl fun _ => rfl

theorem enqueueIngestion (context : RequestContext) (tenantId documentId : Uuid) :
    RequestProgram (Ingestion.enqueueIngestion context tenantId documentId) := by
  refine .bind (.call rfl) fun found => ?_
  cases found with
  | none => exact .raise _
  | some document =>
    exact .bind (insertUnlessActive _ _ _ _) fun _ => .bind (.call rfl) fun _ => .ret _

theorem enqueueExtraction (context : RequestContext) (tenantId documentId : Uuid) :
    RequestProgram (Extraction.enqueueExtraction context tenantId documentId) := by
  refine .bind (.call rfl) fun found => ?_
  cases found with
  | none => exact .raise _
  | some document =>
    have hinsert := insertUnlessActive .extraction .extractionJobConflictError tenantId documentId
    dsimp only
    split
    · exact .bind (.call rfl) fun _ => .raise _
    · exact .bind hinsert fun _ => .bind (.call rfl) fun _ => .ret _

theorem requireVersion (document : DocumentRow) :
    RequestProgram (ChangeReport.requireVersion document) :=
  requireVersion_performs fun _ _ => rfl

theorem enqueueChangeReport (context : RequestContext) (tenantId baseId amendedId : Uuid) :
    RequestProgram (ChangeReport.enqueueChangeReport context tenantId baseId amendedId) := by
  refine .bind (.call rfl) fun _ => .bind (require_performs _ _) fun base => ?_
  refine .bind (.call rfl) fun _ => .bind (require_performs _ _) fun amended => ?_
  have hrest : RequestProgram ((ChangeReport.requireVersion base).bind fun _ =>
      (ChangeReport.requireVersion amended).bind fun _ =>
        (Repositories.createJob .changeReport tenantId base.id (some amended.id)).bind fun job =>
          (perform (.insertAudit tenantId context.actor context.requestId
            "change_report.enqueue".toList "change_report_job".toList (some job.id)
            (some (.obj [("base_document_id".toList, .str (Uuid.str base.id)),
              ("amended_document_id".toList, .str (Uuid.str amended.id))])))).bind
            fun _ => .ret job) :=
    .bind (requireVersion _) fun _ => .bind (requireVersion _) fun _ =>
      .bind (createJob_performs rfl fun _ => rfl) fun _ => .bind (.call rfl) fun _ => .ret _
  dsimp only
  split
  · exact .raise _
  · exact hrest

end RequestProgram

/-! ## Parties -/

/-- The operations of a party. -/
inductive Party.Does : Party → Op → Prop
  | request {party : Party} {o : Op} (h : o.ofRequest = true) : Does party o
  | worker {party : Party} {o : Op} (h : o.ofIngestion = true) : Does party o
  | fetch (context : RequestContext) (tenantId itemId : Uuid)
      (request : ReviewQueue.ReviewDispositionCreate) :
      Does (.resolveReviewItem context tenantId itemId request) (.findReviewItem tenantId itemId)
  | resolve (context : RequestContext) (tenantId itemId : Uuid)
      (request : ReviewQueue.ReviewDispositionCreate) :
      Does (.resolveReviewItem context tenantId itemId request)
        (.resolveReviewItem tenantId itemId request.disposition.status request.correctedValues)

theorem Party.program_performs [Ucd] [Platform] (party : Party) :
    party.program.Performs party.Does := by
  have hrequest : ∀ {α : Type} {p : Service α}, RequestProgram p → p.Performs party.Does :=
    fun h => h.mono fun _ _ => .request
  have hworker : ∀ {α : Type} {p : Service α}, IngestionProgram p → p.Performs party.Does :=
    fun h => h.mono fun _ _ => .worker
  cases party with
  | documents request =>
    cases request with
    | upload context request =>
      exact .bind (hrequest (DocumentProgram.uploadDocument context request).request) fun _ => .ret _
    | delete context tenantId documentId =>
      exact hrequest (DocumentProgram.deleteDocument context tenantId documentId).request
  | activity work =>
    cases work with
    | enqueueIngestion context tenantId documentId =>
      exact .bind (hrequest (.enqueueIngestion context tenantId documentId)) fun _ => .ret _
    | enqueueExtraction context tenantId documentId =>
      exact .bind (hrequest (.enqueueExtraction context tenantId documentId)) fun _ => .ret _
    | ingestionWorker llm => exact .bind (hworker (WorkerProgram.runNextIngestionJob llm)) fun _ => .ret _
    | extractionWorker llm threshold =>
      exact .bind (hworker (WorkerProgram.runNextExtractionJob llm threshold).ingestion) fun _ => .ret _
  | enqueueChangeReport context tenantId baseId amendedId =>
    exact .bind (hrequest (.enqueueChangeReport context tenantId baseId amendedId)) fun _ => .ret _
  | changeReportWorker llm threshold =>
    exact .bind (hworker (WorkerProgram.runNextChangeReportJob llm threshold).ingestion) fun _ => .ret _
  | resolveReviewItem context tenantId itemId request =>
    refine .bind (.bind (.bind (.call (.fetch context tenantId itemId request)) fun found => ?_)
      fun item => .bind (.call (.resolve context tenantId itemId request)) fun resolved => ?_)
      fun _ => .ret _
    · cases found <;> trivial
    · cases resolved with
      | none => exact .raise _
      | some row => exact .bind (.call (.request rfl)) fun _ => .ret _

end ContractIntel
