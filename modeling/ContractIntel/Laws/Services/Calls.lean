import ContractIntel.Laws.Services.Documents
import ContractIntel.Laws.Services.Party
import ContractIntel.Services.Requests
import ContractIntel.Services.Search

/-!
# What the calls do

What a call inserts, sweeps and resolves is what it was made for, what it records names the context it
was made in, and what it saves it saves under its digest (`Call.program_performs`).
-/

namespace ContractIntel

open Lib.Prog (Performs)
open Repositories

/-- The context that a call audits. -/
def Call.context : Call → Option RequestContext
  | .uploadDocument context _ | .deleteDocument context _ | .enqueueIngestion context _
  | .enqueueExtraction context _ | .enqueueChangeReport context _ _
  | .resolveReviewItem context _ _ => some context
  | _ => none

/-- The queue that a call inserts into. -/
def Call.enqueues : Call → Option JobKind
  | .enqueueIngestion .. => some .ingestion
  | .enqueueExtraction .. => some .extraction
  | .enqueueChangeReport .. => some .changeReport
  | _ => none

/-- The operations of a call. -/
def Call.Does (work : Call) : Op → Prop
  | .insertDocument .. | .saveFile .. => ∃ context request, work = .uploadDocument context request
  | .hasAmendments _ | .deleteSweep _ => ∃ context documentId, work = .deleteDocument context documentId
  | .insertJob kind .. => work.enqueues = some kind
  | .resolveReviewItem _ itemId status _ => ∃ context request,
      work = .resolveReviewItem context itemId request ∧ status = request.disposition.status
  | .insertAudit _ actor requestId .. => work.context = some ⟨requestId, actor⟩
  | .setDocumentStatus .. | .claimJob _ | .completeJob .. | .failJob .. | .findText _
  | .replaceTextAndChunks .. | .rankBySimilarity .. | .rankByFullText .. | .insertUsage ..
  | .insertReviewItems .. | .readFile .. | .parseChat .. | .createEmbeddings .. => False
  | _ => True

/-- What an upload does once its bytes are saved. -/
theorem insertUploaded_performs {P : Op → Prop} {request : Documents.UploadRequest} {sha256 : Str}
    (hinsert : ∀ tenantId filename mimeType sha256 amends,
      P (.insertDocument tenantId filename mimeType sha256 amends))
    (hread : ∀ id, P (.readDocument id)) (hrollback : P .rollback)
    (hfind : ∀ tenantId sha256, P (.findDocumentBySha256 tenantId sha256)) :
    (Documents.insertUploaded request sha256).Performs P := by
  refine .tryCatch (createDocument_performs (hinsert _ _ _ _ _) hread) fun e => ?_
  split
  · exact .bind (.call hrollback) fun _ => .bind (.call (hfind _ _)) fun _ => .raise _
  · exact .raise _

/-- A program of operations of a call. -/
abbrev CallProgram (work : Call) {α : Type} (p : Service α) : Prop := p.Performs work.Does

namespace CallProgram

variable {tenantId documentId : Uuid} {context : RequestContext}

theorem uploadDocument [Platform] {asked : Documents.UploadRequest}
    (request : Documents.UploadRequest) : CallProgram (.uploadDocument context asked)
      (Documents.uploadDocument context request) := by
  refine .bind (.ofResult _) fun checked => .bind (checkParent_performs fun _ _ => trivial) fun _ => ?_
  refine .bind (.call trivial) fun found => ?_
  cases found with
  | some existing => exact .raise _
  | none =>
    have hasked : ∃ c r, Call.uploadDocument context asked = .uploadDocument c r := ⟨_, _, rfl⟩
    exact .bind (.bind (.call hasked) fun _ => insertUploaded_performs (fun _ _ _ _ _ => hasked)
      (fun _ => trivial) trivial fun _ _ => trivial) fun document => .bind (.call rfl) fun _ => .ret _

theorem deleteDocument : CallProgram (.deleteDocument context documentId)
    (Documents.deleteDocument context tenantId documentId) := by
  refine .bind (.bind (.call trivial) fun _ => require_performs _ _) fun document => ?_
  refine .bind (.call ⟨context, documentId, rfl⟩) fun amended => ?_
  cases amended with
  | true => exact .raise _
  | false =>
    refine .bind (.tryCatch (.call ⟨context, documentId, rfl⟩) fun e => ?_) fun _ =>
      .bind (.call trivial) fun _ => .call rfl
    split
    · refine .bind (.call trivial) fun _ => .bind (.call ⟨context, documentId, rfl⟩) fun amended => ?_
      cases amended <;> exact .raise _
    · exact .raise _

theorem insertUnlessActive {work : Call} {kind : JobKind} (h : work.enqueues = some kind)
    (conflict : Uuid → Exn) :
    CallProgram work (Ingestion.insertUnlessActive kind conflict tenantId documentId) := by
  refine .bind (.call trivial) fun active => ?_
  cases active with
  | some job => exact .raise _
  | none => exact createJob_performs h fun _ => trivial

theorem enqueueIngestion : CallProgram (.enqueueIngestion context documentId)
    (Ingestion.enqueueIngestion context tenantId documentId) := by
  refine .bind (.call trivial) fun found => ?_
  cases found with
  | none => exact .raise _
  | some document =>
    exact .bind (insertUnlessActive rfl _) fun _ => .bind (.call rfl) fun _ => .ret _

theorem enqueueExtraction : CallProgram (.enqueueExtraction context documentId)
    (Extraction.enqueueExtraction context tenantId documentId) := by
  refine .bind (.call trivial) fun found => ?_
  cases found with
  | none => exact .raise _
  | some document =>
    dsimp only
    split
    · exact .bind (.call trivial) fun _ => .raise _
    · exact .bind (insertUnlessActive rfl _) fun _ => .bind (.call rfl) fun _ => .ret _

theorem enqueueChangeReport {baseId amendedId : Uuid} :
    CallProgram (.enqueueChangeReport context baseId amendedId)
      (ChangeReport.enqueueChangeReport context tenantId baseId amendedId) := by
  have hversion : ∀ document, CallProgram (.enqueueChangeReport context baseId amendedId)
      (ChangeReport.requireVersion document) :=
    fun _ => requireVersion_performs fun _ _ => trivial
  refine .bind (.call trivial) fun _ => .bind (require_performs _ _) fun base => ?_
  refine .bind (.call trivial) fun _ => .bind (require_performs _ _) fun amended => ?_
  dsimp only
  split
  · exact .raise _
  · exact .bind (hversion _) fun _ => .bind (hversion _) fun _ =>
      .bind (createJob_performs rfl fun _ => trivial) fun _ => .bind (.call rfl) fun _ => .ret _

theorem resolveReviewItem {itemId : Uuid} {request : ReviewQueue.ReviewDispositionCreate} :
    CallProgram (.resolveReviewItem context itemId request)
      (ReviewQueue.resolveReviewItem context tenantId itemId request) := by
  refine .bind (.bind (.call trivial) fun _ => require_performs _ _) fun _ =>
    .bind (.call ⟨context, request, rfl, rfl⟩) fun resolved => ?_
  cases resolved with
  | none => exact .raise _
  | some row => exact .bind (.call rfl) fun _ => .ret _

end CallProgram

/-- A call does what it was made for, in the context it was made in. -/
theorem Call.program_performs [Platform] {tenantId : Uuid} (work : Call) :
    CallProgram work (work.program tenantId) := by
  cases work with
  | uploadDocument context request => exact .uploadDocument { request with tenantId }
  | getDocument => exact .bind (.call trivial) fun _ => require_performs _ _
  | listDocuments => exact .bind (.call trivial) fun _ => .bind (.call trivial) fun _ => .ret _
  | resolveDocumentFile =>
    refine .bind (.bind (.call trivial) fun _ => require_performs _ _) fun _ =>
      .bind (.call trivial) fun found => ?_
    cases found with
    | false => exact .raise _
    | true => exact .ret _
  | deleteDocument => exact .deleteDocument
  | enqueueIngestion => exact .enqueueIngestion
  | enqueueExtraction => exact .enqueueExtraction
  | enqueueChangeReport => exact .enqueueChangeReport
  | getJob => exact .bind (.call trivial) fun _ => require_performs _ _
  | listChangeReportJobs =>
    exact .bind (.call trivial) fun _ => .bind (require_performs _ _) fun _ => .call trivial
  | listReviewItems => exact .call trivial
  | getReviewItem => exact .bind (.call trivial) fun _ => require_performs _ _
  | resolveReviewItem => exact .resolveReviewItem
  | spend groupBy =>
    cases groupBy with
    | job => exact .bind (.call trivial) fun _ => .bind (.call trivial) fun _ => .ret _
    | jobType => exact .bind (.call trivial) fun _ => .bind (.call trivial) fun _ => .ret _

/-- What an operation saves it saves under its digest, and it is something the tenant may have saved. -/
def Saves [Platform] (Saved : Uuid → Parsing.Bytes → Prop) (o : Op) : Prop :=
  ∀ tenantId sha256 content, o = .saveFile tenantId sha256 content →
    Platform.sha256 content = sha256 ∧ Saved tenantId content

theorem Saves.mono [Platform] {Saved Saved' : Uuid → Parsing.Bytes → Prop} {o : Op} (h : Saves Saved o)
    (hsaved : ∀ tenantId content, Saved tenantId content → Saved' tenantId content) : Saves Saved' o :=
  fun tenantId sha256 content ho => (h tenantId sha256 content ho).imp_right (hsaved tenantId content)

/-- The content of an upload that passes its checks. -/
def Call.Uploads [Platform] (work : Call) (content : Parsing.Bytes) : Prop :=
  ∃ context request sha256, work = .uploadDocument context request ∧
    Documents.checkUpload request = .ok (sha256, content)

/-- What a call saves is what it uploads. -/
theorem Call.program_saves [Platform] {tenantId : Uuid} (work : Call) :
    (work.program tenantId).Performs
      (Saves fun owner content => owner = tenantId ∧ work.Uploads content) := by
  have hothers : (∀ context request, work ≠ .uploadDocument context request) →
      (work.program tenantId).Performs
        (Saves fun owner content => owner = tenantId ∧ work.Uploads content) := by
    refine fun hne => work.program_performs.mono fun o _ hdoes tenant sha content ho => ?_
    subst ho
    obtain ⟨context, request, hwork⟩ := hdoes
    exact absurd hwork (hne context request)
  have hsaves : ∀ {Saved} {o : Op}, (∀ tenant sha content, o ≠ .saveFile tenant sha content) →
      Saves Saved o := fun hne _ _ _ ho => absurd ho (hne _ _ _)
  cases work with
  | uploadDocument context request =>
    show Performs _ (Documents.uploadDocument context { request with tenantId })
    unfold Documents.uploadDocument
    cases hchecked : Documents.checkUpload { request with tenantId } with
    | error e => exact .raise _
    | ok checked =>
      have hsha : Platform.sha256 checked.2 = checked.1 := Documents.checkUpload_sha256 hchecked
      show Performs _ ((Documents.checkParent _).bind _)
      refine .bind (checkParent_performs fun _ _ => hsaves (by simp)) fun _ =>
        .bind (.call (hsaves (by simp))) fun found => ?_
      cases found with
      | some existing => exact .raise _
      | none =>
        refine .bind (.bind (.call ?_) fun _ => insertUploaded_performs
          (fun _ _ _ _ _ => hsaves (by simp)) (fun _ => hsaves (by simp)) (hsaves (by simp))
          fun _ _ => hsaves (by simp)) fun _ => .bind (.call (hsaves (by simp))) fun _ => .ret _
        rintro tenant sha content ⟨⟩
        exact ⟨hsha, rfl, context, request, checked.1, rfl, hchecked⟩
  | _ => exact hothers (by simp)

/-- The operations of a search for the tenant. -/
def Op.asks (owner : Uuid) : Op → Prop
  | .createEmbeddings .. => True
  | .rankBySimilarity tenantId .. | .rankByFullText tenantId .. | .insertUsage tenantId .. =>
    tenantId = owner
  | _ => False

theorem search_performs {tenantId : Uuid} (requestId : Str) (llm : Llm.OpenAiClient) (query : Str)
    (limit : Nat) : (Search.search requestId llm tenantId query limit).Performs (Op.asks tenantId) := by
  refine .bind (.bind (.tryCatch (.call trivial) fun _ => .raise _) fun _ => .ofResult _) fun _ =>
    .bind (.call rfl) fun _ => .bind (.ofResult _) fun _ => ?_
  exact .bind (.call rfl) fun _ => .bind (.call rfl) fun _ => .ofResult _

end ContractIntel
