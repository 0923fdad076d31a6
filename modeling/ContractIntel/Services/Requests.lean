import ContractIntel.Services.ChangeReport
import ContractIntel.Services.ReviewQueue

/-!
# The requests of a tenant

The service operations the endpoints call for the tenant a request is authenticated as, with the
arguments the caller chooses: whatever ids it names, the tenant comes from elsewhere.
-/

namespace ContractIntel

open Jobs (JobRow)
open ReviewQueue (ReviewDispositionCreate)

inductive Call where
  /-- The tenant of the upload is the caller's, whatever the request says. -/
  | uploadDocument (context : RequestContext) (request : Documents.UploadRequest)
  | getDocument (documentId : Uuid)
  | listDocuments (limit offset : Nat)
  | resolveDocumentFile (documentId : Uuid)
  | deleteDocument (context : RequestContext) (documentId : Uuid)
  | enqueueIngestion (context : RequestContext) (documentId : Uuid)
  | enqueueExtraction (context : RequestContext) (documentId : Uuid)
  | enqueueChangeReport (context : RequestContext) (baseDocumentId amendedDocumentId : Uuid)
  | getJob (kind : JobKind) (jobId : Uuid)
  | listChangeReportJobs (baseDocumentId : Uuid)
  | listReviewItems (status : Option ReviewItemStatus)
  | getReviewItem (itemId : Uuid)
  | resolveReviewItem (context : RequestContext) (itemId : Uuid) (request : ReviewDispositionCreate)
  | spend (groupBy : Usage.GroupBy)

/-- What a call returns. -/
abbrev Call.Returns : Call → Type
  | .uploadDocument .. | .getDocument .. => DocumentRow
  | .listDocuments .. => List DocumentRow × Nat
  | .resolveDocumentFile .. => DocumentRow × Uuid × Str
  | .deleteDocument .. => Unit
  | .enqueueIngestion .. | .enqueueExtraction .. | .enqueueChangeReport .. | .getJob .. => JobRow
  | .listChangeReportJobs .. => List JobRow
  | .listReviewItems .. => List ReviewItemRow
  | .getReviewItem .. | .resolveReviewItem .. => ReviewItemRow
  | .spend .. => Usage.SpendReport

variable [Platform]

def Call.program (tenantId : Uuid) : (call : Call) → Service call.Returns
  | .uploadDocument context request => Documents.uploadDocument context { request with tenantId }
  | .getDocument documentId => Documents.getDocument tenantId documentId
  | .listDocuments limit offset => Documents.listDocuments tenantId limit offset
  | .resolveDocumentFile documentId => Documents.resolveDocumentFile tenantId documentId
  | .deleteDocument context documentId => Documents.deleteDocument context tenantId documentId
  | .enqueueIngestion context documentId => Ingestion.enqueueIngestion context tenantId documentId
  | .enqueueExtraction context documentId => Extraction.enqueueExtraction context tenantId documentId
  | .enqueueChangeReport context baseDocumentId amendedDocumentId =>
    ChangeReport.enqueueChangeReport context tenantId baseDocumentId amendedDocumentId
  | .getJob kind jobId => Ingestion.getJob kind tenantId jobId
  | .listChangeReportJobs baseDocumentId => ChangeReport.listChangeReportJobs tenantId baseDocumentId
  | .listReviewItems status => ReviewQueue.listReviewItems tenantId status
  | .getReviewItem itemId => ReviewQueue.getReviewItem tenantId itemId
  | .resolveReviewItem context itemId request =>
    ReviewQueue.resolveReviewItem context tenantId itemId request
  | .spend groupBy => Usage.spend tenantId groupBy

end ContractIntel
