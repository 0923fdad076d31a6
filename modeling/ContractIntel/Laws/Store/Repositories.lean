import ContractIntel.Services.Usage

/-!
# The operations of the repository functions

Each repository function writes with one operation and reads the row back with another, and review
items are routed in one: what holds of these operations holds of the function.
-/

namespace ContractIntel.Repositories

open Jobs (JobRow)
open Lib.Prog (Performs)

variable {P : Op → Prop} {kind : JobKind}

theorem require_performs {α : Type} (e : Exn) (found : Option α) : (require e found).Performs P := by
  cases found <;> trivial

theorem refreshDocument_performs {documentId : Uuid} (h : P (.readDocument documentId)) :
    (refreshDocument documentId).Performs P :=
  .bind (.call h) fun _ => require_performs _ _

theorem createDocument_performs {tenantId : Uuid} {filename mimeType sha256 : Str}
    {amends : Option Uuid} (h : P (.insertDocument tenantId filename mimeType sha256 amends))
    (hread : ∀ id, P (.readDocument id)) :
    (createDocument tenantId filename mimeType sha256 amends).Performs P :=
  .bind (.call h) fun _ => refreshDocument_performs (hread _)

theorem setStatus_performs {document : DocumentRow} {status : DocumentStatus}
    (h : P (.setDocumentStatus document status)) (hread : P (.readDocument document.id)) :
    (setStatus document status).Performs P :=
  .bind (.call h) fun _ => refreshDocument_performs hread

theorem refreshJob_performs {id : Uuid} (h : P (.readJob kind id)) :
    (refreshJob kind id).Performs P :=
  .bind (.call h) fun _ => require_performs _ _

theorem createJob_performs {tenantId documentId : Uuid} {amended : Option Uuid}
    (h : P (.insertJob kind tenantId documentId amended)) (hread : ∀ id, P (.readJob kind id)) :
    (createJob kind tenantId documentId amended).Performs P :=
  .bind (.call h) fun _ => refreshJob_performs (hread _)

theorem claimNextQueued_performs (h : P (.claimJob kind)) (hread : ∀ id, P (.readJob kind id)) :
    (claimNextQueued kind).Performs P := by
  refine .bind (.call h) fun claimed => ?_
  cases claimed with
  | none => exact .ret _
  | some job => exact .bind (refreshJob_performs (hread _)) fun _ => .ret _

theorem markCompleted_performs {job : JobRow} {result : Json}
    (h : P (.completeJob kind job.id result)) (hread : P (.readJob kind job.id)) :
    (markCompleted kind job result).Performs P :=
  .bind (.call h) fun _ => refreshJob_performs hread

theorem markFailed_performs {job : JobRow} {error : Str} (h : P (.failJob kind job.id error))
    (hread : P (.readJob kind job.id)) : (markFailed kind job error).Performs P :=
  .bind (.call h) fun _ => refreshJob_performs hread

theorem routeForReview_performs {tenantId : Uuid} {source : ReviewItemSource}
    {documentId jobId : Uuid} {candidates : List (Str × Json × Rat)} {threshold : Rat}
    (h : P (.insertReviewItems tenantId source documentId jobId
      (candidates.filter fun c => ReviewQueue.belowThreshold c.2.2 threshold))) :
    (ReviewQueue.routeForReview tenantId source documentId jobId candidates threshold).Performs P := by
  unfold ReviewQueue.routeForReview
  dsimp only
  split
  · exact .ret _
  · exact .bind (.call h) fun _ => .ret _

end ContractIntel.Repositories
