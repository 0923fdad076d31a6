import ContractIntel.Llm.Client
import ContractIntel.Store.Repositories

/-!
# Usage accounting and review routing (`app/services/usage.py`, `app/services/review_queue.py`)

Every surface that makes model calls hands a sink down to the functions that make them; each call
writes one usage row. After a completed job the items below the confidence threshold are inserted
as pending review items, all in one commit.
-/

namespace ContractIntel

namespace Usage

open Llm (UsageSink)

/-- `sink`: usage rows of one job, or of a surface without a job. -/
def sink (requestId : Str) (tenantId : Uuid) (jobType : UsageJobKind) (jobId : Option Uuid) :
    UsageSink :=
  fun usage => perform (.insertUsage tenantId jobType jobId usage requestId)

/-- `account_rejected_output`: a refusal's tokens are spent all the same. -/
def accountRejectedOutput (e : Exn) (usageSink : UsageSink) : Service Unit :=
  match e with
  | .llmOutputError _ (some usage) => usageSink usage
  | _ => return ()

/-- One aggregate read: grouped rows plus the tenant's whole spend. -/
structure SpendReport where
  rows : List SpendRow
  total : SpendRow

inductive GroupBy | jobType | job
  deriving DecidableEq, Repr

def spend (tenantId : Uuid) (groupBy : GroupBy) : Service SpendReport := do
  let rows ← match groupBy with
    | .job => perform (.spendByJob tenantId)
    | .jobType => perform (.spendByJobType tenantId)
  let total ← perform (.spendTotal tenantId)
  return ⟨rows, total⟩

end Usage

namespace ReviewQueue

/-- Strictly below: exactly-at-threshold output is accepted. -/
def belowThreshold (confidence threshold : Rat) : Bool := confidence < threshold

/-- `route_for_review`: the number of items created. -/
def routeForReview (tenantId : Uuid) (source : ReviewItemSource) (documentId jobId : Uuid)
    (candidates : List (Str × Json × Rat)) (threshold : Rat) : Service Nat := do
  let routed := candidates.filter fun c => belowThreshold c.2.2 threshold
  if routed = [] then return 0
  let rows ← perform (.insertReviewItems tenantId source documentId jobId routed)
  return rows.length

end ReviewQueue

end ContractIntel
