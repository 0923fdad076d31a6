import ContractIntel.Services.Usage

/-!
# The review queue (`app/services/review_queue.py`, `app/schemas/reviews.py`)

The reviewer's side: list, get and resolve. A resolution fetches the item, then runs one `UPDATE`
guarded on the item still being pending, then records the audit row, three commits. The request body
pairs `edited`, and only it, with corrected values.
-/

namespace ContractIntel.ReviewQueue

/-- The dispositions of a request: `pending` is none of them. -/
inductive Disposition | approved | edited | rejected
  deriving DecidableEq, Repr

/-- `ReviewItemStatus(request.disposition)`. -/
def Disposition.status : Disposition → ReviewItemStatus
  | .approved => .approved
  | .edited => .edited
  | .rejected => .rejected

def Disposition.value : Disposition → Str
  | .approved => "approved".toList
  | .edited => "edited".toList
  | .rejected => "rejected".toList

/-- A validated request body: the pairing check is its field. -/
structure ReviewDispositionCreate where
  disposition : Disposition
  correctedValues : Option Json
  corrected_values_pair_with_the_disposition :
    correctedValues.isSome ↔ disposition = .edited

def ReviewItemSource.value : ReviewItemSource → Str
  | .extraction => "extraction".toList
  | .impactMapping => "impact_mapping".toList

def listReviewItems (tenantId : Uuid) (status : Option ReviewItemStatus) :
    Service (List ReviewItemRow) :=
  perform (.listReviewItems tenantId status)

def getReviewItem (tenantId itemId : Uuid) : Service ReviewItemRow := do
  require (.reviewItemNotFoundError itemId) (← perform (.findReviewItem tenantId itemId))

/-- Fetch first, so that an unknown or foreign item is not found rather than silently skipped. -/
def resolveReviewItem (context : RequestContext) (tenantId itemId : Uuid)
    (request : ReviewDispositionCreate) : Service ReviewItemRow := do
  let _item ← getReviewItem tenantId itemId
  match ← perform (.resolveReviewItem tenantId itemId request.disposition.status
      request.correctedValues) with
  | none => throw (.reviewItemAlreadyResolvedError itemId)
  | some resolved =>
    perform (.insertAudit tenantId context.actor context.requestId "review_item.resolve".toList
      "review_item".toList (some itemId)
      (some (.obj [("disposition".toList, .str request.disposition.value),
        ("source".toList, .str (ReviewItemSource.value resolved.source))])))
    return resolved

end ContractIntel.ReviewQueue
