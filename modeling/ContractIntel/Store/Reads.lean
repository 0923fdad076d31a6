import ContractIntel.Store.Transactions
import Mathlib.Algebra.GroupWithZero.Nat
import Mathlib.Algebra.Ring.Rat

/-!
# Reads of the endpoints (`app/repositories`)

The queries behind the list, get and spend endpoints, each scoped to one tenant, and the guarded
`UPDATE` that resolves a review item. Spend is grouped and summed by the database; costs are exact
rationals.
-/

namespace ContractIntel

open Jobs (JobRow)

/-- Aggregated spend over one group. -/
structure SpendRow where
  jobType : Str
  jobId : Option Uuid
  calls : Nat
  promptTokens : Nat
  completionTokens : Nat
  costUsd : Rat
  latencyMs : Nat
  deriving DecidableEq

def UsageJobKind.value : UsageJobKind → Str
  | .ingestion => "ingestion".toList
  | .extraction => "extraction".toList
  | .changeReport => "change_report".toList
  | .search => "search".toList

/-- The kinds in declaration order, the order the database sorts them in. -/
def UsageJobKind.all : List UsageJobKind := [.ingestion, .extraction, .changeReport, .search]

namespace Store

variable (tenantId : Uuid)

/-! ## Documents -/

/-- `ORDER BY created_at DESC, id ASC`. -/
def newerDocument (a b : DocumentRow) : Prop :=
  b.createdAt < a.createdAt ∨ (a.createdAt = b.createdAt ∧ a.id ≤ b.id)

instance : DecidableRel newerDocument := fun _ _ => inferInstanceAs (Decidable (_ ∨ _))

/-- `list_page`. -/
def listDocuments (limit offset : Nat) (s : Store) : List DocumentRow :=
  (((s.documents.filter (·.tenantId = tenantId)).insertionSort newerDocument).drop offset).take limit

/-- `count_for_tenant`. -/
def countDocuments (s : Store) : Nat := (s.documents.filter (·.tenantId = tenantId)).length

/-! ## Change reports -/

/-- `list_for_base_document`. -/
def listReports (baseDocumentId : Uuid) (s : Store) : List JobRow :=
  ((s.jobs .changeReport).filter fun job =>
    job.tenantId = tenantId && job.documentId = baseDocumentId).insertionSort Jobs.newerFirst

/-! ## Review items -/

/-- `ORDER BY created_at ASC, id ASC`. -/
def olderItem (a b : ReviewItemRow) : Prop :=
  a.createdAt < b.createdAt ∨ (a.createdAt = b.createdAt ∧ a.id ≤ b.id)

instance : DecidableRel olderItem := fun _ _ => inferInstanceAs (Decidable (_ ∨ _))

def findReviewItem (itemId : Uuid) (s : Store) : Option ReviewItemRow :=
  s.reviewItems.find? fun item => item.id = itemId && item.tenantId = tenantId

/-- `list_for_tenant`. -/
def listReviewItems (status : Option ReviewItemStatus) (s : Store) : List ReviewItemRow :=
  (s.reviewItems.filter fun item =>
    item.tenantId = tenantId && status.all (item.status = ·)).insertionSort olderItem

/-- The `WHERE` clause of `resolve`. -/
def resolvable (itemId : Uuid) (item : ReviewItemRow) : Bool :=
  item.id = itemId && item.tenantId = tenantId && item.status = .pending

/-- The assignments of `resolve`. -/
def resolved (status : ReviewItemStatus) (correctedValues : Option Json) (now : Time)
    (item : ReviewItemRow) : ReviewItemRow :=
  { item with status, correctedValues, resolvedAt := some now }

/-- `resolve`: one disposition, guarded on pendency, and the row it returns. -/
def resolveReviewItem (itemId : Uuid) (status : ReviewItemStatus) (correctedValues : Option Json)
    (s : Store) : Except Exn (Option ReviewItemRow × Store) :=
  .ok ((s.reviewItems.find? (resolvable tenantId itemId)).map
      (resolved status correctedValues s.now),
    { s with reviewItems := s.reviewItems.map fun item =>
        if resolvable tenantId itemId item then resolved status correctedValues s.now item
        else item })

/-! ## Spend -/

def usageOf (s : Store) : List UsageRow := s.usage.filter (·.tenantId = tenantId)

/-- `_spend_row` of the totals of a group. -/
def spendRow (jobType : Str) (jobId : Option Uuid) (rows : List UsageRow) : SpendRow where
  jobType := jobType
  jobId := jobId
  calls := rows.length
  promptTokens := (rows.map (·.usage.promptTokens)).sum
  completionTokens := (rows.map (·.usage.completionTokens)).sum
  costUsd := (rows.map (·.usage.costUsd)).sum
  latencyMs := (rows.map (·.usage.latencyMs)).sum

def spendByJobType (s : Store) : List SpendRow :=
  UsageJobKind.all.filterMap fun kind =>
    match (usageOf tenantId s).filter (·.jobType = kind) with
    | [] => none
    | rows => some (spendRow kind.value none rows)

/-- Ids ascending, the calls without a job last. -/
def jobIdBefore : Option Uuid → Option Uuid → Prop
  | some a, some b => a ≤ b
  | none, some _ => False
  | _, none => True

instance : DecidableRel jobIdBefore
  | some a, some b => inferInstanceAs (Decidable (a ≤ b))
  | none, some _ => inferInstanceAs (Decidable False)
  | some _, none => inferInstanceAs (Decidable True)
  | none, none => inferInstanceAs (Decidable True)

def spendByJob (s : Store) : List SpendRow :=
  UsageJobKind.all.flatMap fun kind =>
    let rows := (usageOf tenantId s).filter (·.jobType = kind)
    ((rows.map UsageRow.jobId).dedup.insertionSort jobIdBefore).map fun jobId =>
      spendRow kind.value jobId (rows.filter (·.jobId = jobId))

def spendTotal (s : Store) : SpendRow := spendRow [] none (usageOf tenantId s)

end Store

end ContractIntel
