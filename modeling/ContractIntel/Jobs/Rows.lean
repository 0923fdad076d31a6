import ContractIntel.Data.Values
import Mathlib.Data.List.Sort

/-!
# Job rows (`app/repositories/job_claims.py` and the three job repositories)

The ingestion, extraction and change report tables are three copies of one table: claiming is one
function in the source, and the terminal writes are the same four assignments in each repository.
A table is a list of rows. `claimNext` is one transaction, `markCompleted` and `markFailed` are
`UPDATE`s of one row by id; the marks take the id of the row object loaded at claim time and look
at nothing else.
-/

namespace ContractIntel.Jobs

def LEASE_SECONDS : Nat := 15 * 60

def MAX_ATTEMPTS : Nat := 3

/-- Characters the `error` column keeps of a reason. -/
def ERROR_CHARS : Nat := 1024

inductive JobStatus | queued | running | completed | failed
  deriving DecidableEq, Repr

/-- A row of a job table. A change report job names its base document and its amendment. -/
structure JobRow where
  id : Uuid
  tenantId : Uuid
  documentId : Uuid
  amendedDocumentId : Option Uuid
  status : JobStatus
  result : Option Json
  error : Option Str
  attempts : Nat
  leaseExpiresAt : Option Time
  createdAt : Time

/-- A row as `create` inserts it: the columns it does not name take their defaults. -/
def JobRow.create (id tenantId documentId : Uuid) (amendedDocumentId : Option Uuid)
    (createdAt : Time) : JobRow where
  id := id
  tenantId := tenantId
  documentId := documentId
  amendedDocumentId := amendedDocumentId
  status := .queued
  result := none
  error := none
  attempts := 0
  leaseExpiresAt := none
  createdAt := createdAt

/-- Queued or running, what the active-job checks look for. -/
def JobRow.active (job : JobRow) : Bool := job.status = .queued || job.status = .running

/-- Completed or failed. -/
def JobRow.terminal (job : JobRow) : Bool := job.status = .completed || job.status = .failed

/-- What a terminal write records. -/
def JobRow.outcome (job : JobRow) : JobStatus × Option Json × Option Str :=
  (job.status, job.result, job.error)

/-! ## Claiming -/

/-- The `WHERE` clause of `claim_next`. -/
def eligible (now : Time) (job : JobRow) : Bool :=
  job.status = .queued || (job.status = .running && job.leaseExpiresAt.any fun lease => lease ≤ now)

/-- `ORDER BY created_at ASC, id ASC`. -/
def claimsBefore (a b : JobRow) : Prop :=
  a.createdAt < b.createdAt ∨ (a.createdAt = b.createdAt ∧ a.id ≤ b.id)

instance : DecidableRel claimsBefore := fun _ _ => inferInstanceAs (Decidable (_ ∨ _))

/-- The row `claim_next` locks, `locked` being the rows that transactions in flight hold: those
are skipped. -/
def nextRunnable (now : Time) (locked : List Uuid) (rows : List JobRow) : Option JobRow :=
  ((rows.filter fun job => eligible now job && job.id ∉ locked).insertionSort claimsBefore).head?

/-- The assignments of `claim_next` to the row it locked. -/
def claim (now : Time) (job : JobRow) : JobRow :=
  if MAX_ATTEMPTS < job.attempts + 1 then
    { job with
      attempts := job.attempts + 1
      status := .failed
      result := none
      error := some "max_attempts_exceeded".toList
      leaseExpiresAt := none }
  else
    { job with
      attempts := job.attempts + 1
      status := .running
      leaseExpiresAt := some (now + seconds LEASE_SECONDS) }

/-- `UPDATE ... WHERE id = :id`. -/
def updateRow (id : Uuid) (f : JobRow → JobRow) (rows : List JobRow) : List JobRow :=
  rows.map fun job => if job.id = id then f job else job

/-- The row handed out and the table after the transaction. -/
def claimNext (now : Time) (locked : List Uuid) (rows : List JobRow) :
    Option JobRow × List JobRow :=
  match nextRunnable now locked rows with
  | none => (none, rows)
  | some job => (some (claim now job), updateRow job.id (claim now) rows)

/-! ## Terminal writes -/

/-- The assignments of `mark_completed`. -/
def complete (result : Json) (job : JobRow) : JobRow :=
  { job with status := .completed, result := some result, error := none, leaseExpiresAt := none }

/-- The assignments of `mark_failed`. -/
def fail (error : Str) (job : JobRow) : JobRow :=
  { job with
    status := .failed
    result := none
    error := some (error.take ERROR_CHARS)
    leaseExpiresAt := none }

def markCompleted (id : Uuid) (result : Json) (rows : List JobRow) : List JobRow :=
  updateRow id (complete result) rows

def markFailed (id : Uuid) (error : Str) (rows : List JobRow) : List JobRow :=
  updateRow id (fail error) rows

/-! ## Reads -/

/-- The row with a given id. -/
def row? (id : Uuid) (rows : List JobRow) : Option JobRow := rows.find? (·.id = id)

/-- `ORDER BY created_at DESC, id ASC`. -/
def newerFirst (a b : JobRow) : Prop :=
  b.createdAt < a.createdAt ∨ (a.createdAt = b.createdAt ∧ a.id ≤ b.id)

instance : DecidableRel newerFirst := fun _ _ => inferInstanceAs (Decidable (_ ∨ _))

/-- `find_by_id`, scoped to the tenant. -/
def findById (tenantId id : Uuid) (rows : List JobRow) : Option JobRow :=
  rows.find? fun job => job.id = id && job.tenantId = tenantId

/-- `find_active_for_document`: the newest unfinished job. -/
def findActiveForDocument (documentId : Uuid) (rows : List JobRow) : Option JobRow :=
  ((rows.filter fun job => job.documentId = documentId && job.active).insertionSort newerFirst).head?

/-- `find_latest_for_document`: the newest job, any status. -/
def findLatestForDocument (documentId : Uuid) (rows : List JobRow) : Option JobRow :=
  ((rows.filter fun job => job.documentId = documentId).insertionSort newerFirst).head?

end ContractIntel.Jobs
