import ContractIntel.Jobs.Rows
import ContractIntel.Lib.Transition
import Mathlib.Logic.Function.Basic

/-!
# A job table and its workers

One job table, any number of workers and a common clock. A worker claims (one transaction), holds
the row it was handed, and ends its run with one terminal write through the row object it loaded,
or by crashing. Nothing ties the write to the lease: a worker that outlived its lease still holds
the row and may still write.

`handouts` records which job was handed out to be run, and when; no step reads it.
-/

namespace ContractIntel.Jobs

/-- A job table, the clock, what each worker holds, and the log of hand-outs, oldest first. -/
structure Queue (Worker : Type) where
  rows : List JobRow
  now : Time
  held : Worker → Option Uuid
  handouts : List (Uuid × Time)

inductive Event (Worker : Type) where
  /-- Time passes. -/
  | tick (elapsed : Time)
  /-- A request inserts a job, in a transaction that began so long ago. -/
  | create (id tenantId documentId : Uuid) (amendedDocumentId : Option Uuid) (began : Time)
  /-- An idle worker claims, skipping the rows that others have locked. -/
  | claim (worker : Worker) (locked : List Uuid)
  | complete (worker : Worker) (result : Json)
  | fail (worker : Worker) (error : Str)
  /-- A worker dies, or comes back without a memory of what it held. -/
  | crash (worker : Worker)

namespace Queue

variable {Worker : Type} [DecidableEq Worker]

def empty (now : Time) : Queue Worker := ⟨[], now, fun _ => none, []⟩

/-- What a worker does with the answer of `claim_next`: a row that came back failed is past the
attempt cap and is not run. -/
def handOut (s : Queue Worker) (worker : Worker) (answer : Option JobRow × List JobRow) :
    Queue Worker :=
  match answer.1 with
  | none => { s with rows := answer.2 }
  | some job =>
    if job.status = .failed then { s with rows := answer.2 }
    else
      { s with
        rows := answer.2
        held := Function.update s.held worker (some job.id)
        handouts := s.handouts ++ [(job.id, s.now)] }

/-- The terminal write of a worker that holds a job. -/
def mark (s : Queue Worker) (worker : Worker) (write : Uuid → List JobRow → List JobRow) :
    Option (Queue Worker) :=
  (s.held worker).map fun id =>
    { s with rows := write id s.rows, held := Function.update s.held worker none }

def step (s : Queue Worker) : Event Worker → Option (Queue Worker)
  | .tick elapsed => some { s with now := s.now + elapsed }
  | .create id tenantId documentId amendedDocumentId began =>
    if (row? id s.rows).isSome then none
    else some { s with
      rows := s.rows ++ [JobRow.create id tenantId documentId amendedDocumentId (s.now - began)] }
  | .claim worker locked =>
    if (s.held worker).isSome then none
    else some (s.handOut worker (claimNext s.now locked s.rows))
  | .complete worker result => s.mark worker fun id => markCompleted id result
  | .fail worker error => s.mark worker fun id => markFailed id error
  | .crash worker => some { s with held := Function.update s.held worker none }

end Queue

end ContractIntel.Jobs
