import ContractIntel.Services.ChangeReport

/-!
# The worker process (`app/worker.py`)

A pass tries the three queues in a fixed order from a rotating start and ends with the first that
had a job. The process makes one pass after the other, each on a session of its own; an exception
ends it. The loop has no end of its own, so it is taken for so many rounds: a run of the process up
to any moment is a run of enough of them. Between two passes it may sleep, which is time passing.
-/

namespace ContractIntel.Worker

open Llm (OpenAiClient)

def QUEUE_COUNT : Nat := 3

/-- What the process hands to its passes. -/
structure Settings where
  llm : OpenAiClient
  extractionReviewThreshold : Rat
  impactReviewThreshold : Rat

/-- `queues[n % len(queues)]`. -/
def queueAt (n : Nat) : JobKind :=
  match n % QUEUE_COUNT with
  | 0 => .extraction
  | 1 => .ingestion
  | _ => .changeReport

variable [Ucd] [Platform]

/-- The entries of `queues`: whether the queue had a job, which then has been run. -/
def runQueue (settings : Settings) : JobKind → Service Bool
  | .extraction => Extraction.runNextExtractionJob settings.llm settings.extractionReviewThreshold
  | .ingestion => Ingestion.runNextIngestionJob settings.llm
  | .changeReport =>
    ChangeReport.runNextChangeReportJob settings.llm settings.impactReviewThreshold

/-- The loop of a pass over the offsets. -/
def tryQueues (settings : Settings) (first : Nat) : List Nat → Service Bool
  | [] => return false
  | offset :: rest => do
    if ← runQueue settings (queueAt (first + offset)) then return true
    else tryQueues settings first rest

/-- `run_next_job`: one pass, starting at the queue of index `first`. -/
def runNextJob (settings : Settings) (first : Nat) : Service Bool :=
  tryQueues settings first (List.range QUEUE_COUNT)

/-- The loop of `main`, for so many rounds. What a session leaves open is rolled back when it is
closed, so that the next one starts afresh. -/
def loop (settings : Settings) : Nat → Nat → Service Unit
  | 0, _ => return ()
  | rounds + 1, turn => do
    perform .rollback
    let _ran ← runNextJob settings turn
    loop settings rounds ((turn + 1) % QUEUE_COUNT)

end ContractIntel.Worker
