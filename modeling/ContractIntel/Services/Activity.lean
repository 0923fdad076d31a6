import ContractIntel.Services.ChangeReport
import ContractIntel.Store.System

/-!
# Enqueues and workers

The parties around the ingestion and extraction queues: requests to the two enqueue endpoints and
passes of workers over the two queues (`app/worker.py`). A worker is a sequence of passes, each on a
fresh session, hence as many parties.
-/

namespace ContractIntel

open Llm (OpenAiClient)

inductive Activity where
  | enqueueIngestion (context : RequestContext) (tenantId documentId : Uuid)
  | enqueueExtraction (context : RequestContext) (tenantId documentId : Uuid)
  | ingestionWorker (llm : OpenAiClient)
  | extractionWorker (llm : OpenAiClient) (reviewThreshold : Rat)

variable [Platform]

def Activity.program : Activity → Service Unit
  | .enqueueIngestion context tenantId documentId => do
    let _job ← Ingestion.enqueueIngestion context tenantId documentId
    return ()
  | .enqueueExtraction context tenantId documentId => do
    let _job ← Extraction.enqueueExtraction context tenantId documentId
    return ()
  | .ingestionWorker llm => do
    let _ran ← Ingestion.runNextIngestionJob llm
    return ()
  | .extractionWorker llm reviewThreshold => do
    let _ran ← Extraction.runNextExtractionJob llm reviewThreshold
    return ()

/-- The parties before their first step. -/
def parties {ι : Type} (s : Store) (activities : ι → Option Activity) : System ι :=
  System.start s fun i => (activities i).map Activity.program

end ContractIntel
