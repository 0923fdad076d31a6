import ContractIntel.Services.Activity
import ContractIntel.Services.ReviewQueue

/-!
# Everyone who writes

The parties whose requests or passes change documents, jobs, review items, the audit log or files:
uploads and deletes, the three enqueues, the workers over the three queues, and resolutions of
review items. Searches are not among them: a search writes a usage row for its model call and
nothing else, and nothing but the spend report reads usage rows.
-/

namespace ContractIntel

open Llm (OpenAiClient)
open ReviewQueue (ReviewDispositionCreate)

inductive Party where
  | documents (request : Documents.Request)
  | activity (work : Activity)
  | enqueueChangeReport (context : RequestContext) (tenantId baseDocumentId amendedDocumentId : Uuid)
  | changeReportWorker (llm : OpenAiClient) (reviewThreshold : Rat)
  | resolveReviewItem (context : RequestContext) (tenantId itemId : Uuid)
      (request : ReviewDispositionCreate)

variable [Ucd] [Platform]

def Party.program : Party → Service Unit
  | .documents request => request.program
  | .activity work => work.program
  | .enqueueChangeReport context tenantId baseDocumentId amendedDocumentId => do
    let _job ← ChangeReport.enqueueChangeReport context tenantId baseDocumentId amendedDocumentId
    return ()
  | .changeReportWorker llm reviewThreshold => do
    let _ran ← ChangeReport.runNextChangeReportJob llm reviewThreshold
    return ()
  | .resolveReviewItem context tenantId itemId request => do
    let _item ← ReviewQueue.resolveReviewItem context tenantId itemId request
    return ()

/-- The parties before their first step. -/
def everyone {ι : Type} (s : Store) (members : ι → Option Party) : System ι :=
  System.start s fun i => (members i).map Party.program

/-- The stores that runs of any parties lead to, from an empty one: operations of different parties
interleave, and parties crash between them. -/
def Reached (s : Store) : Prop :=
  ∃ (ι : Type) (_ : DecidableEq ι) (members : ι → Option Party) (now : Time)
    (turns : List (Turn ι)) (c : System ι),
    Lib.run System.step (everyone (.empty now) members) turns = some c ∧ c.store = s

/-- The stores that whole operations lead to, one after the other, from an empty one. -/
inductive Whole : Store → Prop
  | empty (now : Time) : Whole (.empty now)
  | tick {s : Store} (h : Whole s) (elapsed : Time) : Whole (s.tick elapsed)
  | step {s t : Store} (h : Whole s) (party : Party) {trace : List (Lib.Entry Op Op.Res Exn Answer)}
      {res : Except Exn Unit} {l : Session}
      (hruns : Lib.Runs exec Eq party.program ⟨false⟩ s trace res l t) : Whole t

end ContractIntel
