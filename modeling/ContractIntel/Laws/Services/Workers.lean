import ContractIntel.Laws.Llm.Client
import ContractIntel.Laws.Store.Jobs
import ContractIntel.Laws.Store.Repositories
import ContractIntel.Services.ChangeReport

/-!
# What workers do

The operations a worker's programs are made of. The `try` blocks look up, call models and write
usage rows; around them workers claim and finish jobs and write review items, and ingestion also
writes texts, chunks and document statuses. They insert no document and no job, check for no active
job and touch no file but to read it.
-/

namespace ContractIntel

open Jobs (JobRow)
open Lib (Every)
open Lib.Prog (Performs)
open Llm (OpenAiClient UsageSink)
open Repositories

/-- The operations of the `try` blocks: they look up, call models and account for the calls. -/
def Op.ofTry : Op → Bool
  | .findDocument .. | .findText .. | .findLatestJob .. | .rankBySimilarity .. | .rankByFullText ..
  | .insertUsage .. | .readFile .. | .parseChat .. | .createEmbeddings .. => true
  | _ => false

/-- The operations that all workers perform. -/
def Op.ofWorker : Op → Bool
  | .insertDocument .. | .setDocumentStatus .. | .deleteSweep .. | .findActiveJob ..
  | .insertJob .. | .replaceTextAndChunks .. | .insertAudit .. | .rollback | .saveFile ..
  | .unlinkFile .. | .isFile .. | .findDocumentBySha256 .. | .hasAmendments .. | .listDocuments ..
  | .countDocuments .. | .findJob .. | .listReports .. | .findReviewItem .. | .listReviewItems ..
  | .resolveReviewItem .. | .spendByJobType .. | .spendByJob .. | .spendTotal .. => false
  | _ => true

/-- The operations that ingestion performs besides. -/
def Op.ofIngestion : Op → Bool
  | .setDocumentStatus .. | .replaceTextAndChunks .. => true
  | o => o.ofWorker

/-- A program made of operations of the `try` blocks. -/
abbrev TryProgram {α : Type} (p : Service α) : Prop := p.Performs fun o => o.ofTry = true

/-- A program made of operations that all workers perform. -/
abbrev WorkerProgram {α : Type} (p : Service α) : Prop := p.Performs fun o => o.ofWorker = true

/-- A program made of operations that ingestion performs. -/
abbrev IngestionProgram {α : Type} (p : Service α) : Prop :=
  p.Performs fun o => o.ofIngestion = true

theorem Op.ofIngestion_of_ofWorker {o : Op} (h : o.ofWorker = true) : o.ofIngestion = true := by
  cases o <;> first | exact h | rfl

theorem Op.ofWorker_of_ofTry {o : Op} (h : o.ofTry = true) : o.ofWorker = true := by
  cases o <;> first | rfl | cases h

theorem TryProgram.worker {α : Type} {p : Service α} (h : TryProgram p) : WorkerProgram p :=
  h.mono fun _ _ => Op.ofWorker_of_ofTry

theorem WorkerProgram.ingestion {α : Type} {p : Service α} (h : WorkerProgram p) :
    IngestionProgram p :=
  h.mono fun _ _ => Op.ofIngestion_of_ofWorker

/-! ## The `try` blocks -/

/-- A sink writes one usage row. -/
theorem sink_performs {P : Op → Prop} {requestId : Str} {tenantId : Uuid} {jobType : UsageJobKind}
    {jobId : Option Uuid} {usage : LlmUsage}
    (h : P (.insertUsage tenantId jobType jobId usage requestId)) :
    (Usage.sink requestId tenantId jobType jobId usage).Performs P :=
  .call h

/-- Embedding in batches is calls and their usage rows. -/
theorem embedBatches_performs {P : Op → Prop} {llm : OpenAiClient} {usageSink : UsageSink}
    (hcall : ∀ texts, P (.createEmbeddings llm.embeddingModel texts))
    (hsink : ∀ usage, (usageSink usage).Performs P) (batches : List (List Str)) :
    (Ingestion.embedBatches llm usageSink batches).Performs P := by
  induction batches with
  | nil => exact .ret _
  | cons batch rest ih =>
    have hembed : (Llm.embed llm batch).Performs P :=
      .bind (.tryCatch (.call (hcall batch)) fun _ => .raise _) fun _ => .ofResult _
    exact .bind hembed fun _ => .bind (hsink _) fun _ => .bind ih fun _ => .ret _

namespace TryProgram

variable {usageSink : UsageSink}

theorem completeStructured (llm : OpenAiClient) (schema : Schema) (user : Str) :
    TryProgram (Llm.completeStructured llm schema user) :=
  .bind (.tryCatch (.call rfl) fun _ => .raise _) fun _ => .ofResult _

theorem embed (llm : OpenAiClient) (texts : List Str) : TryProgram (Llm.embed llm texts) :=
  .bind (.tryCatch (.call rfl) fun _ => .raise _) fun _ => .ofResult _

theorem sink (requestId : Str) (tenantId : Uuid) (jobType : UsageJobKind) (jobId : Option Uuid)
    (usage : LlmUsage) : TryProgram (Usage.sink requestId tenantId jobType jobId usage) :=
  sink_performs rfl

theorem accountRejectedOutput (hsink : ∀ usage, TryProgram (usageSink usage)) (e : Exn) :
    TryProgram (Usage.accountRejectedOutput e usageSink) := by
  unfold Usage.accountRejectedOutput
  split
  · exact hsink _
  · exact .ret _

theorem embedBatches (llm : OpenAiClient) (hsink : ∀ usage, TryProgram (usageSink usage))
    (batches : List (List Str)) : TryProgram (Ingestion.embedBatches llm usageSink batches) :=
  embedBatches_performs (fun _ => rfl) hsink batches

theorem extractAttempts (llm : OpenAiClient) (text : Str)
    (hsink : ∀ usage, TryProgram (usageSink usage)) (left : Nat) :
    TryProgram (Extraction.extractAttempts llm text usageSink left) := by
  induction left with
  | zero => exact .raise _
  | succ left ih =>
    refine .bind (completeStructured _ _ _) fun reply => .bind (hsink _) fun _ => ?_
    dsimp only
    split
    · exact .ret _
    · split
      · exact ih
      · split
        · exact .raise _
        · exact .ret _

theorem extract (llm : OpenAiClient) (job : JobRow)
    (hsink : ∀ usage, TryProgram (usageSink usage)) :
    TryProgram (Extraction.extract llm job usageSink) := by
  refine .bind (.call rfl) fun found => ?_
  cases found with
  | none => exact .raise _
  | some document =>
    refine .bind (.call rfl) fun text => ?_
    cases text with
    | none => exact .raise _
    | some row => exact extractAttempts llm _ hsink _

theorem searchDocument (llm : OpenAiClient) (tenantId documentId : Uuid) (query : Str)
    (limit : Nat) (hsink : ∀ usage, TryProgram (usageSink usage)) :
    TryProgram (Search.searchDocument llm tenantId documentId query limit usageSink) := by
  refine .bind (embed _ _) fun reply => .bind (hsink _) fun _ => ?_
  refine .bind (.ofResult _) fun embedding => ?_
  exact .bind (.call rfl) fun _ => .bind (.call rfl) fun _ => .ofResult _

theorem mapChangeImpacts (llm : OpenAiClient) (change : Diffing.Change)
    (candidates : List Obligation) (baseText amendedText : Str)
    (hsink : ∀ usage, TryProgram (usageSink usage)) :
    TryProgram
      (Impact.mapChangeImpacts llm change candidates baseText amendedText usageSink) := by
  unfold Impact.mapChangeImpacts
  split
  · exact .ret _
  · exact .bind (completeStructured _ _ _) fun _ => .bind (hsink _) fun _ => .ofResult _

theorem recalled (llm : OpenAiClient) (tenantId documentId : Uuid) (baseText amendedText : Str)
    (hsink : ∀ usage, TryProgram (usageSink usage)) (change : Diffing.Change) :
    TryProgram
      (ChangeReport.recalled llm tenantId documentId baseText amendedText usageSink change) := by
  unfold ChangeReport.recalled
  split
  · exact .ret _
  · exact searchDocument _ _ _ _ _ hsink

theorem mapChange (llm : OpenAiClient) (tenantId documentId : Uuid)
    (obligations : List Obligation) (baseText amendedText : Str)
    (hsink : ∀ usage, TryProgram (usageSink usage)) (change : Diffing.Change) :
    TryProgram (ChangeReport.mapChange llm tenantId documentId obligations baseText amendedText
      usageSink change) :=
  .bind (recalled _ _ _ _ _ hsink _) fun _ => .bind (mapChangeImpacts _ _ _ _ _ hsink) fun _ =>
    .ret _

theorem mapEach {map : Diffing.Change → Service (List ChangeReport.ImpactEntry)}
    (hmap : ∀ change, TryProgram (map change)) (changes : List Diffing.Change) :
    TryProgram (ChangeReport.mapEach map changes) := by
  induction changes with
  | nil => exact .ret _
  | cons change rest ih => exact .bind (hmap _) fun _ => .bind ih fun _ => .ret _

theorem explainChanges (llm : OpenAiClient) (changes : List Diffing.Change)
    (baseText amendedText : Str) (hsink : ∀ usage, TryProgram (usageSink usage)) :
    TryProgram (ChangeReport.explainChanges llm changes baseText amendedText usageSink) := by
  unfold ChangeReport.explainChanges
  split
  · exact .ret _
  · exact .bind (completeStructured _ _ _) fun _ => .bind (hsink _) fun _ => .ofResult _

theorem parsedText (documentId : Uuid) : TryProgram (ChangeReport.parsedText documentId) := by
  refine .bind (.call rfl) fun found => ?_
  cases found with
  | none => exact .raise _
  | some row => exact .ret _

variable [Platform]

theorem ingest (llm : OpenAiClient) (document : DocumentRow)
    (hsink : ∀ usage, TryProgram (usageSink usage)) :
    TryProgram (Ingestion.ingest llm document usageSink) := by
  refine .bind (.call rfl) fun content => ?_
  refine .bind (.ofResult _) fun parsed => ?_
  exact .bind (embedBatches llm hsink _) fun _ => .ret _

theorem baseObligations (documentId : Uuid) :
    TryProgram (ChangeReport.baseObligations documentId) := by
  refine .bind (.call rfl) fun latest => ?_
  cases latest with
  | none => exact .ret _
  | some latest =>
    dsimp only
    split
    · exact .ret _
    · split
      · exact .ret _
      · split <;> exact .ret _

theorem mapImpacts (llm : OpenAiClient) (tenantId documentId : Uuid)
    (changes : List Diffing.Change) (baseText amendedText : Str)
    (hsink : ∀ usage, TryProgram (usageSink usage)) :
    TryProgram (ChangeReport.mapImpacts llm tenantId documentId changes baseText amendedText
      usageSink) := by
  refine .bind (baseObligations _) fun obligations => ?_
  split
  · exact .ret _
  · exact mapEach (mapChange _ _ _ _ _ _ hsink) _

variable [Ucd]

theorem examine (llm : OpenAiClient) (job : JobRow)
    (hsink : ∀ usage, TryProgram (usageSink usage)) :
    TryProgram (ChangeReport.examine llm job usageSink) := by
  refine .bind (parsedText _) fun baseText => .bind (parsedText _) fun amendedText => ?_
  refine .bind (.ofResult _) fun changes => ?_
  refine .bind (explainChanges _ _ _ _ hsink) fun explanations => ?_
  exact .bind (mapImpacts _ _ _ _ _ _ hsink) fun _ => .ret _

end TryProgram

namespace WorkerProgram

/-! ## Ingestion -/

theorem persist (job : JobRow) (document : DocumentRow) (ingested : Ingestion.Ingested) :
    IngestionProgram (Ingestion.persist job document ingested) :=
  .bind (.call rfl) fun _ => .bind (markCompleted_performs rfl rfl) fun _ =>
    .bind (setStatus_performs rfl rfl) fun _ => .ret _

theorem abandonIngestion (job : JobRow) (document : DocumentRow) (e : Exn) :
    IngestionProgram (Ingestion.abandon job document e) :=
  .bind (markFailed_performs rfl rfl) fun _ => .bind (setStatus_performs rfl rfl) fun _ => .ret _

variable [Platform]

theorem runClaimedIngestion (llm : OpenAiClient) (job : JobRow) :
    IngestionProgram (Ingestion.runClaimed llm job) := by
  unfold Ingestion.runClaimed
  split
  · refine .bind (.call rfl) fun found => ?_
    cases found with
    | none => exact .ret _
    | some document => exact .bind (setStatus_performs rfl rfl) fun _ => .ret _
  · refine .bind (.call rfl) fun found => ?_
    cases found with
    | none => exact .bind (markFailed_performs rfl rfl) fun _ => .ret _
    | some document =>
      refine .bind (TryProgram.ingest llm document (.sink _ _ _ _)).worker.ingestion.attempt
        fun attempt => ?_
      cases attempt with
      | error e => exact abandonIngestion _ _ _
      | ok ingested => exact persist _ _ _

theorem runNextIngestionJob (llm : OpenAiClient) :
    IngestionProgram (Ingestion.runNextIngestionJob llm) := by
  refine .bind (claimNextQueued_performs rfl fun _ => rfl) fun claimed => ?_
  cases claimed with
  | none => exact .ret _
  | some job => exact runClaimedIngestion llm job

/-! ## Extraction -/

section Extraction

omit [Platform]

theorem abandon (kind : JobKind) (job : JobRow) {usageSink : UsageSink}
    (hsink : ∀ usage, TryProgram (usageSink usage)) (e : Exn) :
    WorkerProgram (Extraction.abandon kind job usageSink e) := by
  unfold Extraction.abandon
  split
  · exact .bind (markFailed_performs rfl rfl) fun _ =>
      .bind (TryProgram.accountRejectedOutput hsink _).worker fun _ => .ret _
  · exact .raise _

theorem finishExtraction (job : JobRow) (extraction : ObligationExtraction) (threshold : Rat) :
    WorkerProgram (Extraction.finish job extraction threshold) :=
  .bind (markCompleted_performs rfl rfl) fun _ => .bind (routeForReview_performs rfl) fun _ => .ret _

theorem runClaimedExtraction (llm : OpenAiClient) (threshold : Rat) (job : JobRow) :
    WorkerProgram (Extraction.runClaimed llm threshold job) := by
  unfold Extraction.runClaimed
  split
  · exact .ret _
  · refine .bind (TryProgram.extract llm job (.sink _ _ _ _)).worker.attempt fun attempt => ?_
    cases attempt with
    | error e => exact abandon _ _ (.sink _ _ _ _) _
    | ok extraction => exact finishExtraction _ _ _

theorem runNextExtractionJob (llm : OpenAiClient) (threshold : Rat) :
    WorkerProgram (Extraction.runNextExtractionJob llm threshold) := by
  refine .bind (claimNextQueued_performs rfl fun _ => rfl) fun claimed => ?_
  cases claimed with
  | none => exact .ret _
  | some job => exact runClaimedExtraction _ _ _

end Extraction

/-! ## Change reports -/

section ChangeReport

omit [Platform]

theorem finishReport (job : JobRow) (findings : ChangeReport.Findings) (threshold : Rat) :
    WorkerProgram (ChangeReport.finish job findings threshold) :=
  .bind (.ofResult _) fun _ => .bind (markCompleted_performs rfl rfl) fun _ =>
    .bind (routeForReview_performs rfl) fun _ => .ret _

end ChangeReport

variable [Ucd]

theorem runClaimedReport (llm : OpenAiClient) (threshold : Rat) (job : JobRow) :
    WorkerProgram (ChangeReport.runClaimed llm threshold job) := by
  unfold ChangeReport.runClaimed
  split
  · exact .ret _
  · refine .bind (TryProgram.examine llm job (.sink _ _ _ _)).worker.attempt fun attempt => ?_
    cases attempt with
    | error e => exact abandon _ _ (.sink _ _ _ _) _
    | ok findings => exact finishReport _ _ _

theorem runNextChangeReportJob (llm : OpenAiClient) (threshold : Rat) :
    WorkerProgram (ChangeReport.runNextChangeReportJob llm threshold) := by
  refine .bind (claimNextQueued_performs rfl fun _ => rfl) fun claimed => ?_
  cases claimed with
  | none => exact .ret _
  | some job => exact runClaimedReport _ _ _

end WorkerProgram

/-! ## Claimed jobs -/

/-- The run read the job, under its own id. -/
def Claimed (kind : JobKind) (trace : List Entry) (job : JobRow) : Prop :=
  ∃ a, ⟨.readJob kind job.id, a, .ok (some job)⟩ ∈ trace

theorem claimNextQueued_claimed {env : Store → Store → Prop} {l : Session} {s : Store}
    (kind : JobKind) :
    Every exec env (claimNextQueued kind) l s fun trace res _ _ =>
      ∀ job, res = .ok (some job) → Claimed kind trace job := by
  refine Every.bind.mpr (Every.call.mpr fun moved a _ => ?_)
  split
  next found _ =>
    cases found with
    | none => exact fun _ h => nomatch h
    | some job =>
      refine Every.bind.mpr (Every.bind.mpr (Every.call.mpr fun moved b _ => ?_))
      split
      next row hrow =>
        cases row with
        | none => exact fun _ h => nomatch h
        | some row =>
          intro job' hjob
          cases hjob
          have hid : row.id = job.id := (Jobs.row?_mem (query_eq_ok hrow).1).2
          refine ⟨b, ?_⟩
          rw [hid]
          simp [hrow]
      next => exact fun _ h => nomatch h
  next => exact fun _ h => nomatch h

end ContractIntel
