import ContractIntel.Laws.Services.ChangeReport
import ContractIntel.Laws.Services.Impact
import ContractIntel.Laws.Services.IngestionHandler
import ContractIntel.Laws.Services.Search

/-!
# What stops the extraction and change report workers

Both handlers catch `LlmError` and `ValueError`. What gets past them is a failing database, a reply
under a model without a price (`KeyError`) or with token counts that cannot be divided (`TypeError`,
`OverflowError`), a chat reply without choices (`IndexError`), and a body of another shape than the
API's, on which the SDK raises whatever the missing field leads to; in all other runs they return
`True`, and the claimed job is finished or gone.
-/

namespace ContractIntel

open Diffing (Change)
open Ingestion (Uncaught)
open Jobs (JobRow)
open Lib (Blamed Escapes Every Runs replay)
open Llm (OpenAiClient UsageSink)
open Repositories

variable {env : Store → Store → Prop} {l : Session} {s : Store}

/-! ## Fatal operations -/

/-- The database fails, or a call is answered in a way the client has no `LlmError` for: with usage
it cannot record, without a choice, or with a body that is no reply of the API. -/
def Fatal : Entry → Prop
  | ⟨.parseChat _ model _, _, .ok response⟩ =>
    ¬ Llm.Recordable model response.promptTokens response.completionTokens ∨
      response.choices.isEmpty
  | ⟨.createEmbeddings model _, _, .ok response⟩ =>
    ¬ Llm.Recordable model response.promptTokens (some 0)
  | ⟨.parseChat .., _, .error e⟩ | ⟨.createEmbeddings .., _, .error e⟩ => e.isOther
  | entry => DatabaseFailure entry

/-- `except (LlmError, ValueError)`, whatever the session. -/
def Expected (e : Exn) (_ : Session) : Prop := e.isLlmErrorOrValueError

theorem fatal_iff_of_not_calls {entry : Entry} (h : entry.op.callsModel = false) :
    Fatal entry ↔ DatabaseFailure entry := by
  obtain ⟨o, a, result⟩ := entry
  cases o <;> first | exact Iff.rfl | cases h

theorem not_expected_of_database {e : Exn} {l : Session} (h : e.isDatabaseError) :
    ¬ Expected e l := by
  unfold Expected
  cases e <;> first | exact Bool.false_ne_true | cases h

/-- Of what the SDK raises, the client and the handlers know all but the exceptions of others. -/
theorem isOther_iff (model : Str) {e : Exn} (h : Llm.ofSdk e) :
    e.isOther ↔ ¬ (Llm.sdkError model e).isLlmErrorOrValueError := by
  cases e with
  | unusableReply | openAiError | valueError => exact iff_of_false Bool.false_ne_true fun h => h rfl
  | otherError => exact iff_of_true rfl Bool.false_ne_true
  | _ => cases h

/-- Neither handler expects what the client raises without a usage record. -/
theorem unexpected_of_no_record {model : Str} {e : Exn}
    (h : e = .keyError model ∨ ∃ error message, e = .otherError error message) :
    ¬ e.isLlmErrorOrValueError := by
  rcases h with rfl | ⟨error, message, rfl⟩ <;> exact Bool.false_ne_true

theorem expected_attributes : AttributesCalls Expected Fatal where
  database _ he := not_expected_of_database he
  statements _ h := fatal_iff_of_not_calls h
  embeddings model texts a outcome l := by
    cases hreply : embedReply outcome with
    | error e =>
      have hother := isOther_iff model (Llm.embedReply_error hreply).1
      constructor
      · exact fun h => ⟨_, rfl, hother.mp h⟩
      · rintro ⟨_, h, hunexpected⟩
        cases h
        exact hother.mpr hunexpected
    | ok response =>
      by_cases h : Llm.Recordable model response.promptTokens (some 0)
      · obtain ⟨reply, hread, -⟩ := Llm.readEmbeddings_of_recordable h
        refine iff_of_false (fun hnot => hnot h) ?_
        rintro ⟨e, herror, -⟩
        cases hread.symm.trans herror
      · obtain ⟨e, hread, he⟩ := Llm.readEmbeddings_of_not_recordable h
        exact iff_of_true h ⟨e, hread, unexpected_of_no_record he⟩

theorem uncaught_attributes_fatal : Attributes Uncaught Fatal where
  database _ _ := id
  statements _ h := fatal_iff_of_not_calls h

/-! ## Structured calls -/

/-- A response is read or refused as output, or its usage has no record, or it has no choice. -/
theorem readReply_cases (model : Str) {schema : Schema} (response : ChatReply schema) :
    (∃ e, Llm.readReply model response = .error e ∧ ¬ e.isLlmErrorOrValueError ∧
        (¬ Llm.Recordable model response.promptTokens response.completionTokens ∨
          response.choices.isEmpty)) ∨
      ((∀ e, Llm.readReply model response = .error e → e.isLlmErrorOrValueError) ∧
        ¬ (¬ Llm.Recordable model response.promptTokens response.completionTokens ∨
          response.choices.isEmpty)) := by
  by_cases h : Llm.Recordable model response.promptTokens response.completionTokens
  · obtain ⟨_, _, _, -, -, -, hrecord⟩ := Llm.usageRecord_of_recordable h response.latencyMs
    rw [Llm.readReply_of_record hrecord]
    cases hchoices : response.choices with
    | nil => exact .inl ⟨_, rfl, Bool.false_ne_true, .inr rfl⟩
    | cons first rest =>
      refine .inr ⟨fun e he => ?_, by simp [h]⟩
      cases first with
      | none =>
        cases he
        rfl
      | some data => cases he
  · obtain ⟨e, hrecord, he⟩ := Llm.usageRecord_of_not_recordable h response.latencyMs
    exact .inl ⟨e, Llm.readReply_of_no_record hrecord, unexpected_of_no_record he, .inl h⟩

theorem completeStructured_blamed (llm : OpenAiClient) (schema : Schema) (user : Str) :
    Blamed exec env Expected Fatal (Llm.completeStructured llm schema user) l s := by
  refine (Llm.completeStructured_trace llm user).mono ?_
  rintro trace res l' - ⟨a, result, rfl, rfl, -, hresult⟩
  cases result with
  | error e =>
    have hfatal : (∃ entry ∈ [(⟨.parseChat schema llm.model user, a, .error e⟩ : Entry)],
        Fatal entry) ↔ e.isOther := by
      simp [Fatal]
    rw [hfatal]
    exact (isOther_iff llm.model (hresult e rfl)).symm
  | ok response =>
    have hfatal : (∃ entry ∈ [(⟨.parseChat schema llm.model user, a, .ok response⟩ : Entry)],
        Fatal entry) ↔ (¬ Llm.Recordable llm.model response.promptTokens response.completionTokens ∨
          response.choices.isEmpty) := by
      simp [Fatal]
    rw [hfatal, Llm.heard]
    rcases readReply_cases llm.model response with ⟨e, hread, hunexpected, hwrong⟩ |
      ⟨hexpected, hright⟩
    · rw [hread]
      exact iff_of_true hunexpected hwrong
    · refine iff_of_false (fun hescapes => ?_) hright
      cases hread : Llm.readReply llm.model response with
      | ok reply =>
        rw [hread] at hescapes
        exact hescapes
      | error e =>
        rw [hread] at hescapes
        exact hescapes (hexpected e hread)

/-- A call, its usage row, and what is made of the reply. -/
theorem ask_blamed {β : Type} (llm : OpenAiClient) (schema : Schema) (user requestId : Str)
    (tenantId : Uuid) (jobType : UsageJobKind) (jobId : Option Uuid)
    {f : Llm.StructuredResult schema → Service β}
    (hf : ∀ reply l s, Blamed exec env Expected Fatal (f reply) l s) :
    Blamed exec env Expected Fatal ((Llm.completeStructured llm schema user).bind fun reply =>
      (Usage.sink requestId tenantId jobType jobId reply.usage).bind fun _ => f reply) l s :=
  .bind (completeStructured_blamed llm schema user) fun reply _ _ =>
    .bind (expected_attributes.sink requestId tenantId jobType jobId reply.usage) fun _ _ _ =>
      hf reply _ _

/-! ## Extraction -/

theorem extractAttempts_blamed (llm : OpenAiClient) (text requestId : Str) (tenantId : Uuid)
    (jobType : UsageJobKind) (jobId : Option Uuid) (left : Nat) :
    Blamed exec env Expected Fatal (Extraction.extractAttempts llm text
      (Usage.sink requestId tenantId jobType jobId) (left + 1)) l s := by
  induction left generalizing l s with
  | zero =>
    refine ask_blamed llm _ _ requestId tenantId jobType jobId fun reply _ _ => ?_
    dsimp only
    split
    · exact .ret _
    · rw [if_neg (Nat.lt_irrefl 0)]
      split
      · exact .raise rfl
      · exact .ret _
  | succ left ih =>
    refine ask_blamed llm _ _ requestId tenantId jobType jobId fun reply _ _ => ?_
    dsimp only
    split
    · exact .ret _
    · rw [if_pos (Nat.succ_pos left)]
      exact ih

theorem extract_blamed (llm : OpenAiClient) (job : JobRow) (requestId : Str) (tenantId : Uuid)
    (jobType : UsageJobKind) (jobId : Option Uuid) :
    Blamed exec env Expected Fatal
      (Extraction.extract llm job (Usage.sink requestId tenantId jobType jobId)) l s := by
  refine .bind (expected_attributes.statement rfl) fun found _ _ => ?_
  cases found with
  | none => exact .raise rfl
  | some document =>
    refine .bind (expected_attributes.statement rfl) fun text _ _ => ?_
    cases text with
    | none => exact .raise rfl
    | some row => exact extractAttempts_blamed llm row.text requestId tenantId jobType jobId 1

/-! ## Change reports -/

section Reports

variable (requestId : Str) (tenantId : Uuid) (jobType : UsageJobKind) (jobId : Option Uuid)

theorem searchDocument_blamed (llm : OpenAiClient) (tenant documentId : Uuid) (query : Str)
    (limit : Nat) : Blamed exec env Expected Fatal (Search.searchDocument llm tenant documentId query
      limit (Usage.sink requestId tenantId jobType jobId)) l s := by
  refine .bind (expected_attributes.embed llm [query]) fun reply _ _ => ?_
  refine .bind (expected_attributes.sink requestId tenantId jobType jobId reply.usage)
    fun _ _ _ => ?_
  refine .bind (.ofResult fun e he => ?_) fun embedding _ _ => ?_
  · obtain ⟨message, rfl⟩ := Search.unpackOne_error he
    rfl
  refine .bind (expected_attributes.statement rfl) fun vectorRanked _ _ => ?_
  refine .bind (expected_attributes.statement rfl) fun ftsRanked _ _ => ?_
  obtain ⟨hits, hhits⟩ := Search.fuseRows_isOk vectorRanked ftsRanked limit
  rw [hhits]
  exact .ret hits

theorem mapChangeImpacts_blamed (llm : OpenAiClient) (change : Change)
    (candidates : List Obligation) (baseText amendedText : Str) :
    Blamed exec env Expected Fatal (Impact.mapChangeImpacts llm change candidates baseText amendedText
      (Usage.sink requestId tenantId jobType jobId)) l s := by
  unfold Impact.mapChangeImpacts
  split
  · exact .ret _
  · refine ask_blamed llm _ _ requestId tenantId jobType jobId fun reply _ _ => ?_
    refine .ofResult fun e he => ?_
    obtain ⟨message, rfl⟩ := Impact.readMapping_error he
    rfl

theorem mapChange_blamed (llm : OpenAiClient) (tenant documentId : Uuid)
    (obligations : List Obligation) (baseText amendedText : Str) (change : Change) :
    Blamed exec env Expected Fatal (ChangeReport.mapChange llm tenant documentId obligations baseText
      amendedText (Usage.sink requestId tenantId jobType jobId) change) l s := by
  have hrecall : Blamed exec env Expected Fatal (ChangeReport.recalled llm tenant documentId baseText
      amendedText (Usage.sink requestId tenantId jobType jobId) change) l s := by
    unfold ChangeReport.recalled
    split
    · exact .ret _
    · exact searchDocument_blamed requestId tenantId jobType jobId _ _ _ _ _
  exact .bind hrecall fun hits _ _ =>
    .bind (mapChangeImpacts_blamed requestId tenantId jobType jobId _ _ _ _ _) fun _ _ _ => .ret _

theorem mapEach_blamed {map : Change → Service (List ChangeReport.ImpactEntry)}
    (hmap : ∀ change l s, Blamed exec env Expected Fatal (map change) l s) (changes : List Change) :
    Blamed exec env Expected Fatal (ChangeReport.mapEach map changes) l s := by
  induction changes generalizing l s with
  | nil => exact .ret _
  | cons change rest ih =>
    exact .bind (hmap change l s) fun _ _ _ => .bind ih fun _ _ _ => .ret _

theorem explainChanges_blamed (llm : OpenAiClient) (changes : List Change)
    (baseText amendedText : Str) :
    Blamed exec env Expected Fatal (ChangeReport.explainChanges llm changes baseText amendedText
      (Usage.sink requestId tenantId jobType jobId)) l s := by
  unfold ChangeReport.explainChanges
  split
  · exact .ret _
  · refine ask_blamed llm _ _ requestId tenantId jobType jobId fun reply _ _ => ?_
    refine .ofResult fun e he => ?_
    obtain ⟨message, rfl⟩ := ChangeReport.readExplanations_error he
    rfl

theorem parsedText_blamed (documentId : Uuid) :
    Blamed exec env Expected Fatal (ChangeReport.parsedText documentId) l s := by
  refine .bind (expected_attributes.statement rfl) fun found _ _ => ?_
  cases found with
  | none => exact .raise rfl
  | some row => exact .ret _

variable [Platform]

theorem mapImpacts_blamed (llm : OpenAiClient) (tenant documentId : Uuid) (changes : List Change)
    (baseText amendedText : Str) :
    Blamed exec env Expected Fatal (ChangeReport.mapImpacts llm tenant documentId changes baseText
      amendedText (Usage.sink requestId tenantId jobType jobId)) l s := by
  have hobligations : Blamed exec env Expected Fatal (ChangeReport.baseObligations documentId) l s := by
    rw [ChangeReport.baseObligations_eq]
    exact .bind (expected_attributes.statement rfl) fun _ _ _ => .ret _
  refine .bind hobligations fun obligations _ _ => ?_
  split
  · exact .ret _
  · exact mapEach_blamed (fun change _ _ =>
      mapChange_blamed requestId tenantId jobType jobId _ _ _ _ _ _ change) changes

variable [Ucd]

theorem examine_blamed (llm : OpenAiClient) (job : JobRow) :
    Blamed exec env Expected Fatal
      (ChangeReport.examine llm job (Usage.sink requestId tenantId jobType jobId)) l s := by
  refine .bind (parsedText_blamed _) fun baseText _ _ => ?_
  refine .bind (parsedText_blamed _) fun amendedText _ _ => ?_
  refine .bind (.ofResult fun e he => ?_) fun changes _ _ => ?_
  · obtain ⟨reason, -, rfl⟩ := Lib.exists_of_mapError he
    rfl
  · refine .bind (explainChanges_blamed requestId tenantId jobType jobId _ _ _ _) fun _ _ _ => ?_
    exact .bind (mapImpacts_blamed requestId tenantId jobType jobId _ _ _ _ _ _) fun _ _ _ => .ret _

end Reports

/-! ## The `except` branch and what follows the `try` -/

section Branches

variable (requestId : Str) (tenantId : Uuid) (jobType : UsageJobKind) (jobId : Option Uuid)

theorem abandon_blamed {kind : JobKind} {job : JobRow} {e : Exn} (h : e.isLlmErrorOrValueError) :
    Blamed exec env Uncaught Fatal (Extraction.abandon kind job
      (Usage.sink requestId tenantId jobType jobId) e) l s := by
  unfold Extraction.abandon
  rw [if_pos h]
  refine .bind (uncaught_attributes_fatal.markFailed (fun _ => id) _ _ _) fun _ _ _ => ?_
  refine .bind ?_ fun _ _ _ => .ret _
  unfold Usage.accountRejectedOutput
  split
  · exact uncaught_attributes_fatal.sink requestId tenantId jobType jobId _
  · exact .ret _

/-- An exception that is not expected goes through. -/
theorem abandon_escapes {kind : JobKind} {job : JobRow} {usageSink : UsageSink} {e : Exn}
    (h : ¬ e.isLlmErrorOrValueError) : Every exec env (Extraction.abandon kind job usageSink e) l s
      fun _ res l' _ => Escapes Uncaught res l' := by
  unfold Extraction.abandon
  rw [if_neg h]
  exact id

theorem abandon_concludes {kind : JobKind} {job : JobRow} {e : Exn} :
    Concludes kind job.id (Extraction.abandon kind job
      (Usage.sink requestId tenantId jobType jobId) e) l s := by
  unfold Extraction.abandon
  split
  · refine .bind ((markFailed_settles job _).mono fun _ res l s hsettled marked hres => ?_)
    refine .keeping (hsettled marked hres) ?_ fun _ _ _ h => .ret h
    unfold Usage.accountRejectedOutput
    split
    · exact .call rfl
    · exact .ret _
  · exact .raise e

end Branches

/-- The job, then its review items. -/
theorem complete_blamed (kind : JobKind) (job : JobRow) (result : Json) (source : ReviewItemSource)
    (candidates : List (Str × Json × Rat)) (threshold : Rat) :
    Blamed exec env Uncaught Fatal ((markCompleted kind job result).bind fun _ =>
      (ReviewQueue.routeForReview job.tenantId source job.documentId job.id candidates threshold).bind
        fun _ => .ret true) l s :=
  .bind (uncaught_attributes_fatal.markCompleted (fun _ => id) _ _ _) fun _ _ _ =>
    .bind (uncaught_attributes_fatal.routeForReview _ _ _ _ _ _) fun _ _ _ => .ret _

theorem complete_concludes (kind : JobKind) (job : JobRow) (result : Json)
    (source : ReviewItemSource) (candidates : List (Str × Json × Rat)) (threshold : Rat) :
    Concludes kind job.id ((markCompleted kind job result).bind fun _ =>
      (ReviewQueue.routeForReview job.tenantId source job.documentId job.id candidates threshold).bind
        fun _ => .ret true) l s := by
  refine .bind ((markCompleted_settles job _).mono fun _ res l s hsettled marked hres => ?_)
  exact .keeping (hsettled marked hres) (routeForReview_performs rfl)
    fun _ _ _ h => .ret h

/-- A report whose rows zip is completed and routed. -/
theorem finish_eq (job : JobRow) {f : ChangeReport.Findings} (threshold : Rat)
    {rows : List (Change × ChangeExplanation × List ChangeReport.ImpactEntry)}
    (hrows : f.zipped = .ok rows) : ChangeReport.finish job f threshold =
      (markCompleted .changeReport job (ChangeReport.reportResult f.baseText f.amendedText rows)).bind
        fun _ => (ReviewQueue.routeForReview job.tenantId .impactMapping job.documentId job.id
          (rows.flatMap fun row => ChangeReport.reviewCandidates row.1 row.2.1 row.2.2)
          threshold).bind fun _ => .ret true := by
  unfold ChangeReport.finish
  rw [hrows]
  rfl

/-! ## The handlers -/

/-- The two handlers that expect `LlmError` and `ValueError`. -/
inductive ModelHandler | extraction | changeReport

namespace ModelHandler

def kind : ModelHandler → JobKind
  | .extraction => .extraction
  | .changeReport => .changeReport

variable [Ucd] [Platform]

/-- What the handler does with a claimed job. -/
def body (llm : OpenAiClient) (threshold : Rat) : ModelHandler → JobRow → Service Bool
  | .extraction => Extraction.runClaimed llm threshold
  | .changeReport => ChangeReport.runClaimed llm threshold

/-- `run_next_extraction_job` and `run_next_change_report_job`. -/
def run (llm : OpenAiClient) (threshold : Rat) : ModelHandler → Service Bool
  | .extraction => Extraction.runNextExtractionJob llm threshold
  | .changeReport => ChangeReport.runNextChangeReportJob llm threshold

theorem run_eq (handler : ModelHandler) (llm : OpenAiClient) (threshold : Rat) :
    handler.run llm threshold = passOf handler.kind (handler.body llm threshold) := by
  cases handler <;> rfl

theorem body_blamed (handler : ModelHandler) (llm : OpenAiClient) (threshold : Rat) (job : JobRow) :
    Blamed exec env Uncaught Fatal (handler.body llm threshold job) l s := by
  cases handler with
  | extraction =>
    show Blamed _ _ _ _ (Extraction.runClaimed llm threshold job) l s
    unfold Extraction.runClaimed
    split
    · exact .ret _
    refine .attempt (extract_blamed llm job [] job.tenantId .extraction (some job.id))
      ((Every.of_forall _ l s).mono fun _ res l' t _ => ?_)
    cases res with
    | error e => exact ⟨fun h => abandon_blamed _ _ _ _ (not_not.mp h), abandon_escapes⟩
    | ok extraction => exact ⟨fun _ => complete_blamed _ _ _ _ _ _, fun h => absurd h id⟩
  | changeReport =>
    show Blamed _ _ _ _ (ChangeReport.runClaimed llm threshold job) l s
    unfold ChangeReport.runClaimed
    split
    · exact .ret _
    refine .attempt (examine_blamed [] job.tenantId .changeReport (some job.id) llm job)
      ((ChangeReport.examine_aligned llm job).mono fun _ res l' t haligned => ?_)
    cases res with
    | error e => exact ⟨fun h => abandon_blamed _ _ _ _ (not_not.mp h), abandon_escapes⟩
    | ok f =>
      obtain ⟨rows, hrows, -⟩ := haligned f rfl
      refine ⟨fun _ => ?_, fun h => absurd h id⟩
      show Blamed _ _ _ _ (ChangeReport.finish job f threshold) _ _
      rw [finish_eq job threshold hrows]
      exact complete_blamed _ _ _ _ _ _

theorem body_concludes (handler : ModelHandler) (llm : OpenAiClient) (threshold : Rat) (job : JobRow)
    (hcapped : job.terminal → Settled handler.kind job.id s) :
    Concludes handler.kind job.id (handler.body llm threshold job) l s := by
  have hfailed : job.status = .failed → job.terminal := fun h => by simp [JobRow.terminal, h]
  cases handler with
  | extraction =>
    show Concludes .extraction job.id (Extraction.runClaimed llm threshold job) l s
    unfold Extraction.runClaimed
    split
    next h => exact .ret (hcapped (hfailed h))
    refine .after fun outcome l s => ?_
    cases outcome with
    | error e => exact abandon_concludes _ _ _ _
    | ok extraction => exact complete_concludes _ _ _ _ _ _
  | changeReport =>
    show Concludes .changeReport job.id (ChangeReport.runClaimed llm threshold job) l s
    unfold ChangeReport.runClaimed
    split
    next h => exact .ret (hcapped (hfailed h))
    refine .after fun outcome l s => ?_
    cases outcome with
    | error e => exact abandon_concludes _ _ _ _
    | ok f =>
      show Concludes _ _ (ChangeReport.finish job f threshold) _ _
      cases hrows : f.zipped with
      | error e =>
        unfold ChangeReport.finish
        rw [hrows]
        exact .raise e
      | ok rows =>
        rw [finish_eq job threshold hrows]
        exact complete_concludes _ _ _ _ _ _

end ModelHandler

/-- A run of either handler on a claimed job returns `True` and leaves the job finished or gone
exactly when no operation in it is fatal: the database does not fail, every answered call names a
priced model, and every chat reply has a choice. -/
theorem model_run_returns_iff [Ucd] [Platform] {handler : ModelHandler} {llm : OpenAiClient}
    {threshold : Rat} {job : JobRow} {a : Answer} {rest : List Entry} {res : Except Exn Bool}
    {l' : Session} {t : Store}
    (hrun : Runs exec (Spares handler.kind job.id) (handler.run llm threshold) l s
      (⟨.claimJob handler.kind, a, .ok (some job)⟩ :: rest) res l' t) :
    (res = .ok true ∧ Settled handler.kind job.id t) ↔ ∀ entry ∈ rest, ¬ Fatal entry := by
  rw [handler.run_eq] at hrun
  have hraises : Escapes Uncaught res l' ↔ ∃ entry ∈ rest, Fatal entry := by
    refine of_claimed (handler.body llm threshold) (Φ := fun trace res l' _ =>
      Escapes Uncaught res l' ↔ ∃ entry ∈ trace, Fatal entry) (fun l u => ?_) hrun
    exact Blamed.bind (uncaught_attributes_fatal.refreshJob (fun _ => id) _ _)
      fun job _ _ => handler.body_blamed llm threshold job
  have hconcludes : ∀ b, res = .ok b → b = true ∧ Settled handler.kind job.id t := by
    refine of_claimed (handler.body llm threshold) (Φ := fun _ res _ t =>
      ∀ b, res = .ok b → b = true ∧ Settled handler.kind job.id t) (fun l u => ?_) hrun
    refine Concludes.bind (refreshJob_found.mono fun _ res l' u hfound refreshed hres => ?_)
    obtain ⟨hid, hsettled⟩ := hfound refreshed hres
    rw [← hid] at hsettled ⊢
    exact handler.body_concludes llm threshold refreshed hsettled
  have hfatal : (∀ entry ∈ rest, ¬ Fatal entry) ↔ ¬ ∃ entry ∈ rest, Fatal entry := by
    simp only [not_exists, not_and]
  rw [hfatal, ← hraises]
  cases res with
  | ok b => exact iff_of_true ⟨congrArg _ (hconcludes b rfl).1, (hconcludes b rfl).2⟩ id
  | error e => exact iff_of_false (fun h => by cases h.1) fun h => h id

/-- A parsed document of one line with its queued jobs. -/
def oneParsed : Store :=
  { Store.empty 0 with
    documents := [⟨10, 1, "a.txt".toList, Parsing.TEXT_MIME, [], none, .parsed, 0⟩]
    texts := [⟨10, 1, "Pay.".toList, []⟩]
    jobs := fun _ => [.create 20 1 10 none 0]
    issued := [10, 20] }

/-- Every statement goes through, and the call of the model comes to this. -/
def oneReply (chat : ChatOutcome) : List Answer := [{}, {}, {}, { chat }, {}, {}, {}]

/-- What is left of a pass over the extraction queue: the value it returned, and whether the job is
finished or gone. -/
def passed (model : Str) (chat : ChatOutcome) : Option (Option Bool × Bool) :=
  (replay exec (Extraction.runNextExtractionJob ⟨model, []⟩ 0) ⟨false⟩ oneParsed
    ({} :: oneReply chat)).map fun r =>
      (r.2.1.toOption, (Jobs.row? 20 (r.2.2.2.jobs .extraction)).all JobRow.terminal)

/-- A reply that finds nothing in the document, without usage. -/
def noObligations : ChatOutcome := .replied none 0 [some (.obligationExtraction ⟨[], []⟩)]

theorem model_run_returns_iff_empty :
    ∃ rest res l' t, Runs exec (Spares .extraction Ingestion.oneClaimed.id)
        (Extraction.runNextExtractionJob ⟨"gpt-4o-mini".toList, []⟩ 0) ⟨false⟩ oneParsed
        (⟨.claimJob .extraction, {}, .ok (some Ingestion.oneClaimed)⟩ :: rest) res l' t ∧
      ∀ entry ∈ rest, ¬ Fatal entry := by
  obtain ⟨rest, res, l', t, hreplay, hrun⟩ := @claimed_of_replay .extraction {} ⟨false⟩ oneParsed
    (Extraction.runNextExtractionJob ⟨"gpt-4o-mini".toList, []⟩ 0) _ rfl Ingestion.oneClaimed
    (oneReply noObligations) rfl (by decide +kernel)
  refine ⟨rest, res, l', t, hrun,
    (@model_run_returns_iff _ _ Ucd.ascii Documents.onePdf .extraction _ _ _ _ _ _ _ _ hrun).mp ?_⟩
  have hend : passed "gpt-4o-mini".toList noObligations = some (some true, true) := by
    decide +kernel
  rw [passed, hreplay, Option.map_some, Option.some.injEq, Prod.mk.injEq] at hend
  cases res with
  | error e => cases hend.1
  | ok b => exact ⟨congrArg _ (Option.some.inj hend.1), settled_iff.mpr hend.2⟩

/-- When the call comes to this, and nothing is refused, a pass under the model ends in an exception
and leaves its job running. -/
def StopsWorker (model : Str) (chat : ChatOutcome) : Prop :=
  ∃ rest e l' t,
    replay exec (Extraction.runNextExtractionJob ⟨model, []⟩ 0) ⟨false⟩ oneParsed
        ({} :: oneReply chat) =
      some (⟨.claimJob .extraction, {}, .ok (some Ingestion.oneClaimed)⟩ :: rest, .error e, l', t) ∧
    Runs exec (Spares .extraction Ingestion.oneClaimed.id)
      (Extraction.runNextExtractionJob ⟨model, []⟩ 0) ⟨false⟩ oneParsed
      (⟨.claimJob .extraction, {}, .ok (some Ingestion.oneClaimed)⟩ :: rest) (.error e) l' t ∧
    ¬ Settled .extraction Ingestion.oneClaimed.id t

theorem stopsWorker {model : Str} {chat : ChatOutcome}
    (hpassed : passed model chat = some (none, false)) : StopsWorker model chat := by
  obtain ⟨rest, res, l', t, hreplay, hrun⟩ := @claimed_of_replay .extraction {} ⟨false⟩ oneParsed
    (Extraction.runNextExtractionJob ⟨model, []⟩ 0) _ rfl Ingestion.oneClaimed
    (oneReply chat) rfl (by
      obtain ⟨out, hout, -⟩ := Option.map_eq_some_iff.mp hpassed
      exact Option.isSome_iff_exists.mpr ⟨out, hout⟩)
  rw [passed, hreplay, Option.map_some, Option.some.injEq, Prod.mk.injEq] at hpassed
  cases res with
  | ok b => cases hpassed.1
  | error e =>
    exact ⟨rest, e, l', t, hreplay, hrun, fun h => nomatch hpassed.2.symm.trans (settled_iff.mp h)⟩

/-- A reply of a model without a price, a reply without choices, one with `"usage": {}` and one with
`"choices": [{"message": null}]`. -/
theorem unpriced_reply_stops_the_worker :
    StopsWorker "gpt-5".toList noObligations ∧
      StopsWorker "gpt-4o".toList (.replied none 0 []) ∧
      StopsWorker "gpt-4o".toList
        (.replied (some ⟨none, none⟩) 0 [some (.obligationExtraction ⟨[], []⟩)]) ∧
      StopsWorker "gpt-4o".toList (.strange (.misshapen "AttributeError".toList
        "'NoneType' object has no attribute 'tool_calls'".toList)) :=
  ⟨stopsWorker (by decide +kernel), stopsWorker (by decide +kernel),
    stopsWorker (by decide +kernel), stopsWorker (by decide +kernel)⟩

end ContractIntel
