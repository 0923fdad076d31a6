import ContractIntel.Laws.Services.IngestionHandler
import ContractIntel.Laws.Services.ModelHandlers
import ContractIntel.Laws.Store.Repositories
import ContractIntel.Lib.Ledger

/-!
# What a run spends and what it records

Each answered call of a run yields a usage record, and each record is to become one usage row of the
job. Between the two stands an exception in one case: a refusal carries its record to the `except`
branch, which writes the row. So the calls of a run incur, the usage rows pay, and refusals owe
(`ledger`); a run that returns has paid all (`spend_is_recorded`).
-/

namespace ContractIntel.Usage

open Diffing (Change)
open Jobs (JobRow)
open Lib (Escapes Every Ledger Runs replay)
open Lib.Prog (Performs)
open Llm (OpenAiClient UsageSink)
open Repositories

/-! ## The ledger of a job -/

/-- What a usage row records, its request and time apart. -/
structure Charge where
  tenantId : Uuid
  jobType : UsageJobKind
  jobId : Option Uuid
  usage : LlmUsage
  deriving DecidableEq

def charge (row : UsageRow) : Charge := ⟨row.tenantId, row.jobType, row.jobId, row.usage⟩

/-- The record due for a response: the counts of a listed model, at its price. -/
def recordDue (model : Str) (promptTokens completionTokens : Option Nat) (latencyMs : Nat) :
    Option LlmUsage := do
  let (_, price) ← Llm.PRICES.find? (·.1 = model)
  let prompt ← promptTokens.filter (· < Llm.FLOAT_LIMIT)
  let completion ← completionTokens.filter (· < Llm.FLOAT_LIMIT)
  return {
    model := model
    promptTokens := prompt
    completionTokens := completion
    costUsd := prompt / 1000000 * price.inputPerMillion +
      completion / 1000000 * price.outputPerMillion
    latencyMs := latencyMs }

/-- The usage record that a call yields. -/
def yielded : Entry → Option LlmUsage
  | ⟨.parseChat _ model _, _, .ok response⟩ =>
    recordDue model response.promptTokens response.completionTokens response.latencyMs
  | ⟨.createEmbeddings model _, _, .ok response⟩ =>
    recordDue model response.promptTokens (some 0) response.latencyMs
  | _ => none

/-- The charge of a usage row that was written. -/
def recorded : Entry → Option Charge
  | ⟨.insertUsage tenantId jobType jobId usage _, _, .ok _⟩ => some ⟨tenantId, jobType, jobId, usage⟩
  | _ => none

/-- The usage attached to an exception. -/
def attached : Exn → Option LlmUsage
  | .llmOutputError _ usage => usage
  | _ => none

/-- The operations that incur or pay. -/
def Op.spends : Op → Bool
  | .parseChat .. | .createEmbeddings .. | .insertUsage .. => true
  | _ => false

/-- Calls incur charges under `bill`, usage rows pay them, and what an exception is asked for is
`left`. -/
def ledger (bill : LlmUsage → Charge) (left : Exn → Option LlmUsage) :
    Ledger Op Op.Res Exn Answer Charge where
  incurred entry := (yielded entry).toList.map bill
  paid entry := (recorded entry).toList
  owed e := (left e).toList.map bill

theorem ledger_pays (bill : LlmUsage → Charge) (left : Exn → Option LlmUsage) (trace : List Entry) :
    (ledger bill left).pays trace = trace.filterMap recorded :=
  (List.filterMap_eq_flatMap_toList recorded trace).symm

theorem ledger_incurs (bill : LlmUsage → Charge) (left : Exn → Option LlmUsage)
    (trace : List Entry) : (ledger bill left).incurs trace = (trace.filterMap yielded).map bill := by
  rw [List.filterMap_eq_flatMap_toList, List.map_flatMap]
  rfl

theorem idle_of_not_spends {bill : LlmUsage → Charge} {left : Exn → Option LlmUsage} {entry : Entry}
    (h : Op.spends entry.op = false) :
    (ledger bill left).incurred entry = [] ∧ (ledger bill left).paid entry = [] := by
  obtain ⟨o, a, result⟩ := entry
  cases o <;> first | exact ⟨rfl, rfl⟩ | cases h

/-- A count is kept when its millionth can be taken. -/
theorem millions_cases (tokens : Option Nat) :
    (∃ n : Nat, tokens.filter (· < Llm.FLOAT_LIMIT) = some n ∧ tokens.getD 0 = n ∧
        Llm.millions tokens = .ok (n / 1000000)) ∨
      tokens.filter (· < Llm.FLOAT_LIMIT) = none ∧ ∃ e, Llm.millions tokens = .error e := by
  cases tokens with
  | none => exact .inr ⟨rfl, _, rfl⟩
  | some n =>
    by_cases hn : n < Llm.FLOAT_LIMIT
    · exact .inl ⟨n, Option.filter_some_pos (decide_eq_true hn), rfl, if_pos hn⟩
    · exact .inr ⟨Option.filter_some_neg (decide_eq_false hn), _, if_neg hn⟩

/-- The client makes the record that is due. -/
theorem recordDue_eq (model : Str) (promptTokens completionTokens : Option Nat) (latencyMs : Nat) :
    recordDue model promptTokens completionTokens latencyMs =
      (Llm.usageRecord model promptTokens completionTokens latencyMs).toOption := by
  unfold recordDue Llm.usageRecord Llm.costUsd Llm.pricingFor
  cases Llm.PRICES.find? (·.1 = model) with
  | none => rfl
  | some entry =>
    rcases millions_cases promptTokens with ⟨p, hkept, hp, hprompt⟩ | ⟨hkept, e, hprompt⟩
    · rcases millions_cases completionTokens with ⟨c, hkept', hc, hcompletion⟩ |
        ⟨hkept', e, hcompletion⟩
      · rw [hkept, hkept', hprompt, hcompletion, hp, hc]
        rfl
      · rw [hkept, hkept', hprompt, hcompletion]
        rfl
    · rw [hkept, hprompt]
      rfl

/-- What is raised in place of a usage record carries none. -/
theorem attached_of_usageRecord {model : Str} {promptTokens completionTokens : Option Nat}
    {latencyMs : Nat} {e : Exn}
    (h : Llm.usageRecord model promptTokens completionTokens latencyMs = .error e) :
    attached e = none := by
  have hnot : ¬ Llm.Recordable model promptTokens completionTokens := by
    intro hrecordable
    obtain ⟨_, _, _, -, -, -, hrecord⟩ := Llm.usageRecord_of_recordable hrecordable latencyMs
    cases hrecord.symm.trans h
  obtain ⟨e', he', hcause⟩ := Llm.usageRecord_of_not_recordable hnot latencyMs
  cases he'.symm.trans h
  rcases hcause with rfl | ⟨error, message, rfl⟩ <;> rfl

/-- What the client makes of the SDK's exceptions carries no usage. -/
theorem attached_sdkError (model : Str) {e : Exn} (h : Llm.ofSdk e) :
    attached (Llm.sdkError model e) = none := by
  cases e <;> first | rfl | cases h

/-- A handler lets database errors through, and is asked for attached usage only. -/
structure Handles (caught : Exn → Session → Prop) (left : Exn → Option LlmUsage) : Prop where
  database : ∀ e, e.isDatabaseError → ¬ caught e ⟨true⟩
  unused : ∀ e, attached e = none → left e = none

namespace Handles

variable {env : Store → Store → Prop} {caught : Exn → Session → Prop}
  {left : Exn → Option LlmUsage} {l : Session} {s : Store}

theorem owes_nothing (h : Handles caught left) {bill : LlmUsage → Charge} {e : Exn}
    (he : attached e = none) : (ledger bill left).owed e = [] := by
  show (left e).toList.map bill = []
  rw [h.unused e he]
  rfl

theorem statement (h : Handles caught left) {bill : LlmUsage → Charge} {o : Op} (ho : o.isStatement)
    (hspends : Op.spends o = false) :
    (ledger bill left).Settles exec env caught [] (perform o) l s := by
  refine .call fun a s => ?_
  rcases exec_statement ho a l s with ⟨e, heq, hdatabase⟩ | ⟨r, t, heq⟩
  · rw [heq]
    exact fun hcaught => absurd hcaught (h.database e hdatabase)
  · rw [heq]
    have hidle := @idle_of_not_spends bill left ⟨o, a, .ok r⟩ hspends
    rw [Ledger.Balanced, Ledger.pays_singleton, Ledger.incurs_singleton, hidle.1, hidle.2]
    rfl

theorem raise (h : Handles caught left) {α : Type} {bill : LlmUsage → Charge} {e : Exn}
    (he : attached e = none) :
    (ledger bill left).Settles exec env caught [] (.raise e : Service α) l s :=
  .raise fun _ => h.owes_nothing he

theorem ofResult (h : Handles caught left) {α : Type} {bill : LlmUsage → Charge}
    {r : Except Exn α} (hr : ∀ e, r = .error e → attached e = none) :
    (ledger bill left).Settles exec env caught [] (lift r) l s :=
  .ofResult fun e he _ => h.owes_nothing (hr e he)

variable (requestId : Str) (tenantId : Uuid) (jobType : UsageJobKind) (jobId : Option Uuid)

/-- A usage row pays its charge. -/
theorem sink (h : Handles caught left) (usage : LlmUsage) :
    (ledger (Charge.mk tenantId jobType jobId) left).Settles exec env caught
      [⟨tenantId, jobType, jobId, usage⟩] (Usage.sink requestId tenantId jobType jobId usage) l s := by
  refine .call fun a s => ?_
  rcases exec_statement (o := .insertUsage tenantId jobType jobId usage requestId) rfl a l s with
    ⟨e, heq, hdatabase⟩ | ⟨r, t, heq⟩
  · rw [heq]
    exact fun hcaught => absurd hcaught (h.database e hdatabase)
  · rw [heq]
    rfl

/-- An embeddings call, its usage row, and what is made of the vectors. -/
theorem embed (h : Handles caught left) {β : Type} (llm : OpenAiClient) (texts : List Str)
    {f : Llm.EmbeddingResult → Service β}
    (hf : ∀ reply l s, (ledger (Charge.mk tenantId jobType jobId) left).Settles exec env caught []
      (f reply) l s) :
    (ledger (Charge.mk tenantId jobType jobId) left).Settles exec env caught []
      ((Llm.embed llm texts).bind fun reply =>
        (Usage.sink requestId tenantId jobType jobId reply.usage).bind fun _ => f reply) l s := by
  refine .bind_owing ((Llm.embed_answers llm texts).mono ?_)
  rintro trace res l' - ⟨a, rfl, rfl, -⟩
  refine ⟨rfl, ?_⟩
  cases hreply : embedReply a.embed with
  | error e => exact fun _ => h.owes_nothing (attached_sdkError _ (Llm.embedReply_error hreply).1)
  | ok response =>
    rw [Llm.embedded, Llm.readEmbeddings]
    cases husage : Llm.usageRecord llm.embeddingModel response.promptTokens (some 0)
      response.latencyMs with
    | error e =>
      intro _
      rw [h.owes_nothing (attached_of_usageRecord husage)]
      simp [ledger, yielded, recordDue_eq, husage, Except.toOption]
    | ok usage =>
      have hincurs : (ledger (Charge.mk tenantId jobType jobId) left).incurs
          [⟨.createEmbeddings llm.embeddingModel texts, a, .ok response⟩] =
            [⟨tenantId, jobType, jobId, usage⟩] := by
        simp [ledger, yielded, recordDue_eq, husage, Except.toOption]
      refine .bind ?_ fun _ l' t => hf _ l' t
      rw [hincurs]
      exact h.sink requestId tenantId jobType jobId usage

end Handles

/-! ## Structured calls -/

/-- The two handlers that account for what they reject. -/
theorem expected_handles : Handles Expected attached where
  database _ he := not_expected_of_database he
  unused _ he := he

/-- A response is read with the usage made of it, in the reply or in the refusal. -/
theorem readReply_usage {model : Str} {schema : Schema} (response : ChatReply schema)
    {usage : LlmUsage} (husage : Llm.usageRecord model response.promptTokens
      response.completionTokens response.latencyMs = .ok usage) :
    (∀ reply, Llm.readReply model response = .ok reply → reply.usage = usage) ∧
      ∀ e, Llm.readReply model response = .error e → e.isLlmErrorOrValueError →
        attached e = some usage := by
  rw [Llm.readReply_of_record husage]
  cases response.choices with
  | nil =>
    refine ⟨(fun reply h => by cases h), fun e h hexpected => ?_⟩
    cases h
    cases hexpected
  | cons first rest =>
    cases first with
    | none =>
      refine ⟨(fun reply h => by cases h), fun e h _ => ?_⟩
      cases h
      rfl
    | some data =>
      refine ⟨fun reply h => ?_, fun e h => by cases h⟩
      cases h
      rfl

section Services

variable {env : Store → Store → Prop} {l : Session} {s : Store} (requestId : Str) (tenantId : Uuid)
  (jobType : UsageJobKind) (jobId : Option Uuid)

/-- A chat call, its usage row, and what is made of the reply: a refusal carries its usage on. -/
theorem ask_settles {β : Type} (llm : OpenAiClient) (schema : Schema) (user : Str)
    {f : Llm.StructuredResult schema → Service β}
    (hf : ∀ reply l s, (ledger (Charge.mk tenantId jobType jobId) attached).Settles exec env Expected []
      (f reply) l s) :
    (ledger (Charge.mk tenantId jobType jobId) attached).Settles exec env Expected []
      ((Llm.completeStructured llm schema user).bind fun reply =>
        (Usage.sink requestId tenantId jobType jobId reply.usage).bind fun _ => f reply) l s := by
  refine .bind_owing ((Llm.completeStructured_trace llm user).mono ?_)
  rintro trace res l' - ⟨a, result, rfl, rfl, -, hresult⟩
  refine ⟨rfl, ?_⟩
  cases result with
  | error e => exact fun _ => expected_handles.owes_nothing (attached_sdkError _ (hresult e rfl))
  | ok response =>
    rw [Llm.heard]
    cases husage : Llm.usageRecord llm.model response.promptTokens response.completionTokens
      response.latencyMs with
    | error e =>
      rw [Llm.readReply_of_no_record husage]
      intro _
      rw [expected_handles.owes_nothing (attached_of_usageRecord husage)]
      simp [ledger, yielded, recordDue_eq, husage, Except.toOption]
    | ok usage =>
      have hincurs : (ledger (Charge.mk tenantId jobType jobId) attached).incurs
          [⟨.parseChat schema llm.model user, a, .ok response⟩] =
            [⟨tenantId, jobType, jobId, usage⟩] := by
        simp [ledger, yielded, recordDue_eq, husage, Except.toOption]
      obtain ⟨hheard, hrefused⟩ := readReply_usage response husage
      rw [hincurs]
      cases hreply : Llm.readReply llm.model response with
      | error e =>
        intro hexpected
        show (attached e).toList.map _ = _
        rw [hrefused e hreply hexpected]
        rfl
      | ok reply =>
        obtain rfl := hheard reply hreply
        exact .bind (expected_handles.sink requestId tenantId jobType jobId _) fun _ _ _ => hf _ _ _

/-! ## What the handlers' `try` blocks run -/

theorem extractAttempts_settles (llm : OpenAiClient) (text : Str) (left : Nat) :
    (ledger (Charge.mk tenantId jobType jobId) attached).Settles exec env Expected []
      (Extraction.extractAttempts llm text (sink requestId tenantId jobType jobId) left) l s := by
  induction left generalizing l s with
  | zero => exact expected_handles.raise rfl
  | succ left ih =>
    refine ask_settles requestId tenantId jobType jobId llm _ _ fun reply _ _ => ?_
    dsimp only
    split
    · exact .ret _
    · split
      · exact ih
      · split
        · exact expected_handles.raise rfl
        · exact .ret _

theorem extract_settles (llm : OpenAiClient) (job : JobRow) :
    (ledger (Charge.mk tenantId jobType jobId) attached).Settles exec env Expected []
      (Extraction.extract llm job (sink requestId tenantId jobType jobId)) l s := by
  refine .bind (expected_handles.statement rfl rfl) fun found _ _ => ?_
  cases found with
  | none => exact expected_handles.raise rfl
  | some document =>
    refine .bind (expected_handles.statement rfl rfl) fun text _ _ => ?_
    cases text with
    | none => exact expected_handles.raise rfl
    | some row => exact extractAttempts_settles requestId tenantId jobType jobId llm row.text _

theorem searchDocument_settles (llm : OpenAiClient) (tenant documentId : Uuid) (query : Str)
    (limit : Nat) : (ledger (Charge.mk tenantId jobType jobId) attached).Settles exec env Expected []
      (Search.searchDocument llm tenant documentId query limit
        (sink requestId tenantId jobType jobId)) l s := by
  refine expected_handles.embed requestId tenantId jobType jobId llm [query] fun reply _ _ => ?_
  refine .bind (expected_handles.ofResult fun e he => ?_) fun embedding _ _ => ?_
  · obtain ⟨message, rfl⟩ := Search.unpackOne_error he
    rfl
  refine .bind (expected_handles.statement rfl rfl) fun vectorRanked _ _ => ?_
  refine .bind (expected_handles.statement rfl rfl) fun ftsRanked _ _ => ?_
  obtain ⟨hits, hhits⟩ := Search.fuseRows_isOk vectorRanked ftsRanked limit
  rw [hhits]
  exact .ret hits

theorem mapChangeImpacts_settles (llm : OpenAiClient) (change : Change)
    (candidates : List Obligation) (baseText amendedText : Str) :
    (ledger (Charge.mk tenantId jobType jobId) attached).Settles exec env Expected []
      (Impact.mapChangeImpacts llm change candidates baseText amendedText
        (sink requestId tenantId jobType jobId)) l s := by
  unfold Impact.mapChangeImpacts
  split
  · exact .ret _
  · refine ask_settles requestId tenantId jobType jobId llm _ _ fun reply _ _ => ?_
    refine expected_handles.ofResult fun e he => ?_
    obtain ⟨message, rfl⟩ := Impact.readMapping_error he
    rfl

theorem mapChange_settles (llm : OpenAiClient) (tenant documentId : Uuid)
    (obligations : List Obligation) (baseText amendedText : Str) (change : Change) :
    (ledger (Charge.mk tenantId jobType jobId) attached).Settles exec env Expected []
      (ChangeReport.mapChange llm tenant documentId obligations baseText amendedText
        (sink requestId tenantId jobType jobId) change) l s := by
  have hrecall : (ledger (Charge.mk tenantId jobType jobId) attached).Settles exec env Expected []
      (ChangeReport.recalled llm tenant documentId baseText amendedText
        (sink requestId tenantId jobType jobId) change) l s := by
    unfold ChangeReport.recalled
    split
    · exact .ret _
    · exact searchDocument_settles requestId tenantId jobType jobId _ _ _ _ _
  exact .bind hrecall fun hits _ _ =>
    .bind (mapChangeImpacts_settles requestId tenantId jobType jobId _ _ _ _ _) fun _ _ _ => .ret _

theorem mapEach_settles {map : Change → Service (List ChangeReport.ImpactEntry)}
    (hmap : ∀ change l s, (ledger (Charge.mk tenantId jobType jobId) attached).Settles exec env
      Expected [] (map change) l s) (changes : List Change) :
    (ledger (Charge.mk tenantId jobType jobId) attached).Settles exec env Expected []
      (ChangeReport.mapEach map changes) l s := by
  induction changes generalizing l s with
  | nil => exact .ret _
  | cons change rest ih =>
    exact .bind (hmap change l s) fun _ _ _ => .bind ih fun _ _ _ => .ret _

theorem explainChanges_settles (llm : OpenAiClient) (changes : List Change)
    (baseText amendedText : Str) :
    (ledger (Charge.mk tenantId jobType jobId) attached).Settles exec env Expected []
      (ChangeReport.explainChanges llm changes baseText amendedText
        (sink requestId tenantId jobType jobId)) l s := by
  unfold ChangeReport.explainChanges
  split
  · exact .ret _
  · refine ask_settles requestId tenantId jobType jobId llm _ _ fun reply _ _ => ?_
    refine expected_handles.ofResult fun e he => ?_
    obtain ⟨message, rfl⟩ := ChangeReport.readExplanations_error he
    rfl

theorem parsedText_settles (documentId : Uuid) :
    (ledger (Charge.mk tenantId jobType jobId) attached).Settles exec env Expected []
      (ChangeReport.parsedText documentId) l s := by
  refine .bind (expected_handles.statement rfl rfl) fun found _ _ => ?_
  cases found with
  | none => exact expected_handles.raise rfl
  | some row => exact .ret _

/-- The ingestion handler asks nothing of an exception: its calls leave no usage behind. -/
theorem recovers_handles : Handles Ingestion.Recovers fun _ => none where
  database _ he h := h ⟨he, rfl⟩
  unused _ _ := rfl

theorem embedBatches_settles (llm : OpenAiClient) (batches : List (List Str)) :
    (ledger (Charge.mk tenantId jobType jobId) fun _ => none).Settles exec env Ingestion.Recovers []
      (Ingestion.embedBatches llm (sink requestId tenantId jobType jobId) batches) l s := by
  induction batches generalizing l s with
  | nil => exact .ret _
  | cons batch rest ih =>
    exact recovers_handles.embed requestId tenantId jobType jobId llm batch fun _ _ _ =>
      .bind ih fun _ _ _ => .ret _

variable [Platform]

theorem ingest_settles (llm : OpenAiClient) (document : DocumentRow) :
    (ledger (Charge.mk tenantId jobType jobId) fun _ => none).Settles exec env Ingestion.Recovers []
      (Ingestion.ingest llm document (sink requestId tenantId jobType jobId)) l s := by
  refine .bind (.call fun a s => ?_) fun content _ _ =>
    .bind (recovers_handles.ofResult fun e he => ?_) fun parsed _ _ =>
      .bind (embedBatches_settles requestId tenantId jobType jobId llm _) fun _ _ _ => .ret _
  · cases (exec (.readFile document.tenantId document.sha256) a l s).1 with
    | ok content => rfl
    | error e => exact fun _ => rfl
  · obtain ⟨message, -, rfl⟩ := Lib.exists_of_mapError he
    rfl

theorem mapImpacts_settles (llm : OpenAiClient) (tenant documentId : Uuid) (changes : List Change)
    (baseText amendedText : Str) :
    (ledger (Charge.mk tenantId jobType jobId) attached).Settles exec env Expected []
      (ChangeReport.mapImpacts llm tenant documentId changes baseText amendedText
        (sink requestId tenantId jobType jobId)) l s := by
  have hobligations : (ledger (Charge.mk tenantId jobType jobId) attached).Settles exec env Expected []
      (ChangeReport.baseObligations documentId) l s := by
    rw [ChangeReport.baseObligations_eq]
    exact .bind (expected_handles.statement rfl rfl) fun _ _ _ => .ret _
  refine .bind hobligations fun obligations _ _ => ?_
  split
  · exact .ret _
  · exact mapEach_settles tenantId jobType jobId (fun change _ _ =>
      mapChange_settles requestId tenantId jobType jobId _ _ _ _ _ _ change) changes

theorem examine_settles [Ucd] (llm : OpenAiClient) (job : JobRow) :
    (ledger (Charge.mk tenantId jobType jobId) attached).Settles exec env Expected []
      (ChangeReport.examine llm job (sink requestId tenantId jobType jobId)) l s := by
  refine .bind (parsedText_settles _ _ _ _) fun baseText _ _ => ?_
  refine .bind (parsedText_settles _ _ _ _) fun amendedText _ _ => ?_
  refine .bind (expected_handles.ofResult fun e he => ?_) fun changes _ _ => ?_
  · obtain ⟨reason, -, rfl⟩ := Lib.exists_of_mapError he
    rfl
  · refine .bind (explainChanges_settles requestId tenantId jobType jobId _ _ _ _) fun _ _ _ => ?_
    exact .bind (mapImpacts_settles requestId tenantId jobType jobId _ _ _ _ _ _) fun _ _ _ => .ret _

end Services

/-! ## What follows the `try` blocks -/

section Branches

variable {bill : LlmUsage → Charge} {left : Exn → Option LlmUsage} {env : Store → Store → Prop}
  {l : Session} {s : Store}

theorem uncaught_never (e : Exn) (l : Session) : ¬ Ingestion.Uncaught e l := id

/-- A program without calls and usage rows. -/
theorem settles_of_performs {α : Type} {p : Service α} (hp : p.Performs fun o => Op.spends o = false) :
    (ledger bill left).Settles exec env Ingestion.Uncaught [] p l s :=
  .of_performs hp (fun _ h => idle_of_not_spends h) uncaught_never

theorem complete_performs (kind : JobKind) (job : JobRow) (result : Json) (source : ReviewItemSource)
    (candidates : List (Str × Json × Rat)) (threshold : Rat) :
    ((markCompleted kind job result).bind fun _ =>
      (ReviewQueue.routeForReview job.tenantId source job.documentId job.id candidates threshold).bind
        fun _ => (.ret true : Service Bool)).Performs fun o => Op.spends o = false :=
  .bind (markCompleted_performs rfl rfl) fun _ => .bind (routeForReview_performs rfl) fun _ => .ret _

theorem persist_performs (job : JobRow) (document : DocumentRow) (ingested : Ingestion.Ingested) :
    (Ingestion.persist job document ingested).Performs fun o => Op.spends o = false :=
  .bind (.call rfl) fun _ => .bind (markCompleted_performs rfl rfl) fun _ =>
    .bind (setStatus_performs rfl rfl) fun _ => .ret _

theorem ingestion_abandon_performs (job : JobRow) (document : DocumentRow) (e : Exn) :
    (Ingestion.abandon job document e).Performs fun o => Op.spends o = false :=
  .bind (markFailed_performs rfl rfl) fun _ => .bind (setStatus_performs rfl rfl) fun _ => .ret _

theorem uncaught_handles : Handles Ingestion.Uncaught attached where
  database _ _ := id
  unused _ he := he

/-- The `except` branch pays what the exception carries. -/
theorem abandon_settles (requestId : Str) (tenantId : Uuid) (jobType : UsageJobKind)
    (jobId : Option Uuid) (kind : JobKind) (job : JobRow) {e : Exn} (h : e.isLlmErrorOrValueError) :
    (ledger (Charge.mk tenantId jobType jobId) attached).Settles exec env Ingestion.Uncaught
      ((ledger (Charge.mk tenantId jobType jobId) attached).owed e)
      (Extraction.abandon kind job (sink requestId tenantId jobType jobId) e) l s := by
  unfold Extraction.abandon
  rw [if_pos h]
  have hmark : (markFailed kind job e.str).Performs fun o => Op.spends o = false :=
    markFailed_performs rfl rfl
  refine .after hmark (fun _ h => idle_of_not_spends h) uncaught_never fun _ l t =>
    .bind ?_ fun _ _ _ => .ret _
  unfold accountRejectedOutput
  split
  next usage => exact uncaught_handles.sink requestId tenantId jobType jobId usage
  next hrefusal =>
    have hnone : attached e = none := by
      cases e with
      | llmOutputError message usage =>
        cases usage with
        | none => rfl
        | some usage => exact absurd rfl (hrefusal message usage)
      | _ => rfl
    rw [uncaught_handles.owes_nothing hnone]
    exact .ret _

end Branches

/-! ## The handlers -/

/-- The handlers of the three queues. -/
inductive Handler | ingestion | model (handler : ModelHandler)

namespace Handler

def kind : Handler → JobKind
  | .ingestion => .ingestion
  | .model handler => handler.kind

def usageKind : Handler → UsageJobKind
  | .ingestion => .ingestion
  | .model .extraction => .extraction
  | .model .changeReport => .changeReport

variable [Ucd] [Platform]

/-- What the handler does with a claimed job. -/
def body (llm : OpenAiClient) (threshold : Rat) : Handler → JobRow → Service Bool
  | .ingestion => Ingestion.runClaimed llm
  | .model handler => handler.body llm threshold

/-- `run_next_ingestion_job`, `run_next_extraction_job` and `run_next_change_report_job`. -/
def run (llm : OpenAiClient) (threshold : Rat) : Handler → Service Bool
  | .ingestion => Ingestion.runNextIngestionJob llm
  | .model handler => handler.run llm threshold

theorem run_eq (handler : Handler) (llm : OpenAiClient) (threshold : Rat) :
    handler.run llm threshold = passOf handler.kind (handler.body llm threshold) := by
  cases handler with
  | ingestion => rfl
  | model handler => exact handler.run_eq llm threshold

/-- What is asked for of an exception: an ingestion's carry no usage. -/
def left : Handler → Exn → Option LlmUsage
  | .ingestion => fun _ => none
  | .model _ => attached

variable {env : Store → Store → Prop} {l : Session} {s : Store}

omit [Ucd] in
theorem ingestion_settles (llm : OpenAiClient) (job : JobRow) :
    (ledger (Charge.mk job.tenantId .ingestion (some job.id)) fun _ => none).Settles exec env
      Ingestion.Uncaught [] (Ingestion.runClaimed llm job) l s := by
  unfold Ingestion.runClaimed
  split
  · refine settles_of_performs (.bind (.call rfl) fun found => ?_)
    cases found with
    | none => exact .ret _
    | some document => exact .bind (setStatus_performs rfl rfl) fun _ => .ret _
  · have hfind : (perform (.findDocument job.tenantId job.documentId)).Performs
        fun o => Op.spends o = false :=
      .call rfl
    refine .bind (settles_of_performs hfind) fun found _ _ => ?_
    cases found with
    | none => exact settles_of_performs (.bind (markFailed_performs rfl rfl) fun _ => .ret _)
    | some document =>
      refine .attempt (ingest_settles [] job.tenantId .ingestion (some job.id) llm document)
        (fun ingested _ _ => settles_of_performs (persist_performs job document ingested))
        (fun e _ _ _ => settles_of_performs (ingestion_abandon_performs job document e))
        fun e l' t hlost => ?_
      exact Ingestion.abandon_raises job document e (not_not.mp hlost).2

theorem body_settles (handler : Handler) (llm : OpenAiClient) (threshold : Rat) (job : JobRow) :
    (ledger (Charge.mk job.tenantId handler.usageKind (some job.id)) handler.left).Settles exec env
      Ingestion.Uncaught [] (handler.body llm threshold job) l s := by
  cases handler with
  | ingestion => exact ingestion_settles llm job
  | model handler =>
    cases handler with
    | extraction =>
      show Ledger.Settles _ _ _ _ _ (Extraction.runClaimed llm threshold job) l s
      unfold Extraction.runClaimed
      split
      · exact .ret _
      · refine .attempt (extract_settles [] job.tenantId .extraction (some job.id) llm job)
          (fun extraction _ _ => settles_of_performs (complete_performs _ _ _ _ _ _))
          (fun e _ _ he => abandon_settles [] job.tenantId .extraction (some job.id) _ _ he)
          fun e _ _ he => abandon_escapes he
    | changeReport =>
      show Ledger.Settles _ _ _ _ _ (ChangeReport.runClaimed llm threshold job) l s
      unfold ChangeReport.runClaimed
      split
      · exact .ret _
      · refine .attempt (examine_settles [] job.tenantId .changeReport (some job.id) llm job)
          (fun findings _ _ => settles_of_performs (.bind (.ofResult _) fun rows => ?_))
          (fun e _ _ he => abandon_settles [] job.tenantId .changeReport (some job.id) _ _ he)
          fun e _ _ he => abandon_escapes he
        exact complete_performs _ _ _ _ _ _

end Handler

/-! ## The usage rows of the store -/

/-- What the usage rows record. -/
def charges (s : Store) : List Charge := s.usage.map charge

/-- A charge of the job. -/
def Charge.isOf (id : Uuid) (c : Charge) : Bool := c.jobId = some id

/-- A move of the store that leaves the charges of the job alone. -/
def KeepsCharges (id : Uuid) (s t : Store) : Prop :=
  (charges t).filter (Charge.isOf id) = (charges s).filter (Charge.isOf id)

/-- An operation adds the row it records, and otherwise leaves the usage rows alone. -/
theorem charges_exec (o : Op) (a : Answer) (l : Session) (s : Store) :
    charges (exec o a l s).2.2 = charges s ++ (recorded ⟨o, a, (exec o a l s).1⟩).toList := by
  cases o with
  | insertUsage tenantId jobType jobId usage requestId =>
    rcases statement_cases (fun s =>
      .ok ((), s.insertUsage tenantId jobType jobId usage requestId a.began)) a l s with
      ⟨e, heq, -⟩ | ⟨r, t, -, -, hok, heq⟩
    · rw [exec, insert, heq]
      exact (List.append_nil _).symm
    · cases hok
      rw [exec, insert, heq]
      exact List.map_append
  | _ =>
    show charges _ = charges s ++ []
    rw [List.append_nil]
    exact congrArg (List.map charge) ((exec_effect _ a l s).usage rfl)

section Charged

variable {α : Type} {env : Store → Store → Prop} {id : Uuid}

theorem charges_run (henv : ∀ s t, env s t → KeepsCharges id s t) (p : Service α) (l : Session)
    (s : Store) : Every exec env p l s fun trace _ _ t =>
      (charges t).filter (Charge.isOf id) =
        (charges s).filter (Charge.isOf id) ++ (trace.filterMap recorded).filter (Charge.isOf id) := by
  induction p generalizing l s with
  | ret a => exact (List.append_nil _).symm
  | raise e => exact (List.append_nil _).symm
  | op o next ih =>
    intro moved a hmoved
    refine (ih _ _ _).mono fun trace _ _ t ht => ?_
    dsimp only
    rw [ht, charges_exec, List.filter_append, henv s moved hmoved, List.append_assoc,
      ← List.filter_append]
    cases hrecorded : recorded ⟨o, a, (exec o a l moved).1⟩ with
    | none => rw [List.filterMap_cons_none hrecorded]; rfl
    | some c => rw [List.filterMap_cons_some hrecorded]; rfl

end Charged

/-! ## Runs -/

section Runs

variable [Ucd] [Platform] {env : Store → Store → Prop} {l : Session} {s : Store}

/-- What follows the claim, once the job is read back. -/
theorem refreshed_settles (handler : Handler) (llm : OpenAiClient) (threshold : Rat) (id : Uuid) :
    Every exec env ((refreshJob handler.kind id).bind (handler.body llm threshold)) l s
      fun trace res _ _ => ∀ b job rest ran,
        trace = ⟨.readJob handler.kind id, b, .ok (some job)⟩ :: rest → res = .ok ran →
          rest.filterMap recorded = (rest.filterMap yielded).map
            (Charge.mk job.tenantId handler.usageKind (some id)) := by
  refine Every.bind.mpr (Every.bind.mpr (Every.call.mpr fun moved a _ => ?_))
  cases hread : (exec (.readJob handler.kind id) a l moved).1 with
  | error e => exact fun _ _ _ _ _ h => nomatch h
  | ok found =>
    cases found with
    | none => exact fun _ _ _ _ _ h => nomatch h
    | some row =>
      have hid : row.id = id := (Jobs.row?_mem (query_eq_ok hread).1).2
      refine (handler.body_settles llm threshold row).mono fun more res _ _ hmore => ?_
      rintro b job rest ran htrace rfl
      cases htrace
      rw [Ledger.Balanced, ledger_pays, ledger_incurs, hid] at hmore
      exact hmore

/-- When a handler returns on a claimed job, the usage rows its run has added are one for each call
that yielded a usage record, in the order of the calls and charged to the job. Where the other
parties leave the job's usage rows alone, these are what they grew by. -/
theorem spend_is_recorded {handler : Handler} {llm : OpenAiClient} {threshold : Rat}
    {claimed job : JobRow} {a b : Answer} {rest : List Entry} {ran : Bool} {l' : Session} {t : Store}
    (hrun : Runs exec env (handler.run llm threshold) l s
      (⟨.claimJob handler.kind, a, .ok (some claimed)⟩ ::
        ⟨.readJob handler.kind claimed.id, b, .ok (some job)⟩ :: rest) (.ok ran) l' t) :
    rest.filterMap recorded = (rest.filterMap yielded).map
        (Charge.mk job.tenantId handler.usageKind (some claimed.id)) ∧
      ((∀ u v, env u v → KeepsCharges claimed.id u v) →
        (charges t).filter (Charge.isOf claimed.id) = (charges s).filter (Charge.isOf claimed.id) ++
          (rest.filterMap yielded).map
            (Charge.mk job.tenantId handler.usageKind (some claimed.id))) := by
  have hpaid : rest.filterMap recorded = (rest.filterMap yielded).map
      (Charge.mk job.tenantId handler.usageKind (some claimed.id)) := by
    rw [handler.run_eq] at hrun
    exact of_claimed (handler.body llm threshold)
      (fun l u => refreshed_settles handler llm threshold claimed.id) hrun _ _ _ _ rfl rfl
  refine ⟨hpaid, fun henv => ?_⟩
  have hcharges := (Lib.every_iff_runs _ _ _ _).mp (charges_run henv _ l s) _ _ _ _ hrun
  have hrecorded : (rest.filterMap recorded).filter (Charge.isOf claimed.id) =
      rest.filterMap recorded := by
    rw [hpaid]
    refine List.filter_eq_self.mpr fun c hc => ?_
    obtain ⟨usage, -, rfl⟩ := List.mem_map.mp hc
    exact decide_eq_true rfl
  rw [hcharges, ← hpaid, ← hrecorded]
  rfl

end Runs

/-- The model refuses, at the cost of three tokens. -/
def refused : List Answer :=
  [{}, {}, {}, { chat := .replied (some ⟨some 2, some 1⟩) 0 [none] }, {}, {}, {}]

theorem spend_is_recorded_refused :
    ∃ rest l' t, Runs exec (KeepsCharges Ingestion.oneClaimed.id)
        (Extraction.runNextExtractionJob ⟨"gpt-4o".toList, []⟩ 0) ⟨false⟩ oneParsed
        (⟨.claimJob .extraction, {}, .ok (some Ingestion.oneClaimed)⟩ ::
          ⟨.readJob .extraction 20, {}, .ok (some Ingestion.oneClaimed)⟩ :: rest) (.ok true) l' t ∧
      (charges t).length = 1 ∧
      (charges t).filter (Charge.isOf 20) =
        (rest.filterMap yielded).map (Charge.mk 1 .extraction (some 20)) := by
  have hreplay : ((replay exec (Extraction.runNextExtractionJob ⟨"gpt-4o".toList, []⟩ 0) ⟨false⟩
      oneParsed ({} :: refused)).map fun r => (r.2.1.toOption, (charges r.2.2.2).length)) =
        some (some true, 1) := by
    decide +kernel
  obtain ⟨⟨trace, res, l', t⟩, hr, hend⟩ := Option.map_eq_some_iff.mp hreplay
  have hrun := @Lib.runs_of_replay _ _ _ _ _ _ _ exec (KeepsCharges Ingestion.oneClaimed.id)
    (fun _ => rfl) _ _ _ _ _ _ _ _ hr
  obtain ⟨more, rfl, hmore⟩ := Lib.replay_op rfl hr
  obtain ⟨rest, rfl, -⟩ := Lib.replay_op rfl hmore
  obtain ⟨hres, hlength⟩ := Prod.mk.inj hend
  cases res with
  | error e => cases hres
  | ok ran =>
    cases hres
    let := Ucd.ascii
    let := Documents.onePdf
    have hspend := @spend_is_recorded _ _ _ _ _ (.model .extraction) _ 0 _ _ _ _ _ _ _ _ hrun
    exact ⟨rest, l', t, hrun, hlength, hspend.2 fun _ _ h => h⟩

end ContractIntel.Usage
