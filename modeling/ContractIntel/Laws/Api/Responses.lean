import ContractIntel.Api.Endpoints
import ContractIntel.Laws.Services.Documents
import ContractIntel.Laws.Services.Outcomes
import ContractIntel.Laws.Services.Party
import ContractIntel.Lib.Fallible

/-!
# What a response says

A request is answered by status. The statuses say what became of the store, in every run: a client
error means that the request has committed nothing, a server error that one of its operations failed.

## What is proved

- `client_error_commits_nothing`: whatever others do meanwhile, a request answered with a client error
  has left all tables as they were.
-/

namespace ContractIntel.Api

open Lib (Every)
open Lib.Prog (Performs)
open Repositories

variable {o : Op} {a : Answer} {l : Session} {s : Store} {α β : Type}

/-! ## Operations that leave the store alone -/

/-- Whatever store it was performed in, the operation, so answered, left it as it was. -/
def Harmless (entry : Entry) : Prop :=
  ∀ l s, (exec entry.op entry.answer l s).1 = entry.result →
    (exec entry.op entry.answer l s).2.2 = s

/-- The operations that write nothing. -/
def Op.reads : Op → Bool
  | .insertDocument .. | .setDocumentStatus .. | .deleteSweep .. | .insertJob .. | .claimJob ..
  | .completeJob .. | .failJob .. | .replaceTextAndChunks .. | .insertUsage .. | .insertAudit ..
  | .insertReviewItems .. | .resolveReviewItem .. | .saveFile .. | .unlinkFile .. => false
  | _ => true

theorem eq_of_reads {t : Store} (ho : Op.reads o) (h : Effect o a s t) : t = s := by
  cases h <;> first | rfl | cases ho

theorem statement_error {body : Store → Except Exn (α × Store)} {e : Exn}
    (h : (statement body a l s).1 = .error e) : (statement body a l s).2.2 = s := by
  rcases statement_cases body a l s with ⟨e', heq, -⟩ | ⟨r, t, -, -, -, heq⟩
  · rw [heq]
  · rw [heq] at h
    cases h

theorem fileCall_error {body : Store → Except Exn (α × Store)} {e : Exn}
    (h : (fileCall body a l s).1 = .error e) : (fileCall body a l s).2.2 = s := by
  rcases fileCall_cases body a l s with ⟨e', heq⟩ | ⟨r, t, -, -, heq⟩
  · rw [heq]
  · rw [heq] at h
    cases h

/-- An operation that raises changes nothing. -/
theorem harmless_error (o : Op) (a : Answer) (e : Exn) : Harmless ⟨o, a, .error e⟩ := by
  intro l s h
  dsimp only at h ⊢
  cases o <;> first | exact statement_error h | exact fileCall_error h | rfl

theorem harmless_reads (ho : Op.reads o) (a : Answer) (r : Except Exn o.Res) :
    Harmless ⟨o, a, r⟩ :=
  fun l s _ => eq_of_reads ho (exec_effect o a l s)

/-- A resolution that found no pending item. -/
theorem harmless_unresolved (tenantId itemId : Uuid) (status : ReviewItemStatus)
    (values : Option Json) (a : Answer) :
    Harmless ⟨.resolveReviewItem tenantId itemId status values, a, .ok none⟩ := by
  intro l s h
  obtain ⟨-, t, -, hbody, heq⟩ := statement_eq_ok h
  obtain ⟨hnone, rfl⟩ := Prod.mk.inj (Except.ok.inj hbody)
  have hmissing := List.find?_eq_none.mp (Option.map_eq_none_iff.mp hnone)
  have hmap : s.reviewItems.map (fun item => if Store.resolvable tenantId itemId item then
      Store.resolved status values s.now item else item) = s.reviewItems :=
    List.map_congr_left (fun item hitem => if_neg (hmissing item hitem)) |>.trans (List.map_id _)
  dsimp only
  rw [exec, heq]
  dsimp only
  rw [hmap]

/-! ## Client errors -/

variable [Platform] {tenantId : Uuid} {p : Service α} {f : α → Service β}

/-- The table answers the exception with a status in the four hundreds. -/
def ClientError (e : Exn) : Prop :=
  400 ≤ (serviceErrorResponse e).status ∧ (serviceErrorResponse e).status < 500

/-- The operation left the store as it was, or it saved an upload of the tenant under its digest. -/
def Quiet (tenantId : Uuid) (entry : Entry) : Prop :=
  Harmless entry ∨ ∃ content, entry.op = .saveFile tenantId (Platform.sha256 content) content

/-- A run that ends in a client error has committed nothing. -/
def CommitsOrNot (tenantId : Uuid) (p : Service α) : Prop :=
  ∀ env l s, Every exec env p l s fun trace res _ _ =>
    ∀ e, res = .error e → ClientError e → ∀ entry ∈ trace, Quiet tenantId entry

/-- A program that ends in no client error. -/
def NoClientError (p : Service α) : Prop :=
  ∀ env l s, Every exec env p l s fun _ res _ _ => ∀ e, res = .error e → ¬ ClientError e

omit [Platform] in
theorem fileCall_raises {body : Store → Except Exn (α × Store)} {e : Exn}
    (h : (fileCall body a l s).1 = .error e) :
    (∃ reason, e = .osError reason) ∨ body s = .error e := by
  unfold fileCall at h
  split at h
  · cases h
    exact .inl ⟨_, rfl⟩
  · split at h
    · cases h
    next hfailed =>
      cases h
      exact .inr hfailed

theorem unmapped_of_isDatabaseError {e : Exn} (h : e.isDatabaseError) :
    serviceErrorResponse e = internalServerError := by
  cases e <;> first | rfl | cases h

theorem replace_unmapped {documentId : Uuid} {text : Str} {pageMap : List Parsing.PageSpan}
    {chunks : List Chunking.Chunk} {embeddings : List Embedding} {drawn : List Uuid} {e : Exn}
    (h : Store.replaceTextAndChunks tenantId documentId text pageMap chunks embeddings drawn s =
      .error e) : serviceErrorResponse e = internalServerError := by
  rw [Store.replaceTextAndChunks, Store.replaceText] at h
  split at h
  · cases h
    rfl
  · simp only [bind, Except.bind, Store.replaceWithEmbeddings] at h
    split at h
    next hfailed =>
      cases h
      split at hfailed <;> cases hfailed
      rfl
    next => cases h

theorem unmapped_of_ofSdk {e : Exn} (h : Llm.ofSdk e) :
    serviceErrorResponse e = internalServerError := by
  cases e <;> first | rfl | cases h

/-- The table has no entry for what operations raise. -/
theorem unmapped_of_exec {e : Exn} (h : (exec o a l s).1 = .error e) :
    serviceErrorResponse e = internalServerError := by
  by_cases ho : o.isStatement
  · rcases exec_statement ho a l s with ⟨e', heq, hdatabase⟩ | ⟨r, t, heq⟩
    · rw [heq] at h
      cases h
      exact unmapped_of_isDatabaseError hdatabase
    · rw [heq] at h
      cases h
  · cases o with
    | readJob => exact unmapped_of_isDatabaseError (query_fails h).1
    | readDocument => exact unmapped_of_isDatabaseError (query_fails h).1
    | saveFile =>
      obtain ⟨reason, rfl⟩ | hbody := fileCall_raises h
      · rfl
      · cases hbody
    | unlinkFile =>
      obtain ⟨reason, rfl⟩ | hbody := fileCall_raises h
      · rfl
      · cases hbody
    | readFile =>
      obtain ⟨reason, rfl⟩ | hbody := fileCall_raises h
      · rfl
      · unfold Store.readFile at hbody
        split at hbody <;> cases hbody
        rfl
    | replaceTextAndChunks tenantId documentId text pageMap chunks embeddings =>
      rcases statement_cases (Store.replaceTextAndChunks tenantId documentId text pageMap chunks
        embeddings a.ids) a l s with ⟨e', heq, hraised⟩ | ⟨r, t, -, -, -, heq⟩
      · rw [exec, heq] at h
        cases h
        exact hraised.elim unmapped_of_isDatabaseError replace_unmapped
      · rw [exec, heq] at h
        cases h
    | parseChat schema => exact unmapped_of_ofSdk (Llm.chatReply_error h)
    | createEmbeddings => exact unmapped_of_ofSdk (Llm.embedReply_error h).1
    | rollback => cases h
    | isFile => cases h
    | _ => exact absurd rfl ho

/-- What operations raise is no client error. -/
theorem not_clientError_of_exec {e : Exn} (h : (exec o a l s).1 = .error e) : ¬ ClientError e := by
  rw [ClientError, unmapped_of_exec h]
  decide

/-- An exception of the server's error page is no client error. -/
theorem not_clientError_of_unmapped {e : Exn} (h : serviceErrorResponse e = internalServerError) :
    ¬ ClientError e := by
  rw [ClientError, h]
  decide

namespace NoClientError

theorem ret (r : α) : NoClientError (.ret r : Service α) := fun _ _ _ _ h => by cases h

theorem raise {e : Exn} (h : ¬ ClientError e) : NoClientError (.raise e : Service α) := by
  intro env l s e' he
  cases he
  exact h

theorem ofResult {r : Except Exn α} (h : ∀ e, r = .error e → ¬ ClientError e) :
    NoClientError (Lib.Prog.ofResult r) := by
  cases r with
  | ok r => exact ret r
  | error e => exact raise (h e rfl)

theorem call (o : Op) : NoClientError (perform o) :=
  fun _ _ _ => Every.call.mpr fun _ _ _ _ h => not_clientError_of_exec h

theorem bind (hp : NoClientError p) (hf : ∀ r, NoClientError (f r)) : NoClientError (p.bind f) := by
  intro env l s
  refine Every.bind.mpr ((hp env l s).mono fun trace res l' t h => ?_)
  cases res with
  | ok r => exact hf r env l' t
  | error e =>
    intro e' he
    cases he
    exact h e rfl

theorem require {e : Exn} (h : ¬ ClientError e) (found : Option α) :
    NoClientError (require e found) := by
  cases found with
  | none => exact raise h
  | some r => exact ret r

theorem refreshJob (kind : JobKind) (id : Uuid) : NoClientError (refreshJob kind id) :=
  bind (call _) fun _ => require (not_clientError_of_unmapped rfl) _

theorem createJob (kind : JobKind) (tenantId documentId : Uuid) (amended : Option Uuid) :
    NoClientError (createJob kind tenantId documentId amended) :=
  bind (call _) fun _ => refreshJob _ _

theorem unmapped_of_no_record {model : Str} {e : Exn}
    (h : e = .keyError model ∨ ∃ error message, e = .otherError error message) :
    serviceErrorResponse e = internalServerError := by
  rcases h with rfl | ⟨error, message, rfl⟩ <;> rfl

/-- The SDK's errors are the upstream's, and those the client does not know are the server's. -/
theorem not_clientError_of_sdkError (model : Str) {e : Exn} (h : Llm.ofSdk e) :
    ¬ ClientError (Llm.sdkError model e) := by
  cases e with
  | unusableReply | openAiError =>
    simp [ClientError, serviceErrorResponse, detailResponse, Llm.sdkError]
  | valueError | otherError => exact not_clientError_of_unmapped rfl
  | _ => cases h

theorem embed (llm : Llm.OpenAiClient) (texts : List Str) :
    NoClientError (Llm.embed llm texts) := by
  intro env l s
  refine (Llm.embed_answers llm texts).mono ?_
  rintro trace res l' t ⟨a, -, rfl, -⟩ e he
  cases hreply : embedReply a.embed with
  | error cause =>
    rw [hreply] at he
    cases he
    exact not_clientError_of_sdkError _ (Llm.embedReply_error hreply).1
  | ok response =>
    rw [hreply] at he
    by_cases h : Llm.Recordable llm.embeddingModel response.promptTokens (some 0)
    · obtain ⟨reply, hread, -⟩ := Llm.readEmbeddings_of_recordable h
      cases hread.symm.trans he
    · obtain ⟨e', hread, hcause⟩ := Llm.readEmbeddings_of_not_recordable h
      cases hread.symm.trans he
      exact not_clientError_of_unmapped (unmapped_of_no_record hcause)

theorem unmapped_of_unpackOne {vectors : List Embedding} {e : Exn}
    (h : Search.unpackOne vectors = .error e) : serviceErrorResponse e = internalServerError := by
  unfold Search.unpackOne at h
  split at h <;> cases h <;> rfl

theorem unmapped_of_fuseRows {vectorRanked ftsRanked : List (ChunkRow × DocumentRow)} {limit : Nat}
    {e : Exn} (h : Search.fuseRows vectorRanked ftsRanked limit = .error e) :
    serviceErrorResponse e = internalServerError := by
  obtain ⟨entry, -, hentry⟩ := Lib.mapM_error h
  unfold Search.toHit Search.lookup at hentry
  split at hentry
  · cases hentry
  · cases hentry
    rfl

/-- A search that fails is nobody's fault among the clients. -/
theorem search (requestId : Str) (llm : Llm.OpenAiClient) (query : Str) (limit : Nat) :
    NoClientError (Search.search requestId llm tenantId query limit) :=
  bind (embed _ _) fun _ => bind (call _) fun _ =>
    bind (ofResult fun _ h => not_clientError_of_unmapped (unmapped_of_unpackOne h)) fun _ =>
      bind (call _) fun _ => bind (call _) fun _ =>
        ofResult fun _ h => not_clientError_of_unmapped (unmapped_of_fuseRows h)

end NoClientError

namespace CommitsOrNot

theorem of_noClientError (h : NoClientError p) : CommitsOrNot tenantId p :=
  fun env l s => (h env l s).mono fun _ _ _ _ h e he hclient => absurd hclient (h e he)

theorem ret (r : α) : CommitsOrNot tenantId (.ret r : Service α) := of_noClientError (.ret r)

theorem raise (e : Exn) : CommitsOrNot tenantId (.raise e : Service α) :=
  fun _ _ _ _ _ _ _ h => absurd h List.not_mem_nil

/-- After operations that have left the store alone. -/
theorem bind (hp : ∀ env l s, Every exec env p l s fun trace _ _ _ =>
    ∀ entry ∈ trace, Quiet tenantId entry) (hf : ∀ r, CommitsOrNot tenantId (f r)) :
    CommitsOrNot tenantId (p.bind f) := by
  intro env l s
  refine Every.bind.mpr ((hp env l s).mono fun trace res l' t hquiet => ?_)
  cases res with
  | ok r =>
    refine (hf r env l' t).mono fun more res l'' u hmore e he hclient entry hentry => ?_
    rcases List.mem_append.mp hentry with hentry | hentry
    · exact hquiet entry hentry
    · exact hmore e he hclient entry hentry
  | error e => exact fun _ _ _ => hquiet

/-- Before operations that end in no client error. -/
theorem bind_noClientError (hp : CommitsOrNot tenantId p) (hf : ∀ r, NoClientError (f r)) :
    CommitsOrNot tenantId (p.bind f) := by
  intro env l s
  refine Every.bind.mpr ((hp env l s).mono fun trace res l' t h => ?_)
  cases res with
  | ok r => exact (hf r env l' t).mono fun _ _ _ _ hmore e he hclient => absurd hclient (hmore e he)
  | error e =>
    intro e' he
    cases he
    exact h e rfl

/-- A handler either finds the store as it was, or ends in no client error. -/
theorem tryCatch {handler : Exn → Service α} (hp : ∀ env l s, Every exec env p l s fun trace res _ _ =>
      ∀ e, res = .error e → (∀ entry ∈ trace, Quiet tenantId entry) ∨ NoClientError (handler e))
    (hh : ∀ e, CommitsOrNot tenantId (handler e)) : CommitsOrNot tenantId (p.tryCatch handler) := by
  intro env l s
  refine Every.tryCatch.mpr ((hp env l s).mono fun trace res l' t h => ?_)
  cases res with
  | ok r => exact fun e he => by cases he
  | error e =>
    rcases h e rfl with hquiet | hnone
    · refine (hh e env l' t).mono fun more res _ _ hmore => ?_
      intro e' he hclient entry hentry
      rcases List.mem_append.mp hentry with hentry | hentry
      · exact hquiet entry hentry
      · exact hmore e' he hclient entry hentry
    · exact (hnone env l' t).mono fun _ _ _ _ hmore e he hclient => absurd hclient (hmore e he)

theorem quiet_of_performs (hp : p.Performs fun o => ∀ a r, Quiet tenantId ⟨o, a, r⟩) (env l s) :
    Every exec env p l s fun trace _ _ _ => ∀ entry ∈ trace, Quiet tenantId entry :=
  (Every.trace_of_performs hp).mono fun _ _ _ _ h entry hentry => h entry hentry _ _

theorem quiet_of_reads {o : Op} (ho : Op.reads o) (a : Answer) (r : Except Exn o.Res) :
    Quiet tenantId ⟨o, a, r⟩ := .inl (harmless_reads ho a r)

/-- A lookup. -/
theorem lookup {o : Op} {f : o.Res → Service β} (ho : Op.reads o)
    (hf : ∀ r, CommitsOrNot tenantId (f r)) : CommitsOrNot tenantId ((perform o).bind f) :=
  bind (quiet_of_performs (.call (quiet_of_reads ho))) hf

theorem require (e : Exn) (found : Option α) : CommitsOrNot tenantId (require e found) := by
  cases found with
  | none => exact raise e
  | some r => exact ret r

theorem getDocument (documentId : Uuid) :
    CommitsOrNot tenantId (Documents.getDocument tenantId documentId) :=
  lookup rfl fun _ => require _ _

theorem sweep (documentId : Uuid) : CommitsOrNot tenantId (Documents.sweep documentId) := by
  refine tryCatch (fun env l s => Every.call.mpr fun moved a _ e he => .inl ?_) fun e => ?_
  · intro entry hentry
    rw [List.mem_singleton.mp hentry, he]
    exact .inl (harmless_error _ a e)
  · split
    · exact lookup rfl fun _ => lookup rfl fun amended => by cases amended <;> exact raise _
    · exact raise _

theorem deleteDocument (context : RequestContext) (documentId : Uuid) :
    CommitsOrNot tenantId (Documents.deleteDocument context tenantId documentId) := by
  refine bind (quiet_of_performs ?_) fun document => lookup rfl fun amended => ?_
  · exact .bind (.call (quiet_of_reads rfl)) fun _ => require_performs _ _
  · cases amended with
    | true => exact raise _
    | false => exact bind_noClientError (sweep _) fun _ => .bind (.call _) fun _ => .call _

/-- A refresh that fails is no lost race. -/
theorem refreshDocument_fails {env : Store → Store → Prop} (id : Uuid) :
    Every exec env (refreshDocument id) l s fun _ res _ _ =>
      ∀ e, res = .error e → serviceErrorResponse e = internalServerError ∧ e ≠ .integrityError := by
  refine Every.bind.mpr (Every.call.mpr fun moved a _ => ?_)
  cases hread : (exec (.readDocument id) a l moved).1 with
  | error e =>
    intro e' he
    cases he
    exact ⟨unmapped_of_exec hread, (query_fails hread).2.1⟩
  | ok found =>
    cases found with
    | some document => exact fun e he => by cases he
    | none =>
      intro e he
      cases he
      exact ⟨rfl, fun h => by cases h⟩

/-- The insert of an upload that loses a race changes nothing. -/
theorem insertUploaded (request : Documents.UploadRequest) (sha256 : Str) :
    CommitsOrNot tenantId (Documents.insertUploaded request sha256) := by
  refine tryCatch (fun env l s => Every.bind.mpr (Every.call.mpr fun moved a _ => ?_)) fun e => ?_
  · cases hinsert : (exec (.insertDocument request.tenantId
        (Documents.orDefault request.filename "untitled")
        (Documents.orDefault request.contentType "application/octet-stream") sha256
        request.amendsDocumentId) a l moved).1 with
    | error e =>
      intro e' _
      left
      intro entry hentry
      rw [List.mem_singleton.mp hentry]
      exact .inl (harmless_error _ a e)
    | ok document =>
      refine (refreshDocument_fails document.id).mono fun _ _ _ _ hfails e he => .inr ?_
      obtain ⟨hunmapped, hne⟩ := hfails e he
      have hraise : NoClientError (.raise e : Service DocumentRow) :=
        .raise (not_clientError_of_unmapped hunmapped)
      split
      next h => exact absurd rfl hne
      next => exact hraise
  · split
    · exact lookup rfl fun _ => lookup rfl fun _ => raise _
    · exact raise _

theorem uploadDocument (context : RequestContext) (request : Documents.UploadRequest) :
    CommitsOrNot request.tenantId (Documents.uploadDocument context request) := by
  unfold Documents.uploadDocument
  cases hchecked : Documents.checkUpload request with
  | error e => exact raise e
  | ok checked =>
    obtain ⟨sha256, content⟩ := checked
    obtain rfl := Documents.checkUpload_sha256 hchecked
    show CommitsOrNot _ ((Documents.checkParent request).bind _)
    refine bind (quiet_of_performs (checkParent_performs fun _ _ => quiet_of_reads rfl)) fun _ =>
      lookup rfl fun found => ?_
    cases found with
    | some existing => exact raise _
    | none =>
      refine bind_noClientError (bind (quiet_of_performs (.call fun a r => .inr ⟨content, rfl⟩))
        fun _ => insertUploaded _ _) fun document => .bind (.call _) fun _ => .ret _

theorem resolveReviewItem (context : RequestContext) (itemId : Uuid)
    (request : ReviewQueue.ReviewDispositionCreate) :
    CommitsOrNot tenantId (ReviewQueue.resolveReviewItem context tenantId itemId request) := by
  refine bind (quiet_of_performs ?_) fun item => ?_
  · exact .bind (.call (quiet_of_reads rfl)) fun _ => require_performs _ _
  · intro env l s
    refine Every.bind.mpr (Every.call.mpr fun moved a _ => ?_)
    cases hresolved : (exec (.resolveReviewItem tenantId itemId request.disposition.status
        request.correctedValues) a l moved).1 with
    | error e =>
      intro e' _ _ entry hentry
      rw [List.mem_singleton.mp hentry]
      exact .inl (harmless_error _ a e)
    | ok found =>
      cases found with
      | none =>
        intro e' _ _ entry hentry
        rw [List.mem_singleton.mp hentry]
        exact .inl (harmless_unresolved _ _ _ _ a)
      | some resolved =>
        have hrest : NoClientError ((perform (.insertAudit tenantId context.actor context.requestId
            "review_item.resolve".toList "review_item".toList (some itemId)
            (some (.obj [("disposition".toList, .str request.disposition.value),
              ("source".toList, .str (ReviewQueue.ReviewItemSource.value resolved.source))])))).bind
              fun _ => .ret resolved) := .bind (.call _) fun _ => .ret _
        exact (hrest env _ _).mono fun _ _ _ _ hmore e he hclient => absurd hclient (hmore e he)

theorem insertUnlessActive (kind : JobKind) (conflict : Uuid → Exn) (documentId : Uuid) :
    CommitsOrNot tenantId (Ingestion.insertUnlessActive kind conflict tenantId documentId) :=
  lookup rfl fun active => by
    cases active with
    | some active => exact raise _
    | none => exact of_noClientError (.createJob _ _ _ _)

theorem enqueueIngestion (context : RequestContext) (documentId : Uuid) :
    CommitsOrNot tenantId (Ingestion.enqueueIngestion context tenantId documentId) :=
  lookup rfl fun found => by
    cases found with
    | none => exact raise _
    | some document =>
      exact bind_noClientError (insertUnlessActive _ _ _) fun _ => .bind (.call _) fun _ => .ret _

theorem enqueueExtraction (context : RequestContext) (documentId : Uuid) :
    CommitsOrNot tenantId (Extraction.enqueueExtraction context tenantId documentId) :=
  lookup rfl fun found => by
    cases found with
    | none => exact raise _
    | some document =>
      dsimp only
      split
      · exact lookup rfl fun _ => raise _
      · exact bind_noClientError (insertUnlessActive _ _ _) fun _ => .bind (.call _) fun _ => .ret _

theorem enqueueChangeReport (context : RequestContext) (baseId amendedId : Uuid) :
    CommitsOrNot tenantId (ChangeReport.enqueueChangeReport context tenantId baseId amendedId) := by
  have hreads : ∀ kind documentId a r, Quiet tenantId ⟨.findLatestJob kind documentId, a, r⟩ :=
    fun _ _ => quiet_of_reads rfl
  have hrequired : ∀ {α : Type} (e : Exn) (found : Option α) env l s,
      Every exec env (ContractIntel.require e found) l s fun trace _ _ _ =>
        ∀ entry ∈ trace, Quiet tenantId entry :=
    fun e found => quiet_of_performs (require_performs e found)
  refine lookup rfl fun found => bind (hrequired _ _) fun base => ?_
  refine lookup rfl fun found => bind (hrequired _ _) fun amended => ?_
  dsimp only
  split
  · exact raise _
  · refine bind (quiet_of_performs (requireVersion_performs hreads)) fun _ =>
      bind (quiet_of_performs (requireVersion_performs hreads)) fun _ => ?_
    exact of_noClientError (.bind (.createJob _ _ _ _) fun _ => .bind (.call _) fun _ => .ret _)

/-- What only looks commits nothing, whatever it ends in. -/
theorem of_reads (hp : p.Performs fun o => Op.reads o) : CommitsOrNot tenantId p :=
  fun env l s => (quiet_of_performs (hp.mono fun _ _ ho => quiet_of_reads ho) env l s).mono
    fun _ _ _ _ hquiet _ _ _ => hquiet

theorem program (work : Call) : CommitsOrNot tenantId (work.program tenantId) := by
  cases work with
  | uploadDocument context request => exact uploadDocument context { request with tenantId }
  | getDocument => exact getDocument _
  | listDocuments => exact of_reads (.bind (.call rfl) fun _ => .bind (.call rfl) fun _ => .ret _)
  | resolveDocumentFile =>
    refine of_reads (.bind (.bind (.call rfl) fun _ => require_performs _ _) fun _ =>
      .bind (.call rfl) fun found => ?_)
    cases found with
    | false => exact .raise _
    | true => exact .ret _
  | deleteDocument => exact deleteDocument _ _
  | enqueueIngestion => exact enqueueIngestion _ _
  | enqueueExtraction => exact enqueueExtraction _ _
  | enqueueChangeReport => exact enqueueChangeReport _ _ _
  | getJob => exact of_reads (.bind (.call rfl) fun _ => require_performs _ _)
  | listChangeReportJobs =>
    exact of_reads (.bind (.call rfl) fun _ => .bind (require_performs _ _) fun _ => .call rfl)
  | listReviewItems => exact of_reads (.call rfl)
  | getReviewItem => exact of_reads (.bind (.call rfl) fun _ => require_performs _ _)
  | resolveReviewItem => exact resolveReviewItem _ _ _
  | spend groupBy =>
    cases groupBy with
    | job => exact of_reads (.bind (.call rfl) fun _ => .bind (.call rfl) fun _ => .ret _)
    | jobType => exact of_reads (.bind (.call rfl) fun _ => .bind (.call rfl) fun _ => .ret _)

end CommitsOrNot

/-! ## Requests -/

section Requests

variable {Key : Type} [Auth.Identity Key] {settings : Settings} {incoming : Incoming Key}
  {principal : Auth.Principal} {action : Action} {env : Store → Store → Prop}

omit [Platform] in
/-- What the dependencies of a request come to. -/
theorem authorize_cases (settings : Settings) (incoming : Incoming Key) :
    incoming.authorize settings = .error .llmNotConfiguredError ∨
      (∃ e, incoming.authorize settings = .error (.auth e)) ∨
      (∃ seconds, incoming.authorize settings = .error (.rateLimitExceededError seconds)) ∨
      ∃ principal, incoming.authorize settings = .ok principal ∧
        Auth.getPrincipal incoming.getKey settings.toAuthSettings incoming.authorization =
          .ok principal ∧ principal.role ∈ incoming.endpoint.allowed := by
  simp only [Incoming.authorize, bind, Except.bind, throw, throwThe, MonadExceptOf.throw, pure,
    Except.pure]
  split
  · exact .inl rfl
  cases hprincipal : Auth.getPrincipal incoming.getKey settings.toAuthSettings
      incoming.authorization with
  | error e => exact .inr (.inl ⟨e, rfl⟩)
  | ok principal =>
    by_cases hrole : principal.role ∈ incoming.endpoint.allowed
    · simp only [Except.mapError, Auth.requireRole, if_pos hrole]
      cases incoming.endpoint.limited <;> cases incoming.retryAfter
      case true.some seconds => exact .inr (.inr (.inl ⟨seconds, rfl⟩))
      all_goals exact .inr (.inr (.inr ⟨principal, rfl, rfl, hrole⟩))
    · simp only [Except.mapError, Auth.requireRole, if_neg hrole]
      exact .inr (.inl ⟨_, rfl⟩)

omit [Platform] in
/-- What a request is turned away with, or whom it is let through for. -/
theorem resolve_cases (settings : Settings) (incoming : Incoming Key) :
    (∃ e, incoming.resolve settings = .error e ∧ ∀ e', e ≠ .service e') ∨
      ∃ principal action, incoming.resolve settings = .ok (principal, action) ∧
        Auth.getPrincipal incoming.getKey settings.toAuthSettings incoming.authorization =
          .ok principal ∧ principal.role ∈ incoming.endpoint.allowed ∧
        incoming.endpoint.action settings ⟨incoming.id, some principal.subject⟩ = some action := by
  simp only [Incoming.resolve, bind, Except.bind, throw, throwThe, MonadExceptOf.throw, pure,
    Except.pure]
  obtain hauthorized | ⟨e, hauthorized⟩ | ⟨seconds, hauthorized⟩ |
    ⟨principal, hauthorized, hprincipal, hrole⟩ := authorize_cases settings incoming
  · exact .inl ⟨_, by rw [hauthorized], by simp⟩
  · exact .inl ⟨_, by rw [hauthorized], by simp⟩
  · exact .inl ⟨_, by rw [hauthorized], by simp⟩
  · rw [hauthorized]
    cases haction : incoming.endpoint.action settings ⟨incoming.id, some principal.subject⟩ with
    | none => exact .inl ⟨_, by dsimp only; rw [haction], by simp⟩
    | some action =>
      exact .inr ⟨principal, action, by dsimp only; rw [haction], hprincipal, hrole, haction⟩

/-- The response to a request whose service has ended. -/
def answer {α : Type} (incoming : Incoming Key) (res : Except Exn α) : Response :=
  match res with
  | .error e => (serviceErrorResponse e).withRequestId incoming.id
  | .ok _ => (⟨incoming.endpoint.successStatus, none, []⟩ : Response).withRequestId incoming.id

omit [Platform] in
theorem status_withRequestId (id : Str) (response : Response) :
    (response.withRequestId id).status = response.status := by
  unfold Response.withRequestId
  split <;> rfl

theorem respond_of_error {e : ApiExn} (h : incoming.resolve settings = .error e) :
    respond settings incoming = .ret ((errorResponse e).withRequestId incoming.id, none) := by
  rw [respond, h]
  rfl

theorem respond_of_ok (h : incoming.resolve settings = .ok (principal, action)) :
    respond settings incoming = (action.program settings principal.tenantId).attempt.bind
      fun res => .ret (answer incoming res, res.toOption) := by
  rw [respond, h]
  show (Lib.Prog.attempt _).bind _ = _
  congr 1
  funext res
  cases res <;> rfl

theorem serve_of_error {e : ApiExn} (h : incoming.resolve settings = .error e) :
    serve settings incoming = .ret ((errorResponse e).withRequestId incoming.id) := by
  rw [serve, respond_of_error h]
  rfl

theorem serve_of_ok (h : incoming.resolve settings = .ok (principal, action)) :
    serve settings incoming = (action.program settings principal.tenantId).attempt.bind
      fun res => .ret (answer incoming res) := by
  rw [serve, respond_of_ok h]
  exact Lib.Prog.bind_assoc _ _ _

/-- What the runs of a service say of its responses. -/
theorem every_serve (h : incoming.resolve settings = .ok (principal, action))
    {Φ : List Entry → Response → Prop}
    (hprogram : Every exec env (action.program settings principal.tenantId) l s
      fun trace res _ _ => Φ trace (answer incoming res)) :
    Every exec env (serve settings incoming) l s fun trace res _ _ =>
      ∀ response, res = .ok response → Φ trace response := by
  rw [serve_of_ok h]
  refine Every.attempt_bind.mpr (hprogram.mono fun trace res _ _ hanswer response hresponse => ?_)
  cases hresponse
  rw [List.append_nil]
  exact hanswer

omit [Platform] in
theorem successStatus_lt (endpoint : Endpoint) :
    200 ≤ endpoint.successStatus ∧ endpoint.successStatus < 300 := by
  cases endpoint <;> simp [Endpoint.successStatus]

theorem commitsOrNot_action (action : Action) (tenantId : Uuid) :
    CommitsOrNot tenantId (action.program settings tenantId) := by
  cases action with
  | call work => exact .bind_noClientError (.program work) fun _ => .ret _
  | search => exact .of_noClientError (.bind (.search _ _ _ _) fun _ => .ret _)

/-- Whatever others do meanwhile, a request that is answered with a client error has committed nothing:
each of its operations left the store as it found it, but for the bytes that an upload saved under
their digest in the directory of the token's tenant. -/
theorem client_error_commits_nothing (settings : Settings) (incoming : Incoming Key)
    (env : Store → Store → Prop) (l : Session) (s : Store) :
    Every exec env (serve settings incoming) l s fun trace res _ _ =>
      ∀ response, res = .ok response → 400 ≤ response.status → response.status < 500 →
        ∀ entry ∈ trace, Harmless entry ∨ ∃ principal action content,
          incoming.resolve settings = .ok (principal, action) ∧
            entry.op = .saveFile principal.tenantId (Platform.sha256 content) content := by
  cases hresolved : incoming.resolve settings with
  | error e =>
    rw [serve_of_error hresolved]
    exact fun _ _ _ _ entry hentry => absurd hentry List.not_mem_nil
  | ok resolved =>
    obtain ⟨principal, action⟩ := resolved
    refine every_serve hresolved ((commitsOrNot_action action _ env l s).mono ?_)
    intro trace res _ _ hcommits hlow hhigh entry hentry
    cases res with
    | ok =>
      have hsuccess := (successStatus_lt incoming.endpoint).2
      rw [answer, status_withRequestId] at hlow
      exact absurd hsuccess (by dsimp only at hlow; omega)
    | error e =>
      rw [answer, status_withRequestId] at hlow hhigh
      rcases hcommits e rfl ⟨hlow, hhigh⟩ entry hentry with hharmless | ⟨content, hsaved⟩
      · exact .inl hharmless
      · exact .inr ⟨principal, action, content, rfl, hsaved⟩

end Requests

end ContractIntel.Api
