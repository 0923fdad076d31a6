import ContractIntel.Laws.Api.Responses
import ContractIntel.Laws.Services.Calls
import ContractIntel.Laws.Services.Search
import ContractIntel.Laws.Services.Uploads

/-!
# What a server error is to be blamed on

The error table has an entry for everything a request can end with while its operations are answered.
What reaches the server's error page is an operation that was refused, a row of the request's own that
somebody deleted, a document that could not be deleted for no amendment, a query whose embedding was
answered with usage that has no record, not with one vector, or with no reply of the API, an archive
that cannot be listed, or an exception of the key client.

## What is proved

- `server_error_iff`: in every run a request is answered with a server error exactly for one of these.
-/

namespace ContractIntel.Api

open Lib (Blamed Escapes Every)
open Lib.Prog (Performs)
open Repositories

/-! ## Blame -/

/-- The operation, so answered, leads to the server's error page. -/
def Breaks : Entry → Prop
  | ⟨.insertDocument .., _, result⟩ => ∃ e, result = .error e ∧ e ≠ .integrityError
  | ⟨.deleteSweep .., _, result⟩ => ∃ e, result = .error e ∧ e ≠ .integrityError
  | ⟨.readDocument .., _, result⟩ => ∀ document, result ≠ .ok (some document)
  | ⟨.readJob .., _, result⟩ => ∀ job, result ≠ .ok (some job)
  | ⟨.createEmbeddings model _, _, .ok response⟩ =>
    ¬ Llm.Recordable model response.promptTokens (some 0) ∨ response.items.length ≠ 1
  | ⟨.createEmbeddings .., _, .error e⟩ => ∀ cause, e ≠ .openAiError cause
  | ⟨_, _, result⟩ => ∃ e, result = .error e

/-- A sweep was refused, and no amendment was there to blame. -/
def SweptInVain (trace : List Entry) : Prop :=
  (∃ documentId a, ⟨.deleteSweep documentId, a, .error .integrityError⟩ ∈ trace) ∧
    ∀ documentId a, ⟨.hasAmendments documentId, a, .ok true⟩ ∉ trace

variable [Platform] {env : Store → Store → Prop} {l : Session} {s : Store} {tenantId : Uuid}
  {α β : Type} {p : Service α} {f : α → Service β} {e : Exn}

/-- The table has an entry for the exception. -/
def mapped (e : Exn) (_ : Session) : Prop := (serviceErrorResponse e).status ≠ 500

/-- The program ends in a server error exactly when one of its operations leads to it. -/
abbrev Answers (p : Service α) : Prop := ∀ env l s, Blamed exec env mapped Breaks p l s

theorem not_mapped (h : serviceErrorResponse e = internalServerError) : ¬ mapped e l := by
  rw [mapped, h]
  exact fun h => h rfl

/-- The upload is of an allowed type and within the cap, and `ZipFile` raises on what was read of
it, and no `BadZipFile`. -/
def Unlistable (request : Documents.UploadRequest) : Prop :=
  (∃ mimeType ∈ Documents.ALLOWED_MIME_TYPES, request.contentType = some mimeType) ∧ ∃ content e,
    Documents.readChunks request.maxBytes request.stream [] = .ok content ∧
      Documents.ZipRaises content e

/-- What is checked before the store is read has responses of its own, the archives apart. -/
theorem mapped_of_checkUpload {request : Documents.UploadRequest} (hlistable : ¬ Unlistable request)
    (h : Documents.checkUpload request = .error e) : mapped e l := by
  have hends := h ▸ Documents.checkUpload_ends request
  cases hends with
  | notAllowed | tooLarge => simp [mapped, serviceErrorResponse, detailResponse]
  | unlistable hallowed hread hraises =>
    obtain ⟨mimeType, hmime, hallowed⟩ := (Option.any_eq_true _ _).mp hallowed
    exact absurd ⟨⟨mimeType, of_decide_eq_true hallowed, hmime⟩, _, _, hread, hraises⟩ hlistable

/-- The upload of such an archive raises before anything is read from the store. -/
theorem uploadDocument_unlistable (context : RequestContext) (request : Documents.UploadRequest)
    (h : Unlistable request) : ∃ error message,
      Documents.uploadDocument context request = .raise (.otherError error message) := by
  obtain ⟨⟨mimeType, hallowed, hmime⟩, content, e, hread, hraises⟩ := h
  obtain ⟨error, message, rfl⟩ : ∃ error message, e = .otherError error message := by
    obtain ⟨-, error, message, -, he⟩ := hraises
    exact ⟨error, message, he⟩
  refine ⟨error, message, ?_⟩
  have hsniffed := Documents.sniffMime_eq_error_iff.mpr hraises
  have hchecked : Documents.checkUpload request = .error (.otherError error message) := by
    simp [Documents.checkUpload, hmime, hallowed, Documents.readUpload, hread, hsniffed, bind,
      Except.bind, pure, Except.pure]
  unfold Documents.uploadDocument
  rw [hchecked]
  rfl

namespace Answers

theorem ret (r : α) : Answers (.ret r : Service α) := fun _ _ _ => .ret r

theorem raise (h : ∀ l, mapped e l) : Answers (.raise e : Service α) := fun _ l _ => .raise (h l)

theorem bind (hp : Answers p) (hf : ∀ r, Answers (f r)) : Answers (p.bind f) :=
  fun env l s => .bind (hp env l s) fun r l' t => hf r env l' t

/-- An operation that only its refusal breaks. -/
theorem call {o : Op} (ho : ∀ a r, Breaks ⟨o, a, r⟩ ↔ ∃ e, r = .error e) : Answers (perform o) := by
  intro env l s
  refine .call fun a s => ?_
  rw [ho]
  cases hresult : (exec o a l s).1 with
  | ok r => exact iff_of_false id fun ⟨_, h⟩ => by cases h
  | error e => exact iff_of_true (not_mapped (unmapped_of_exec hresult)) ⟨e, rfl⟩

theorem require (h : ∀ l, mapped e l) (found : Option α) : Answers (require e found) := by
  cases found with
  | none => exact raise h
  | some r => exact ret r

/-- A row of the request's own that has to be there still. -/
theorem call_require {o : Op} (found : o.Res → Option α)
    (hgone : serviceErrorResponse e = internalServerError)
    (ho : ∀ a r, Breaks ⟨o, a, r⟩ ↔ ∀ res, r = .ok res → found res = none) :
    Answers ((perform o).bind fun res => ContractIntel.require e (found res)) := by
  intro env l s
  refine Every.bind.mpr (Every.call.mpr fun moved a _ => ?_)
  have hbreaks := ho a (exec o a l moved).1
  cases hresult : (exec o a l moved).1 with
  | error e' =>
    rw [hresult] at hbreaks
    exact iff_of_true (not_mapped (unmapped_of_exec hresult))
      ⟨_, List.mem_singleton_self _, hbreaks.mpr fun _ h => by cases h⟩
  | ok res =>
    rw [hresult] at hbreaks
    dsimp only
    cases hfound : found res with
    | none =>
      refine iff_of_true (not_mapped hgone) ⟨_, List.mem_singleton_self _, hbreaks.mpr ?_⟩
      intro res' hres
      cases hres
      exact hfound
    | some row =>
      refine iff_of_false (fun h => h) ?_
      rintro ⟨entry, hentry, hentryBreaks⟩
      rw [List.mem_singleton.mp hentry] at hentryBreaks
      cases hfound.symm.trans (hbreaks.mp hentryBreaks res rfl)

omit [Platform] in
theorem breaks_read_iff {γ : Type} (r : Except Exn (Option γ)) :
    (∀ row, r ≠ .ok (some row)) ↔ ∀ res, r = .ok res → res = none := by
  constructor
  · rintro h (_ | row) hres
    · rfl
    · exact absurd hres (h row)
  · intro h row hres
    cases h _ hres

theorem refreshDocument (id : Uuid) : Answers (refreshDocument id) :=
  call_require (o := .readDocument id) (fun row => row) rfl fun _ r => breaks_read_iff r

theorem refreshJob (kind : JobKind) (id : Uuid) : Answers (refreshJob kind id) :=
  call_require (o := .readJob kind id) (fun row => row) rfl fun _ r => breaks_read_iff r

theorem createJob (kind : JobKind) (tenantId documentId : Uuid) (amended : Option Uuid) :
    Answers (createJob kind tenantId documentId amended) :=
  bind (call fun _ _ => Iff.rfl) fun _ => refreshJob _ _

/-! ## Uploads -/

/-- What follows a part that broke nothing. -/
theorem after (before : List Entry) (hp : Answers p) (hclean : ¬ ∃ entry ∈ before, Breaks entry) :
    Every exec env p l s fun trace res l' _ =>
      Escapes mapped res l' ↔ ∃ entry ∈ before ++ trace, Breaks entry :=
  (hp env l s).mono fun _ _ _ _ h => h.trans (Blamed.exists_append_iff hclean).symm

theorem insertUploaded (request : Documents.UploadRequest) (sha256 : Str) :
    Answers (Documents.insertUploaded request sha256) := by
  intro env l s
  have hraced : Answers (do
      perform .rollback
      let raced ← perform (.findDocumentBySha256 request.tenantId sha256)
      throw (.documentAlreadyExistsError (raced.map DocumentRow.id)) : Service DocumentRow) :=
    bind (call fun _ _ => Iff.rfl) fun _ => bind (call fun _ _ => Iff.rfl) fun raced =>
      raise fun _ => by cases raced <;> simp [mapped, serviceErrorResponse, detailResponse]
  refine Every.tryCatch.mpr (Every.bind.mpr (Every.call.mpr fun moved a _ => ?_))
  cases hinsert : (exec (.insertDocument request.tenantId
      (Documents.orDefault request.filename "untitled")
      (Documents.orDefault request.contentType "application/octet-stream") sha256
      request.amendsDocumentId) a l moved).1 with
  | error e =>
    dsimp only
    split
    next =>
      -- a lost race has a response of its own
      refine after [_] hraced ?_
      rintro ⟨entry, hentry, hbreaks⟩
      rw [List.mem_singleton.mp hentry] at hbreaks
      obtain ⟨e, he, hne⟩ := hbreaks
      cases he
      exact hne rfl
    next hne =>
      refine iff_of_true (not_mapped (unmapped_of_exec hinsert))
        ⟨_, List.mem_singleton_self _, e, rfl, fun h => ?_⟩
      exact hne h
  | ok document =>
    have hclean : ∀ more : List Entry, (∃ entry ∈ (⟨.insertDocument request.tenantId
        (Documents.orDefault request.filename "untitled")
        (Documents.orDefault request.contentType "application/octet-stream") sha256
        request.amendsDocumentId, a, .ok document⟩ : Entry) :: more, Breaks entry) ↔
          ∃ entry ∈ more, Breaks entry := by
      intro more
      rw [← List.singleton_append]
      refine Blamed.exists_append_iff ?_
      rintro ⟨entry, hentry, hbreaks⟩
      rw [List.mem_singleton.mp hentry] at hbreaks
      obtain ⟨e, he, -⟩ := hbreaks
      cases he
    refine ((refreshDocument document.id env _ _).and
      (CommitsOrNot.refreshDocument_fails document.id)).mono ?_
    rintro trace res l' t ⟨hblamed, hfails⟩
    cases res with
    | ok row => exact hblamed.trans (hclean _).symm
    | error e =>
      obtain ⟨hunmapped, hne⟩ := hfails e rfl
      dsimp only
      split
      next => exact absurd rfl hne
      next =>
        show Escapes mapped (.error e) l' ↔ _
        rw [List.singleton_append, List.append_nil]
        exact hblamed.trans (hclean _).symm

theorem checkParent (request : Documents.UploadRequest) : Answers (Documents.checkParent request) := by
  unfold Documents.checkParent
  cases request.amendsDocumentId with
  | none => exact ret _
  | some parent =>
    refine bind (call fun _ _ => Iff.rfl) fun found => ?_
    cases found with
    | none => exact raise fun _ => by simp [mapped, serviceErrorResponse, detailResponse]
    | some document => exact ret _

theorem uploadDocument (context : RequestContext) (request : Documents.UploadRequest)
    (hlistable : ¬ Unlistable request) : Answers (Documents.uploadDocument context request) := by
  unfold Documents.uploadDocument
  cases hchecked : Documents.checkUpload request with
  | error e => exact raise fun _ => mapped_of_checkUpload hlistable hchecked
  | ok checked =>
    show Answers ((Documents.checkParent request).bind _)
    refine bind (checkParent request) fun _ => bind (call fun _ _ => Iff.rfl) fun found => ?_
    cases found with
    | some existing => exact raise fun _ => by simp [mapped, serviceErrorResponse, detailResponse]
    | none =>
      exact bind (bind (call fun _ _ => Iff.rfl) fun _ => insertUploaded _ _) fun _ =>
        bind (call fun _ _ => Iff.rfl) fun _ => ret _

/-! ## The other requests -/

theorem getDocument (documentId : Uuid) : Answers (Documents.getDocument tenantId documentId) :=
  bind (call fun _ _ => Iff.rfl) fun _ =>
    require (fun _ => by simp [mapped, serviceErrorResponse, detailResponse]) _

theorem insertUnlessActive (kind : JobKind) {conflict : Uuid → Exn}
    (hconflict : ∀ id l, mapped (conflict id) l) (documentId : Uuid) :
    Answers (Ingestion.insertUnlessActive kind conflict tenantId documentId) := by
  refine bind (call fun _ _ => Iff.rfl) fun active => ?_
  cases active with
  | some active => exact raise (hconflict active.id)
  | none => exact createJob _ _ _ _

theorem enqueueIngestion (context : RequestContext) (documentId : Uuid) :
    Answers (Ingestion.enqueueIngestion context tenantId documentId) := by
  refine bind (call fun _ _ => Iff.rfl) fun found => ?_
  cases found with
  | none => exact raise fun _ => by simp [mapped, serviceErrorResponse, detailResponse]
  | some document =>
    have hconflict : ∀ id l, mapped (.ingestionJobConflictError id) l :=
      fun _ _ => by simp [mapped, serviceErrorResponse, detailResponse]
    exact bind (insertUnlessActive _ hconflict _) fun _ => bind (call fun _ _ => Iff.rfl) fun _ => ret _

theorem enqueueExtraction (context : RequestContext) (documentId : Uuid) :
    Answers (Extraction.enqueueExtraction context tenantId documentId) := by
  refine bind (call fun _ _ => Iff.rfl) fun found => ?_
  cases found with
  | none => exact raise fun _ => by simp [mapped, serviceErrorResponse, detailResponse]
  | some document =>
    have hconflict : ∀ id l, mapped (.extractionJobConflictError id) l :=
      fun _ _ => by simp [mapped, serviceErrorResponse, detailResponse]
    dsimp only
    split
    · exact bind (call fun _ _ => Iff.rfl) fun _ =>
        raise fun _ => by simp [mapped, serviceErrorResponse, detailResponse]
    · exact bind (insertUnlessActive _ hconflict _) fun _ =>
        bind (call fun _ _ => Iff.rfl) fun _ => ret _

theorem requireVersion (document : DocumentRow) : Answers (ChangeReport.requireVersion document) := by
  have hmissing : ∀ kind job l, mapped (.prerequisiteMissingError document.id kind job) l :=
    fun _ _ _ => by simp [mapped, serviceErrorResponse, detailResponse]
  unfold ChangeReport.requireVersion
  split
  · exact bind (call fun _ _ => Iff.rfl) fun _ => raise (hmissing _ _)
  · refine bind (call fun _ _ => Iff.rfl) fun latest => ?_
    cases latest with
    | none => exact raise (hmissing _ _)
    | some latest =>
      dsimp only
      split
      · exact raise (hmissing _ _)
      · exact ret _

theorem enqueueChangeReport (context : RequestContext) (baseId amendedId : Uuid) :
    Answers (ChangeReport.enqueueChangeReport context tenantId baseId amendedId) := by
  have hunknown : ∀ id l, mapped (.documentNotFoundError id) l :=
    fun _ _ => by simp [mapped, serviceErrorResponse, detailResponse]
  refine bind (call fun _ _ => Iff.rfl) fun _ => bind (require (hunknown _) _) fun base => ?_
  refine bind (call fun _ _ => Iff.rfl) fun _ => bind (require (hunknown _) _) fun amended => ?_
  dsimp only
  split
  · exact raise fun _ => by simp [mapped, serviceErrorResponse, detailResponse]
  · exact bind (requireVersion _) fun _ => bind (requireVersion _) fun _ =>
      bind (createJob _ _ _ _) fun _ => bind (call fun _ _ => Iff.rfl) fun _ => ret _

theorem resolveReviewItem (context : RequestContext) (itemId : Uuid)
    (request : ReviewQueue.ReviewDispositionCreate) :
    Answers (ReviewQueue.resolveReviewItem context tenantId itemId request) := by
  refine bind (bind (call fun _ _ => Iff.rfl) fun _ => require (fun _ => ?_) _) fun _ =>
    bind (call fun _ _ => Iff.rfl) fun resolved => ?_
  · simp [mapped, serviceErrorResponse, detailResponse]
  · cases resolved with
    | none => exact raise fun _ => by simp [mapped, serviceErrorResponse, detailResponse]
    | some resolved => exact bind (call fun _ _ => Iff.rfl) fun _ => ret _

/-- An embeddings call is answered with usage that has a record, or it ends as the client says. -/
theorem embed_cases (llm : Llm.OpenAiClient) (texts : List Str) :
    Every exec env (Llm.embed llm texts) l s fun trace res l' _ =>
      ∃ a result, trace = [⟨.createEmbeddings llm.embeddingModel texts, a, result⟩] ∧
        ((∃ response reply, result = .ok response ∧
            Llm.Recordable llm.embeddingModel response.promptTokens (some 0) ∧ res = .ok reply ∧
              reply.vectors.length = response.items.length) ∨
          (∃ e, res = .error e) ∧ (Escapes mapped res l' ↔
            Breaks ⟨.createEmbeddings llm.embeddingModel texts, a, result⟩)) := by
  refine (Llm.embed_answers llm texts).mono ?_
  rintro trace res l' t ⟨a, rfl, rfl, -⟩
  refine ⟨a, _, rfl, ?_⟩
  cases hreply : embedReply a.embed with
  | error e =>
    refine .inr ⟨⟨_, rfl⟩, ?_⟩
    obtain ⟨hsdk, husable⟩ := Llm.embedReply_error hreply
    cases e with
    | unusableReply => exact absurd rfl husable
    | openAiError cause =>
      refine iff_of_false (fun h => h ?_) fun h => h cause rfl
      simp [mapped, serviceErrorResponse, detailResponse, Llm.sdkError]
    | valueError | otherError => exact iff_of_true (not_mapped rfl) fun cause h => by cases h
    | _ => cases hsdk
  | ok response =>
    by_cases h : Llm.Recordable llm.embeddingModel response.promptTokens (some 0)
    · obtain ⟨reply, hread, hlength⟩ := Llm.readEmbeddings_of_recordable h
      exact .inl ⟨response, reply, rfl, h, hread, hlength⟩
    · obtain ⟨e, hread, hcause⟩ := Llm.readEmbeddings_of_not_recordable h
      refine .inr ⟨⟨e, hread⟩, ?_⟩
      rw [Llm.embedded, hread]
      exact iff_of_true (not_mapped (NoClientError.unmapped_of_no_record hcause)) (.inl h)

omit [Platform] in
theorem unpackOne_error {vectors : List Embedding} (h : vectors.length ≠ 1) :
    ∃ message, Search.unpackOne vectors = .error (.valueError message) := by
  unfold Search.unpackOne
  split
  · exact ⟨_, rfl⟩
  · exact absurd rfl h
  · exact ⟨_, rfl⟩

/-- A search breaks when its embedding is answered with usage that has no record, or not with one
vector. -/
theorem search (requestId : Str) (llm : Llm.OpenAiClient) (query : Str) (limit : Nat) :
    Answers (Search.search requestId llm tenantId query limit) := by
  have hrest : ∀ embedding, Answers ((perform (.rankBySimilarity tenantId none embedding
      (limit * Search.CANDIDATE_DEPTH_FACTOR))).bind fun vectorRanked =>
        (perform (.rankByFullText tenantId none query
          (limit * Search.CANDIDATE_DEPTH_FACTOR))).bind fun ftsRanked =>
            lift (Search.fuseRows vectorRanked ftsRanked limit)) := by
    refine fun embedding => bind (call fun _ _ => Iff.rfl) fun vectorRanked =>
      bind (call fun _ _ => Iff.rfl) fun ftsRanked => ?_
    obtain ⟨hits, hfused⟩ := Search.fuseRows_isOk vectorRanked ftsRanked limit
    rw [hfused]
    exact ret hits
  intro env l s
  refine Every.bind.mpr ((embed_cases llm [query]).mono fun trace res l' t hembed => ?_)
  obtain ⟨a, result, rfl, ⟨response, reply, rfl, hrecordable, rfl, hlength⟩ |
    ⟨⟨e, rfl⟩, hbreaks⟩⟩ := hembed
  · by_cases hone : response.items.length = 1
    · obtain ⟨embedding, hvectors⟩ := List.length_eq_one_iff.mp (hlength.trans hone)
      have hunpacked : Search.unpackOne reply.vectors = .ok embedding := by rw [hvectors]; rfl
      have hanswers : Answers ((Usage.sink requestId tenantId .search none reply.usage).bind fun _ =>
          (lift (Search.unpackOne reply.vectors)).bind fun embedding =>
            (perform (.rankBySimilarity tenantId none embedding
              (limit * Search.CANDIDATE_DEPTH_FACTOR))).bind fun vectorRanked =>
                (perform (.rankByFullText tenantId none query
                  (limit * Search.CANDIDATE_DEPTH_FACTOR))).bind fun ftsRanked =>
                    lift (Search.fuseRows vectorRanked ftsRanked limit)) := by
        rw [hunpacked]
        exact bind (call fun _ _ => Iff.rfl) fun _ => hrest embedding
      refine after [_] hanswers ?_
      rintro ⟨entry, hentry, hbreaks⟩
      rw [List.mem_singleton.mp hentry] at hbreaks
      rcases hbreaks with hbad | hbad
      · exact hbad hrecordable
      · exact hbad hone
    · obtain ⟨message, hunpacked⟩ := unpackOne_error (mt hlength.symm.trans hone)
      refine Every.bind.mpr (Every.call.mpr fun moved b _ => ?_)
      have hbreaks : Breaks ⟨.createEmbeddings llm.embeddingModel [query], a, .ok response⟩ :=
        .inr hone
      cases hsink : (exec (.insertUsage tenantId .search none reply.usage requestId) b l' moved).1 with
      | error e =>
        exact iff_of_true (not_mapped (unmapped_of_exec hsink))
          ⟨_, List.mem_append_left _ (List.mem_singleton_self _), hbreaks⟩
      | ok _ =>
        dsimp only
        rw [hunpacked]
        exact iff_of_true (not_mapped rfl)
          ⟨_, List.mem_append_left _ (List.mem_singleton_self _), hbreaks⟩
  · refine hbreaks.trans ⟨fun h => ⟨_, List.mem_singleton_self _, h⟩, ?_⟩
    rintro ⟨entry, hentry, h⟩
    rwa [List.mem_singleton.mp hentry] at h

theorem program {work : Call} (hlistable : ∀ context request,
      work = .uploadDocument context request → ¬ Unlistable request)
    (h : ∀ context documentId, work ≠ .deleteDocument context documentId) :
    Answers (work.program tenantId) := by
  cases work with
  | uploadDocument context request =>
    exact uploadDocument context { request with tenantId := tenantId }
      (hlistable context request rfl)
  | getDocument => exact getDocument _
  | listDocuments =>
    exact bind (call fun _ _ => Iff.rfl) fun _ => bind (call fun _ _ => Iff.rfl) fun _ => ret _
  | resolveDocumentFile =>
    refine bind (getDocument _) fun _ => bind (call fun _ _ => Iff.rfl) fun found => ?_
    cases found with
    | false => exact raise fun _ => by simp [mapped, serviceErrorResponse, detailResponse]
    | true => exact ret _
  | deleteDocument context documentId => exact absurd rfl (h context documentId)
  | enqueueIngestion => exact enqueueIngestion _ _
  | enqueueExtraction => exact enqueueExtraction _ _
  | enqueueChangeReport => exact enqueueChangeReport _ _ _
  | getJob =>
    exact bind (call fun _ _ => Iff.rfl) fun _ =>
      require (fun _ => by simp [mapped, serviceErrorResponse, detailResponse]) _
  | listChangeReportJobs =>
    exact bind (call fun _ _ => Iff.rfl) fun _ => bind (require (fun _ => by
      simp [mapped, serviceErrorResponse, detailResponse]) _) fun _ => call fun _ _ => Iff.rfl
  | listReviewItems => exact call fun _ _ => Iff.rfl
  | getReviewItem =>
    exact bind (call fun _ _ => Iff.rfl) fun _ =>
      require (fun _ => by simp [mapped, serviceErrorResponse, detailResponse]) _
  | resolveReviewItem => exact resolveReviewItem _ _ _
  | spend groupBy =>
    cases groupBy with
    | job => exact bind (call fun _ _ => Iff.rfl) fun _ => bind (call fun _ _ => Iff.rfl) fun _ => ret _
    | jobType =>
      exact bind (call fun _ _ => Iff.rfl) fun _ => bind (call fun _ _ => Iff.rfl) fun _ => ret _

end Answers

/-! ## Deletes -/

/-- What leads to the server's error page. -/
def Broken (trace : List Entry) : Prop := (∃ entry ∈ trace, Breaks entry) ∨ SweptInVain trace

section Broken

variable {before trace : List Entry}

omit [Platform]

/-- The operation is neither a sweep nor a look for amendments. -/
def Unswept : Op → Prop
  | .deleteSweep _ | .hasAmendments _ => False
  | _ => True

/-- The entry breaks nothing, and has nothing to do with a sweep in vain. -/
def Blameless (entry : Entry) : Prop :=
  ¬ Breaks entry ∧ (∀ documentId a, entry ≠ ⟨.deleteSweep documentId, a, .error .integrityError⟩) ∧
    ∀ documentId a, entry ≠ ⟨.hasAmendments documentId, a, .ok true⟩

theorem blameless_of_unswept {entry : Entry} (h : ¬ Breaks entry) (ho : Unswept entry.op) :
    Blameless entry := by
  refine ⟨h, ?_, ?_⟩
  · rintro documentId a rfl
    exact ho
  · rintro documentId a rfl
    exact ho

theorem broken_append_iff (h : ∀ entry ∈ before, Blameless entry) :
    Broken (before ++ trace) ↔ Broken trace := by
  have hbreaks : (∃ entry ∈ before ++ trace, Breaks entry) ↔ ∃ entry ∈ trace, Breaks entry :=
    Blamed.exists_append_iff fun ⟨entry, hentry, hbreaks⟩ => (h entry hentry).1 hbreaks
  refine or_congr hbreaks (and_congr ?_ ?_)
  · refine exists_congr fun documentId => exists_congr fun a => List.mem_append.trans ?_
    exact or_iff_right fun hentry => (h _ hentry).2.1 documentId a rfl
  · refine forall_congr' fun documentId => forall_congr' fun a => not_congr ?_
    exact List.mem_append.trans (or_iff_right fun hentry => (h _ hentry).2.2 documentId a rfl)

theorem broken_iff_of_not_swept (h : ∀ entry ∈ trace, ∀ documentId a,
    entry ≠ ⟨.deleteSweep documentId, a, .error .integrityError⟩) :
    Broken trace ↔ ∃ entry ∈ trace, Breaks entry :=
  or_iff_left fun ⟨⟨documentId, a, hswept⟩, _⟩ => h _ hswept documentId a rfl

end Broken

/-- The program ends in a server error exactly when its operations lead to it. -/
abbrev Accounts (p : Service α) : Prop :=
  ∀ env l s, Every exec env p l s fun trace res l' _ => Escapes mapped res l' ↔ Broken trace

namespace Accounts

theorem of_answers (hp : Answers p) (ho : p.Performs Unswept) : Accounts p := by
  intro env l s
  refine ((hp env l s).and (Every.trace_of_performs ho)).mono fun trace res l' _ ⟨hiff, hops⟩ => ?_
  refine hiff.trans (broken_iff_of_not_swept fun entry hentry documentId a heq => ?_).symm
  have hunswept := hops entry hentry
  rw [heq] at hunswept
  exact hunswept

/-- After a part that has nothing to do with sweeps. -/
theorem bind (hp : Answers p) (ho : p.Performs Unswept) (hf : ∀ r, Accounts (f r)) :
    Accounts (p.bind f) := by
  intro env l s
  refine Every.bind.mpr (((hp env l s).and ((of_answers hp ho env l s).and
    (Every.trace_of_performs ho))).mono fun trace res l' t ⟨hiff, haccounts, hops⟩ => ?_)
  cases res with
  | error e => exact haccounts
  | ok r =>
    refine (hf r env l' t).mono fun more res l' t hmore => ?_
    have hclean : ¬ ∃ entry ∈ trace, Breaks entry := hiff.not.mp id
    exact hmore.trans (broken_append_iff fun entry hentry =>
      blameless_of_unswept (fun h => hclean ⟨entry, hentry, h⟩) (hops entry hentry)).symm

/-- A sweep is refused for an amendment, or it is in vain. -/
theorem sweep (documentId : Uuid) : Every exec env (Documents.sweep documentId) l s
    fun trace res l' _ => (Escapes mapped res l' ↔ Broken trace) ∧
      ∀ r, res = .ok r → ∀ entry ∈ trace, Blameless entry := by
  refine Every.tryCatch.mpr (Every.call.mpr fun moved a _ => ?_)
  cases hswept : (exec (.deleteSweep documentId) a l moved).1 with
  | ok r =>
    have hblameless : Blameless ⟨.deleteSweep documentId, a, .ok r⟩ := by
      refine ⟨?_, ?_, ?_⟩
      · rintro ⟨e, he, -⟩
        cases he
      · intro _ _ h
        cases h
      · intro _ _ h
        cases h
    have hall : ∀ entry ∈ [(⟨.deleteSweep documentId, a, .ok r⟩ : Entry)], Blameless entry :=
      fun entry hentry => List.mem_singleton.mp hentry ▸ hblameless
    refine ⟨iff_of_false id ?_, fun _ _ => hall⟩
    rw [broken_iff_of_not_swept fun entry hentry => (hall entry hentry).2.1]
    exact fun ⟨entry, hentry, hbreaks⟩ => (hall entry hentry).1 hbreaks
  | error e =>
    dsimp only
    split
    next =>
      -- what the sweep was refused for is looked for behind a rollback
      refine Every.bind.mpr (Every.call.mpr fun moved b _ => ?_)
      refine Every.bind.mpr (Every.call.mpr fun moved c _ => ?_)
      cases hlook : (exec (.hasAmendments documentId) c _ moved).1 with
      | error e =>
        have hmem : (⟨.hasAmendments documentId, c, .error e⟩ : Entry) ∈
            [⟨.deleteSweep documentId, a, .error .integrityError⟩] ++
              ([⟨.rollback, b, .ok ()⟩] ++ [⟨.hasAmendments documentId, c, .error e⟩]) := by simp
        exact ⟨iff_of_true (not_mapped (unmapped_of_exec hlook)) (.inl ⟨_, hmem, e, rfl⟩),
          fun _ h => by cases h⟩
      | ok amended =>
        have hclean : ¬ ∃ entry ∈ ([⟨.deleteSweep documentId, a, .error .integrityError⟩] ++
            ([⟨.rollback, b, .ok ()⟩] ++ [⟨.hasAmendments documentId, c, .ok amended⟩]) : List Entry),
              Breaks entry := by
          rintro ⟨entry, hentry, hbreaks⟩
          simp only [List.cons_append, List.nil_append, List.mem_cons, List.not_mem_nil, or_false]
            at hentry
          rcases hentry with rfl | rfl | rfl
          · obtain ⟨e, he, hne⟩ := hbreaks
            cases he
            exact hne rfl
          · obtain ⟨e, he⟩ := hbreaks
            cases he
          · obtain ⟨e, he⟩ := hbreaks
            cases he
        cases amended with
        | true =>
          refine ⟨iff_of_false (fun h => h (by simp [mapped, serviceErrorResponse, detailResponse]))
            ?_, fun _ h => by cases h⟩
          rintro (hbreaks | ⟨-, hnone⟩)
          · exact hclean hbreaks
          · exact hnone documentId c (by simp)
        | false =>
          refine ⟨iff_of_true (not_mapped rfl) (.inr ⟨⟨documentId, a, by simp⟩, ?_⟩),
            fun _ h => by cases h⟩
          intro other d hmem
          simp at hmem
    next hne =>
      refine ⟨iff_of_true (not_mapped (unmapped_of_exec hswept))
        (.inl ⟨_, List.mem_singleton_self _, e, rfl, fun h => hne h⟩), fun _ h => by cases h⟩

theorem deleteDocument (context : RequestContext) (documentId : Uuid) :
    Accounts (Documents.deleteDocument context tenantId documentId) := by
  refine bind (Answers.getDocument documentId) (.bind (.call trivial) fun _ => require_performs _ _)
    fun document => ?_
  intro env l s
  refine Every.bind.mpr (Every.call.mpr fun moved a _ => ?_)
  cases hlook : (exec (.hasAmendments documentId) a l moved).1 with
  | error e =>
    exact iff_of_true (not_mapped (unmapped_of_exec hlook))
      (.inl ⟨_, List.mem_singleton_self _, e, rfl⟩)
  | ok amended =>
    have hclean : ¬ Breaks ⟨.hasAmendments documentId, a, .ok amended⟩ := by
      rintro ⟨e, he⟩
      cases he
    cases amended with
    | true =>
      refine iff_of_false (fun h => h (by simp [mapped, serviceErrorResponse, detailResponse])) ?_
      rw [broken_iff_of_not_swept fun entry hentry => ?_]
      · rintro ⟨entry, hentry, hbreaks⟩
        rw [List.mem_singleton.mp hentry] at hbreaks
        exact hclean hbreaks
      · rw [List.mem_singleton.mp hentry]
        intro _ _ h
        cases h
    | false =>
      have hblameless : ∀ entry ∈ [(⟨.hasAmendments documentId, a, .ok false⟩ : Entry)],
          Blameless entry := by
        intro entry hentry
        rw [List.mem_singleton.mp hentry]
        refine ⟨hclean, ?_, ?_⟩
        · intro _ _ h
          cases h
        · intro _ _ h
          cases h
      have hremove : Accounts ((perform (.unlinkFile tenantId document.sha256)).bind fun _ =>
          perform (.insertAudit tenantId context.actor context.requestId "document.delete".toList
            "document".toList (some document.id)
            (some (.obj [("filename".toList, .str document.filename),
              ("sha256".toList, .str document.sha256)])))) :=
        bind (.call fun _ _ => Iff.rfl) (.call trivial) fun _ =>
          of_answers (.call fun _ _ => Iff.rfl) (.call trivial)
      refine Every.mono (Φ := fun more res l' _ => Escapes mapped res l' ↔ Broken more) ?_
        fun _ _ _ _ hmore => hmore.trans (broken_append_iff hblameless).symm
      refine Every.bind.mpr ((sweep document.id).mono ?_)
      rintro trace res l' t ⟨hiff, hswept⟩
      cases res with
      | error e => exact hiff
      | ok r =>
        exact (hremove env l' t).mono fun _ _ _ _ hmore =>
          hmore.trans (broken_append_iff (hswept r rfl)).symm

theorem program {work : Call} (hlistable : ∀ context request,
      work = .uploadDocument context request → ¬ Unlistable request) :
    Accounts (work.program tenantId) := by
  have hothers : (∀ context documentId, work ≠ .deleteDocument context documentId) →
      Accounts (work.program tenantId) := by
    refine fun hne => of_answers (.program hlistable hne)
      (work.program_performs.mono fun o _ ho => ?_)
    cases o with
    | hasAmendments | deleteSweep =>
      obtain ⟨context, documentId, rfl⟩ := ho
      exact hne context documentId rfl
    | _ => trivial
  cases work with
  | deleteDocument context documentId => exact deleteDocument context documentId
  | _ => exact hothers (by simp)

end Accounts

/-! ## Requests -/

section Requests

variable {Key : Type} [Auth.Identity Key] {settings : Settings} {incoming : Incoming Key}

/-- The action is the upload of an archive that `ZipFile` raises on. -/
def Action.unlistable (action : Action) : Prop :=
  ∃ context request, action = .call (.uploadDocument context request) ∧ Unlistable request

theorem accounts_action {action : Action} (hlistable : ¬ action.unlistable) (tenantId : Uuid) :
    Accounts (action.program settings tenantId) := by
  have hret : Accounts (.ret () : Service Unit) := .of_answers (.ret ()) trivial
  cases action with
  | call work =>
    intro env l s
    have hlistable : ∀ context request, work = .uploadDocument context request →
        ¬ Unlistable request := by
      rintro context request rfl hunlistable
      exact hlistable ⟨context, request, rfl, hunlistable⟩
    refine Every.bind.mpr ((Accounts.program hlistable env l s).mono fun trace res l' t hiff => ?_)
    cases res with
    | error e => exact hiff
    | ok r =>
      refine hiff.trans (iff_of_eq (congrArg Broken ?_))
      exact (List.append_nil trace).symm
  | search requestId query limit =>
    refine .of_answers (.bind (.search _ _ _ _) fun _ => .ret _) (.bind ?_ fun _ => .ret _)
    exact (search_performs _ _ _ _).mono fun o _ hasks => by cases o <;> trivial

/-- A request that is turned away gets a server error for an exception of the key client. -/
theorem status_of_resolve {e : ApiExn} (h : incoming.resolve settings = .error e) :
    (errorResponse e).status = 500 ↔ ∃ e', e = .auth (.raised e') := by
  obtain ⟨e', hrefused, hother⟩ | ⟨_, _, hresolved, -⟩ := resolve_cases settings incoming
  · cases h.symm.trans hrefused
    cases e with
    | service e => exact absurd rfl (hother e)
    | auth e => cases e <;> simp [errorResponse, authErrorResponse, detailResponse, internalServerError]
    | _ => simp [errorResponse, detailResponse]
  · cases h.symm.trans hresolved

/-- Such an upload is a server error, and nothing was performed for it. -/
theorem action_unlistable {action : Action} (h : action.unlistable) (tenantId : Uuid) :
    Every exec env (action.program settings tenantId) l s fun trace res l' _ =>
      Escapes mapped res l' ∧ trace = [] := by
  obtain ⟨context, request, rfl, hunlistable⟩ := h
  obtain ⟨error, message, hraise⟩ :=
    uploadDocument_unlistable context { request with tenantId := tenantId } hunlistable
  show Every exec env ((Call.program tenantId (.uploadDocument context request)).bind _) l s _
  rw [Call.program, hraise]
  exact ⟨not_mapped rfl, rfl⟩

end Requests

end ContractIntel.Api
