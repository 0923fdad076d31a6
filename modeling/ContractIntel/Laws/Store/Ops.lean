import ContractIntel.Store.Repositories

/-!
# What an operation does to the store

`Effect` says once what each operation can do: nothing, when it is refused or only reads, or its
transaction. From it, for each part of the store, which operations write it: a proof about a
service looks at the few operations that touch the part it is about.
-/

namespace ContractIntel

open Parsing (Bytes PageSpan)
open Chunking (Chunk)

variable {o : Op} {a : Answer} {l : Session} {s : Store}

/-- What the database raises: a refused statement, a violated constraint, a row that is gone, a
session that was not rolled back. -/
def Exn.isDatabaseError : Exn → Bool
  | .integrityError | .staleDataError | .invalidRequestError | .pendingRollbackError
  | .databaseError _ => true
  | _ => false

/-! ## Statements and file system calls -/

section Calls

variable {α : Type} {body : Store → Except Exn (α × Store)}

/-- A statement fails and poisons the session, or it is served and its transaction commits. -/
theorem statement_cases (body : Store → Except Exn (α × Store)) (a : Answer) (l : Session)
    (s : Store) :
    (∃ e, statement body a l s = (.error e, ⟨true⟩, s) ∧
        (e.isDatabaseError ∨ body s = .error e)) ∨
      ∃ r t, l.failed = false ∧ a.refusal = none ∧ body s = .ok (r, t) ∧
        statement body a l s = (.ok r, l, t) := by
  unfold statement
  split
  next hfailed =>
    obtain ⟨failed⟩ := l
    cases hfailed
    exact .inl ⟨_, rfl, .inl rfl⟩
  next hfailed =>
    split
    next reason hrefused => exact .inl ⟨_, rfl, .inl rfl⟩
    next hserved =>
      split
      next r t hbody => exact .inr ⟨r, t, by simpa using hfailed, hserved, hbody, rfl⟩
      next e hbody => exact .inl ⟨e, rfl, .inr hbody⟩

/-- An answered statement has committed on a live session. -/
theorem statement_eq_ok {body : Store → Except Exn (α × Store)} {r : α}
    (h : (statement body a l s).1 = .ok r) : l.failed = false ∧
      ∃ t, a.refusal = none ∧ body s = .ok (r, t) ∧ statement body a l s = (.ok r, l, t) := by
  rcases statement_cases body a l s with ⟨e, heq, -⟩ | ⟨r', t, hl, hserved, hok, heq⟩
  · rw [heq] at h
    cases h
  · rw [heq] at h
    cases h
    exact ⟨hl, t, hserved, hok, heq⟩

/-- An answered query returns what it reads. -/
theorem query_eq_ok {read : Store → α} {r : α} (h : (query read a l s).1 = .ok r) :
    read s = r ∧ query read a l s = (.ok r, l, s) := by
  rcases statement_cases (fun s => .ok (read s, s)) a l s with
    ⟨e, heq, -⟩ | ⟨r', t, -, -, hok, heq⟩
  · rw [query, heq] at h
    cases h
  · cases hok
    rw [query, heq] at h
    cases h
    exact ⟨rfl, heq⟩

/-- On a live session an accepted statement fails only as its transaction does. -/
theorem statement_served (hl : l.failed = false) (hserved : a.refusal = none) {e : Exn}
    (h : (statement body a l s).1 = .error e) : body s = .error e := by
  unfold statement at h
  rw [hl, hserved] at h
  simp only [Bool.false_eq_true, if_false] at h
  split at h
  · cases h
  next hbody =>
    cases h
    exact hbody

/-- On a live session an accepted query is answered. -/
theorem query_served (read : Store → α) (hl : l.failed = false) (hserved : a.refusal = none) :
    query read a l s = (.ok (read s), l, s) := by
  simp [query, statement, hl, hserved]

/-- A query fails, or it reads; it writes nothing. -/
theorem query_cases (read : Store → α) (a : Answer) (l : Session) (s : Store) :
    (∃ e, query read a l s = (.error e, ⟨true⟩, s)) ∨
      query read a l s = (.ok (read s), l, s) := by
  rcases statement_cases (fun s => .ok (read s, s)) a l s with ⟨e, heq, -⟩ | ⟨r, t, -, -, hok, heq⟩
  · exact .inl ⟨e, heq⟩
  · cases hok
    exact .inr heq

/-- A file system call raises, or it succeeds. -/
theorem fileCall_cases (body : Store → Except Exn (α × Store)) (a : Answer) (l : Session)
    (s : Store) :
    (∃ e, fileCall body a l s = (.error e, l, s)) ∨
      ∃ r t, a.refusal = none ∧ body s = .ok (r, t) ∧ fileCall body a l s = (.ok r, l, t) := by
  unfold fileCall
  split
  · exact .inl ⟨_, rfl⟩
  next hserved =>
    split
    next r t hbody => exact .inr ⟨r, t, hserved, hbody, rfl⟩
    · exact .inl ⟨_, rfl⟩

end Calls

/-- A file that was read is there. -/
theorem readFile_eq_ok {tenantId : Uuid} {sha256 : Str} {content : Bytes}
    (h : (exec (.readFile tenantId sha256) a l s).1 = .ok content) :
    s.files tenantId sha256 = some content := by
  rcases fileCall_cases (Store.readFile tenantId sha256) a l s with
    ⟨e, heq⟩ | ⟨r, t, -, hok, heq⟩
  · rw [exec, heq] at h
    cases h
  · rw [exec, heq] at h
    cases h
    unfold Store.readFile at hok
    split at hok
    next hfile =>
      cases hok
      exact hfile
    · cases hok

/-! ## Committed effects -/

/-- What an operation can do to the store: nothing, or its transaction. -/
inductive Effect : Op → Answer → Store → Store → Prop
  | nothing (o : Op) (a : Answer) (s : Store) : Effect o a s s
  | insertDocument {tenantId : Uuid} {filename mimeType sha256 : Str} {amends : Option Uuid}
      {a : Answer} {s : Store} {id : Uuid} (hnew : id = draw s.issued (a.ids.headD 0))
      (hfree : s.findDocumentBySha256 tenantId sha256 = none)
      (hparent : ∀ parent, amends = some parent → (s.document? parent).isSome) :
      Effect (.insertDocument tenantId filename mimeType sha256 amends) a s
        { s with
          documents := s.documents ++
            [⟨id, tenantId, filename, mimeType, sha256, amends, .uploaded, s.started a.began⟩]
          issued := id :: s.issued }
  | setDocumentStatus {document : DocumentRow} {status : DocumentStatus} {a : Answer} {s : Store}
      (hfound : (s.document? document.id).isSome) :
      Effect (.setDocumentStatus document status) a s
        { s with documents := s.documents.map fun d =>
            if d.id = document.id then { d with status } else d }
  | deleteSweep {documentId : Uuid} {a : Answer} {s t : Store}
      (hswept : s.deleteSweep documentId = .ok ((), t)) : Effect (.deleteSweep documentId) a s t
  | insertJob {kind : JobKind} {tenantId documentId : Uuid} {amended : Option Uuid} {a : Answer}
      {s : Store} {id : Uuid} (hnew : id = draw s.issued (a.ids.headD 0))
      (hserved : a.refusal = none) (hdocument : (s.document? documentId).isSome)
      (hamended : ∀ version, amended = some version → (s.document? version).isSome) :
      Effect (.insertJob kind tenantId documentId amended) a s
        { s.withJobs kind
            (s.jobs kind ++
              [Jobs.JobRow.create id tenantId documentId amended (s.started a.began)]) with
          issued := id :: s.issued }
  | claimJob {kind : JobKind} {a : Answer} {s : Store} :
      Effect (.claimJob kind) a s
        (s.withJobs kind (Jobs.claimNext s.now a.locked (s.jobs kind)).2)
  | completeJob {kind : JobKind} {id : Uuid} {result : Json} {a : Answer} {s : Store} :
      Effect (.completeJob kind id result) a s
        (s.withJobs kind (Jobs.markCompleted id result (s.jobs kind)))
  | failJob {kind : JobKind} {id : Uuid} {error : Str} {a : Answer} {s : Store} :
      Effect (.failJob kind id error) a s
        (s.withJobs kind (Jobs.markFailed id error (s.jobs kind)))
  | replaceTextAndChunks {tenantId documentId : Uuid} {text : Str} {pageMap : List PageSpan}
      {chunks : List Chunk} {embeddings : List Embedding} {a : Answer} {s : Store}
      {ids : List Uuid} (hdocument : (s.document? documentId).isSome)
      (hlength : chunks.length = embeddings.length)
      (hids : ids = drawMany chunks.length s.issued a.ids) :
      Effect (.replaceTextAndChunks tenantId documentId text pageMap chunks embeddings) a s
        { s with
          texts := s.texts.filter (·.documentId ≠ documentId) ++
            [⟨documentId, tenantId, text, pageMap⟩]
          chunks := s.chunks.filter (·.documentId ≠ documentId) ++
            Store.chunkRows tenantId documentId chunks embeddings ids
          issued := ids ++ s.issued }
  | insertUsage {tenantId : Uuid} {jobType : UsageJobKind} {jobId : Option Uuid}
      {usage : LlmUsage} {requestId : Str} {a : Answer} {s : Store} :
      Effect (.insertUsage tenantId jobType jobId usage requestId) a s
        (s.insertUsage tenantId jobType jobId usage requestId a.began)
  | insertAudit {tenantId : Uuid} {actor : Option Str} {requestId action resourceType : Str}
      {resourceId : Option Uuid} {detail : Option Json} {a : Answer} {s : Store} :
      Effect (.insertAudit tenantId actor requestId action resourceType resourceId detail) a s
        (s.insertAudit tenantId actor requestId action resourceType resourceId detail a.began)
  | insertReviewItems {tenantId : Uuid} {source : ReviewItemSource} {documentId jobId : Uuid}
      {items : List (Str × Json × Rat)} {a : Answer} {s : Store} {rows : List ReviewItemRow}
      {ids : List Uuid} (hdocument : (s.document? documentId).isSome)
      (hids : ids = drawMany items.length s.issued a.ids)
      (hrows : rows = (items.zip ids).map fun entry =>
        ⟨entry.2, tenantId, source, entry.1.1, documentId, jobId, entry.1.2.1, entry.1.2.2, .pending,
          none, none, s.started a.began⟩) :
      Effect (.insertReviewItems tenantId source documentId jobId items) a s
        { s with reviewItems := s.reviewItems ++ rows, issued := ids ++ s.issued }
  | resolveReviewItem {tenantId itemId : Uuid} {status : ReviewItemStatus}
      {correctedValues : Option Json} {a : Answer} {s : Store} :
      Effect (.resolveReviewItem tenantId itemId status correctedValues) a s
        { s with reviewItems := s.reviewItems.map fun item =>
            if Store.resolvable tenantId itemId item then
              Store.resolved status correctedValues s.now item
            else item }
  | saveFile {tenantId : Uuid} {sha256 : Str} {content : Bytes} {a : Answer} {s : Store} :
      Effect (.saveFile tenantId sha256 content) a s (s.setFile tenantId sha256 (some content))
  | unlinkFile {tenantId : Uuid} {sha256 : Str} {a : Answer} {s : Store}
      (hserved : a.refusal = none) :
      Effect (.unlinkFile tenantId sha256) a s (s.setFile tenantId sha256 none)

/-- The effect of a statement is the effect of its body, or nothing. -/
theorem statement_effect {α : Type} {body : Store → Except Exn (α × Store)}
    (hbody : ∀ r t, a.refusal = none → body s = .ok (r, t) → Effect o a s t) :
    Effect o a s (statement body a l s).2.2 := by
  rcases statement_cases body a l s with ⟨e, heq, -⟩ | ⟨r, t, -, hserved, hok, heq⟩
  · rw [heq]
    exact .nothing _ _ _
  · rw [heq]
    exact hbody r t hserved hok

theorem fileCall_effect {α : Type} {body : Store → Except Exn (α × Store)}
    (hbody : ∀ r t, a.refusal = none → body s = .ok (r, t) → Effect o a s t) :
    Effect o a s (fileCall body a l s).2.2 := by
  rcases fileCall_cases body a l s with ⟨e, heq⟩ | ⟨r, t, hserved, hok, heq⟩
  · rw [heq]
    exact .nothing _ _ _
  · rw [heq]
    exact hbody r t hserved hok

theorem query_effect {α : Type} (read : Store → α) : Effect o a s (query read a l s).2.2 :=
  statement_effect fun _ _ _ h => by
    cases h
    exact .nothing _ _ _

theorem Store.replaceTextAndChunks_eq_ok {tenantId documentId : Uuid} {text : Str}
    {pageMap : List PageSpan} {chunks : List Chunk} {embeddings : List Embedding}
    {drawn : List Uuid} {t : Store} {r : Unit}
    (h : s.replaceTextAndChunks tenantId documentId text pageMap chunks embeddings drawn =
      .ok (r, t)) :
    (s.document? documentId).isSome ∧ chunks.length = embeddings.length ∧
      t = { s with
        texts := s.texts.filter (·.documentId ≠ documentId) ++
          [⟨documentId, tenantId, text, pageMap⟩]
        chunks := s.chunks.filter (·.documentId ≠ documentId) ++
          Store.chunkRows tenantId documentId chunks embeddings
            (drawMany chunks.length s.issued drawn)
        issued := drawMany chunks.length s.issued drawn ++ s.issued } := by
  by_cases hdocument : (s.document? documentId).isNone
  · simp [replaceTextAndChunks, replaceText, hdocument, bind, Except.bind] at h
  · by_cases hlength : chunks.length = embeddings.length
    · simp [replaceTextAndChunks, replaceText, replaceWithEmbeddings, hdocument, hlength, bind,
        Except.bind, pure, Except.pure] at h
      refine ⟨Option.isSome_iff_ne_none.mpr (by simpa using hdocument), hlength, ?_⟩
      rw [← h, hlength]
      simp
    · simp [replaceTextAndChunks, replaceText, replaceWithEmbeddings, hdocument, hlength, bind,
        Except.bind] at h

/-- An inserted document is new, its digest is free, and its parent is there. -/
theorem Store.insertDocument_eq_ok {tenantId drawn : Uuid} {filename mimeType sha256 : Str}
    {amends : Option Uuid} {began : Time} {row : DocumentRow} {t : Store}
    (h : s.insertDocument tenantId filename mimeType sha256 amends drawn began = .ok (row, t)) :
    s.findDocumentBySha256 tenantId sha256 = none ∧
      (∀ parent, amends = some parent → (s.document? parent).isSome) ∧
      row = ⟨draw s.issued drawn, tenantId, filename, mimeType, sha256, amends, .uploaded,
        s.started began⟩ ∧
      t = { s with documents := s.documents ++ [row], issued := row.id :: s.issued } := by
  simp only [Store.insertDocument] at h
  split at h
  · cases h
  next hfree =>
    split at h
    · cases h
    next hparent =>
      cases h
      refine ⟨Option.not_isSome_iff_eq_none.mp hfree, ?_, rfl, rfl⟩
      rintro parent rfl
      exact Option.isSome_iff_ne_none.mpr (by simpa using hparent)

/-- An inserted job is new, and its documents are there. -/
theorem Store.insertJob_eq_ok {kind : JobKind} {tenantId documentId drawn : Uuid}
    {amended : Option Uuid} {began : Time} {row : Jobs.JobRow} {t : Store}
    (h : s.insertJob kind tenantId documentId amended drawn began = .ok (row, t)) :
    (s.document? documentId).isSome ∧
      (∀ version, amended = some version → (s.document? version).isSome) ∧
      row = Jobs.JobRow.create (draw s.issued drawn) tenantId documentId amended
        (s.started began) ∧
      t = { s.withJobs kind (s.jobs kind ++ [row]) with issued := row.id :: s.issued } := by
  simp only [Store.insertJob] at h
  split at h
  · cases h
  next hdocument =>
    split at h
    · cases h
    next hamended =>
      cases h
      refine ⟨Option.isSome_iff_ne_none.mpr (by simpa using hdocument), ?_, rfl, rfl⟩
      rintro version rfl
      exact Option.isSome_iff_ne_none.mpr (by simpa using hamended)

theorem exec_effect (o : Op) (a : Answer) (l : Session) (s : Store) :
    Effect o a s (exec o a l s).2.2 := by
  cases o with
  | insertDocument tenantId filename mimeType sha256 amends =>
    apply statement_effect
    intro row t _ hok
    obtain ⟨hfree, hparent, rfl, rfl⟩ := Store.insertDocument_eq_ok hok
    exact .insertDocument rfl hfree hparent
  | setDocumentStatus document status =>
    apply statement_effect
    intro r t _ hok
    simp only [Store.setDocumentStatus] at hok
    split at hok
    · cases hok
      exact .nothing _ _ _
    · split at hok
      · cases hok
      · rename_i hfound
        cases hok
        exact .setDocumentStatus (Option.isSome_iff_ne_none.mpr (by simpa using hfound))
  | deleteSweep documentId =>
    apply statement_effect
    intro r t _ hok
    exact .deleteSweep hok
  | insertJob kind tenantId documentId amended =>
    apply statement_effect
    intro row t hserved hok
    obtain ⟨hdocument, hamended, rfl, rfl⟩ := Store.insertJob_eq_ok hok
    exact .insertJob rfl hserved hdocument hamended
  | claimJob kind =>
    apply statement_effect
    intro r t _ hok
    cases hok
    exact .claimJob
  | completeJob kind id result =>
    apply statement_effect
    intro r t _ hok
    simp only [Store.completeJob] at hok
    split at hok
    · cases hok
    · cases hok
      exact .completeJob
  | failJob kind id error =>
    apply statement_effect
    intro r t _ hok
    simp only [Store.failJob] at hok
    split at hok
    · cases hok
    · cases hok
      exact .failJob
  | replaceTextAndChunks tenantId documentId text pageMap chunks embeddings =>
    apply statement_effect
    intro r t _ hok
    obtain ⟨hdocument, hlength, rfl⟩ := Store.replaceTextAndChunks_eq_ok hok
    exact .replaceTextAndChunks hdocument hlength rfl
  | insertUsage tenantId jobType jobId usage requestId =>
    apply statement_effect
    intro r t _ hok
    cases hok
    exact .insertUsage
  | insertAudit tenantId actor requestId action resourceType resourceId detail =>
    apply statement_effect
    intro r t _ hok
    cases hok
    exact .insertAudit
  | insertReviewItems tenantId source documentId jobId items =>
    apply statement_effect
    intro rows t _ hok
    simp only [Store.insertReviewItems] at hok
    split at hok
    · cases hok
    · rename_i hdocument
      cases hok
      exact .insertReviewItems (Option.isSome_iff_ne_none.mpr (by simpa using hdocument)) rfl rfl
  | resolveReviewItem tenantId itemId status correctedValues =>
    apply statement_effect
    intro r t _ hok
    cases hok
    exact .resolveReviewItem
  | saveFile tenantId sha256 content =>
    apply fileCall_effect
    intro r t _ hok
    cases hok
    exact .saveFile
  | unlinkFile tenantId sha256 =>
    apply fileCall_effect
    intro r t hserved hok
    cases hok
    exact .unlinkFile hserved
  | readFile tenantId sha256 =>
    apply fileCall_effect
    intro r t _ hok
    unfold Store.readFile at hok
    split at hok
    · cases hok
      exact .nothing _ _ _
    · cases hok
  | rollback => exact .nothing _ _ _
  | isFile tenantId sha256 => exact .nothing _ _ _
  | parseChat schema model user => exact .nothing _ _ _
  | createEmbeddings model texts => exact .nothing _ _ _
  | _ => exact query_effect _

/-! ## What an operation leaves alone -/

/-- A committed delete takes the document's own rows and jobs away, and nothing else of these. -/
theorem Store.deleteSweep_eq_ok {documentId : Uuid} {t : Store} {r : Unit}
    (h : s.deleteSweep documentId = .ok (r, t)) :
    t.documents = s.documents.filter (·.id ≠ documentId) ∧
      t.texts = s.texts.filter (·.documentId ≠ documentId) ∧
      t.chunks = s.chunks.filter (·.documentId ≠ documentId) ∧
      t.files = s.files ∧ ∀ kind, (t.jobs kind).Sublist (s.jobs kind) := by
  simp only [deleteSweep] at h
  split at h
  · cases h
  · cases h
    refine ⟨rfl, rfl, rfl, rfl, fun kind => ?_⟩
    cases kind <;> exact List.filter_sublist

theorem Store.deleteSweep_reviewItems {documentId : Uuid} {t : Store} {r : Unit}
    (h : s.deleteSweep documentId = .ok (r, t)) : t.reviewItems.Sublist s.reviewItems := by
  simp only [deleteSweep] at h
  split at h
  · cases h
  · cases h
    exact List.filter_sublist

/-- Usage and audit rows outlive their document. -/
theorem Store.deleteSweep_logs {documentId : Uuid} {t : Store} {r : Unit}
    (h : s.deleteSweep documentId = .ok (r, t)) : t.usage = s.usage ∧ t.audit = s.audit := by
  simp only [deleteSweep] at h
  split at h
  · cases h
  · cases h
    exact ⟨rfl, rfl⟩

def Op.writesDocuments : Op → Bool
  | .insertDocument .. | .setDocumentStatus .. | .deleteSweep .. => true
  | _ => false

def Op.writesFiles : Op → Bool
  | .saveFile .. | .unlinkFile .. => true
  | _ => false

/-- The operations that write parsed texts and chunks. -/
def Op.writesTexts : Op → Bool
  | .replaceTextAndChunks .. | .deleteSweep .. => true
  | _ => false

def Op.writesUsage : Op → Bool
  | .insertUsage .. => true
  | _ => false

def Op.writesAudit : Op → Bool
  | .insertAudit .. => true
  | _ => false

def Op.writesJobs (kind : JobKind) : Op → Bool
  | .insertJob k .. | .claimJob k | .completeJob k .. | .failJob k .. => k = kind
  | .deleteSweep .. => true
  | _ => false

variable {t : Store}

theorem Effect.documents (h : Effect o a s t) (ho : o.writesDocuments = false) :
    t.documents = s.documents := by
  cases h <;> first | rfl | cases ho

theorem Effect.files (h : Effect o a s t) (ho : o.writesFiles = false) : t.files = s.files := by
  cases h with
  | deleteSweep hswept => exact (Store.deleteSweep_eq_ok hswept).2.2.2.1
  | saveFile => cases ho
  | unlinkFile => cases ho
  | _ => rfl

theorem Effect.texts (h : Effect o a s t) (ho : o.writesTexts = false) :
    t.texts = s.texts ∧ t.chunks = s.chunks := by
  cases h <;> first | exact ⟨rfl, rfl⟩ | cases ho

theorem Effect.usage (h : Effect o a s t) (ho : o.writesUsage = false) : t.usage = s.usage := by
  cases h with
  | deleteSweep hswept => exact (Store.deleteSweep_logs hswept).1
  | insertUsage => cases ho
  | _ => rfl

theorem Effect.audit (h : Effect o a s t) (ho : o.writesAudit = false) : t.audit = s.audit := by
  cases h with
  | deleteSweep hswept => exact (Store.deleteSweep_logs hswept).2
  | insertAudit => cases ho
  | _ => rfl

theorem Effect.jobs {kind : JobKind} (h : Effect o a s t) (ho : o.writesJobs kind = false) :
    t.jobs kind = s.jobs kind := by
  cases h <;> first
    | rfl
    | exact if_neg fun hkind => by simp [Op.writesJobs, hkind] at ho
    | cases ho

end ContractIntel
