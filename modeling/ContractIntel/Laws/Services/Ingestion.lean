import ContractIntel.Laws.Services.Documents
import ContractIntel.Laws.Services.Embedding
import ContractIntel.Laws.Services.Workers
import ContractIntel.Services.Activity

/-!
# Texts and chunks of a document

Ingestion runs of any number of workers, with re-runs, re-claims, failures and crashes. Whatever
their order, a document has no text and no chunks, or the text its bytes parse to and that text's
chunks: only one operation of a run writes either, and it writes both.
-/

namespace ContractIntel.Ingestion

open Chunking (Chunk chunkDocument)
open Documents (onePdf)
open Jobs (JobRow)
open Lib (Along Discipline Every Kept Pool Safe run)
open Lib.Prog (Performs)
open Llm (OpenAiClient UsageSink)
open Parsing (ParsedDocument)
open Repositories

/-! ## Rows of a document -/

def textsOf (documentId : Uuid) (s : Store) : List TextRow :=
  s.texts.filter (·.documentId = documentId)

def chunksOf (documentId : Uuid) (s : Store) : List ChunkRow :=
  s.chunks.filter (·.documentId = documentId)

/-- Chunk rows are the chunks of a parsed document: ordinals count from zero without gaps, and each
row's text is the slice of the parsed text it points at. -/
structure Aligned (parsed : ParsedDocument) (rows : List ChunkRow) : Prop where
  ordinals : rows.map ChunkRow.ordinal = List.range rows.length
  chunks : rows.map (fun row => Chunk.mk row.text row.charStart row.charEnd) = chunkDocument parsed
  slices : ∀ row ∈ rows, row.text = Str.slice parsed.text row.charStart row.charEnd

/-- The stored bytes of a document parse. -/
def ParsesTo [Platform] (s : Store) (d : DocumentRow) (parsed : ParsedDocument) : Prop :=
  ∃ content, s.files d.tenantId d.sha256 = some content ∧
    Parsing.parse d.mimeType content = .ok parsed

/-- Nothing is stored of a document, or its text and chunks are those of its bytes. -/
def Consistent [Platform] (s : Store) (d : DocumentRow) : Prop :=
  (textsOf d.id s = [] ∧ chunksOf d.id s = []) ∨
    ∃ parsed row, ParsesTo s d parsed ∧ textsOf d.id s = [row] ∧ row.text = parsed.text ∧
      Aligned parsed (chunksOf d.id s)

/-! ## What the replacement writes -/

section Replacement

variable {parsed : ParsedDocument} {chunks : List Chunk} {embeddings : List Embedding}
  {ids : List Uuid}

/-- Replacing the rows of one key leaves the rows of the others. -/
theorem filter_replace {α κ : Type} [DecidableEq κ] (key : α → κ) (k k' : κ) (rows new : List α)
    (hnew : ∀ row ∈ new, key row = k) :
    (rows.filter (fun row => key row ≠ k) ++ new).filter (fun row => key row = k') =
      if k' = k then new else rows.filter fun row => key row = k' := by
  rw [List.filter_append, List.filter_filter]
  split
  next hk =>
    subst hk
    rw [List.filter_eq_nil_iff.mpr (by simp), List.nil_append, List.filter_eq_self.mpr]
    exact fun row hrow => decide_eq_true (hnew row hrow)
  next hk =>
    have hnone : new.filter (fun row => key row = k') = [] := by
      refine List.filter_eq_nil_iff.mpr fun row hrow => ?_
      simp [hnew row hrow, Ne.symm hk]
    rw [hnone, List.append_nil]
    refine List.filter_congr fun row _ => ?_
    by_cases hrow : key row = k' <;> simp [hrow, hk]

/-- Every chunk is the slice it points at. -/
theorem text_of_mem_chunkDocument {chunk : Chunk} (h : chunk ∈ chunkDocument parsed) :
    chunk.text = Str.slice parsed.text chunk.charStart chunk.charEnd := by
  have hmake : ∀ windows, chunk ∈ Chunking.makeChunks parsed.text windows →
      chunk.text = Str.slice parsed.text chunk.charStart chunk.charEnd := by
    intro windows hmem
    obtain ⟨w, -, rfl⟩ := List.mem_map.mp hmem
    rfl
  unfold chunkDocument at h
  split at h
  · cases h
  · split at h
    · obtain ⟨span, -, hmem⟩ := List.mem_flatMap.mp h
      exact hmake _ hmem
    · exact hmake _ h

theorem chunkRows_chunks (tenantId documentId : Uuid) (hlength : chunks.length = embeddings.length)
    (hids : ids.length = chunks.length) :
    (Store.chunkRows tenantId documentId chunks embeddings ids).map
      (fun row => Chunk.mk row.text row.charStart row.charEnd) = chunks := by
  have hpairs : (chunks.zip embeddings).length ≤ ids.length := by
    rw [List.length_zip]
    omega
  calc (Store.chunkRows tenantId documentId chunks embeddings ids).map
        (fun row => Chunk.mk row.text row.charStart row.charEnd)
      = (((((chunks.zip embeddings).zip ids).zipIdx.map Prod.fst).map Prod.fst).map Prod.fst) := by
        rw [Store.chunkRows, List.map_map, List.map_map, List.map_map]
        rfl
    _ = chunks := by
        rw [List.zipIdx_map_fst, List.map_fst_zip hpairs, List.map_fst_zip (Nat.le_of_eq hlength)]

theorem chunkRows_ordinals (tenantId documentId : Uuid) :
    (Store.chunkRows tenantId documentId chunks embeddings ids).map ChunkRow.ordinal =
      List.range (Store.chunkRows tenantId documentId chunks embeddings ids).length := by
  rw [Store.chunkRows, List.map_map, List.length_map, List.length_zipIdx, List.range_eq_range']
  exact List.zipIdx_map_snd 0 ((chunks.zip embeddings).zip ids)

/-- The rows written for the chunks of a parse are aligned with it. -/
theorem chunkRows_aligned (tenantId documentId : Uuid)
    (hlength : (chunkDocument parsed).length = embeddings.length)
    (hids : ids.length = (chunkDocument parsed).length) :
    Aligned parsed (Store.chunkRows tenantId documentId (chunkDocument parsed) embeddings ids) where
  ordinals := chunkRows_ordinals tenantId documentId
  chunks := chunkRows_chunks tenantId documentId hlength hids
  slices row hrow := by
    have hmem : Chunk.mk row.text row.charStart row.charEnd ∈ chunkDocument parsed := by
      rw [← chunkRows_chunks tenantId documentId hlength hids]
      exact List.mem_map_of_mem hrow
    exact text_of_mem_chunkDocument hmem

theorem documentId_of_mem_chunkRows {tenantId documentId : Uuid} {row : ChunkRow}
    (h : row ∈ Store.chunkRows tenantId documentId chunks embeddings ids) :
    row.documentId = documentId := by
  obtain ⟨entry, -, rfl⟩ := List.mem_map.mp h
  rfl

end Replacement

/-! ## The invariant -/

/-- What ingestion never changes of a document. -/
def identity (d : DocumentRow) : DocumentRow := { d with status := .uploaded }

def HasText (documentId : Uuid) (s : Store) : Prop := textsOf documentId s ≠ []

/-- The documents and their files are those of the first store; texts and chunks are consistent with
them, and a parsed document has a text. -/
structure Intact [Platform] (s₀ s : Store) : Prop where
  keys : (s.documents.map DocumentRow.id).Nodup
  identities : s.documents.map identity = s₀.documents.map identity
  files : s.files = s₀.files
  consistent : ∀ d ∈ s.documents, Consistent s d
  parsed : ∀ d ∈ s.documents, d.status = .parsed → HasText d.id s

theorem eq_of_identity_eq {d d' : DocumentRow} (h : identity d' = identity d) :
    d'.id = d.id ∧ d'.tenantId = d.tenantId ∧ d'.sha256 = d.sha256 ∧ d'.mimeType = d.mimeType := by
  unfold identity at h
  rw [DocumentRow.mk.injEq] at h
  exact ⟨h.1, h.2.1, h.2.2.2.2.1, h.2.2.2.1⟩

section

variable [Platform] {s₀ s t : Store}

/-- Consistency is a matter of the document's identity, its files and its rows. -/
theorem Consistent.congr {d d' : DocumentRow} (h : Consistent s d)
    (hidentity : identity d' = identity d) (hfiles : t.files = s.files)
    (htexts : textsOf d.id t = textsOf d.id s) (hchunks : chunksOf d.id t = chunksOf d.id s) :
    Consistent t d' := by
  obtain ⟨hid, htenant, hsha, hmime⟩ := eq_of_identity_eq hidentity
  unfold Consistent ParsesTo
  rw [hid, htenant, hsha, hmime, hfiles, htexts, hchunks]
  exact h

namespace Intact

/-- What writes neither documents nor files nor texts keeps the invariant. -/
theorem frame (h : Intact s₀ s) (hdocuments : t.documents = s.documents)
    (hfiles : t.files = s.files) (htexts : t.texts = s.texts ∧ t.chunks = s.chunks) :
    Intact s₀ t := by
  obtain ⟨htexts, hchunks⟩ := htexts
  refine ⟨hdocuments ▸ h.keys, hdocuments ▸ h.identities, hfiles.trans h.files, ?_, ?_⟩
  · intro d hd
    exact (h.consistent d (hdocuments ▸ hd)).congr rfl hfiles
      (congrArg (List.filter _) htexts) (congrArg (List.filter _) hchunks)
  · intro d hd hstatus
    have hd := h.parsed d (hdocuments ▸ hd) hstatus
    rwa [HasText, textsOf, ← htexts] at hd

/-- A status write keeps the invariant, `parsed` being written on documents that have a text. -/
theorem setStatus (h : Intact s₀ s) {document : DocumentRow} {status : DocumentStatus}
    (hparsed : status = .parsed → HasText document.id s) :
    Intact s₀ { s with documents := s.documents.map fun d =>
      if d.id = document.id then { d with status } else d } := by
  have hkept : ∀ d : DocumentRow,
      identity (if d.id = document.id then { d with status } else d) = identity d := by
    intro d
    split <;> rfl
  have hids : ∀ d : DocumentRow,
      (if d.id = document.id then { d with status } else d).id = d.id :=
    fun d => (eq_of_identity_eq (hkept d)).1
  refine ⟨?_, ?_, h.files, ?_, ?_⟩
  · rw [List.map_map]
    exact (List.map_congr_left fun d _ => hids d) ▸ h.keys
  · rw [List.map_map]
    exact (List.map_congr_left fun d _ => hkept d).trans h.identities
  · intro d hd
    obtain ⟨old, hold, rfl⟩ := List.mem_map.mp hd
    exact (h.consistent old hold).congr (hkept old) rfl rfl rfl
  · intro d hd hstatus
    obtain ⟨old, hold, rfl⟩ := List.mem_map.mp hd
    rw [hids]
    split at hstatus
    next hid => exact hid ▸ hparsed hstatus
    · exact h.parsed old hold hstatus

/-- Documents of one id are one document. -/
theorem identity_eq (h : Intact s₀ s) {d : DocumentRow} (hd : d ∈ s.documents)
    {known : DocumentRow} (hknown : identity known ∈ s₀.documents.map identity)
    (hid : d.id = known.id) : identity d = identity known := by
  rw [← h.identities] at hknown
  obtain ⟨other, hother, heq⟩ := List.mem_map.mp hknown
  have hsame : d.id = other.id := hid.trans (eq_of_identity_eq heq).1.symm
  rw [List.inj_on_of_nodup_map h.keys hd hother hsame]
  exact heq

/-- The replacement of a document's text and chunks by those of its bytes keeps the invariant. -/
theorem replace (h : Intact s₀ s) {known : DocumentRow} {parsed : ParsedDocument}
    {tenantId : Uuid} {embeddings : List Embedding} {ids issued : List Uuid}
    (hknown : identity known ∈ s₀.documents.map identity) (hparses : ParsesTo s₀ known parsed)
    (hlength : (chunkDocument parsed).length = embeddings.length)
    (hids : ids.length = (chunkDocument parsed).length) :
    Intact s₀ { s with
      texts := s.texts.filter (·.documentId ≠ known.id) ++
        [⟨known.id, tenantId, parsed.text, parsed.pageMap⟩]
      chunks := s.chunks.filter (·.documentId ≠ known.id) ++
        Store.chunkRows tenantId known.id (chunkDocument parsed) embeddings ids
      issued := issued } := by
  have htexts := fun id => filter_replace TextRow.documentId known.id id s.texts
    [⟨known.id, tenantId, parsed.text, parsed.pageMap⟩]
    (fun row hrow => by rw [List.mem_singleton.mp hrow])
  have hchunks := fun id => filter_replace ChunkRow.documentId known.id id s.chunks
    (Store.chunkRows tenantId known.id (chunkDocument parsed) embeddings ids)
    (fun row hrow => documentId_of_mem_chunkRows hrow)
  refine ⟨h.keys, h.identities, h.files, fun d hd => ?_, fun d hd hstatus => ?_⟩
  · by_cases hid : d.id = known.id
    · obtain ⟨content, hcontent, hparse⟩ := hparses
      obtain ⟨-, htenant, hsha, hmime⟩ := eq_of_identity_eq (h.identity_eq hd hknown hid)
      refine .inr ⟨parsed, _, ⟨content, ?_, hmime ▸ hparse⟩, (htexts d.id).trans (if_pos hid), rfl, ?_⟩
      · rw [htenant, hsha]
        exact (congrFun₂ h.files _ _).trans hcontent
      · rw [chunksOf, hchunks d.id, if_pos hid]
        exact chunkRows_aligned tenantId known.id hlength hids
    · exact (h.consistent d hd).congr rfl rfl ((htexts d.id).trans (if_neg hid))
        ((hchunks d.id).trans (if_neg hid))
  · rw [HasText, textsOf, htexts d.id]
    split
    · exact List.cons_ne_nil _ _
    · exact h.parsed d hd hstatus

end Intact

/-! ## The discipline -/

/-- Texts once there stay there. -/
def KeepsTexts (s t : Store) : Prop := ∀ id, HasText id s → HasText id t

/-- Nobody takes a text away; nothing else about the others matters to an ingestion run. -/
def ingestionDiscipline (s₀ : Store) : Discipline exec Store.tick where
  Inv := Intact s₀
  Rely _ := KeepsTexts
  Guar _ _ := KeepsTexts
  Allowed _ _ _ := True
  Clear _ _ _ := True
  rely_refl _ _ _ h := h
  rely_trans _ _ _ _ hst htu id h := htu id (hst id h)
  compat _ _ _ _ _ _ _ hguar _ := hguar
  drift_inv _ _ h := h.frame rfl rfl ⟨rfl, rfl⟩
  drift_rely _ _ _ _ h := h

/-- An operation that writes neither documents nor files nor texts. -/
def Neutral (o : Op) : Prop :=
  o.writesDocuments = false ∧ o.writesFiles = false ∧ o.writesTexts = false

omit [Platform] in
theorem neutral_of_worker {o : Op} (h : o.ofWorker = true) : Neutral o := by
  cases o <;> first | exact ⟨rfl, rfl, rfl⟩ | cases h

/-- A neutral operation keeps the discipline, and every text. -/
theorem neutral_step {o : Op} (ho : Neutral o) {t : Store} (a : Answer) (l : Session)
    (h : Intact s₀ t) :
    Intact s₀ (exec o a l t).2.2 ∧ KeepsTexts t (exec o a l t).2.2 := by
  obtain ⟨hdocuments, hfiles, htexts⟩ := ho
  have heffect := exec_effect o a l t
  refine ⟨h.frame (heffect.documents hdocuments) (heffect.files hfiles) (heffect.texts htexts), ?_⟩
  intro id hid
  rwa [HasText, textsOf, (heffect.texts htexts).1]

theorem neutral_kept {α : Type} {p : Service α} (h : p.Performs Neutral) :
    Kept (ingestionDiscipline s₀) p :=
  Kept.of_performs h fun _ _ a l ho hinv _ => neutral_step ho a l hinv

/-- Neutral programs keep a text in place. -/
theorem neutral_safe {α : Type} {p : Service α} {id : Uuid} {l : Session} (h : p.Performs Neutral)
    (hid : HasText id s) : Safe (ingestionDiscipline s₀) p l s fun _ _ t => HasText id t := by
  refine Safe.of_performs h (fun _ _ _ hrely => hrely id) ?_ hid
  intro o t a l ho hinv _ ht
  obtain ⟨hinv', hguar⟩ := neutral_step ho a l hinv
  exact ⟨hinv', hguar, hguar id ht⟩

theorem worker_kept {α : Type} {p : Service α} (h : WorkerProgram p) :
    Kept (ingestionDiscipline s₀) p :=
  neutral_kept (h.mono fun _ _ ho => neutral_of_worker ho)

/-! ## Ingestion runs keep the discipline -/

/-- A status write, of `parsed` when there is a text. -/
theorem setStatus_safe {document : DocumentRow} {status : DocumentStatus} {l : Session}
    (h : status = .parsed → HasText document.id s) :
    Safe (ingestionDiscipline s₀) (setStatus document status) l s fun _ _ _ => True := by
  apply Safe.bind.mpr
  refine Safe.call.mpr fun t a hrely hinv _ => ?_
  have heffect := exec_effect (.setDocumentStatus document status) a l t
  have htexts := (heffect.texts rfl).1
  refine ⟨?_, ?_, ?_⟩
  · generalize (exec (.setDocumentStatus document status) a l t).2.2 = u at heffect
    cases heffect with
    | nothing => exact hinv
    | setDocumentStatus => exact hinv.setStatus fun hparsed => hrely _ (h hparsed)
  · intro id hid
    rwa [HasText, textsOf, htexts]
  · split
    · exact worker_kept (refreshDocument_performs rfl) _ _
    · trivial

/-- What ingestion has computed for a document. -/
def IngestedFrom (s₀ : Store) (document : DocumentRow) (ingested : Ingested) : Prop :=
  ParsesTo s₀ document ingested.parsed ∧ ingested.chunks = chunkDocument ingested.parsed

theorem ingest_safe (llm : OpenAiClient) (document : DocumentRow) {usageSink : UsageSink}
    (hsink : ∀ usage, TryProgram (usageSink usage)) (l : Session) :
    Safe (ingestionDiscipline s₀) (ingest llm document usageSink) l s fun res _ _ =>
      ∀ ingested, res = .ok ingested → IngestedFrom s₀ document ingested := by
  apply Safe.bind.mpr
  refine Safe.call.mpr fun t a _ hinv _ => ?_
  obtain ⟨hinv', hguar⟩ := neutral_step (o := .readFile document.tenantId document.sha256)
    (neutral_of_worker rfl) a l hinv
  refine ⟨hinv', hguar, ?_⟩
  split
  next content hread =>
    cases hparse : Parsing.parse document.mimeType content with
    | error e => exact fun _ h => nomatch h
    | ok parsed =>
      have hfile : s₀.files document.tenantId document.sha256 = some content :=
        (congrFun₂ hinv.files _ _).symm.trans (readFile_eq_ok hread)
      apply Safe.bind.mpr
      change Safe _ ((embedBatches llm usageSink _).bind _) _ _ _
      refine Safe.bind.mpr ((worker_kept (TryProgram.embedBatches llm hsink _).worker _ _).mono ?_)
      intro res l' u _
      cases res with
      | error e => exact fun _ h => nomatch h
      | ok embeddings =>
        intro ingested h
        cases h
        exact ⟨⟨content, hfile, hparse⟩, rfl⟩
  · exact fun _ h => nomatch h

/-- The replacement leaves the document with a text when it is not refused. -/
theorem replace_safe {job : JobRow} {document : DocumentRow} {ingested : Ingested} {l : Session}
    (hknown : identity document ∈ s₀.documents.map identity)
    (hingested : IngestedFrom s₀ document ingested) :
    Safe (ingestionDiscipline s₀) (perform (.replaceTextAndChunks job.tenantId document.id
        ingested.parsed.text ingested.parsed.pageMap ingested.chunks ingested.embeddings)) l s
      fun res _ t => ∀ r, res = .ok r → HasText document.id t := by
  refine Safe.call.mpr fun t a _ hinv _ => ?_
  obtain ⟨⟨content, hfile, hparse⟩, hchunks⟩ := hingested
  rw [hchunks]
  rcases statement_cases (Store.replaceTextAndChunks job.tenantId document.id ingested.parsed.text
    ingested.parsed.pageMap (chunkDocument ingested.parsed) ingested.embeddings a.ids) a l t with
    ⟨e, heq, -⟩ | ⟨r, u, -, -, hok, heq⟩
  · rw [exec, heq]
    exact ⟨hinv, fun _ h => h, fun _ h => by cases h⟩
  · obtain ⟨-, hlength, rfl⟩ := Store.replaceTextAndChunks_eq_ok hok
    rw [exec, heq]
    have htexts := fun id => filter_replace TextRow.documentId document.id id t.texts
      [⟨document.id, job.tenantId, ingested.parsed.text, ingested.parsed.pageMap⟩]
      (fun row hrow => by rw [List.mem_singleton.mp hrow])
    refine ⟨hinv.replace hknown ⟨content, hfile, hparse⟩ hlength (length_drawMany _ _ _), ?_, ?_⟩
    · intro id hid
      rw [HasText, textsOf, htexts id]
      split
      · exact List.cons_ne_nil _ _
      · exact hid
    · rintro r -
      rw [HasText, textsOf, htexts document.id, if_pos rfl]
      exact List.cons_ne_nil _ _

theorem persist_safe (job : JobRow) {document : DocumentRow} {ingested : Ingested} (l : Session)
    (hknown : identity document ∈ s₀.documents.map identity)
    (hingested : IngestedFrom s₀ document ingested) :
    Safe (ingestionDiscipline s₀) (persist job document ingested) l s fun _ _ _ => True := by
  refine Safe.bind.mpr ((replace_safe hknown hingested).mono fun res l' t htext => ?_)
  cases res with
  | error e => trivial
  | ok r =>
    have hneutral : (markCompleted .ingestion job
        (.obj [("chunk_count".toList, .num ingested.chunks.length)])).Performs Neutral :=
      markCompleted_performs ⟨rfl, rfl, rfl⟩ ⟨rfl, rfl, rfl⟩
    refine Safe.bind.mpr ((neutral_safe hneutral (htext r rfl)).mono fun res l' t htext => ?_)
    cases res with
    | error e => trivial
    | ok job =>
      refine Safe.bind.mpr ((setStatus_safe fun _ => htext).mono fun res _ _ _ => ?_)
      cases res <;> trivial

theorem abandon_kept (job : JobRow) (document : DocumentRow) (e : Exn) :
    Kept (ingestionDiscipline s₀) (abandon job document e) := by
  apply Kept.bind (worker_kept (markFailed_performs rfl rfl))
  intro job
  exact .bind (fun l s => setStatus_safe fun h => nomatch h) fun _ => .ret _

/-- A document found is one of the first store's. -/
theorem findDocument_safe (tenantId documentId : Uuid) (l : Session) :
    Safe (ingestionDiscipline s₀) (perform (.findDocument tenantId documentId)) l s
      fun res _ _ => ∀ d, res = .ok (some d) → identity d ∈ s₀.documents.map identity := by
  refine Safe.call.mpr fun t a _ hinv _ => ?_
  obtain ⟨hinv', hguar⟩ := neutral_step (o := .findDocument tenantId documentId)
    (neutral_of_worker rfl) a l hinv
  refine ⟨hinv', hguar, fun d hd => ?_⟩
  obtain ⟨hread, -⟩ := query_eq_ok hd
  rw [← hinv.identities]
  exact List.mem_map_of_mem (List.mem_of_find?_eq_some hread)

theorem runClaimed_kept (llm : OpenAiClient) (job : JobRow) :
    Kept (ingestionDiscipline s₀) (runClaimed llm job) := by
  unfold runClaimed
  split
  · apply Kept.bind (worker_kept (.call rfl))
    intro found
    cases found with
    | none => exact .ret _
    | some document =>
      exact .bind (fun l s => setStatus_safe fun h => nomatch h) fun _ => .ret _
  · intro l s
    refine Safe.bind.mpr ((findDocument_safe _ _ l).mono fun res l' t hknown => ?_)
    cases res with
    | error e => trivial
    | ok found =>
      cases found with
      | none => exact (worker_kept (markFailed_performs rfl rfl)).bind (fun _ => .ret _) l' t
      | some document =>
        have hknown := hknown document rfl
        refine Safe.attempt_bind.mpr ((ingest_safe llm document (.sink _ _ _ _) l').mono ?_)
        intro res l' t hingested
        cases res with
        | error e => exact abandon_kept job document e l' t
        | ok ingested => exact persist_safe job l' hknown (hingested ingested rfl)

theorem runNextIngestionJob_kept (llm : OpenAiClient) :
    Kept (ingestionDiscipline s₀) (runNextIngestionJob llm) := by
  apply Kept.bind (worker_kept (claimNextQueued_performs rfl fun _ => rfl))
  intro claimed
  cases claimed with
  | none => exact .ret _
  | some job => exact runClaimed_kept llm job

/-! ## Enqueues touch no texts -/

omit [Platform] in
theorem insertUnlessActive_neutral (kind : JobKind) (conflict : Uuid → Exn)
    (tenantId documentId : Uuid) :
    (insertUnlessActive kind conflict tenantId documentId).Performs Neutral := by
  refine .bind (.call ⟨rfl, rfl, rfl⟩) fun found => ?_
  cases found with
  | some active => exact .raise _
  | none =>
    exact createJob_performs ⟨rfl, rfl, rfl⟩ fun _ => ⟨rfl, rfl, rfl⟩

omit [Platform] in
theorem enqueueIngestion_neutral (context : RequestContext) (tenantId documentId : Uuid) :
    (enqueueIngestion context tenantId documentId).Performs Neutral := by
  refine .bind (.call ⟨rfl, rfl, rfl⟩) fun found => ?_
  cases found with
  | none => exact .raise _
  | some document =>
    exact .bind (insertUnlessActive_neutral _ _ _ _) fun _ =>
      .bind (.call ⟨rfl, rfl, rfl⟩) fun _ => .ret _

omit [Platform] in
theorem enqueueExtraction_neutral (context : RequestContext) (tenantId documentId : Uuid) :
    (Extraction.enqueueExtraction context tenantId documentId).Performs Neutral := by
  refine .bind (.call ⟨rfl, rfl, rfl⟩) fun found => ?_
  cases found with
  | none => exact .raise _
  | some document =>
    dsimp only
    split
    · exact .bind (.call ⟨rfl, rfl, rfl⟩) fun _ => .raise _
    · exact .bind (insertUnlessActive_neutral _ _ _ _) fun _ =>
        .bind (.call ⟨rfl, rfl, rfl⟩) fun _ => .ret _

theorem activity_kept (activity : Activity) : Kept (ingestionDiscipline s₀) activity.program := by
  cases activity with
  | enqueueIngestion context tenantId documentId =>
    exact .bind (neutral_kept (enqueueIngestion_neutral _ _ _)) fun _ => .ret _
  | enqueueExtraction context tenantId documentId =>
    exact .bind (neutral_kept (enqueueExtraction_neutral _ _ _)) fun _ => .ret _
  | ingestionWorker llm => exact .bind (runNextIngestionJob_kept llm) fun _ => .ret _
  | extractionWorker llm threshold =>
    exact .bind (worker_kept (.runNextExtractionJob llm threshold)) fun _ => .ret _

/-- The discipline leaves no interference out. -/
theorem undisturbed {ι : Type} [DecidableEq ι] (c : System ι) (turns : List (Turn ι)) :
    Along System.step (ingestionDiscipline s₀).Undisturbed c turns := by
  refine Lib.along_of_forall (fun c turn => ?_) c turns
  cases turn with
  | act i a => exact fun _ _ _ _ => ⟨trivial, fun _ _ _ _ _ _ => trivial⟩
  | drift d => trivial
  | crash i => trivial

theorem intact_of_run {ι : Type} [DecidableEq ι] {activities : ι → Option Activity}
    {turns : List (Turn ι)} {c : System ι} (h : Intact s s)
    (hrun : run System.step (parties s activities) turns = some c) : Intact s c.store := by
  have hstart : (ingestionDiscipline s).Holds (parties s activities) := by
    refine ⟨h, fun i l p hi => ?_⟩
    obtain ⟨program, hprogram, heq⟩ := Option.map_eq_some_iff.mp hi
    obtain ⟨activity, -, rfl⟩ := Option.map_eq_some_iff.mp hprogram
    cases heq
    exact activity_kept activity _ _
  exact (hstart.run (undisturbed _ turns) hrun).1

/-! ## Runs that fail -/

/-- The texts and chunks are exactly as they were. -/
def SameTexts (s t : Store) : Prop := t.texts = s.texts ∧ t.chunks = s.chunks

/-- The run read, parsed and embedded without a failure. -/
def Succeeds (trace : List Entry) : Prop := ReadAndParsed trace ∧ ∀ entry ∈ trace, Embeds entry

/-- The texts and chunks are as they were, or the run succeeded. -/
def UnlessSucceeds (s : Store) (trace : List Entry) (_ : Except Exn Bool) (_ : Session)
    (t : Store) : Prop :=
  SameTexts s t ∨ Succeeds trace

omit [Platform] in
theorem sameTexts_of_performs {α : Type} {p : Service α} {l : Session}
    (h : p.Performs fun o => o.writesTexts = false) :
    Every exec SameTexts p l s fun _ _ _ t => SameTexts s t :=
  Every.of_performs h (fun _ => ⟨rfl, rfl⟩)
    (fun _ _ _ hst htu => ⟨htu.1.trans hst.1, htu.2.trans hst.2⟩) (fun _ _ h => h)
    fun o a l s ho => (exec_effect o a l s).texts ho

omit [Platform] in
theorem sameTexts_of_worker {α : Type} {p : Service α} {l : Session} (h : WorkerProgram p) :
    Every exec SameTexts p l s fun _ _ _ t => SameTexts s t :=
  sameTexts_of_performs (h.mono fun _ _ ho => (neutral_of_worker ho).2.2)

/-- Operations that write no texts and have no part in the embedding. -/
def Quiet (o : Op) : Prop := o.writesTexts = false ∧ Op.silent o = true

/-- Quiet operations before a run make no difference. -/
theorem unlessSucceeds_bind {α : Type} {q : Service α} {f : α → Service Bool} {l : Session}
    (hq : q.Performs Quiet)
    (hf : ∀ a l' t, Every exec SameTexts (f a) l' t (UnlessSucceeds t)) :
    Every exec SameTexts (q.bind f) l s (UnlessSucceeds s) := by
  have hsame := sameTexts_of_performs (l := l) (s := s) (hq.mono fun _ _ ho => ho.1)
  refine Every.bind.mpr ((hsame.and (Every.trace_of_performs hq)).mono ?_)
  rintro trace res l' t ⟨hsame, hquiet⟩
  cases res with
  | error e => exact .inl hsame
  | ok a =>
    refine (hf a l' t).mono fun more res' l'' u h => ?_
    rcases h with hmore | ⟨⟨document, answer, content, parsed, hread, hparse⟩, hembeds⟩
    · exact .inl ⟨hmore.1.trans hsame.1, hmore.2.trans hsame.2⟩
    · refine .inr ⟨⟨document, answer, content, parsed, List.mem_append_right _ hread, hparse⟩, ?_⟩
      intro entry hentry
      rcases List.mem_append.mp hentry with hentry | hentry
      · exact embeds_of_silent (hquiet entry hentry).2
      · exact hembeds entry hentry

omit [Platform] in
theorem persist_silent (job : JobRow) (document : DocumentRow) (ingested : Ingested) :
    (persist job document ingested).Performs fun o => Op.silent o = true :=
  .bind (.call rfl) fun _ =>
    .bind (markCompleted_performs rfl rfl) fun _ =>
      .bind (setStatus_performs rfl rfl) fun _ => .ret _

theorem unlessSucceeds_of_quiet {p : Service Bool} {l : Session} (h : p.Performs Quiet) :
    Every exec SameTexts p l s (UnlessSucceeds s) :=
  (sameTexts_of_performs (h.mono fun _ _ ho => ho.1)).mono fun _ _ _ _ h => .inl h

/-- A run on a document that was found: `_ingest`, then one of the two branches. -/
theorem unlessSucceeds_found (llm : OpenAiClient) (job : JobRow) (document : DocumentRow)
    (l : Session) :
    Every exec SameTexts ((ingest llm document
        (Usage.sink [] job.tenantId .ingestion (some job.id))).attempt.bind fun attempt =>
          match attempt with
          | .error e => abandon job document e
          | .ok ingested => persist job document ingested) l s (UnlessSucceeds s) := by
  have hsame := sameTexts_of_worker (l := l) (s := s)
    (TryProgram.ingest llm document (.sink [] job.tenantId .ingestion (some job.id))).worker
  refine Every.attempt_bind.mpr ((hsame.and (ingest_counts llm document [] job.tenantId
    (some job.id))).mono ?_)
  rintro trace res l' t ⟨hsame, hcounts⟩
  cases res with
  | error e =>
    have habandon : (abandon job document e).Performs Quiet :=
      .bind (markFailed_performs ⟨rfl, rfl⟩ ⟨rfl, rfl⟩) fun _ =>
        .bind (setStatus_performs ⟨rfl, rfl⟩ ⟨rfl, rfl⟩) fun _ => .ret _
    refine (sameTexts_of_performs (habandon.mono fun _ _ ho => ho.1)).mono fun more _ _ u h => ?_
    exact .inl ⟨h.1.trans hsame.1, h.2.trans hsame.2⟩
  | ok ingested =>
    obtain ⟨⟨found, a, content, parsed, hread, hparse⟩, hembeds, -, -⟩ := hcounts
    refine (Every.trace_of_performs (persist_silent job document ingested)).mono ?_
    intro more _ _ u hsilent
    refine .inr ⟨⟨found, a, content, parsed, List.mem_append_left _ hread, hparse⟩, ?_⟩
    intro entry hentry
    rcases List.mem_append.mp hentry with hentry | hentry
    · exact hembeds entry hentry
    · exact embeds_of_silent (hsilent entry hentry)

theorem unlessSucceeds_claimed (llm : OpenAiClient) (job : JobRow) (l : Session) :
    Every exec SameTexts (runClaimed llm job) l s (UnlessSucceeds s) := by
  unfold runClaimed
  split
  · apply unlessSucceeds_of_quiet
    refine .bind (.call ⟨rfl, rfl⟩) fun found => ?_
    cases found with
    | none => exact .ret _
    | some document => exact .bind (setStatus_performs ⟨rfl, rfl⟩ ⟨rfl, rfl⟩) fun _ => .ret _
  · refine unlessSucceeds_bind (.call ⟨rfl, rfl⟩) fun found l' t => ?_
    cases found with
    | none =>
      exact unlessSucceeds_of_quiet
        (.bind (markFailed_performs ⟨rfl, rfl⟩ ⟨rfl, rfl⟩) fun _ => .ret _)
    | some document => exact unlessSucceeds_found llm job document l'

theorem unlessSucceeds_run (llm : OpenAiClient) (l : Session) :
    Every exec SameTexts (runNextIngestionJob llm) l s (UnlessSucceeds s) := by
  have hclaim : (claimNextQueued .ingestion).Performs Quiet :=
    claimNextQueued_performs ⟨rfl, rfl⟩ fun _ => ⟨rfl, rfl⟩
  refine unlessSucceeds_bind hclaim fun claimed l' t => ?_
  cases claimed with
  | none => exact .inl ⟨rfl, rfl⟩
  | some job => exact unlessSucceeds_claimed llm job l'

/-- In every state of every run of the system, every document has no text and no chunks or those of
its bytes, and a parsed document has a text; and a run of an ingestion job that fails to read, to
parse or to embed leaves texts and chunks exactly as they were, whatever else goes on. -/
theorem ingestion_keeps_texts {ι : Type} [DecidableEq ι] {activities : ι → Option Activity}
    {turns : List (Turn ι)} {c : System ι} (hkeys : (s.documents.map DocumentRow.id).Nodup)
    (hstart : ∀ d ∈ s.documents, Consistent s d ∧ (d.status = .parsed → HasText d.id s))
    (hrun : run System.step (parties s activities) turns = some c) :
    (∀ d ∈ c.store.documents,
      Consistent c.store d ∧ (d.status = .parsed → HasText d.id c.store)) ∧
      ∀ llm l u, Every exec SameTexts (runNextIngestionJob llm) l u fun trace _ _ t =>
        SameTexts u t ∨ Succeeds trace := by
  constructor
  · have hintact : Intact s c.store := intact_of_run ⟨hkeys, rfl, rfl,
      fun d hd => (hstart d hd).1, fun d hd => (hstart d hd).2⟩ hrun
    exact fun d hd => ⟨hintact.consistent d hd, hintact.parsed d hd⟩
  · exact fun llm l u => unlessSucceeds_run llm l

end

/-- A store with one uploaded text and a queued job to ingest it. -/
def oneQueued : Store :=
  { Store.empty 0 with
    documents := [⟨10, 1, "a.txt".toList, Parsing.TEXT_MIME, [], none, .uploaded, 0⟩]
    jobs := fun _ => [.create 20 1 10 none 0]
    files := fun _ _ => some [104, 105]
    issued := [10, 20] }

/-- A worker. -/
def oneWorker : Fin 1 → Option Activity
  | _ => some (.ingestionWorker ⟨[], "text-embedding-3-small".toList⟩)

/-- A run of the job to its end. -/
def oneRun : List (Turn (Fin 1)) :=
  [.act 0 {}, .act 0 {}, .act 0 {}, .act 0 {}, .act 0 { embed := .replied none 0 [(0, [1])] },
    .act 0 {}, .act 0 { ids := [30] }, .act 0 {}, .act 0 {}, .act 0 {}, .act 0 {}]

theorem ingestion_keeps_texts_one :
    ∃ c, run System.step (@parties onePdf (Fin 1) oneQueued oneWorker) oneRun = some c ∧
      ∀ d ∈ c.store.documents,
        @Consistent onePdf c.store d ∧ (d.status = .parsed → HasText d.id c.store) := by
  have hruns : (run System.step (@parties onePdf (Fin 1) oneQueued oneWorker) oneRun).isSome := by
    decide +kernel
  obtain ⟨c, hc⟩ := Option.isSome_iff_exists.mp hruns
  refine ⟨c, hc, (@ingestion_keeps_texts onePdf oneQueued (Fin 1) _ _ _ _ (by decide) ?_ hc).1⟩
  intro d hd
  cases List.mem_singleton.mp hd
  exact ⟨.inl ⟨rfl, rfl⟩, fun h => nomatch h⟩

end ContractIntel.Ingestion
