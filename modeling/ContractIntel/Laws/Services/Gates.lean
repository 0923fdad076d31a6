import ContractIntel.Laws.Services.Ingestion
import ContractIntel.Laws.Services.Links
import ContractIntel.Laws.Store.Repositories

/-!
# The gates of the enqueues

An enqueue of an extraction or of a change report looks at the status of a document and, several
operations later, inserts a job. In between the document may be deleted or an ingestion of it may
fail. But a text, once written, stays as long as its document does (`Texted`), and the insert finds
the document there: so every job behind a gate has its texts, and its reads of them find them
(`gates_hold`).
-/

namespace ContractIntel

open Ingestion (HasText KeepsTexts textsOf)
open Jobs (JobRow)
open Lib (Safe run)
open Lib.Prog (Performs)
open Llm (OpenAiClient)
open Repositories

variable {o : Op} {a : Answer} {l l' : Session} {s t : Store} {tenantId documentId : Uuid}

/-! ## Texts -/

theorem hasText_iff : HasText documentId s ↔ ∃ row ∈ s.texts, row.documentId = documentId := by
  simp [HasText, textsOf]

theorem exists_findText (h : HasText documentId s) : ∃ row, s.findText documentId = some row := by
  rw [hasText_iff] at h
  exact Option.isSome_iff_exists.mp (List.find?_isSome.mpr (by simpa using h))

/-- A document under this id, if there still is one, has a text. -/
structure Texted (documentId : Uuid) (s : Store) : Prop where
  issued : documentId ∈ s.issued
  text : ∀ d ∈ s.documents, d.id = documentId → HasText documentId s

theorem Texted.hasText (h : Texted documentId s) (hfound : (s.document? documentId).isSome) :
    HasText documentId s := by
  obtain ⟨d, hd⟩ := Option.isSome_iff_exists.mp hfound
  exact h.text d (List.mem_of_find?_eq_some hd) (by simpa using List.find?_some hd)

/-- No document that is there loses its text. -/
def Retains (s t : Store) : Prop := ∀ id, Texted id s → Texted id t

/-- Text rows go only when their document goes. -/
theorem Effect.retains (h : Effect o a s t) : Retains s t := by
  rintro id ⟨hissued, htext⟩
  refine ⟨h.issued _ hissued, ?_⟩
  simp only [hasText_iff] at htext ⊢
  cases h with
  | @insertDocument tenantId filename mimeType sha256 amends _ _ new hnew =>
    intro d hd hid
    rcases List.mem_append.mp hd with hd | hd
    · exact htext d hd hid
    · rw [List.mem_singleton.mp hd] at hid
      exact absurd hissued (hid ▸ hnew ▸ draw_not_mem _ _)
  | setDocumentStatus =>
    intro d hd hid
    obtain ⟨old, hold, rfl⟩ := List.mem_map.mp hd
    refine htext old hold ?_
    split at hid <;> exact hid
  | deleteSweep hok =>
    have hswept := Store.swept_of_deleteSweep hok
    intro d hd hid
    rw [hswept.documents, List.mem_filter] at hd
    obtain ⟨row, hrow, hsame⟩ := htext d hd.1 hid
    refine ⟨row, ?_, hsame⟩
    rw [hswept.texts, List.mem_filter, hsame, ← hid]
    exact ⟨hrow, hd.2⟩
  | @replaceTextAndChunks _ replaced =>
    intro d hd hid
    obtain ⟨row, hrow, hsame⟩ := htext d hd hid
    by_cases hother : id = replaced
    · exact ⟨_, List.mem_append_right _ (List.mem_singleton_self _), hother.symm⟩
    · refine ⟨row, List.mem_append_left _ (List.mem_filter.mpr ⟨hrow, ?_⟩), hsame⟩
      simpa [hsame] using hother
  | _ => exact htext

/-! ## The invariant -/

/-- Parsed documents have texts, and so do the documents of jobs behind a gate. -/
structure Gated (s : Store) : Prop where
  issued : ∀ d ∈ s.documents, d.id ∈ s.issued
  parsed : ∀ d ∈ s.documents, d.status = .parsed → HasText d.id s
  extractions : ∀ job ∈ s.jobs .extraction, HasText job.documentId s
  reports : ∀ job ∈ s.jobs .changeReport, HasText job.documentId s ∧
    ∀ version, job.amendedDocumentId = some version → HasText version s

theorem Gated.empty (now : Time) : Gated (.empty now) := ⟨nofun, nofun, nofun, nofun⟩

/-- What whoever performs an operation has checked. -/
def Checked : Op → Store → Prop
  | .insertJob .extraction _ documentId _, s => Texted documentId s
  | .insertJob .changeReport _ documentId amended, s => Texted documentId s ∧
      ∀ version, amended = some version → Texted version s
  | .setDocumentStatus document .parsed, s => Texted document.id s
  | _, _ => True

theorem Checked.retains (h : Checked o s) (hst : Retains s t) : Checked o t := by
  cases o with
  | insertJob kind =>
    cases kind with
    | ingestion => trivial
    | extraction => exact hst _ h
    | changeReport => exact ⟨hst _ h.1, fun version hversion => hst _ (h.2 version hversion)⟩
  | setDocumentStatus document status =>
    cases status with
    | parsed => exact hst _ h
    | uploaded | failed => trivial
  | _ => trivial

theorem Gated.congr (h : Gated s) (hissued : ∀ id ∈ s.issued, id ∈ t.issued)
    (hdocuments : t.documents = s.documents)
    (hjobs : ∀ k, (t.jobs k).map JobRow.link = (s.jobs k).map JobRow.link)
    (hkept : KeepsTexts s t) : Gated t := by
  have hback : ∀ k, ∀ job' ∈ t.jobs k, ∃ job ∈ s.jobs k, job.link = job'.link := fun k job' h =>
    List.mem_map.mp (hjobs k ▸ List.mem_map_of_mem h)
  refine ⟨fun d hd => hissued _ (h.issued d (hdocuments ▸ hd)),
    fun d hd hstatus => hkept _ (h.parsed d (hdocuments ▸ hd) hstatus), fun job' hjob' => ?_,
    fun job' hjob' => ?_⟩
  · obtain ⟨job, hjob, hlink⟩ := hback _ job' hjob'
    exact (JobRow.link_eq_iff.mp hlink).2.2.1 ▸ hkept _ (h.extractions job hjob)
  · obtain ⟨job, hjob, hlink⟩ := hback _ job' hjob'
    obtain ⟨-, -, hdocument, hamended⟩ := JobRow.link_eq_iff.mp hlink
    obtain ⟨hbase, hversions⟩ := h.reports job hjob
    rw [← hdocument, ← hamended]
    exact ⟨hkept _ hbase, fun version hversion => hkept _ (hversions version hversion)⟩

theorem Gated.sweep (h : Gated s) (hswept : Swept documentId s t) : Gated t := by
  have hkept : ∀ id, id ≠ documentId → HasText id s → HasText id t := by
    intro id hother
    rw [hasText_iff, hasText_iff, hswept.texts]
    rintro ⟨row, hrow, rfl⟩
    exact ⟨row, List.mem_filter.mpr ⟨hrow, by simpa using hother⟩, rfl⟩
  have hdocuments : ∀ d ∈ t.documents, d ∈ s.documents ∧ d.id ≠ documentId := by
    intro d hd
    rw [hswept.documents, List.mem_filter] at hd
    exact ⟨hd.1, by simpa using hd.2⟩
  refine ⟨fun d hd => hswept.issued ▸ h.issued d (hdocuments d hd).1, fun d hd hstatus => ?_,
    fun job hjob => ?_, fun job hjob => ?_⟩
  · exact hkept _ (hdocuments d hd).2 (h.parsed d (hdocuments d hd).1 hstatus)
  · obtain ⟨hold, hother⟩ := hswept.mem_jobs hjob
    exact hkept _ hother (h.extractions job hold)
  · obtain ⟨hold, hother⟩ := hswept.mem_jobs hjob
    obtain ⟨hbase, hversions⟩ := h.reports job hold
    refine ⟨hkept _ hother hbase, fun version hversion => hkept _ ?_ (hversions version hversion)⟩
    rw [hswept.reports, List.mem_filter] at hjob
    rintro rfl
    simp [hversion] at hjob

/-- An operation whose checks were made keeps the invariant. -/
theorem Gated.effect (hgated : Gated s) (hchecked : Checked o s) (h : Effect o a s t) : Gated t := by
  have hissued := h.issued
  cases h with
  | deleteSweep hok => exact hgated.sweep (Store.swept_of_deleteSweep hok)
  | insertDocument =>
    refine ⟨fun d hd => ?_, fun d hd hstatus => ?_, hgated.extractions, hgated.reports⟩
    · rcases List.mem_append.mp hd with hd | hd
      · exact hissued _ (hgated.issued d hd)
      · rw [List.mem_singleton.mp hd]
        exact List.mem_cons_self
    · rcases List.mem_append.mp hd with hd | hd
      · exact hgated.parsed d hd hstatus
      · rw [List.mem_singleton.mp hd] at hstatus
        cases hstatus
  | @setDocumentStatus document status _ _ hfound =>
    refine ⟨fun d hd => ?_, fun d hd hstatus => ?_, hgated.extractions, hgated.reports⟩
    · obtain ⟨old, hold, rfl⟩ := List.mem_map.mp hd
      split <;> exact hgated.issued old hold
    · obtain ⟨old, hold, rfl⟩ := List.mem_map.mp hd
      split at hstatus
      next hid =>
        obtain rfl : status = .parsed := hstatus
        have htext : HasText document.id s := Texted.hasText hchecked hfound
        rw [if_pos hid]
        exact hid ▸ htext
      next hid =>
        rw [if_neg hid]
        exact hgated.parsed old hold hstatus
  | @insertJob kind _ _ _ _ _ _ _ _ hdocument hamended =>
    refine ⟨fun d hd => hissued _ (hgated.issued d hd), hgated.parsed, fun job hjob => ?_,
      fun job hjob => ?_⟩
    · rcases of_mem_insertJob hjob with hold | ⟨rfl, rfl⟩
      · exact hgated.extractions job hold
      · have htext := Texted.hasText hchecked hdocument
        exact htext
    · rcases of_mem_insertJob hjob with hold | ⟨rfl, rfl⟩
      · exact hgated.reports job hold
      · exact ⟨hchecked.1.hasText hdocument, fun version hversion =>
          (hchecked.2 version hversion).hasText (hamended version hversion)⟩
  | claimJob =>
    exact hgated.congr hissued rfl (map_link_withJobs (map_link_claimNext _ _ _)) fun _ h => h
  | completeJob | failJob =>
    exact hgated.congr hissued rfl (map_link_withJobs (map_link_updateRow fun _ => rfl)) fun _ h => h
  | @replaceTextAndChunks _ replaced =>
    refine hgated.congr hissued rfl (fun _ => rfl) fun id hid => ?_
    rw [hasText_iff] at hid ⊢
    obtain ⟨row, hrow, hsame⟩ := hid
    by_cases hother : id = replaced
    · exact ⟨_, List.mem_append_right _ (List.mem_singleton_self _), hother.symm⟩
    · refine ⟨row, List.mem_append_left _ (List.mem_filter.mpr ⟨hrow, ?_⟩), hsame⟩
      simpa [hsame] using hother
  | _ => exact hgated.congr hissued rfl (fun _ => rfl) fun _ h => h

/-- Parties may do what they have checked. -/
def gates : Lib.Permission exec Store.tick where
  Inv := Gated
  Later := Retains
  May := Checked
  refl _ _ h := h
  trans _ _ _ hst htu id h := htu id (hst id h)
  lasts _ _ _ := Checked.retains
  keeps o a l t hgated h :=
    ⟨hgated.effect h (exec_effect o a l t), (exec_effect o a l t).retains⟩
  drift_inv _ _ h := ⟨h.issued, h.parsed, h.extractions, h.reports⟩
  drift_later _ _ _ h := ⟨h.issued, h.text⟩

/-! ## Requests and workers -/

/-- A program that needs no checks. -/
abbrev Unchecked {α : Type} (p : Service α) : Prop := p.Performs fun o => ∀ s, Checked o s

theorem checked_of_documents (h : o.ofDocuments = true) (s : Store) : Checked o s := by
  cases o <;> trivial

theorem checked_of_worker (h : o.ofWorker = true) (s : Store) : Checked o s := by
  cases o <;> trivial

theorem DocumentProgram.unchecked {α : Type} {p : Service α} (h : DocumentProgram p) : Unchecked p :=
  h.mono fun _ _ => checked_of_documents

theorem WorkerProgram.unchecked {α : Type} {p : Service α} (h : WorkerProgram p) : Unchecked p :=
  h.mono fun _ _ => checked_of_worker

section Programs

theorem unchecked_safe {α : Type} {p : Service α} (hp : Unchecked p) :
    Safe gates.discipline p l s fun _ _ u => Retains s u :=
  gates.safe_performs hp

theorem unchecked_kept {α : Type} {p : Service α} (hp : Unchecked p) :
    Safe gates.discipline p l s fun _ _ _ => True :=
  (unchecked_safe hp).mono fun _ _ _ _ => trivial

/-- A document that was read as parsed has a text as long as it is there. -/
theorem findDocument_texted :
    Safe gates.discipline (perform (.findDocument tenantId documentId)) l s fun res _ u =>
      Retains s u ∧ ∀ d, res = .ok (some d) →
        d.id = documentId ∧ (d.status = .parsed → Texted documentId u) := by
  refine (gates.safe_call (o := .findDocument tenantId documentId) trivial).mono ?_
  rintro res l' u ⟨hlater, -, a, t, -, hgated, hexec⟩
  refine ⟨hlater, ?_⟩
  rintro d rfl
  have hok : (query (Store.findDocument tenantId documentId) a l t).1 = .ok (some d) :=
    congrArg Prod.fst hexec
  obtain ⟨hread, heq⟩ := query_eq_ok hok
  rw [exec, heq] at hexec
  cases hexec
  obtain ⟨hd, hid, -⟩ := has_of_findDocument hread
  refine ⟨hid, fun hstatus => ⟨hid ▸ hgated.issued d hd, fun _ _ _ => ?_⟩⟩
  exact hid ▸ hgated.parsed d hd hstatus

theorem createJob_gated {kind : JobKind} {amended : Option Uuid}
    (h : Checked (.insertJob kind tenantId documentId amended) s) :
    Safe gates.discipline (createJob kind tenantId documentId amended) l s fun _ _ _ => True :=
  bind_safe (gates.safe_call h) fun _ _ _ _ => unchecked_kept (refreshJob_performs fun _ => trivial)

theorem insertUnlessActive_gated {kind : JobKind} {conflict : Uuid → Exn}
    (h : Checked (.insertJob kind tenantId documentId none) s) :
    Safe gates.discipline (Ingestion.insertUnlessActive kind conflict tenantId documentId) l s
      fun _ _ _ => True := by
  refine bind_safe (gates.safe_call (o := .findActiveJob kind documentId) trivial)
    fun active _ u hactive => ?_
  cases active with
  | some job => trivial
  | none => exact createJob_gated (h.retains hactive.1)

theorem enqueueIngestion_gated (context : RequestContext) :
    Safe gates.discipline (Ingestion.enqueueIngestion context tenantId documentId) l s
      fun _ _ _ => True := by
  refine bind_safe findDocument_texted fun found _ u _ => ?_
  cases found with
  | none => trivial
  | some document =>
    refine bind_safe (insertUnlessActive_gated trivial) fun job _ _ _ => ?_
    exact bind_safe (unchecked_kept (.call fun _ => trivial)) fun _ _ _ _ => trivial

theorem enqueueExtraction_gated (context : RequestContext) :
    Safe gates.discipline (Extraction.enqueueExtraction context tenantId documentId) l s
      fun _ _ _ => True := by
  refine bind_safe findDocument_texted fun found _ u hfound => ?_
  cases found with
  | none => trivial
  | some document =>
    obtain ⟨-, htexted⟩ := hfound.2 document rfl
    dsimp only
    split
    · exact bind_safe (unchecked_kept (.call fun _ => trivial)) fun _ _ _ _ => trivial
    next hstatus =>
      refine bind_safe (insertUnlessActive_gated (htexted (by simpa using hstatus))) fun job _ _ _ => ?_
      exact bind_safe (unchecked_kept (.call fun _ => trivial)) fun _ _ _ _ => trivial

/-- A version that passes the gate is parsed. -/
theorem requireVersion_parsed (document : DocumentRow) :
    Safe gates.discipline (ChangeReport.requireVersion document) l s fun res _ u =>
      Retains s u ∧ (res = .ok () → document.status = .parsed) := by
  unfold ChangeReport.requireVersion
  split
  next hstatus =>
    refine Safe.bind.mpr ((gates.safe_call (o := .findLatestJob .ingestion document.id)
      trivial).mono fun res _ u hcall => ?_)
    cases res <;> exact ⟨hcall.1, nofun⟩
  next hstatus =>
    have hparsed : document.status = .parsed := by simpa using hstatus
    refine Safe.bind.mpr ((gates.safe_call (o := .findLatestJob .extraction document.id)
      trivial).mono fun res _ u hcall => ?_)
    cases res with
    | error e => exact ⟨hcall.1, nofun⟩
    | ok latest =>
      cases latest with
      | none => exact ⟨hcall.1, nofun⟩
      | some latest =>
        dsimp only
        split
        · exact ⟨hcall.1, nofun⟩
        · exact ⟨hcall.1, fun _ => hparsed⟩

/-- A version looked up is texted once it passes the gate. -/
theorem requireFound_texted {e : Exn} {found : Option DocumentRow} {u : Store}
    (h : ∀ d, found = some d → d.id = documentId ∧ (d.status = .parsed → Texted documentId u)) :
    Safe gates.discipline (require e found) l u fun res _ v => v = u ∧
      ∀ d, res = .ok d → d.id = documentId ∧ (d.status = .parsed → Texted documentId u) :=
  require_safe (fun d hd => ⟨rfl, fun d' hd' => by cases hd'; exact h d hd⟩) ⟨rfl, nofun⟩

theorem enqueueChangeReport_gated {amendedId : Uuid} (context : RequestContext) :
    Safe gates.discipline
      (ChangeReport.enqueueChangeReport context tenantId documentId amendedId) l s
      fun _ _ _ => True := by
  unfold ChangeReport.enqueueChangeReport
  refine bind_safe findDocument_texted fun found _ u hfound => ?_
  refine bind_safe (requireFound_texted fun d hd => hfound.2 d (congrArg _ hd)) fun base _ u' hbase => ?_
  obtain ⟨rfl, hbase⟩ := hbase
  obtain ⟨hbaseId, hbase⟩ := hbase base rfl
  refine bind_safe findDocument_texted fun found _ v hfound => ?_
  refine bind_safe (requireFound_texted fun d hd => hfound.2 d (congrArg _ hd))
    fun amended _ v' hamended => ?_
  obtain ⟨rfl, hamended⟩ := hamended
  obtain ⟨hamendedId, hamended⟩ := hamended amended rfl
  have hlater := hfound.1
  dsimp only
  split
  · trivial
  · refine bind_safe (requireVersion_parsed base) fun _ _ w hversion => ?_
    refine bind_safe (requireVersion_parsed amended) fun _ _ x hversion' => ?_
    have hbaseTexted := hversion'.1 _ (hversion.1 _ (hlater _ (hbase (hversion.2 rfl))))
    have hamendedTexted := hversion'.1 _ (hversion.1 _ (hamended (hversion'.2 rfl)))
    refine bind_safe (createJob_gated ⟨hbaseId ▸ hbaseTexted, ?_⟩) fun _ _ _ _ => ?_
    · rintro _ ⟨⟩
      exact hamendedId ▸ hamendedTexted
    · exact bind_safe (unchecked_kept (.call fun _ => trivial)) fun _ _ _ _ => trivial

/-- After the replacement the document is texted. -/
theorem replace_texted {text : Str} {pageMap : List Parsing.PageSpan}
    {chunks : List Chunking.Chunk} {embeddings : List Embedding} :
    Safe gates.discipline (perform (.replaceTextAndChunks tenantId documentId text pageMap chunks
      embeddings)) l s fun res _ u => res = .ok () → Texted documentId u := by
  refine (gates.safe_call (o := .replaceTextAndChunks tenantId documentId text pageMap chunks
    embeddings) trivial).mono ?_
  rintro res l' u ⟨-, hgated', a, t, -, hgated, hexec⟩ rfl
  rcases statement_cases (Store.replaceTextAndChunks tenantId documentId text pageMap chunks
    embeddings a.ids) a l t with ⟨e, heq, -⟩ | ⟨r, v, -, -, hok, heq⟩
  · rw [exec, heq] at hexec
    cases hexec
  · obtain ⟨hfound, -, rfl⟩ := Store.replaceTextAndChunks_eq_ok hok
    rw [exec, heq] at hexec
    cases hexec
    obtain ⟨d, hd⟩ := Option.isSome_iff_exists.mp hfound
    have hid : d.id = documentId := by simpa using List.find?_some hd
    refine ⟨hid ▸ hgated'.issued d (List.mem_of_find?_eq_some hd), fun _ _ _ => ?_⟩
    exact hasText_iff.mpr ⟨_, List.mem_append_right _ (List.mem_singleton_self _), rfl⟩

theorem setStatus_gated {document : DocumentRow} {status : DocumentStatus}
    (h : Checked (.setDocumentStatus document status) s) :
    Safe gates.discipline (setStatus document status) l s fun _ _ _ => True :=
  bind_safe (gates.safe_call h) fun _ _ _ _ =>
    unchecked_kept (refreshDocument_performs fun _ => trivial)

theorem persist_gated {job : JobRow} {document : DocumentRow} {ingested : Ingestion.Ingested} :
    Safe gates.discipline (Ingestion.persist job document ingested) l s fun _ _ _ => True := by
  refine bind_safe replace_texted fun _ _ u htexted => ?_
  refine bind_safe (unchecked_safe (markCompleted_performs (fun _ => trivial) fun _ => trivial))
    fun _ _ v hlater => ?_
  exact bind_safe (setStatus_gated (hlater _ (htexted rfl))) fun _ _ _ _ => trivial

theorem runNextIngestionJob_gated [Platform] (llm : OpenAiClient) :
    Safe gates.discipline (Ingestion.runNextIngestionJob llm) l s fun _ _ _ => True := by
  refine bind_safe (unchecked_kept (claimNextQueued_performs (fun _ => trivial) fun _ _ => trivial))
    fun claimed _ u _ => ?_
  cases claimed with
  | none => trivial
  | some job =>
    show Safe gates.discipline (Ingestion.runClaimed llm job) _ _ _
    unfold Ingestion.runClaimed
    split
    · refine bind_safe findDocument_texted fun found _ v _ => ?_
      cases found with
      | none => trivial
      | some document => exact bind_safe (setStatus_gated trivial) fun _ _ _ _ => trivial
    · refine bind_safe findDocument_texted fun found _ v _ => ?_
      cases found with
      | none =>
        exact bind_safe (unchecked_kept (markFailed_performs (fun _ => trivial) fun _ => trivial))
          fun _ _ _ _ => trivial
      | some document =>
        refine Safe.attempt_bind.mpr ((unchecked_kept (TryProgram.ingest llm document
          (.sink _ _ _ _)).worker.unchecked).mono fun res _ w _ => ?_)
        cases res with
        | error e =>
          refine bind_safe (unchecked_kept (markFailed_performs (fun _ => trivial) fun _ => trivial))
            fun _ _ _ _ => ?_
          exact bind_safe (setStatus_gated trivial) fun _ _ _ _ => trivial
        | ok ingested => exact persist_gated

end Programs

/-! ## What the handlers find -/

/-- What the gates promise the handlers about every job that is there. -/
structure Readied (s : Store) : Prop where
  /-- The document of an extraction job has a text. -/
  extractions : ∀ job ∈ s.jobs .extraction, ∃ row, s.findText job.documentId = some row
  /-- A report is about two texted versions of its tenant, one the amendment of the other. -/
  reports : ∀ job ∈ s.jobs .changeReport, ∃ base ∈ s.documents, ∃ amended ∈ s.documents,
    base.id = job.documentId ∧ job.amendedDocumentId = some amended.id ∧
      base.tenantId = job.tenantId ∧ amended.tenantId = job.tenantId ∧
      amended.amendsDocumentId = some base.id ∧
      (∃ row, s.findText base.id = some row) ∧ ∃ row, s.findText amended.id = some row

theorem readied_of_gated (hlinked : Linked s) (hgated : Gated s) : Readied s := by
  refine ⟨fun job hjob => exists_findText (hgated.extractions job hjob), fun job hjob => ?_⟩
  obtain ⟨base, hbase, hid, htenant⟩ := hlinked.jobs .changeReport job hjob
  obtain ⟨amended, hamended, hversion, hsame, hparent⟩ := hlinked.reports job hjob
  obtain ⟨hbaseText, hversions⟩ := hgated.reports job hjob
  exact ⟨base, hbase, amended, hamended, hid, hversion, htenant, hsame, hid ▸ hparent,
    exists_findText (hid ▸ hbaseText), exists_findText (hversions _ hversion)⟩

/-- A read of a text that is there does not miss it. -/
theorem findText_reads (h : ∃ row, s.findText documentId = some row) (a : Answer) (l : Session) :
    (exec (.findText documentId) a l s).1 ≠ .ok none := by
  intro hmissed
  obtain ⟨row, hrow⟩ := h
  have hread := (query_eq_ok hmissed).1
  rw [hrow] at hread
  cases hread

/-! ## Parties -/

section Parties

variable [Ucd] [Platform]

theorem Party.program_gated (party : Party) (l : Session) (s : Store) :
    Safe gates.discipline party.program l s fun _ _ _ => True := by
  cases party with
  | documents request =>
    cases request with
    | upload context request =>
      exact unchecked_kept (.bind (DocumentProgram.uploadDocument context request).unchecked
        fun _ => .ret _)
    | delete context tenantId documentId =>
      exact unchecked_kept (DocumentProgram.deleteDocument context tenantId documentId).unchecked
  | activity work =>
    cases work with
    | enqueueIngestion context tenantId documentId =>
      exact bind_safe (enqueueIngestion_gated context) fun _ _ _ _ => trivial
    | enqueueExtraction context tenantId documentId =>
      exact bind_safe (enqueueExtraction_gated context) fun _ _ _ _ => trivial
    | ingestionWorker llm => exact bind_safe (runNextIngestionJob_gated llm) fun _ _ _ _ => trivial
    | extractionWorker llm threshold =>
      exact unchecked_kept (.bind (WorkerProgram.runNextExtractionJob llm threshold).unchecked
        fun _ => .ret _)
  | enqueueChangeReport context tenantId baseId amendedId =>
    exact bind_safe (enqueueChangeReport_gated context) fun _ _ _ _ => trivial
  | changeReportWorker llm threshold =>
    exact unchecked_kept (.bind (WorkerProgram.runNextChangeReportJob llm threshold).unchecked
      fun _ => .ret _)
  | resolveReviewItem context tenantId itemId request =>
    refine unchecked_kept (.bind (.bind (.bind (.call fun _ => trivial) fun _ =>
      require_performs _ _) fun _ => .bind (.call fun _ => trivial) fun resolved => ?_) fun _ => .ret _)
    cases resolved with
    | none => exact .raise _
    | some row => exact .bind (.call fun _ => trivial) fun _ => .ret _

variable {ι : Type} [DecidableEq ι] {members : ι → Option Party} {turns : List (Turn ι)}
  {c : System ι}

theorem gated_of_run (hgated : Gated s)
    (hrun : run System.step (everyone s members) turns = some c) : gates.discipline.Holds c := by
  have hstart : gates.discipline.Holds (everyone s members) := by
    refine ⟨hgated, fun i l p hi => ?_⟩
    obtain ⟨program, hprogram, heq⟩ := Option.map_eq_some_iff.mp hi
    obtain ⟨party, -, rfl⟩ := Option.map_eq_some_iff.mp hprogram
    cases heq
    exact party.program_gated _ _
  exact gates.holds_run hstart hrun

/-- In every run of any parties every job behind a gate has what its handler reads: while the row of
the job is there, no read of a text of its documents misses it. -/
theorem gates_hold {now : Time}
    (hrun : run System.step (everyone (.empty now) members) turns = some c) :
    Readied c.store ∧
      (∀ job ∈ c.store.jobs .extraction, ∀ a l,
        (exec (.findText job.documentId) a l c.store).1 ≠ .ok none) ∧
      ∀ job ∈ c.store.jobs .changeReport, ∀ a l,
        (exec (.findText job.documentId) a l c.store).1 ≠ .ok none ∧
          (exec (.findText (job.amendedDocumentId.getD 0)) a l c.store).1 ≠ .ok none := by
  have hlinked : Linked c.store := (holds_of_run (Linked.empty now) hrun).1
  have hready := readied_of_gated hlinked (gated_of_run (Gated.empty now) hrun).1
  refine ⟨hready, fun job hjob a l => findText_reads (hready.extractions job hjob) a l,
    fun job hjob a l => ?_⟩
  obtain ⟨base, -, amended, -, hid, hversion, -, -, -, hbase, hamended⟩ := hready.reports job hjob
  rw [hversion, Option.getD_some, ← hid]
  exact ⟨findText_reads hbase a l, findText_reads hamended a l⟩

end Parties

/-- An upload, an ingestion and an enqueue of an extraction. -/
def extractionMembers : Fin 4 → Option Party
  | 0 => some (.documents (.upload ⟨[], none⟩
      ⟨1, none, some Parsing.TEXT_MIME, [[104, 105]], 100, none⟩))
  | 1 => some (.activity (.enqueueIngestion ⟨[], none⟩ 1 10))
  | 2 => some (.activity (.ingestionWorker ⟨[], "text-embedding-3-small".toList⟩))
  | 3 => some (.activity (.enqueueExtraction ⟨[], none⟩ 1 10))

/-- One party after the other, up to the row of the extraction job. -/
def extractionTurns : List (Turn (Fin 4)) :=
  [.act 0 {}, .act 0 {}, .act 0 { ids := [10] }, .act 1 {}, .act 1 {}, .act 1 { ids := [20] },
    .act 2 {}, .act 2 {}, .act 2 {}, .act 2 {}, .act 2 { embed := .replied none 0 [(0, [1])] },
    .act 2 {}, .act 2 { ids := [30] }, .act 2 {}, .act 2 {}, .act 2 {}, .act 2 {},
    .act 3 {}, .act 3 {}, .act 3 { ids := [21] }]

theorem gates_hold_extraction :
    let := Ucd.ascii
    let := Documents.onePdf
    ∃ c, run System.step (everyone (.empty 0) extractionMembers) extractionTurns = some c ∧
      (c.store.jobs .extraction).map JobRow.id = [21] ∧ Readied c.store := by
  intro _ _
  have hruns : ((run System.step (everyone (.empty 0) extractionMembers) extractionTurns).map
      fun c => (c.store.jobs .extraction).map JobRow.id) = some [21] := by decide +kernel
  obtain ⟨c, hc, hjobs⟩ := Option.map_eq_some_iff.mp hruns
  exact ⟨c, hc, hjobs, (gates_hold hc).1⟩

end ContractIntel
