import ContractIntel.Laws.Services.Calls
import ContractIntel.Laws.Services.Isolation
import ContractIntel.Laws.Services.Provenance
import ContractIntel.Lib.Endings
import ContractIntel.Services.Worker

/-!
# How stored data is computed

The requests store nothing that is computed of a document. The workers compute what they store from
what they have read: the ingestion worker from the bytes under the document's digest, the others from
the texts that are stored, and neither a delete nor another worker in between can make it wrong.
-/

namespace ContractIntel

open Chunking (chunkDocument)
open Diffing (detectChanges)
open Extraction (Cited)
open Ingestion (identity textsOf)
open Jobs (JobRow)
open Lib (Safe)
open Lib.Prog (Performs Returns)
open Llm (OpenAiClient UsageSink)
open Parsing (ParsedDocument)
open Repositories

variable {o : Op} {a : Answer} {l : Session} {s t : Store} {kind : JobKind} {α : Type}
  {Saved : Uuid → Parsing.Bytes → Prop}

/-- The operations that store nothing computed and refer to no row by what is known of it. -/
def Op.free : Op → Bool
  | .insertDocument .. | .insertJob .. | .replaceTextAndChunks .. | .completeJob ..
  | .insertReviewItems .. | .saveFile .. => false
  | _ => true

/-- A program of such operations. -/
abbrev FreeProgram (p : Service α) : Prop := p.Performs fun o => o.free = true

theorem TryProgram.free {p : Service α} (h : TryProgram p) : FreeProgram p := by
  refine h.mono fun o _ ho => ?_
  cases o <;> first | rfl | cases ho

section Rules

variable [Ucd] [Platform]

theorem may_of_free (ho : o.free = true) (s : Store) : (provenance Saved).May o s := by
  cases o with
  | insertDocument | insertJob | replaceTextAndChunks | completeJob | insertReviewItems | saveFile =>
    cases ho
  | _ => exact ⟨trivial, (fun _ _ _ h => by cases h), trivial⟩

theorem free_safe {p : Service α} (hp : FreeProgram p) :
    Safe (provenance Saved).discipline p l s fun _ _ u => Steady s u :=
  (provenance Saved).safe_performs (hp.mono fun _ _ => may_of_free)

theorem free_kept {p : Service α} (hp : FreeProgram p) :
    Safe (provenance Saved).discipline p l s fun _ _ _ => True :=
  (free_safe hp).mono fun _ _ _ _ => trivial

/-- A query, with the store it was answered on. -/
theorem query_safe (read : Answer → Store → o.Res) (ho : o.free = true)
    (hquery : ∀ a l s, exec o a l s = query (read a) a l s) :
    Safe (provenance Saved).discipline (perform o) l s fun res _ u =>
      Steady s u ∧ Derived Saved u ∧ ∀ r, res = .ok r → ∃ a, read a u = r := by
  refine ((provenance Saved).safe_call (may_of_free ho s)).mono ?_
  rintro res l' u ⟨hsteady, hderived, a, t, -, -, hexec⟩
  refine ⟨hsteady, hderived, ?_⟩
  rintro r rfl
  rw [hquery] at hexec
  obtain ⟨hread, heq⟩ := query_eq_ok (congrArg Prod.fst hexec)
  rw [heq] at hexec
  cases hexec
  exact ⟨a, hread⟩

theorem read_safe (read : Store → o.Res) (ho : o.free = true)
    (hquery : ∀ a l s, exec o a l s = query read a l s) :
    Safe (provenance Saved).discipline (perform o) l s fun res _ u =>
      Steady s u ∧ Derived Saved u ∧ ∀ r, res = .ok r → read u = r := by
  refine (query_safe (fun _ => read) ho hquery).mono ?_
  rintro res _ u ⟨hsteady, hderived, hread⟩
  exact ⟨hsteady, hderived, fun r hr => (hread r hr).elim fun _ h => h⟩

/-- A claimed job is a row of its table. -/
theorem claimNextQueued_read :
    Safe (provenance Saved).discipline (claimNextQueued kind) l s fun res _ u =>
      ∀ job, res = .ok (some job) → Derived Saved u ∧ job ∈ u.jobs kind := by
  refine Safe.bind.mpr ((free_safe (.call rfl)).mono fun res l' u _ => ?_)
  cases res with
  | error e => exact nofun
  | ok found =>
    cases found with
    | none => exact nofun
    | some job =>
      refine Safe.bind.mpr (Safe.bind.mpr ((read_safe (o := .readJob kind job.id)
        (fun s => Jobs.row? job.id (s.jobs kind)) rfl fun _ _ _ => rfl).mono ?_))
      rintro res m v ⟨-, hderived, hfound⟩
      cases res with
      | error e => exact nofun
      | ok found =>
        refine require_safe (fun row hrow => ?_) nofun
        rintro _ ⟨⟩
        exact ⟨hderived, (Jobs.row?_mem ((hfound found rfl).trans hrow)).1⟩

/-- A part of a program that stores nothing computed keeps to more than it does by itself. -/
theorem linked_derived {p : Service α} {Q : Except Exn α → Session → Store → Prop}
    (h : Safe linkDiscipline p l s Q)
    (hp : p.Performs fun o => Saves Saved o ∧ ∀ s, Warranted Saved o s) :
    Safe (provenance Saved).discipline p l s Q :=
  knows_lasting.permission.safe_of h hp (fun _ h => h.linked) (fun _ _ h => h.toLater)
    fun _ s ho hknows => ⟨hknows, ho.1, ho.2 s⟩

end Rules

/-! ## Ingestion -/

section Ingestion

variable [Ucd] [Platform] {document : DocumentRow} {parsed : ParsedDocument}

/-- A document row under the id of this one, if there still is one, is this one but for its status. -/
structure Recognized (document : DocumentRow) (s : Store) : Prop where
  issued : document.id ∈ s.issued
  rows : ∀ d ∈ s.documents, d.id = document.id → identity d = identity document

omit [Ucd] [Platform] in
theorem Recognized.later (h : Recognized document s) (hsteady : Steady s t) : Recognized document t := by
  refine ⟨hsteady.issued _ h.issued, fun d' hd' hid => ?_⟩
  obtain ⟨d, hd, heq⟩ := hsteady.identities d' hd' (hid ▸ h.issued)
  exact heq.symm.trans (h.rows d hd ((Ingestion.eq_of_identity_eq heq).1.trans hid))

omit [Ucd] [Platform] in
theorem Linked.recognized (h : Linked s) (hd : document ∈ s.documents) : Recognized document s :=
  ⟨h.issued document hd, fun d' hd' hid => by rw [h.document_eq hd' hd hid]⟩

omit [Ucd] in
theorem Recognized.parses (h : Recognized document s) (hparse : ParseOf Saved document parsed) :
    Parses Saved s document.id parsed := by
  refine ⟨h.issued, fun d hd hid => ?_⟩
  obtain ⟨-, htenant, hsha, hmime⟩ := Ingestion.eq_of_identity_eq (h.rows d hd hid)
  obtain ⟨content, hdigest, hsaved, hcontent⟩ := hparse
  exact ⟨content, hdigest.trans hsha.symm, htenant ▸ hsaved, hmime ▸ hcontent⟩

/-- Ingestion parses bytes that have the document's digest. -/
theorem ingest_derived (llm : OpenAiClient) (document : DocumentRow) {usageSink : UsageSink}
    (hsink : ∀ usage, TryProgram (usageSink usage)) :
    Safe (provenance Saved).discipline (Ingestion.ingest llm document usageSink) l s fun res _ u =>
      Steady s u ∧ ∀ ingested, res = .ok ingested → ParseOf Saved document ingested.parsed ∧
        ingested.chunks = chunkDocument ingested.parsed := by
  refine Safe.bind.mpr (((provenance Saved).safe_call (may_of_free
    (o := .readFile document.tenantId document.sha256) rfl s)).mono ?_)
  rintro res l' u ⟨hsteady, -, a, t, -, hderived, hexec⟩
  cases res with
  | error e => exact ⟨hsteady, nofun⟩
  | ok content =>
    have hfile : t.files document.tenantId document.sha256 = some content :=
      readFile_eq_ok (congrArg Prod.fst hexec)
    dsimp only
    cases hparse : Parsing.parse document.mimeType content with
    | error e => exact ⟨hsteady, nofun⟩
    | ok parsed =>
      apply Safe.bind.mpr
      change Safe _ ((Ingestion.embedBatches llm usageSink _).bind _) _ _ _
      refine Safe.bind.mpr ((free_safe (TryProgram.embedBatches llm hsink _).free).mono
        fun res _ v hsteady' => ?_)
      have hlast := hsteady.trans hsteady'
      cases res with
      | error e => exact ⟨hlast, nofun⟩
      | ok embeddings =>
        refine ⟨hlast, ?_⟩
        rintro ingested ⟨⟩
        obtain ⟨hdigest, hsaved⟩ := hderived.files _ _ _ hfile
        exact ⟨⟨content, hdigest, hsaved, hparse⟩, rfl⟩

theorem persist_derived {job : JobRow} {ingested : Ingestion.Ingested}
    (howned : Owned job.tenantId document.id s) (hparses : Parses Saved s document.id ingested.parsed)
    (hchunks : ingested.chunks = chunkDocument ingested.parsed) :
    Safe (provenance Saved).discipline (Ingestion.persist job document ingested) l s fun _ _ _ => True := by
  refine bind_safe ((provenance Saved).safe_call ⟨howned, (fun _ _ _ h => by cases h), _, hparses, rfl, rfl,
    hchunks⟩) fun _ _ u _ => ?_
  refine bind_safe ((provenance Saved).safe_performs (markCompleted_performs
    (fun _ => ⟨trivial, (fun _ _ _ h => by cases h), fun h => absurd rfl h⟩)
    fun s => may_of_free rfl s)) fun _ _ _ _ => ?_
  exact free_kept (.bind (setStatus_performs rfl rfl) fun _ => .ret _)

theorem runNextIngestionJob_derived (llm : OpenAiClient) :
    Safe (provenance Saved).discipline (Ingestion.runNextIngestionJob llm) l s fun _ _ _ => True := by
  refine bind_safe (free_safe (claimNextQueued_performs rfl fun _ => rfl)) fun claimed l' u _ => ?_
  cases claimed with
  | none => trivial
  | some job =>
    show Safe (provenance Saved).discipline (Ingestion.runClaimed llm job) _ _ _
    unfold Ingestion.runClaimed
    split
    · refine free_kept (.bind (.call rfl) fun found => ?_)
      cases found with
      | none => exact .ret _
      | some document => exact .bind (setStatus_performs rfl rfl) fun _ => .ret _
    · refine bind_safe (read_safe (o := .findDocument job.tenantId job.documentId)
        (Store.findDocument job.tenantId job.documentId) rfl fun _ _ _ => rfl) fun found _ v hfound => ?_
      obtain ⟨-, hderived, hfound⟩ := hfound
      cases found with
      | none => exact free_kept (.bind (markFailed_performs rfl rfl) fun _ => .ret _)
      | some document =>
        obtain ⟨hmem, -, htenant⟩ := has_of_findDocument (hfound _ rfl)
        have hrecognized := hderived.linked.recognized hmem
        have howned := hderived.linked.owned ⟨document, hmem, rfl, htenant⟩
        refine Safe.attempt_bind.mpr ((ingest_derived llm document (.sink _ _ _ _)).mono ?_)
        rintro res _ w ⟨hsteady, hingested⟩
        cases res with
        | error e =>
          exact free_kept (.bind (markFailed_performs rfl rfl) fun _ =>
            .bind (setStatus_performs rfl rfl) fun _ => .ret _)
        | ok ingested =>
          obtain ⟨hparse, hchunks⟩ := hingested ingested rfl
          exact persist_derived (hsteady.owned howned) ((hrecognized.later hsteady).parses hparse) hchunks

end Ingestion

/-! ## Extraction -/

section Texts

variable [Ucd] [Platform] {documentId : Uuid} {job : JobRow} {usageSink : UsageSink}

/-- A text that is stored is that of a parse of the document. -/
theorem Derived.text (h : Derived Saved s) {row : TextRow} (hfound : s.findText documentId = some row) :
    ∃ parsed, ReadsAs Saved s documentId parsed ∧ row.text = parsed.text := by
  have hrow : row ∈ textsOf documentId s := by
    have hkey := List.find?_some hfound
    exact List.mem_filter.mpr ⟨List.mem_of_find?_eq_some hfound, hkey⟩
  obtain ⟨hnone, -⟩ | ⟨parsed, found, hreads, htexts, htext, -⟩ := h.traced.rows documentId
  · rw [hnone] at hrow
    cases hrow
  · rw [htexts] at hrow
    exact ⟨parsed, hreads, List.mem_singleton.mp hrow ▸ htext⟩

theorem findText_derived :
    Safe (provenance Saved).discipline (perform (.findText documentId)) l s fun res _ u =>
      Steady s u ∧ ∀ row, res = .ok (some row) → ∃ parsed, ReadsAs Saved u documentId parsed ∧
        row.text = parsed.text := by
  refine (read_safe (o := .findText documentId) (Store.findText documentId) rfl
    fun _ _ _ => rfl).mono ?_
  rintro res _ u ⟨hsteady, hderived, hread⟩
  exact ⟨hsteady, fun row hrow => hderived.text (hread _ hrow)⟩

/-- The candidates that are below the threshold, put up for review. -/
theorem routeForReview_derived {source : ReviewItemSource} {candidates : List (Str × Json × Rat)}
    (threshold : Rat) (hknown : Known source.kind job s)
    (h : ∀ candidate ∈ candidates, ∃ parsed, ReadsAs Saved s job.documentId parsed ∧
      CandidateFrom parsed.text source candidate) :
    Safe (provenance Saved).discipline (ReviewQueue.routeForReview job.tenantId source job.documentId job.id
      candidates threshold) l s fun _ _ _ => True := by
  unfold ReviewQueue.routeForReview
  dsimp only
  split
  · trivial
  · refine bind_safe ((provenance Saved).safe_call ?_) fun _ _ _ _ => trivial
    exact ⟨⟨hknown.document, hknown.ofJob⟩, (fun _ _ _ h => by cases h),
      fun candidate hcandidate => h candidate (List.mem_of_mem_filter hcandidate)⟩

/-- A job that is completed with a result of its documents. -/
theorem markCompleted_derived {result : Json} (hpinned : Pinned kind job s)
    (hresult : ResultOf (ReadsAs Saved s) kind job result) :
    Safe (provenance Saved).discipline (markCompleted kind job result) l s fun _ _ u => Steady s u := by
  have hmay : (provenance Saved).May (.completeJob kind job.id result) s :=
    ⟨trivial, (fun _ _ _ h => by cases h), fun _ => ⟨job, rfl, hpinned, hresult⟩⟩
  refine Safe.bind.mpr (((provenance Saved).safe_call hmay).mono ?_)
  rintro res l' u ⟨hsteady, -, -⟩
  cases res with
  | error e => exact hsteady
  | ok _ =>
    exact (free_safe (refreshJob_performs rfl)).mono fun _ _ _ hsteady' => hsteady.trans hsteady'

/-- What a claimed job refers to. -/
theorem Derived.known (h : Derived Saved s) (hjob : job ∈ s.jobs kind) :
    Pinned kind job s ∧ Known kind job s :=
  ⟨h.linked.pinned hjob, h.linked.jobOf hjob, h.linked.owned (h.linked.jobs kind job hjob)⟩

theorem abandon_derived (hsink : ∀ usage, TryProgram (usageSink usage)) (e : Exn) :
    Safe (provenance Saved).discipline (Extraction.abandon kind job usageSink e) l s fun _ _ _ => True := by
  refine free_kept ?_
  unfold Extraction.abandon
  split
  · exact .bind (markFailed_performs rfl rfl) fun _ =>
      .bind (TryProgram.accountRejectedOutput hsink _).free fun _ => .ret _
  · exact .raise _

omit [Ucd] [Platform] in
theorem extractAttempts_returns (llm : OpenAiClient) (text : Str) (left : Nat) :
    (Extraction.extractAttempts llm text usageSink left).Returns (Cited text) := by
  induction left with
  | zero => trivial
  | succ left ih =>
    refine .bind _ fun reply => .bind _ fun _ => ?_
    dsimp only
    split
    next hclean => exact Extraction.splitCited_snd_eq_nil_iff.mp hclean
    · split
      · exact ih
      · split
        · trivial
        · exact Extraction.citedPart_cited text reply.data

theorem extract_derived (llm : OpenAiClient) (hsink : ∀ usage, TryProgram (usageSink usage)) :
    Safe (provenance Saved).discipline (Extraction.extract llm job usageSink) l s fun res _ u =>
      Steady s u ∧ ∀ extraction, res = .ok extraction → ∃ parsed, ReadsAs Saved u job.documentId parsed ∧
        Cited parsed.text extraction := by
  refine Safe.bind.mpr ((free_safe (.call rfl)).mono fun res l' u hsteady => ?_)
  cases res with
  | error e => exact ⟨hsteady, nofun⟩
  | ok found =>
    cases found with
    | none => exact ⟨hsteady, nofun⟩
    | some document =>
      refine Safe.bind.mpr (findText_derived.mono ?_)
      rintro res m v ⟨hsteady', hread⟩
      cases res with
      | error e => exact ⟨hsteady.trans hsteady', nofun⟩
      | ok found =>
        cases found with
        | none => exact ⟨hsteady.trans hsteady', nofun⟩
        | some row =>
          obtain ⟨parsed, hreads, htext⟩ := hread row rfl
          have hasks := TryProgram.extractAttempts llm row.text hsink Extraction.CITATION_ATTEMPTS
          refine ((free_safe hasks.free).returns (extractAttempts_returns llm row.text _)).mono ?_
          rintro res _ w ⟨hlast, hcited⟩
          refine ⟨(hsteady.trans hsteady').trans hlast, fun extraction hextraction => ?_⟩
          exact ⟨parsed, hreads.later hlast, htext ▸ hcited extraction hextraction⟩

theorem runNextExtractionJob_derived (llm : OpenAiClient) (threshold : Rat) :
    Safe (provenance Saved).discipline (Extraction.runNextExtractionJob llm threshold) l s
      fun _ _ _ => True := by
  refine bind_safe claimNextQueued_read fun claimed l' u hclaimed => ?_
  cases claimed with
  | none => trivial
  | some job =>
    obtain ⟨hderived, hjob⟩ := hclaimed job rfl
    obtain ⟨hpinned, hknown⟩ := hderived.known hjob
    show Safe (provenance Saved).discipline (Extraction.runClaimed llm threshold job) _ _ _
    unfold Extraction.runClaimed
    split
    · trivial
    · refine Safe.attempt_bind.mpr ((extract_derived llm (.sink _ _ _ _)).mono ?_)
      rintro res _ v ⟨hsteady, hextracted⟩
      cases res with
      | error e => exact abandon_derived (.sink _ _ _ _) e
      | ok extraction =>
        obtain ⟨parsed, hreads, hcited⟩ := hextracted extraction rfl
        refine bind_safe (markCompleted_derived (hpinned.later hsteady.toLater)
          ⟨parsed, hreads, extraction, hcited, rfl⟩) fun _ _ w hsteady' => ?_
        refine bind_safe (routeForReview_derived threshold
          (hknown.later (hsteady.trans hsteady').toLater) fun candidate hcandidate => ?_)
          fun _ _ _ _ => trivial
        exact ⟨parsed, hreads.later hsteady', extraction, hcited, hcandidate⟩

/-! ## Change reports -/

theorem parsedText_derived :
    Safe (provenance Saved).discipline (ChangeReport.parsedText documentId) l s fun res _ u =>
      Steady s u ∧ ∀ text, res = .ok text → ∃ parsed, ReadsAs Saved u documentId parsed ∧
        text = parsed.text := by
  refine Safe.bind.mpr (findText_derived.mono ?_)
  rintro res _ u ⟨hsteady, hread⟩
  cases res with
  | error e => exact ⟨hsteady, nofun⟩
  | ok found =>
    cases found with
    | none => exact ⟨hsteady, nofun⟩
    | some row =>
      refine ⟨hsteady, ?_⟩
      rintro _ ⟨⟩
      exact hread row rfl

/-- What the `try` block finds are the changes between the texts of the two documents. -/
theorem examine_derived (llm : OpenAiClient) (hsink : ∀ usage, TryProgram (usageSink usage)) :
    Safe (provenance Saved).discipline (ChangeReport.examine llm job usageSink) l s fun res _ u =>
      Steady s u ∧ ∀ findings, res = .ok findings → ∃ base amended,
        ReadsAs Saved u job.documentId base ∧ ReadsAs Saved u (job.amendedDocumentId.getD 0) amended ∧
        findings.baseText = base.text ∧ findings.amendedText = amended.text ∧
        detectChanges base.text amended.text = .ok findings.changes := by
  refine Safe.bind.mpr (parsedText_derived.mono ?_)
  rintro res _ u ⟨hsteady, hbase⟩
  cases res with
  | error e => exact ⟨hsteady, fun _ h => by cases h⟩
  | ok baseText =>
    refine Safe.bind.mpr (parsedText_derived.mono ?_)
    rintro res _ v ⟨hsteady', hamended⟩
    cases res with
    | error e => exact ⟨hsteady.trans hsteady', fun _ h => by cases h⟩
    | ok amendedText =>
      obtain ⟨base, hreads, rfl⟩ := hbase baseText rfl
      obtain ⟨amended, hreads', rfl⟩ := hamended amendedText rfl
      have hboth := hsteady.trans hsteady'
      cases hchanges : detectChanges base.text amended.text with
      | error e =>
        simp only [hchanges, Except.mapError, lift, Lib.Prog.ofResult_error]
        exact ⟨hboth, fun _ h => by cases h⟩
      | ok changes =>
        simp only [hchanges, Except.mapError, lift, Lib.Prog.ofResult_ok, Lib.Prog.bind_eq,
          Lib.Prog.ret_bind]
        refine Safe.bind.mpr ((free_safe
          (TryProgram.explainChanges llm changes _ _ hsink).free).mono fun res _ w hlater => ?_)
        cases res with
        | error e => exact ⟨hboth.trans hlater, fun _ h => by cases h⟩
        | ok explanations =>
          refine Safe.bind.mpr ((free_safe
            (TryProgram.mapImpacts llm _ _ changes _ _ hsink).free).mono fun res _ x hlater' => ?_)
          have hlast := hlater.trans hlater'
          cases res with
          | error e => exact ⟨hboth.trans hlast, fun _ h => by cases h⟩
          | ok impacts =>
            refine ⟨hboth.trans hlast, ?_⟩
            rintro _ ⟨⟩
            exact ⟨base, amended, hreads.later (hsteady'.trans hlast), hreads'.later hlast, rfl, rfl,
              hchanges⟩

omit [Ucd] [Platform] in
theorem map_fst_of_zipStrict {β : Type} {xs : List α} {ys : List β} {zs : List (α × β)}
    (h : ChangeReport.zipStrict xs ys = .ok zs) : zs.map (·.1) = xs := by
  induction xs generalizing ys zs with
  | nil =>
    cases ys with
    | nil =>
      cases h
      rfl
    | cons y ys => cases h
  | cons x xs ih =>
    cases ys with
    | nil => cases h
    | cons y ys =>
      rw [ChangeReport.zipStrict] at h
      cases hrest : ChangeReport.zipStrict xs ys with
      | error e =>
        rw [hrest] at h
        cases h
      | ok rest =>
        rw [hrest] at h
        cases h
        rw [List.map_cons, ih hrest]

omit [Ucd] [Platform] in
/-- The rows of a report are its changes, each with what was found for it. -/
theorem changes_of_zipped {f : ChangeReport.Findings}
    {rows : List (Diffing.Change × ChangeExplanation × List ChangeReport.ImpactEntry)}
    (h : f.zipped = .ok rows) : rows.map (·.1) = f.changes := by
  unfold ChangeReport.Findings.zipped at h
  cases hrest : ChangeReport.zipStrict f.explanations f.impacts with
  | error e =>
    rw [hrest] at h
    cases h
  | ok rest =>
    rw [hrest] at h
    exact map_fst_of_zipStrict h

theorem runNextChangeReportJob_derived (llm : OpenAiClient) (threshold : Rat) :
    Safe (provenance Saved).discipline (ChangeReport.runNextChangeReportJob llm threshold) l s
      fun _ _ _ => True := by
  refine bind_safe claimNextQueued_read fun claimed l' u hclaimed => ?_
  cases claimed with
  | none => trivial
  | some job =>
    obtain ⟨hderived, hjob⟩ := hclaimed job rfl
    obtain ⟨hpinned, hknown⟩ := hderived.known hjob
    obtain ⟨version, -, hversion, -⟩ := hderived.linked.reports job hjob
    show Safe (provenance Saved).discipline (ChangeReport.runClaimed llm threshold job) _ _ _
    unfold ChangeReport.runClaimed
    split
    · trivial
    · refine Safe.attempt_bind.mpr ((examine_derived llm (.sink _ _ _ _)).mono ?_)
      rintro res _ v ⟨hsteady, hfound⟩
      cases res with
      | error e => exact abandon_derived (.sink _ _ _ _) e
      | ok findings =>
        obtain ⟨base, amended, hbase, hamended, hbaseText, hamendedText, hchanges⟩ :=
          hfound findings rfl
        rw [hversion, Option.getD_some] at hamended
        show Safe (provenance Saved).discipline (ChangeReport.finish job findings threshold) _ _ _
        unfold ChangeReport.finish
        cases hzipped : findings.zipped with
        | error e => trivial
        | ok rows =>
          rw [← changes_of_zipped hzipped] at hchanges
          simp only [lift, Lib.Prog.ofResult_ok, Lib.Prog.bind_eq, Lib.Prog.ret_bind, hbaseText,
            hamendedText]
          refine bind_safe (markCompleted_derived (hpinned.later hsteady.toLater)
            ⟨version.id, base, amended, hversion, hbase, hamended, rows, hchanges, rfl⟩)
            fun _ _ w hsteady' => ?_
          refine bind_safe (routeForReview_derived threshold
            (hknown.later (hsteady.trans hsteady').toLater) fun candidate hcandidate => ?_)
            fun _ _ _ _ => trivial
          exact ⟨base, hbase.later hsteady', amended.text, rows, hchanges, hcandidate⟩

end Texts

/-! ## Requests and processes -/

section Members

variable [Ucd] [Platform]

theorem runQueue_derived (worker : Worker.Settings) (kind : JobKind) :
    Lib.Kept (provenance Saved).discipline (Worker.runQueue worker kind) := by
  intro l s
  cases kind with
  | extraction => exact runNextExtractionJob_derived _ _
  | ingestion => exact runNextIngestionJob_derived _
  | changeReport => exact runNextChangeReportJob_derived _ _

theorem Call.program_derived {work : Call} {tenantId : Uuid}
    (hsaved : ∀ content, work.Uploads content → Saved tenantId content) :
    Safe (provenance Saved).discipline (work.program tenantId) l s fun _ _ _ => True := by
  refine linked_derived (linked_of_confined work.program_confined) ?_
  refine (work.program_performs.and work.program_saves).mono ?_
  rintro o _ ⟨hdoes, hsaves⟩
  refine ⟨hsaves.mono ?_, fun s => ?_⟩
  · rintro _ content ⟨rfl, huploads⟩
    exact hsaved content huploads
  · cases o <;> trivial

end Members

end ContractIntel
