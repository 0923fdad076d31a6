import ContractIntel.Laws.Services.Calls
import ContractIntel.Laws.Services.ChangeReport
import ContractIntel.Laws.Services.Extraction
import ContractIntel.Laws.Services.Ingestion
import ContractIntel.Laws.Services.Links

/-!
# What stored data comes from

What is stored of a document was computed from bytes that its tenant had saved under the document's
digest: its text and its chunks are those of a parse of such bytes, an extraction cites such a text, a
report compares two of them, and an item under review is an item of such an extraction or an impact of
such a comparison.

`Traced` says so of a store, for whatever relation says what a document's bytes parse to. `Steady` is
what time leaves of that relation: the row under an id keeps its digest. `Derived.effect` says that an
operation keeps the data traced when whoever performs it has computed what it writes from such parses
(`Warranted`).
-/

namespace ContractIntel

open Chunking (Chunk chunkDocument)
open Diffing (Change detectChanges)
open Extraction (Cited)
open Ingestion (Aligned chunksOf eq_of_identity_eq identity textsOf)
open Jobs (JobRow)
open Parsing (ParsedDocument)

variable {o : Op} {a : Answer} {s t : Store} {kind : JobKind} {documentId : Uuid}

/-! ## Traced data -/

/-- The stored form of an extraction that cites the text throughout. -/
def ExtractedFrom (text : Str) (result : Json) : Prop :=
  ∃ extraction, Cited text extraction ∧ result = extraction.modelDump

section Forms

variable [Ucd]

/-- The stored form of a comparison of the two texts. -/
def ReportedFrom (base amended : Str) (result : Json) : Prop :=
  ∃ rows, detectChanges base amended = .ok (rows.map (·.1)) ∧
    result = ChangeReport.reportResult base amended rows

/-- A candidate for review: an item of an extraction that cites the text, or an impact of a change of
the text. -/
def CandidateFrom (text : Str) : ReviewItemSource → Str × Json × Rat → Prop
  | .extraction, candidate =>
    ∃ extraction, Cited text extraction ∧ candidate ∈ Extraction.reviewCandidates extraction
  | .impactMapping, candidate =>
    ∃ (amended : Str) (rows : List (Change × ChangeExplanation × List ChangeReport.ImpactEntry)),
      detectChanges text amended = .ok (rows.map (·.1)) ∧
        candidate ∈ rows.flatMap fun row => ChangeReport.reviewCandidates row.1 row.2.1 row.2.2

end Forms

/-- The candidate that an item was. -/
def ReviewItemRow.candidate (item : ReviewItemRow) : Str × Json × Rat :=
  (item.itemType, item.payload, item.confidence)

section Traced

variable [Ucd] (parses : Uuid → ParsedDocument → Prop)

/-- The result of a job was computed from parses of its documents; an ingestion job stores a count. -/
def ResultOf : JobKind → JobRow → Json → Prop
  | .ingestion, _, _ => True
  | .extraction, job, result =>
    ∃ parsed, parses job.documentId parsed ∧ ExtractedFrom parsed.text result
  | .changeReport, job, result => ∃ amendedId base amended, job.amendedDocumentId = some amendedId ∧
    parses job.documentId base ∧ parses amendedId amended ∧
    ReportedFrom base.text amended.text result

/-- What is stored of the documents was computed from what they parse to. -/
structure Traced (s : Store) : Prop where
  rows : ∀ documentId, (textsOf documentId s = [] ∧ chunksOf documentId s = []) ∨
    ∃ parsed row, parses documentId parsed ∧ textsOf documentId s = [row] ∧
      row.text = parsed.text ∧ row.pageMap = parsed.pageMap ∧ Aligned parsed (chunksOf documentId s)
  results : ∀ kind, ∀ job ∈ s.jobs kind, ∀ result, job.result = some result →
    ResultOf parses kind job result
  items : ∀ item ∈ s.reviewItems, ∃ parsed, parses item.documentId parsed ∧
    CandidateFrom parsed.text item.source item.candidate

end Traced

section Frame

variable [Ucd] {parses parses' : Uuid → ParsedDocument → Prop}

/-- The result of a job is a matter of the job's references. -/
theorem ResultOf.congr {job job' : JobRow} {result : Json} (h : ResultOf parses kind job result)
    (hlink : job.link = job'.link) : ResultOf parses kind job' result := by
  obtain ⟨-, -, hdocument, hamended⟩ := JobRow.link_eq_iff.mp hlink
  cases kind with
  | ingestion => trivial
  | extraction =>
    obtain ⟨parsed, hparses, hfrom⟩ := h
    exact ⟨parsed, hdocument ▸ hparses, hfrom⟩
  | changeReport =>
    obtain ⟨amendedId, base, amended, hversion, hparses, hrest⟩ := h
    exact ⟨amendedId, base, amended, hamended ▸ hversion, hdocument ▸ hparses, hrest⟩

theorem ResultOf.mono {job : JobRow} {result : Json} (h : ResultOf parses kind job result)
    (hparses : ∀ {documentId parsed}, parses documentId parsed → parses' documentId parsed) :
    ResultOf parses' kind job result := by
  cases kind with
  | ingestion => trivial
  | extraction =>
    obtain ⟨parsed, hparsed, hfrom⟩ := h
    exact ⟨parsed, hparses hparsed, hfrom⟩
  | changeReport =>
    obtain ⟨amendedId, base, amended, hversion, hbase, hamended, hfrom⟩ := h
    exact ⟨amendedId, base, amended, hversion, hparses hbase, hparses hamended, hfrom⟩

/-- What an operation leaves of the data it does not compute: a document keeps its rows or loses all of
them, and no result and no item is new. -/
structure Leaves (s t : Store) : Prop where
  rows : ∀ documentId, (textsOf documentId t = [] ∧ chunksOf documentId t = []) ∨
    textsOf documentId t = textsOf documentId s ∧ chunksOf documentId t = chunksOf documentId s
  results : ∀ kind, ∀ job ∈ t.jobs kind, ∀ result, job.result = some result →
    ∃ old ∈ s.jobs kind, old.link = job.link ∧ old.result = some result
  items : ∀ item ∈ t.reviewItems, ∃ old ∈ s.reviewItems, old.documentId = item.documentId ∧
    old.source = item.source ∧ old.candidate = item.candidate

theorem Traced.leaves (h : Traced parses s) (hleaves : Leaves s t) : Traced parses t where
  rows documentId := by
    obtain hnone | ⟨htexts, hchunks⟩ := hleaves.rows documentId
    · exact .inl hnone
    · rw [htexts, hchunks]
      exact h.rows documentId
  results kind job hjob result hresult := by
    obtain ⟨old, hold, hlink, hsame⟩ := hleaves.results kind job hjob result hresult
    exact (h.results kind old hold result hsame).congr hlink
  items item hitem := by
    obtain ⟨old, hold, hdocument, hsource, hcandidate⟩ := hleaves.items item hitem
    rw [← hdocument, ← hsource, ← hcandidate]
    exact h.items old hold

/-- Only the parses of documents that are there matter. -/
theorem Traced.mono (h : Traced parses s) (hlinked : Linked s)
    (hparses : ∀ d ∈ s.documents, ∀ parsed, parses d.id parsed → parses' d.id parsed) :
    Traced parses' s where
  rows documentId := by
    refine (h.rows documentId).imp_right ?_
    rintro ⟨parsed, row, hparsed, htexts, hrest⟩
    have hrow : row ∈ textsOf documentId s := htexts ▸ List.mem_singleton_self row
    obtain ⟨hmem, hdocument⟩ := List.mem_filter.mp hrow
    obtain ⟨d, hd, hid, -⟩ := hlinked.texts row hmem
    obtain rfl := hid.trans (of_decide_eq_true hdocument)
    exact ⟨parsed, row, hparses d hd parsed hparsed, htexts, hrest⟩
  results kind job hjob result hresult := by
    obtain ⟨d, hd, hid, -⟩ := hlinked.jobs kind job hjob
    have hfrom := h.results kind job hjob result hresult
    cases kind with
    | ingestion => trivial
    | extraction =>
      obtain ⟨parsed, hparsed, hextracted⟩ := hfrom
      exact ⟨parsed, hid ▸ hparses d hd parsed (hid ▸ hparsed), hextracted⟩
    | changeReport =>
      obtain ⟨amendedId, base, amended, hversion, hbase, hamended, hreported⟩ := hfrom
      obtain ⟨d', hd', hversion', -⟩ := hlinked.reports job hjob
      obtain rfl := Option.some.inj (hversion.symm.trans hversion')
      exact ⟨d'.id, base, amended, hversion, hid ▸ hparses d hd base (hid ▸ hbase),
        hparses d' hd' amended hamended, hreported⟩
  items item hitem := by
    obtain ⟨parsed, hparsed, hcandidate⟩ := h.items item hitem
    obtain ⟨d, hd, hid, -⟩ := (hlinked.items item hitem).1
    exact ⟨parsed, hid ▸ hparses d hd parsed (hid ▸ hparsed), hcandidate⟩

end Frame

/-! ## Operations that compute nothing -/

/-- The operations that store what was computed of a document. -/
def Op.stores : Op → Bool
  | .replaceTextAndChunks .. | .completeJob .. | .insertReviewItems .. => true
  | _ => false

/-- Deleting the rows of one key. -/
theorem filter_delete {β κ : Type} [DecidableEq κ] (key : β → κ) (k k' : κ) (rows : List β) :
    (rows.filter fun row => key row ≠ k).filter (fun row => key row = k') =
      if k' = k then [] else rows.filter fun row => key row = k' := by
  have h := Ingestion.filter_replace key k k' rows [] (by simp)
  rwa [List.append_nil] at h

theorem Swept.textsOf (h : Swept documentId s t) (id : Uuid) :
    textsOf id t = if id = documentId then [] else textsOf id s := by
  unfold Ingestion.textsOf
  rw [h.texts]
  exact filter_delete TextRow.documentId documentId id s.texts

theorem Swept.chunksOf (h : Swept documentId s t) (id : Uuid) :
    chunksOf id t = if id = documentId then [] else chunksOf id s := by
  unfold Ingestion.chunksOf
  rw [h.chunks]
  exact filter_delete ChunkRow.documentId documentId id s.chunks

theorem Swept.leaves (h : Swept documentId s t) : Leaves s t where
  rows id := by
    rw [h.textsOf, h.chunksOf]
    split
    · exact .inl ⟨rfl, rfl⟩
    · exact .inr ⟨rfl, rfl⟩
  results kind job hjob result hresult := ⟨job, (h.mem_jobs hjob).1, rfl, hresult⟩
  items item hitem := by
    rw [h.reviewItems] at hitem
    exact ⟨item, List.mem_of_mem_filter hitem, rfl, rfl, rfl⟩

/-- Rows of a table that are updated without giving a result. -/
theorem results_withJobs {rows : List JobRow} (h : ∀ job ∈ rows, ∀ result, job.result = some result →
    ∃ old ∈ s.jobs kind, old.link = job.link ∧ old.result = some result) (k : JobKind) (job : JobRow)
    (hjob : job ∈ (s.withJobs kind rows).jobs k) (result : Json) (hresult : job.result = some result) :
    ∃ old ∈ s.jobs k, old.link = job.link ∧ old.result = some result := by
  rw [withJobs_jobs] at hjob
  split at hjob
  next hk => exact hk ▸ h job hjob result hresult
  next => exact ⟨job, hjob, rfl, hresult⟩

theorem results_updateRow {f : JobRow → JobRow} {id : Uuid} {rows : List JobRow}
    (hlink : ∀ job, (f job).link = job.link)
    (hf : ∀ job, (f job).result = none ∨ (f job).result = job.result) (job : JobRow)
    (hjob : job ∈ Jobs.updateRow id f rows) (result : Json) (hresult : job.result = some result) :
    ∃ old ∈ rows, old.link = job.link ∧ old.result = some result := by
  obtain ⟨old, hold, rfl⟩ := List.mem_map.mp hjob
  refine ⟨old, hold, ?_⟩
  split at hresult
  next hid =>
    rw [if_pos hid]
    obtain hnone | hsame := hf old
    · rw [hnone] at hresult
      cases hresult
    · exact ⟨(hlink old).symm, hsame ▸ hresult⟩
  next hid =>
    rw [if_neg hid]
    exact ⟨rfl, hresult⟩

theorem result_claim (now : Time) (job : JobRow) :
    (Jobs.claim now job).result = none ∨ (Jobs.claim now job).result = job.result := by
  unfold Jobs.claim
  split
  · exact .inl rfl
  · exact .inr rfl

theorem Effect.leaves (h : Effect o a s t) (ho : o.stores = false) : Leaves s t := by
  have hsame : ∀ item ∈ s.reviewItems, ∃ old ∈ s.reviewItems, old.documentId = item.documentId ∧
      old.source = item.source ∧ old.candidate = item.candidate :=
    fun item hitem => ⟨item, hitem, rfl, rfl, rfl⟩
  have hkept : ∀ k, ∀ job ∈ s.jobs k, ∀ result, job.result = some result →
      ∃ old ∈ s.jobs k, old.link = job.link ∧ old.result = some result :=
    fun _ job hjob _ hresult => ⟨job, hjob, rfl, hresult⟩
  cases h with
  | deleteSweep hswept => exact (Store.swept_of_deleteSweep hswept).leaves
  | insertJob =>
    refine ⟨fun _ => .inr ⟨rfl, rfl⟩, fun k job hjob result hresult => ?_, hsame⟩
    rcases of_mem_insertJob hjob with hjob | ⟨-, rfl⟩
    · exact ⟨job, hjob, rfl, hresult⟩
    · cases hresult
  | claimJob =>
    refine ⟨fun _ => .inr ⟨rfl, rfl⟩, results_withJobs fun job hjob result hresult => ?_, hsame⟩
    unfold Jobs.claimNext at hjob
    split at hjob
    · exact ⟨job, hjob, rfl, hresult⟩
    · exact results_updateRow (link_claim _) (result_claim _) job hjob result hresult
  | failJob =>
    refine ⟨fun _ => .inr ⟨rfl, rfl⟩, results_withJobs ?_, hsame⟩
    exact results_updateRow (fun _ => rfl) fun _ => .inl rfl
  | resolveReviewItem =>
    refine ⟨fun _ => .inr ⟨rfl, rfl⟩, hkept, fun item hitem => ?_⟩
    obtain ⟨old, hold, rfl⟩ := List.mem_map.mp hitem
    refine ⟨old, hold, ?_⟩
    split <;> exact ⟨rfl, rfl, rfl⟩
  | replaceTextAndChunks | completeJob | insertReviewItems => cases ho
  | _ => exact ⟨fun _ => .inr ⟨rfl, rfl⟩, hkept, hsame⟩

/-! ## Operations that store what was computed -/

section Stores

variable [Ucd] {parses : Uuid → ParsedDocument → Prop}

/-- A document's text and chunks are replaced by those of a parse of it. -/
theorem Traced.replace (h : Traced parses s) {parsed : ParsedDocument} {tenantId : Uuid}
    {embeddings : List Embedding} {ids issued : List Uuid} (hparsed : parses documentId parsed)
    (hlength : (chunkDocument parsed).length = embeddings.length)
    (hids : ids.length = (chunkDocument parsed).length) :
    Traced parses { s with
      texts := s.texts.filter (·.documentId ≠ documentId) ++
        [⟨documentId, tenantId, parsed.text, parsed.pageMap⟩]
      chunks := s.chunks.filter (·.documentId ≠ documentId) ++
        Store.chunkRows tenantId documentId (chunkDocument parsed) embeddings ids
      issued := issued } := by
  refine { h with rows := fun id => ?_ }
  have htexts := Ingestion.filter_replace TextRow.documentId documentId id s.texts
    [⟨documentId, tenantId, parsed.text, parsed.pageMap⟩]
    (fun row hrow => by rw [List.mem_singleton.mp hrow])
  have hchunks := Ingestion.filter_replace ChunkRow.documentId documentId id s.chunks
    (Store.chunkRows tenantId documentId (chunkDocument parsed) embeddings ids)
    (fun row hrow => Ingestion.documentId_of_mem_chunkRows hrow)
  unfold textsOf chunksOf
  rw [htexts, hchunks]
  by_cases hid : id = documentId
  · rw [if_pos hid, if_pos hid]
    exact .inr ⟨parsed, _, hid ▸ hparsed, rfl, rfl, rfl,
      Ingestion.chunkRows_aligned tenantId documentId hlength hids⟩
  · rw [if_neg hid, if_neg hid]
    exact h.rows id

/-- A job is completed with a result of its documents. -/
theorem Traced.complete (h : Traced parses s) {id : Uuid} {result : Json}
    (hresult : ∀ job ∈ s.jobs kind, job.id = id → ResultOf parses kind job result) :
    Traced parses (s.withJobs kind (Jobs.markCompleted id result (s.jobs kind))) := by
  refine { h with results := fun k job hjob stored hstored => ?_ }
  rw [withJobs_jobs] at hjob
  split at hjob
  next hk =>
    subst hk
    obtain ⟨old, hold, rfl⟩ := List.mem_map.mp hjob
    split at hstored
    next hid =>
      cases hstored
      rw [if_pos hid]
      exact (hresult old hold hid).congr rfl
    next hid =>
      rw [if_neg hid]
      exact h.results k old hold stored hstored
  next => exact h.results k job hjob stored hstored

/-- Candidates of a document are put up for review. -/
theorem Traced.route (h : Traced parses s) {tenantId jobId : Uuid} {source : ReviewItemSource}
    {items : List (Str × Json × Rat)} {ids issued : List Uuid} {now : Time}
    (hitems : ∀ candidate ∈ items, ∃ parsed, parses documentId parsed ∧
      CandidateFrom parsed.text source candidate) :
    Traced parses { s with
      reviewItems := s.reviewItems ++ (items.zip ids).map fun entry =>
        ⟨entry.2, tenantId, source, entry.1.1, documentId, jobId, entry.1.2.1, entry.1.2.2, .pending,
          none, none, now⟩
      issued := issued } := by
  refine { h with items := fun item hitem => ?_ }
  rcases List.mem_append.mp hitem with hitem | hitem
  · exact h.items item hitem
  · obtain ⟨⟨candidate, id⟩, hentry, rfl⟩ := List.mem_map.mp hitem
    exact hitems candidate (List.of_mem_zip hentry).1

end Stores

/-! ## Parses of the documents -/

/-- Nothing but the status of a row is updated, no id comes back, and a text stays as long as its
document. -/
structure Steady (s t : Store) : Prop extends Later s t where
  identities : ∀ d' ∈ t.documents, d'.id ∈ s.issued → ∃ d ∈ s.documents, identity d = identity d'
  texts : ∀ d' ∈ t.documents, d'.id ∈ s.issued → textsOf d'.id s ≠ [] → textsOf d'.id t ≠ []

namespace Steady

theorem refl (s : Store) : Steady s s := ⟨.refl s, fun d hd _ => ⟨d, hd, rfl⟩, fun _ _ _ h => h⟩

theorem trans {u : Store} (hst : Steady s t) (htu : Steady t u) : Steady s u := by
  have hback : ∀ d'' ∈ u.documents, d''.id ∈ s.issued → ∃ d' ∈ t.documents, identity d' = identity d'' :=
    fun d'' hd'' hid => htu.identities d'' hd'' (hst.issued _ hid)
  refine ⟨hst.toLater.trans htu.toLater, fun d'' hd'' hid => ?_, fun d'' hd'' hid htext => ?_⟩
  · obtain ⟨d', hd', heq'⟩ := hback d'' hd'' hid
    obtain ⟨d, hd, heq⟩ := hst.identities d' hd' ((eq_of_identity_eq heq').1 ▸ hid)
    exact ⟨d, hd, heq.trans heq'⟩
  · obtain ⟨d', hd', heq'⟩ := hback d'' hd'' hid
    have hsame := (eq_of_identity_eq heq').1
    exact htu.texts d'' hd'' (hst.issued _ hid) (hsame ▸ hst.texts d' hd' (hsame ▸ hid) (hsame ▸ htext))

end Steady

theorem Effect.steady (h : Effect o a s t) : Steady s t := by
  refine ⟨h.later, fun d hd hid => ?_, fun d hd _ htext => ?_⟩
  · cases h with
    | @insertDocument _ _ _ _ _ _ _ id hnew =>
      rcases List.mem_append.mp hd with hd | hd
      · exact ⟨d, hd, rfl⟩
      · rw [List.mem_singleton.mp hd] at hid
        exact absurd hid (hnew ▸ draw_not_mem _ _)
    | setDocumentStatus =>
      obtain ⟨old, hold, rfl⟩ := List.mem_map.mp hd
      refine ⟨old, hold, ?_⟩
      split <;> rfl
    | deleteSweep hswept =>
      rw [(Store.swept_of_deleteSweep hswept).documents] at hd
      exact ⟨d, List.mem_of_mem_filter hd, rfl⟩
    | _ => exact ⟨d, hd, rfl⟩
  · cases h with
    | deleteSweep hswept =>
      replace hswept := Store.swept_of_deleteSweep hswept
      rw [hswept.documents, List.mem_filter] at hd
      rwa [hswept.textsOf, if_neg (by simpa using hd.2)]
    | @replaceTextAndChunks tenantId documentId text pageMap =>
      have hreplaced := Ingestion.filter_replace TextRow.documentId documentId d.id s.texts
        [⟨documentId, tenantId, text, pageMap⟩] (fun row hrow => by rw [List.mem_singleton.mp hrow])
      unfold textsOf
      rw [hreplaced]
      split
      · exact List.cons_ne_nil _ _
      · exact htext
    | _ => exact htext

theorem steady_tick (elapsed : Time) (s : Store) : Steady s (s.tick elapsed) :=
  ⟨later_tick elapsed s, fun d hd _ => ⟨d, hd, rfl⟩, fun _ _ _ h => h⟩

section Provenance

variable [Platform] (Saved : Uuid → Parsing.Bytes → Prop)

/-- A parse of bytes that the document's tenant had saved, and that have the document's digest. -/
def ParseOf (d : DocumentRow) (parsed : ParsedDocument) : Prop :=
  ∃ content, Platform.sha256 content = d.sha256 ∧ Saved d.tenantId content ∧
    Parsing.parse d.mimeType content = .ok parsed

/-- A document under this id, if there still is one, parses so. -/
structure Parses (s : Store) (documentId : Uuid) (parsed : ParsedDocument) : Prop where
  issued : documentId ∈ s.issued
  rows : ∀ d ∈ s.documents, d.id = documentId → ParseOf Saved d parsed

variable {Saved}

theorem Parses.later {parsed : ParsedDocument} (h : Parses Saved s documentId parsed)
    (hsteady : Steady s t) : Parses Saved t documentId parsed := by
  refine ⟨hsteady.issued _ h.issued, fun d' hd' hid => ?_⟩
  obtain ⟨d, hd, heq⟩ := hsteady.identities d' hd' (hid ▸ h.issued)
  obtain ⟨hsame, htenant, hsha, hmime⟩ := eq_of_identity_eq heq
  obtain ⟨content, hdigest, hsaved, hparse⟩ := h.rows d hd (hsame.trans hid)
  exact ⟨content, hdigest.trans hsha, htenant ▸ hsaved, hmime ▸ hparse⟩

variable (Saved) in
/-- It is there with a text. -/
structure ReadsAs (s : Store) (documentId : Uuid) (parsed : ParsedDocument) : Prop
    extends Parses Saved s documentId parsed where
  stored : ∀ d ∈ s.documents, d.id = documentId → textsOf documentId s ≠ []

theorem ReadsAs.later {parsed : ParsedDocument} (h : ReadsAs Saved s documentId parsed)
    (hsteady : Steady s t) : ReadsAs Saved t documentId parsed := by
  refine ⟨h.toParses.later hsteady, ?_⟩
  rintro d' hd' rfl
  obtain ⟨d, hd, heq⟩ := hsteady.identities d' hd' h.issued
  exact hsteady.texts d' hd' h.issued (h.stored d hd (eq_of_identity_eq heq).1)

variable (Saved) in
/-- Every file is under the digest of its content, which the tenant had saved. -/
def ByDigest (files : Uuid → Str → Option Parsing.Bytes) : Prop :=
  ∀ tenantId sha256 content, files tenantId sha256 = some content →
    Platform.sha256 content = sha256 ∧ Saved tenantId content

theorem byDigest_effect (heffect : Effect o a s t) (hsaves : Saves Saved o)
    (h : ByDigest Saved s.files) : ByDigest Saved t.files := by
  by_cases hfiles : o.writesFiles
  · cases heffect with
    | nothing => exact h
    | @saveFile tenant sha content =>
      intro tenantId sha256 found hfound
      by_cases hname : tenantId = tenant ∧ sha256 = sha
      · obtain ⟨rfl, rfl⟩ := hname
        rw [show found = content from Option.some.inj (hfound.symm.trans (if_pos ⟨rfl, rfl⟩))]
        exact hsaves _ _ _ rfl
      · exact h _ _ _ (Eq.trans (if_neg hname).symm hfound)
    | @unlinkFile tenant sha =>
      intro tenantId sha256 found hfound
      by_cases hname : tenantId = tenant ∧ sha256 = sha
      · cases (if_pos hname : (if _ then none else _) = none).symm.trans hfound
      · exact h _ _ _ (Eq.trans (if_neg hname).symm hfound)
    | _ => cases hfiles
  · rwa [heffect.files (by simpa using hfiles)]

variable [Ucd]

variable (Saved) in
/-- The rows belong together, and what is stored comes from the documents' bytes. -/
structure Derived (s : Store) : Prop where
  linked : Linked s
  files : ByDigest Saved s.files
  traced : Traced (ReadsAs Saved s) s

theorem Derived.empty (now : Time) : Derived Saved (.empty now) where
  linked := .empty now
  files := nofun
  traced := ⟨fun _ => .inl ⟨rfl, rfl⟩, nofun, nofun⟩

/-- What is derived from contents is derived from more contents. -/
theorem Derived.mono {Saved' : Uuid → Parsing.Bytes → Prop} (h : Derived Saved s)
    (hsaved : ∀ tenantId content, Saved tenantId content → Saved' tenantId content) :
    Derived Saved' s where
  linked := h.linked
  files tenantId sha256 content hfile :=
    (h.files tenantId sha256 content hfile).imp_right (hsaved tenantId content)
  traced := h.traced.mono h.linked fun _ _ _ hreads => by
    refine ⟨⟨hreads.issued, fun d hd hid => ?_⟩, hreads.stored⟩
    obtain ⟨content, hdigest, hsaved', hparse⟩ := hreads.rows d hd hid
    exact ⟨content, hdigest, hsaved _ _ hsaved', hparse⟩

theorem Derived.tick (h : Derived Saved s) (elapsed : Time) : Derived Saved (s.tick elapsed) where
  linked := h.linked.tick elapsed
  files := h.files
  traced := (h.traced.mono h.linked fun _ _ _ hreads =>
    hreads.later (steady_tick elapsed s)).leaves
      ⟨fun _ => .inr ⟨rfl, rfl⟩, fun _ job hjob _ hresult => ⟨job, hjob, rfl, hresult⟩,
        fun item hitem => ⟨item, hitem, rfl, rfl, rfl⟩⟩

/-- The row under the job's id, if there still is one, refers to what the job does. -/
structure Pinned (kind : JobKind) (job : JobRow) (s : Store) : Prop where
  issued : job.id ∈ s.issued
  rows : ∀ row ∈ s.jobs kind, row.id = job.id → row.link = job.link

omit [Platform] [Ucd] in
theorem Pinned.later {job : JobRow} (h : Pinned kind job s) (hlater : Later s t) : Pinned kind job t := by
  refine ⟨hlater.issued _ h.issued, fun row' hrow' hid => ?_⟩
  obtain ⟨row, hrow, hlink⟩ := hlater.jobs kind row' hrow' (hid ▸ h.issued)
  rw [← hlink]
  exact h.rows row hrow ((JobRow.link_eq_iff.mp hlink).1.trans hid)

omit [Platform] [Ucd] in
theorem Linked.pinned (h : Linked s) {job : JobRow} (hjob : job ∈ s.jobs kind) : Pinned kind job s :=
  ⟨(h.jobKeys kind).2 job hjob, fun _ hrow hid =>
    congrArg JobRow.link (Jobs.eq_of_id_eq (h.jobKeys kind).1 hrow hjob hid)⟩

variable (Saved) in
/-- Whoever stores something has computed it from parses of the documents it is about. -/
def Warranted : Op → Store → Prop
  | .replaceTextAndChunks _ documentId text pageMap chunks _, s => ∃ parsed,
    Parses Saved s documentId parsed ∧ text = parsed.text ∧ pageMap = parsed.pageMap ∧
      chunks = chunkDocument parsed
  | .completeJob kind id result, s => kind ≠ .ingestion → ∃ job, job.id = id ∧ Pinned kind job s ∧
    ResultOf (ReadsAs Saved s) kind job result
  | .insertReviewItems _ source documentId _ items, s => ∀ candidate ∈ items, ∃ parsed,
    ReadsAs Saved s documentId parsed ∧ CandidateFrom parsed.text source candidate
  | _, _ => True

/-- An operation that is warranted keeps the stored data derived. -/
theorem Derived.effect (h : Derived Saved s) (hknows : Knows o s) (hsaves : Saves Saved o)
    (hwarranted : Warranted Saved o s) (heffect : Effect o a s t) : Derived Saved t := by
  have hsteady := heffect.steady
  have hmoved : Traced (ReadsAs Saved t) s :=
    h.traced.mono h.linked fun _ _ _ hreads => hreads.later hsteady
  refine ⟨h.linked.effect hknows heffect, byDigest_effect heffect hsaves h.files, ?_⟩
  by_cases ho : o.stores
  · cases heffect with
    | nothing => exact hmoved
    | replaceTextAndChunks hdocument hlength hids =>
      obtain ⟨parsed, hparses, rfl, rfl, rfl⟩ := hwarranted
      refine hmoved.replace ⟨hparses.later hsteady, fun _ _ _ => ?_⟩ hlength
        (hids ▸ length_drawMany _ _ _)
      unfold textsOf
      rw [List.filter_append]
      simp
    | @completeJob kind id result =>
      refine hmoved.complete fun row hrow hid => ?_
      by_cases hkind : kind = .ingestion
      · subst hkind
        trivial
      · obtain ⟨job, rfl, hpinned, hresult⟩ := hwarranted hkind
        exact (hresult.mono fun hreads => hreads.later hsteady).congr (hpinned.rows row hrow hid).symm
    | insertReviewItems hdocument hids hrows =>
      subst hrows
      refine hmoved.route fun candidate hcandidate => ?_
      obtain ⟨parsed, hreads, hfrom⟩ := hwarranted candidate hcandidate
      exact ⟨parsed, hreads.later hsteady, hfrom⟩
    | _ => cases ho
  · exact hmoved.leaves (heffect.leaves (by simpa using ho))

theorem Warranted.later (h : Warranted Saved o s) (hsteady : Steady s t) : Warranted Saved o t := by
  cases o with
  | replaceTextAndChunks =>
    obtain ⟨parsed, hparses, hrest⟩ := h
    exact ⟨parsed, hparses.later hsteady, hrest⟩
  | completeJob =>
    intro hkind
    obtain ⟨job, hid, hpinned, hresult⟩ := h hkind
    exact ⟨job, hid, hpinned.later hsteady.toLater, hresult.mono fun hreads => hreads.later hsteady⟩
  | insertReviewItems =>
    intro candidate hcandidate
    obtain ⟨parsed, hreads, hfrom⟩ := h candidate hcandidate
    exact ⟨parsed, hreads.later hsteady, hfrom⟩
  | _ => trivial

variable (Saved) in
/-- The members know what they refer to, save contents under their digests and have computed what they
store. -/
def provenance : Lib.Permission exec Store.tick where
  Inv := Derived Saved
  Later := Steady
  May o s := Knows o s ∧ Saves Saved o ∧ Warranted Saved o s
  refl := .refl
  trans _ _ _ := .trans
  lasts _ _ _ h hsteady := ⟨h.1.later hsteady.toLater, h.2.1, h.2.2.later hsteady⟩
  keeps o a l t h hmay :=
    ⟨h.effect hmay.1 hmay.2.1 hmay.2.2 (exec_effect o a l t), (exec_effect o a l t).steady⟩
  drift_inv elapsed _ h := h.tick elapsed
  drift_later elapsed s := steady_tick elapsed s

end Provenance

end ContractIntel
