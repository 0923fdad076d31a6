import ContractIntel.Laws.Store.Jobs

/-!
# Rows that belong together

The tables refer to one another: amendments to their parents, texts, chunks, jobs and review items
to documents, reports to amendments, review items to jobs. `Linked` says what these references
come to, tenants included. `Later` is what time does to rows already there: their references are
never rewritten and their ids never come back, so what a party knows of an id stays known.

`Linked.effect` says that an operation keeps the references when whoever performs it knows what it
refers to (`Knows`).
-/

namespace ContractIntel

open Jobs (JobRow)

/-! ## References -/

/-- The columns of a document that no update writes. -/
def DocumentRow.link (d : DocumentRow) : Uuid × Uuid × Option Uuid :=
  (d.id, d.tenantId, d.amendsDocumentId)

/-- The columns of a job that no update writes. -/
def Jobs.JobRow.link (job : JobRow) : Uuid × Uuid × Uuid × Option Uuid :=
  (job.id, job.tenantId, job.documentId, job.amendedDocumentId)

theorem DocumentRow.link_eq_iff {d d' : DocumentRow} : d.link = d'.link ↔
    d.id = d'.id ∧ d.tenantId = d'.tenantId ∧ d.amendsDocumentId = d'.amendsDocumentId := by
  simp [link]

theorem Jobs.JobRow.link_eq_iff {job job' : JobRow} : job.link = job'.link ↔
    job.id = job'.id ∧ job.tenantId = job'.tenantId ∧ job.documentId = job'.documentId ∧
      job.amendedDocumentId = job'.amendedDocumentId := by
  simp [link]

/-- The table a review item's source names. -/
def ReviewItemSource.kind : ReviewItemSource → JobKind
  | .extraction => .extraction
  | .impactMapping => .changeReport

variable {o : Op} {a : Answer} {s t : Store} {kind : JobKind} {tenantId documentId id : Uuid}

/-- The document is there, and the tenant's. -/
def Store.Has (tenantId documentId : Uuid) (s : Store) : Prop :=
  ∃ d ∈ s.documents, d.id = documentId ∧ d.tenantId = tenantId

/-- A document under this id, if there still is one, is the tenant's. -/
structure Owned (tenantId documentId : Uuid) (s : Store) : Prop where
  issued : documentId ∈ s.issued
  rows : ∀ d ∈ s.documents, d.id = documentId → d.tenantId = tenantId

/-- A document under this id, if there still is one, is the tenant's and amends the other one. -/
structure Amends (tenantId amendedId baseId : Uuid) (s : Store) : Prop where
  issued : amendedId ∈ s.issued
  rows : ∀ d ∈ s.documents, d.id = amendedId →
    d.tenantId = tenantId ∧ d.amendsDocumentId = some baseId

theorem Amends.owned {amendedId baseId : Uuid} (h : Amends tenantId amendedId baseId s) :
    Owned tenantId amendedId s :=
  ⟨h.issued, fun d hd hid => (h.rows d hd hid).1⟩

/-- A job under this id, if there still is one, is of the kind, the tenant and the document; and
unless it is a report it is there as long as the document is. -/
structure JobOf (kind : JobKind) (tenantId documentId jobId : Uuid) (s : Store) : Prop where
  issued : jobId ∈ s.issued
  document : documentId ∈ s.issued
  rows : ∀ k, ∀ job ∈ s.jobs k, job.id = jobId →
    k = kind ∧ job.tenantId = tenantId ∧ job.documentId = documentId
  kept : kind ≠ .changeReport → s.Has tenantId documentId → ∃ job ∈ s.jobs kind, job.id = jobId

structure Linked (s : Store) : Prop where
  keys : (s.documents.map DocumentRow.id).Nodup
  issued : ∀ d ∈ s.documents, d.id ∈ s.issued
  parents : ∀ d ∈ s.documents, ∀ parent, d.amendsDocumentId = some parent → s.Has d.tenantId parent
  texts : ∀ row ∈ s.texts, s.Has row.tenantId row.documentId
  chunks : ∀ row ∈ s.chunks, s.Has row.tenantId row.documentId
  jobKeys : Keyed s
  jobKinds : ∀ k, ∀ job ∈ s.jobs k, ∀ k', ∀ job' ∈ s.jobs k', job.id = job'.id → k = k'
  jobs : ∀ k, ∀ job ∈ s.jobs k, s.Has job.tenantId job.documentId
  reports : ∀ job ∈ s.jobs .changeReport, ∃ d ∈ s.documents, job.amendedDocumentId = some d.id ∧
    d.tenantId = job.tenantId ∧ d.amendsDocumentId = some job.documentId
  items : ∀ item ∈ s.reviewItems, s.Has item.tenantId item.documentId ∧
    JobOf item.source.kind item.tenantId item.documentId item.jobId s

theorem Linked.empty (now : Time) : Linked (.empty now) where
  keys := .nil
  issued := nofun
  parents := nofun
  texts := nofun
  chunks := nofun
  jobKeys _ := ⟨.nil, nofun⟩
  jobKinds := nofun
  jobs := nofun
  reports := nofun
  items := nofun

section Reads

theorem Linked.document_eq (h : Linked s) {d d' : DocumentRow} (hd : d ∈ s.documents)
    (hd' : d' ∈ s.documents) (hid : d.id = d'.id) : d = d' :=
  List.inj_on_of_nodup_map h.keys hd hd' hid

theorem Linked.owned (h : Linked s) (hhas : s.Has tenantId documentId) :
    Owned tenantId documentId s := by
  obtain ⟨d, hd, rfl, rfl⟩ := hhas
  exact ⟨h.issued d hd, fun d' hd' hid => by rw [h.document_eq hd' hd hid]⟩

/-- What a lookup finds is the tenant's. -/
theorem has_of_findDocument {d : DocumentRow} (h : s.findDocument tenantId documentId = some d) :
    d ∈ s.documents ∧ d.id = documentId ∧ d.tenantId = tenantId := by
  have hkey := List.find?_some h
  simp only [Bool.and_eq_true, decide_eq_true_eq] at hkey
  exact ⟨List.mem_of_find?_eq_some h, hkey.1, hkey.2⟩

theorem has_of_document?_isSome (h : (s.document? documentId).isSome)
    (howned : Owned tenantId documentId s) : s.Has tenantId documentId := by
  obtain ⟨d, hd⟩ := Option.isSome_iff_exists.mp h
  have hmem := List.mem_of_find?_eq_some hd
  have hid : d.id = documentId := by simpa using List.find?_some hd
  exact ⟨d, hmem, hid, howned.rows d hmem hid⟩

theorem Linked.jobOf (h : Linked s) {job : JobRow} (hjob : job ∈ s.jobs kind) :
    JobOf kind job.tenantId job.documentId job.id s := by
  obtain ⟨d, hd, hid, -⟩ := h.jobs kind job hjob
  refine ⟨(h.jobKeys kind).2 job hjob, hid ▸ h.issued d hd, fun k job' hjob' hsame => ?_,
    fun _ _ => ⟨job, hjob, rfl⟩⟩
  obtain rfl := h.jobKinds k job' hjob' kind job hjob hsame
  rw [Jobs.eq_of_id_eq (h.jobKeys k).1 hjob' hjob hsame]
  exact ⟨rfl, rfl, rfl⟩

end Reads

/-! ## Later stores -/

/-- What becomes of the rows of a store: an id in use stays in use, the row under it, if there
still is one, refers to what it referred to, and a job that is no report stays as long as its
document. -/
structure Later (s t : Store) : Prop where
  issued : ∀ id ∈ s.issued, id ∈ t.issued
  documents : ∀ d' ∈ t.documents, d'.id ∈ s.issued → ∃ d ∈ s.documents, d.link = d'.link
  jobs : ∀ k, ∀ job' ∈ t.jobs k, job'.id ∈ s.issued → ∃ job ∈ s.jobs k, job.link = job'.link
  kept : ∀ k, k ≠ .changeReport → ∀ job ∈ s.jobs k, job.documentId ∈ s.issued →
    (∃ d ∈ t.documents, d.id = job.documentId) → ∃ job' ∈ t.jobs k, job'.link = job.link

namespace Later

theorem refl (s : Store) : Later s s :=
  ⟨fun _ h => h, fun d hd _ => ⟨d, hd, rfl⟩, fun _ job hjob _ => ⟨job, hjob, rfl⟩,
    fun _ _ job hjob _ _ => ⟨job, hjob, rfl⟩⟩

theorem trans {u : Store} (hst : Later s t) (htu : Later t u) : Later s u := by
  have hback : ∀ d'' ∈ u.documents, d''.id ∈ s.issued →
      ∃ d' ∈ t.documents, d'.link = d''.link := fun d'' hd'' hid =>
    htu.documents d'' hd'' (hst.issued _ hid)
  refine ⟨fun id hid => htu.issued id (hst.issued id hid), fun d'' hd'' hid => ?_,
    fun k job'' hjob'' hid => ?_, fun k hk job hjob hissued hdocument => ?_⟩
  · obtain ⟨d', hd', hlink'⟩ := hback d'' hd'' hid
    obtain ⟨d, hd, hlink⟩ := hst.documents d' hd' ((DocumentRow.link_eq_iff.mp hlink').1 ▸ hid)
    exact ⟨d, hd, hlink.trans hlink'⟩
  · obtain ⟨job', hjob', hlink'⟩ := htu.jobs k job'' hjob'' (hst.issued _ hid)
    obtain ⟨job, hjob, hlink⟩ := hst.jobs k job' hjob' ((JobRow.link_eq_iff.mp hlink').1 ▸ hid)
    exact ⟨job, hjob, hlink.trans hlink'⟩
  · obtain ⟨d'', hd'', hid⟩ := hdocument
    obtain ⟨d', hd', hlink'⟩ := hback d'' hd'' (hid ▸ hissued)
    obtain ⟨job', hjob', hlink⟩ := hst.kept k hk job hjob hissued
      ⟨d', hd', (DocumentRow.link_eq_iff.mp hlink').1.trans hid⟩
    have hsame := (JobRow.link_eq_iff.mp hlink).2.2.1
    obtain ⟨job'', hjob'', hlink''⟩ := htu.kept k hk job' hjob' (hsame ▸ hst.issued _ hissued)
      ⟨d'', hd'', hid.trans hsame.symm⟩
    exact ⟨job'', hjob'', hlink''.trans hlink⟩

/-- Rewriting rows without touching what they refer to. -/
theorem of_links (hissued : ∀ id ∈ s.issued, id ∈ t.issued)
    (hdocuments : t.documents.map DocumentRow.link = s.documents.map DocumentRow.link)
    (hjobs : ∀ k, (t.jobs k).map JobRow.link = (s.jobs k).map JobRow.link) : Later s t := by
  have hjob : ∀ {k} {rows : List JobRow} {job}, job ∈ t.jobs k →
      rows.map JobRow.link = (t.jobs k).map JobRow.link → ∃ old ∈ rows, old.link = job.link :=
    fun hmem heq => List.mem_map.mp (heq ▸ List.mem_map_of_mem hmem)
  refine ⟨hissued, fun d' hd' _ => ?_, fun k job' hjob' _ => hjob hjob' (hjobs k).symm, ?_⟩
  · exact List.mem_map.mp (hdocuments ▸ List.mem_map_of_mem hd')
  · intro k _ job hmem _ _
    exact List.mem_map.mp ((hjobs k).symm ▸ List.mem_map_of_mem hmem)

theorem owned (h : Later s t) (howned : Owned tenantId documentId s) :
    Owned tenantId documentId t := by
  refine ⟨h.issued _ howned.issued, fun d' hd' hid => ?_⟩
  obtain ⟨d, hd, hlink⟩ := h.documents d' hd' (hid ▸ howned.issued)
  obtain ⟨hsame, htenant, -⟩ := DocumentRow.link_eq_iff.mp hlink
  rw [← htenant]
  exact howned.rows d hd (hsame.trans hid)

theorem amends {amendedId baseId : Uuid} (h : Later s t)
    (hamends : Amends tenantId amendedId baseId s) : Amends tenantId amendedId baseId t := by
  refine ⟨h.issued _ hamends.issued, fun d' hd' hid => ?_⟩
  obtain ⟨d, hd, hlink⟩ := h.documents d' hd' (hid ▸ hamends.issued)
  obtain ⟨hsame, htenant, hparent⟩ := DocumentRow.link_eq_iff.mp hlink
  rw [← htenant, ← hparent]
  exact hamends.rows d hd (hsame.trans hid)

theorem jobOf (h : Later s t) (hjob : JobOf kind tenantId documentId id s) :
    JobOf kind tenantId documentId id t := by
  refine ⟨h.issued _ hjob.issued, h.issued _ hjob.document, fun k job' hjob' hid => ?_,
    fun hkind hhas => ?_⟩
  · obtain ⟨job, hmem, hlink⟩ := h.jobs k job' hjob' (hid ▸ hjob.issued)
    obtain ⟨hsame, htenant, hdocument, -⟩ := JobRow.link_eq_iff.mp hlink
    rw [← htenant, ← hdocument]
    exact hjob.rows k job hmem (hsame.trans hid)
  · obtain ⟨d', hd', hid, htenant⟩ := hhas
    obtain ⟨d, hd, hlink⟩ := h.documents d' hd' (hid ▸ hjob.document)
    obtain ⟨hsame, hsameTenant, -⟩ := DocumentRow.link_eq_iff.mp hlink
    obtain ⟨job, hmem, rfl⟩ := hjob.kept hkind
      ⟨d, hd, hsame.trans hid, hsameTenant.trans htenant⟩
    have hdocument := (hjob.rows kind job hmem rfl).2.2
    obtain ⟨job', hmem', hlink'⟩ := h.kept kind hkind job hmem (hdocument ▸ hjob.document)
      ⟨d', hd', hid.trans hdocument.symm⟩
    exact ⟨job', hmem', (JobRow.link_eq_iff.mp hlink').1⟩

end Later

/-! ## Deletes -/

/-- What a committed delete of a document does. -/
structure Swept (documentId : Uuid) (s t : Store) : Prop where
  spared : ∀ d ∈ s.documents, d.amendsDocumentId ≠ some documentId
  based : ∀ job ∈ s.jobs .changeReport, job.amendedDocumentId ≠ some documentId →
    job.documentId ≠ documentId
  reports : t.jobs .changeReport =
    (s.jobs .changeReport).filter (·.amendedDocumentId ≠ some documentId)
  jobs : ∀ k, k ≠ .changeReport → t.jobs k = (s.jobs k).filter (·.documentId ≠ documentId)
  rest : t = { s with
    documents := s.documents.filter (·.id ≠ documentId)
    texts := s.texts.filter (·.documentId ≠ documentId)
    chunks := s.chunks.filter (·.documentId ≠ documentId)
    jobs := t.jobs
    reviewItems := s.reviewItems.filter fun item =>
      item.jobId ∉ s.reportsOfAmendment documentId && item.documentId ≠ documentId }

theorem Store.deleteSweep_cases (documentId : Uuid) (s : Store) :
    (∃ t, s.deleteSweep documentId = .ok ((), t) ∧ Swept documentId s t) ∨
      s.deleteSweep documentId = .error .integrityError ∧
        ((∃ d ∈ s.documents, d.amendsDocumentId = some documentId) ∨
          ∃ job ∈ s.jobs .changeReport, job.amendedDocumentId ≠ some documentId ∧
            job.documentId = documentId) := by
  unfold deleteSweep
  dsimp only
  split
  next hreferred =>
    refine .inr ⟨rfl, ?_⟩
    simpa [hasAmendments, List.any_eq_true, and_assoc] using hreferred
  next hfree =>
    refine .inl ⟨_, rfl, ?_⟩
    simp only [hasAmendments, Bool.or_eq_true, List.any_eq_true, decide_eq_true_eq, not_or,
      not_exists, not_and, List.mem_filter, ne_eq, decide_not, Bool.not_eq_true',
      decide_eq_false_iff_not, and_imp] at hfree
    refine ⟨hfree.1, hfree.2, rfl, fun k hk => ?_, rfl⟩
    cases k with
    | changeReport => exact absurd rfl hk
    | ingestion | extraction => rfl

theorem Store.swept_of_deleteSweep {r : Unit} (h : s.deleteSweep documentId = .ok (r, t)) :
    Swept documentId s t := by
  rcases s.deleteSweep_cases documentId with ⟨t', hok, hswept⟩ | ⟨herror, -⟩
  · rw [hok] at h
    cases h
    exact hswept
  · rw [herror] at h
    cases h

namespace Swept

variable (h : Swept documentId s t)

include h

theorem documents : t.documents = s.documents.filter (·.id ≠ documentId) := by rw [h.rest]

theorem texts : t.texts = s.texts.filter (·.documentId ≠ documentId) := by rw [h.rest]

theorem chunks : t.chunks = s.chunks.filter (·.documentId ≠ documentId) := by rw [h.rest]

theorem reviewItems : t.reviewItems = s.reviewItems.filter fun item =>
    item.jobId ∉ s.reportsOfAmendment documentId && item.documentId ≠ documentId := by rw [h.rest]

theorem issued : t.issued = s.issued := by rw [h.rest]

theorem mem_jobs {job : JobRow} (hjob : job ∈ t.jobs kind) :
    job ∈ s.jobs kind ∧ job.documentId ≠ documentId := by
  by_cases hkind : kind = .changeReport
  · subst hkind
    rw [h.reports, List.mem_filter] at hjob
    exact ⟨hjob.1, h.based job hjob.1 (by simpa using hjob.2)⟩
  · rw [h.jobs kind hkind, List.mem_filter] at hjob
    exact ⟨hjob.1, by simpa using hjob.2⟩

theorem later : Later s t := by
  refine ⟨fun id hid => h.issued ▸ hid, fun d hd _ => ?_, fun k job hjob _ => ?_,
    fun k hk job hjob _ hdocument => ?_⟩
  · rw [h.documents] at hd
    exact ⟨d, List.mem_of_mem_filter hd, rfl⟩
  · exact ⟨job, (h.mem_jobs hjob).1, rfl⟩
  · obtain ⟨d, hd, hid⟩ := hdocument
    rw [h.documents, List.mem_filter] at hd
    have hother : job.documentId ≠ documentId := hid ▸ by simpa using hd.2
    refine ⟨job, ?_, rfl⟩
    rw [h.jobs k hk]
    exact List.mem_filter.mpr ⟨hjob, by simpa using hother⟩

theorem has {other : Uuid} (hhas : s.Has tenantId other) (hother : other ≠ documentId) :
    t.Has tenantId other := by
  obtain ⟨d, hd, hid, htenant⟩ := hhas
  refine ⟨d, ?_, hid, htenant⟩
  rw [h.documents]
  exact List.mem_filter.mpr ⟨hd, by simpa [hid] using hother⟩

end Swept

/-! ## Operations -/

theorem map_link_updateRow {f : JobRow → JobRow} {rows : List JobRow}
    (hf : ∀ job, (f job).link = job.link) :
    (Jobs.updateRow id f rows).map JobRow.link = rows.map JobRow.link := by
  rw [Jobs.updateRow, List.map_map]
  refine List.map_congr_left fun job _ => ?_
  by_cases hid : job.id = id <;> simp [hid, hf]

theorem link_claim (now : Time) (job : JobRow) : (Jobs.claim now job).link = job.link := by
  unfold Jobs.claim
  split <;> rfl

theorem map_link_claimNext (now : Time) (locked : List Uuid) (rows : List JobRow) :
    (Jobs.claimNext now locked rows).2.map JobRow.link = rows.map JobRow.link := by
  rcases Jobs.claimNext_cases now locked rows with heq | ⟨job, -, -, -, heq⟩
  · rw [heq]
  · rw [heq]
    exact map_link_updateRow (link_claim now)

theorem map_link_withJobs {rows : List JobRow}
    (h : rows.map JobRow.link = (s.jobs kind).map JobRow.link) (k : JobKind) :
    ((s.withJobs kind rows).jobs k).map JobRow.link = (s.jobs k).map JobRow.link := by
  rw [withJobs_jobs]
  split
  next hk => rw [hk, h]
  next => rfl

theorem mem_insertJob {job row : JobRow} {ids : List Uuid} {k : JobKind} (h : job ∈ s.jobs k) :
    job ∈ ({ s.withJobs kind (s.jobs kind ++ [row]) with issued := ids } : Store).jobs k := by
  rw [withJobs_jobs]
  split
  next hk => exact List.mem_append_left _ (hk ▸ h)
  next => exact h

theorem of_mem_insertJob {job row : JobRow} {ids : List Uuid} {k : JobKind}
    (h : job ∈ ({ s.withJobs kind (s.jobs kind ++ [row]) with issued := ids } : Store).jobs k) :
    job ∈ s.jobs k ∨ k = kind ∧ job = row := by
  rw [withJobs_jobs] at h
  split at h
  next hk =>
    rcases List.mem_append.mp h with h | h
    · exact .inl (hk ▸ h)
    · exact .inr ⟨hk, List.mem_singleton.mp h⟩
  next => exact .inl h

/-- The operations that insert or delete documents or jobs. -/
def Op.writesLinks : Op → Bool
  | .insertDocument .. | .insertJob .. | .deleteSweep .. => true
  | _ => false

/-- Other operations rewrite no reference of a document or a job. -/
theorem Effect.links (h : Effect o a s t) (ho : o.writesLinks = false) :
    t.documents.map DocumentRow.link = s.documents.map DocumentRow.link ∧
      ∀ k, (t.jobs k).map JobRow.link = (s.jobs k).map JobRow.link := by
  cases h with
  | insertDocument | insertJob | deleteSweep => cases ho
  | setDocumentStatus =>
    refine ⟨?_, fun _ => rfl⟩
    rw [List.map_map]
    refine List.map_congr_left fun d _ => ?_
    rw [Function.comp_apply]
    split <;> rfl
  | claimJob => exact ⟨rfl, map_link_withJobs (map_link_claimNext _ _ _)⟩
  | completeJob => exact ⟨rfl, map_link_withJobs (map_link_updateRow fun _ => rfl)⟩
  | failJob => exact ⟨rfl, map_link_withJobs (map_link_updateRow fun _ => rfl)⟩
  | _ => exact ⟨rfl, fun _ => rfl⟩

theorem Effect.later (h : Effect o a s t) : Later s t := by
  have hissued := h.issued
  by_cases ho : o.writesLinks
  · cases h with
    | nothing => exact .refl _
    | deleteSweep hswept => exact (Store.swept_of_deleteSweep hswept).later
    | @insertDocument tenantId filename mimeType sha256 amends _ _ id hnew =>
      have hfresh : id ∉ s.issued := hnew ▸ draw_not_mem _ _
      refine ⟨hissued, fun d hd hid => ?_, fun _ job hjob _ => ⟨job, hjob, rfl⟩,
        fun _ _ job hjob _ _ => ⟨job, hjob, rfl⟩⟩
      rcases List.mem_append.mp hd with hd | hd
      · exact ⟨d, hd, rfl⟩
      · rw [List.mem_singleton.mp hd] at hid
        exact absurd hid hfresh
    | @insertJob kind tenantId documentId amended _ _ id hnew =>
      have hfresh : id ∉ s.issued := hnew ▸ draw_not_mem _ _
      refine ⟨hissued, fun d hd _ => ⟨d, hd, rfl⟩, fun k job hjob hid => ?_,
        fun k _ job hjob _ _ => ⟨job, mem_insertJob hjob, rfl⟩⟩
      rcases of_mem_insertJob hjob with hjob | ⟨-, rfl⟩
      · exact ⟨job, hjob, rfl⟩
      · exact absurd hid hfresh
    | _ => cases ho
  · obtain ⟨hdocuments, hjobs⟩ := h.links (by simpa using ho)
    exact .of_links hissued hdocuments hjobs

/-! ## What a party has to know -/

/-- What whoever performs an operation knows of the rows the operation refers to. -/
def Knows : Op → Store → Prop
  | .insertDocument tenantId _ _ _ amends, s => ∀ parent, amends = some parent → Owned tenantId parent s
  | .insertJob kind tenantId documentId amended, s => Owned tenantId documentId s ∧
      (kind = .changeReport → ∃ version, amended = some version ∧ Amends tenantId version documentId s)
  | .replaceTextAndChunks tenantId documentId .., s => Owned tenantId documentId s
  | .insertReviewItems tenantId source documentId jobId _, s =>
    Owned tenantId documentId s ∧ JobOf source.kind tenantId documentId jobId s
  | _, _ => True

theorem Linked.congr (h : Linked s) (hlater : Later s t) (hkeyed : Keyed t)
    (hdocuments : t.documents.map DocumentRow.link = s.documents.map DocumentRow.link)
    (hjobs : ∀ k, (t.jobs k).map JobRow.link = (s.jobs k).map JobRow.link)
    (htexts : ∀ row ∈ t.texts, s.Has row.tenantId row.documentId)
    (hchunks : ∀ row ∈ t.chunks, s.Has row.tenantId row.documentId)
    (hitems : ∀ item ∈ t.reviewItems, s.Has item.tenantId item.documentId ∧
      JobOf item.source.kind item.tenantId item.documentId item.jobId s) : Linked t := by
  have hback : ∀ d' ∈ t.documents, ∃ d ∈ s.documents, d.link = d'.link := fun d' hd' =>
    List.mem_map.mp (hdocuments ▸ List.mem_map_of_mem hd')
  have hjobBack : ∀ k, ∀ job' ∈ t.jobs k, ∃ job ∈ s.jobs k, job.link = job'.link := fun k job' h =>
    List.mem_map.mp (hjobs k ▸ List.mem_map_of_mem h)
  have hforth : ∀ d ∈ s.documents, ∃ d' ∈ t.documents, d'.link = d.link := fun d hd =>
    List.mem_map.mp (hdocuments.symm ▸ List.mem_map_of_mem hd)
  have hhas : ∀ {tenantId documentId}, s.Has tenantId documentId → t.Has tenantId documentId := by
    rintro _ _ ⟨d, hd, rfl, rfl⟩
    obtain ⟨d', hd', hlink⟩ := hforth d hd
    obtain ⟨hid, htenant, -⟩ := DocumentRow.link_eq_iff.mp hlink
    exact ⟨d', hd', hid, htenant⟩
  refine ⟨?_, fun d' hd' => ?_, fun d' hd' parent hparent => ?_, fun row hrow => hhas (htexts row hrow),
    fun row hrow => hhas (hchunks row hrow), hkeyed, fun k job hjob k' job' hjob' hid => ?_,
    fun k job' hjob' => ?_, fun job' hjob' => ?_, fun item hitem => ?_⟩
  · have hids : t.documents.map DocumentRow.id = s.documents.map DocumentRow.id := by
      simpa [List.map_map, Function.comp_def, DocumentRow.link] using congrArg (List.map Prod.fst) hdocuments
    exact hids ▸ h.keys
  · obtain ⟨d, hd, hlink⟩ := hback d' hd'
    exact hlater.issued _ ((DocumentRow.link_eq_iff.mp hlink).1 ▸ h.issued d hd)
  · obtain ⟨d, hd, hlink⟩ := hback d' hd'
    obtain ⟨-, htenant, hamends⟩ := DocumentRow.link_eq_iff.mp hlink
    exact hhas (htenant ▸ h.parents d hd parent (hamends.trans hparent))
  · obtain ⟨old, hold, hlink⟩ := hjobBack k job hjob
    obtain ⟨old', hold', hlink'⟩ := hjobBack k' job' hjob'
    refine h.jobKinds k old hold k' old' hold' ?_
    rw [(JobRow.link_eq_iff.mp hlink).1, (JobRow.link_eq_iff.mp hlink').1, hid]
  · obtain ⟨job, hjob, hlink⟩ := hjobBack k job' hjob'
    obtain ⟨-, htenant, hdocument, -⟩ := JobRow.link_eq_iff.mp hlink
    exact hhas (htenant ▸ hdocument ▸ h.jobs k job hjob)
  · obtain ⟨job, hjob, hlink⟩ := hjobBack _ job' hjob'
    obtain ⟨-, htenant, hdocument, hamended⟩ := JobRow.link_eq_iff.mp hlink
    obtain ⟨d, hd, hversion, hsame, hparent⟩ := h.reports job hjob
    obtain ⟨d', hd', hlink'⟩ := hforth d hd
    obtain ⟨hid', htenant', hparent'⟩ := DocumentRow.link_eq_iff.mp hlink'
    refine ⟨d', hd', ?_, ?_, ?_⟩
    · rw [hid', ← hversion, hamended]
    · rw [htenant', hsame, htenant]
    · rw [hparent', hparent, hdocument]
  · obtain ⟨hdocument, hjob⟩ := hitems item hitem
    exact ⟨hhas hdocument, hlater.jobOf hjob⟩

theorem of_mem_chunkRows {chunks : List Chunking.Chunk} {embeddings : List Embedding}
    {ids : List Uuid} {row : ChunkRow}
    (h : row ∈ Store.chunkRows tenantId documentId chunks embeddings ids) :
    row.tenantId = tenantId ∧ row.documentId = documentId := by
  obtain ⟨entry, -, rfl⟩ := List.mem_map.mp h
  exact ⟨rfl, rfl⟩

theorem Linked.insertDocument (h : Linked s) {row : DocumentRow} (hfresh : row.id ∉ s.issued)
    (hparent : ∀ parent, row.amendsDocumentId = some parent → s.Has row.tenantId parent) :
    Linked { s with documents := s.documents ++ [row], issued := row.id :: s.issued } := by
  have hhas : ∀ {tenantId documentId}, s.Has tenantId documentId →
      Store.Has tenantId documentId
        { s with documents := s.documents ++ [row], issued := row.id :: s.issued } := by
    rintro _ _ ⟨d, hd, hid, htenant⟩
    exact ⟨d, List.mem_append_left _ hd, hid, htenant⟩
  have hlater : Later s { s with documents := s.documents ++ [row], issued := row.id :: s.issued } := by
    refine ⟨fun _ => List.mem_cons_of_mem _, fun d hd hid => ?_,
      fun _ job hjob _ => ⟨job, hjob, rfl⟩, fun _ _ job hjob _ _ => ⟨job, hjob, rfl⟩⟩
    rcases List.mem_append.mp hd with hd | hd
    · exact ⟨d, hd, rfl⟩
    · rw [List.mem_singleton.mp hd] at hid
      exact absurd hid hfresh
  refine ⟨?_, fun d hd => ?_, fun d hd parent hamends => ?_, fun x hx => hhas (h.texts x hx),
    fun x hx => hhas (h.chunks x hx), fun k => ⟨(h.jobKeys k).1, fun job hjob =>
      List.mem_cons_of_mem _ ((h.jobKeys k).2 job hjob)⟩, h.jobKinds,
    fun k job hjob => hhas (h.jobs k job hjob), fun job hjob => ?_, fun item hitem => ?_⟩
  · rw [List.map_append]
    refine List.nodup_append.mpr ⟨h.keys, List.nodup_singleton _, ?_⟩
    rintro _ hold _ hnew rfl
    obtain ⟨d, hd, hid⟩ := List.mem_map.mp hold
    exact hfresh (List.mem_singleton.mp hnew ▸ hid ▸ h.issued d hd)
  · rcases List.mem_append.mp hd with hd | hd
    · exact List.mem_cons_of_mem _ (h.issued d hd)
    · rw [List.mem_singleton.mp hd]
      exact List.mem_cons_self
  · rcases List.mem_append.mp hd with hd | hd
    · exact hhas (h.parents d hd parent hamends)
    · rw [List.mem_singleton.mp hd] at hamends ⊢
      exact hhas (hparent parent hamends)
  · obtain ⟨d, hd, hversion⟩ := h.reports job hjob
    exact ⟨d, List.mem_append_left _ hd, hversion⟩
  · obtain ⟨hdocument, hjob⟩ := h.items item hitem
    exact ⟨hhas hdocument, hlater.jobOf hjob⟩

theorem Linked.sweep (h : Linked s) (hswept : Swept documentId s t) : Linked t := by
  have hsub : ∀ {d}, d ∈ t.documents → d ∈ s.documents ∧ d.id ≠ documentId := by
    intro d hd
    rw [hswept.documents, List.mem_filter] at hd
    exact ⟨hd.1, by simpa using hd.2⟩
  refine ⟨?_, fun d hd => ?_, fun d hd parent hparent => ?_, fun x hx => ?_, fun x hx => ?_,
    fun k => ⟨?_, fun job hjob => ?_⟩, fun k job hjob k' job' hjob' => ?_, fun k job hjob => ?_,
    fun job hjob => ?_, fun item hitem => ?_⟩
  · rw [hswept.documents]
    exact h.keys.sublist (List.filter_sublist.map _)
  · exact hswept.issued ▸ h.issued d (hsub hd).1
  · refine hswept.has (h.parents d (hsub hd).1 parent hparent) ?_
    rintro rfl
    exact hswept.spared d (hsub hd).1 hparent
  · rw [hswept.texts, List.mem_filter] at hx
    exact hswept.has (h.texts x hx.1) (by simpa using hx.2)
  · rw [hswept.chunks, List.mem_filter] at hx
    exact hswept.has (h.chunks x hx.1) (by simpa using hx.2)
  · have hfiltered : (t.jobs k).Sublist (s.jobs k) := by
      by_cases hk : k = .changeReport
      · subst hk
        rw [hswept.reports]
        exact List.filter_sublist
      · rw [hswept.jobs k hk]
        exact List.filter_sublist
    exact (h.jobKeys k).1.sublist (hfiltered.map _)
  · exact hswept.issued ▸ (h.jobKeys k).2 job (hswept.mem_jobs hjob).1
  · exact h.jobKinds k job (hswept.mem_jobs hjob).1 k' job' (hswept.mem_jobs hjob').1
  · obtain ⟨hold, hother⟩ := hswept.mem_jobs hjob
    exact hswept.has (h.jobs k job hold) hother
  · obtain ⟨d, hd, hversion, hrest⟩ := h.reports job (hswept.mem_jobs hjob).1
    refine ⟨d, ?_, hversion, hrest⟩
    rw [hswept.reports, List.mem_filter] at hjob
    rw [hswept.documents]
    exact List.mem_filter.mpr ⟨hd, by simpa [hversion] using hjob.2⟩
  · rw [hswept.reviewItems, List.mem_filter] at hitem
    obtain ⟨hdocument, hjob⟩ := h.items item hitem.1
    have hother : item.documentId ≠ documentId := by
      have hkept := hitem.2
      simp only [Bool.and_eq_true, decide_eq_true_eq] at hkept
      exact hkept.2
    exact ⟨hswept.has hdocument hother, hswept.later.jobOf hjob⟩

theorem Linked.insertJob (h : Linked s) {row : JobRow} (hfresh : row.id ∉ s.issued)
    (hkeyed : Keyed { s.withJobs kind (s.jobs kind ++ [row]) with issued := row.id :: s.issued })
    (hlater : Later s { s.withJobs kind (s.jobs kind ++ [row]) with issued := row.id :: s.issued })
    (hhas : s.Has row.tenantId row.documentId)
    (hreport : kind = .changeReport → ∃ d ∈ s.documents, row.amendedDocumentId = some d.id ∧
      d.tenantId = row.tenantId ∧ d.amendsDocumentId = some row.documentId) :
    Linked { s.withJobs kind (s.jobs kind ++ [row]) with issued := row.id :: s.issued } := by
  refine ⟨h.keys, fun d hd => List.mem_cons_of_mem _ (h.issued d hd), h.parents, h.texts, h.chunks,
    hkeyed, fun k job hjob k' job' hjob' hid => ?_, fun k job hjob => ?_, fun job hjob => ?_,
    fun item hitem => ⟨(h.items item hitem).1, hlater.jobOf (h.items item hitem).2⟩⟩
  · rcases of_mem_insertJob hjob with hold | ⟨rfl, rfl⟩
    · rcases of_mem_insertJob hjob' with hold' | ⟨rfl, rfl⟩
      · exact h.jobKinds k job hold k' job' hold' hid
      · exact absurd (hid ▸ (h.jobKeys k).2 job hold) hfresh
    · rcases of_mem_insertJob hjob' with hold' | ⟨rfl, rfl⟩
      · exact absurd (hid ▸ (h.jobKeys k').2 job' hold') hfresh
      · rfl
  · rcases of_mem_insertJob hjob with hold | ⟨rfl, rfl⟩
    · exact h.jobs k job hold
    · exact hhas
  · rcases of_mem_insertJob hjob with hold | ⟨hkind, rfl⟩
    · exact h.reports job hold
    · exact hreport hkind.symm

/-- An operation whose references are known keeps the rows together. -/
theorem Linked.effect (hlinked : Linked s) (hknows : Knows o s) (h : Effect o a s t) : Linked t := by
  have hlater := h.later
  have hkeyed := hlinked.jobKeys.effect h
  by_cases ho : o.writesLinks
  · cases h with
    | nothing => exact hlinked
    | deleteSweep hswept => exact hlinked.sweep (Store.swept_of_deleteSweep hswept)
    | insertDocument hnew _ hparent =>
      refine hlinked.insertDocument (hnew ▸ draw_not_mem _ _) fun parent hamends => ?_
      exact has_of_document?_isSome (hparent parent hamends) (hknows parent hamends)
    | insertJob hnew _ hdocument hamended =>
      refine hlinked.insertJob (hnew ▸ draw_not_mem _ _) hkeyed hlater
        (has_of_document?_isSome hdocument hknows.1) fun hkind => ?_
      obtain ⟨version, rfl, hamends⟩ := hknows.2 hkind
      obtain ⟨d, hd, rfl, -⟩ := has_of_document?_isSome (hamended version rfl) hamends.owned
      obtain ⟨htenant, hparent⟩ := hamends.rows d hd rfl
      exact ⟨d, hd, rfl, htenant, hparent⟩
    | _ => cases ho
  · obtain ⟨hdocuments, hjobs⟩ := h.links (by simpa using ho)
    cases h with
    | insertDocument | insertJob | deleteSweep => exact absurd rfl ho
    | replaceTextAndChunks hdocument =>
      have hhas := has_of_document?_isSome hdocument hknows
      refine hlinked.congr hlater hkeyed hdocuments hjobs (fun row hrow => ?_) (fun row hrow => ?_)
        hlinked.items
      · rcases List.mem_append.mp hrow with hrow | hrow
        · exact hlinked.texts row (List.mem_of_mem_filter hrow)
        · rw [List.mem_singleton.mp hrow]
          exact hhas
      · rcases List.mem_append.mp hrow with hrow | hrow
        · exact hlinked.chunks row (List.mem_of_mem_filter hrow)
        · obtain ⟨htenant, hdocument⟩ := of_mem_chunkRows hrow
          rw [htenant, hdocument]
          exact hhas
    | insertReviewItems hdocument hids hrows =>
      refine hlinked.congr hlater hkeyed hdocuments hjobs hlinked.texts hlinked.chunks
        fun item hitem => ?_
      rcases List.mem_append.mp hitem with hitem | hitem
      · exact hlinked.items item hitem
      · rw [hrows] at hitem
        obtain ⟨entry, -, rfl⟩ := List.mem_map.mp hitem
        exact ⟨has_of_document?_isSome hdocument hknows.1, hknows.2⟩
    | resolveReviewItem =>
      refine hlinked.congr hlater hkeyed hdocuments hjobs hlinked.texts hlinked.chunks
        fun item hitem => ?_
      obtain ⟨old, hold, rfl⟩ := List.mem_map.mp hitem
      split <;> exact hlinked.items old hold
    | _ => exact hlinked.congr hlater hkeyed hdocuments hjobs hlinked.texts hlinked.chunks hlinked.items

end ContractIntel
