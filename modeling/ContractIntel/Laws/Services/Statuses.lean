import ContractIntel.Laws.Services.Custody
import ContractIntel.Laws.Services.Documents

/-!
# Document statuses and ingestion jobs

A worker ends a job with two commits, the job's terminal row and the document's status, on three
paths: success, failure, and a claim past the attempt cap. Nothing repairs a pair that was left
half done, and nothing keeps the pairs of two workers apart. `statuses_follow_jobs` says that these
are the ways in which a status falls behind, and `status_left_behind` that it does.
-/

namespace ContractIntel.Ingestion

open Jobs (JobRow JobStatus)
open Lib (Along Custody Safe run)
open Lib.Prog (Performs)
open Llm (OpenAiClient)
open Repositories

variable {documentId : Uuid} {job : JobRow} {status : JobStatus} {documentStatus : DocumentStatus}
  {o : Op} {a : Answer} {l l' : Session} {s t u : Store}

/-! ## Statuses -/

/-- The document status that goes with a terminal job. -/
def statusOf : JobStatus → Option DocumentStatus
  | .completed => some .parsed
  | .failed => some .failed
  | _ => none

/-- Once the newest ingestion job of the document is terminal, the document has its status. -/
def StatusFollows (documentId : Uuid) (s : Store) : Prop :=
  ∀ job ∈ Jobs.findLatestForDocument documentId (s.jobs .ingestion),
    ∀ status ∈ statusOf job.status, ∀ document ∈ s.documents, document.id = documentId →
      document.status = status

instance : Decidable (StatusFollows documentId s) :=
  inferInstanceAs (Decidable (∀ job ∈ Jobs.findLatestForDocument documentId (s.jobs .ingestion),
    ∀ status ∈ statusOf job.status, ∀ document ∈ s.documents, document.id = documentId →
      document.status = status))

/-- The queue whose jobs decide the statuses. -/
def ingestionQueue (kind : JobKind) : Bool := kind = .ingestion

theorem terminal_of_statusOf (h : documentStatus ∈ statusOf job.status) : job.terminal := by
  unfold JobRow.terminal
  cases hstatus : job.status <;> rw [hstatus] at h
  · cases h
  · cases h
  · rfl
  · rfl

/-! ## What others leave alone -/

/-- The others' part of a document: its row and the jobs it had are as they were, and jobs that it
has got since are queued. -/
structure Calm (documentId : Uuid) (s t : Store) : Prop where
  later : Later s t
  document : ∀ row ∈ t.documents, row.id = documentId → documentId ∈ s.issued → row ∈ s.documents
  jobs : ∀ job ∈ t.jobs .ingestion, job.documentId = documentId →
    job ∈ s.jobs .ingestion ∨ job.status = .queued ∧ job.id ∉ s.issued

namespace Calm

theorem refl (documentId : Uuid) (s : Store) : Calm documentId s s :=
  ⟨.refl s, fun _ hrow _ _ => hrow, fun _ hjob _ => .inl hjob⟩

theorem trans (h : Calm documentId s t) (h' : Calm documentId t u) : Calm documentId s u := by
  refine ⟨h.later.trans h'.later, fun row hrow hid hissued => ?_, fun job hjob hdocument => ?_⟩
  · exact h.document row (h'.document row hrow hid (h.later.issued _ hissued)) hid hissued
  · rcases h'.jobs job hjob hdocument with hjob | ⟨hqueued, hnew⟩
    · exact h.jobs job hjob hdocument
    · exact .inr ⟨hqueued, fun hissued => hnew (h.later.issued _ hissued)⟩

theorem tick (documentId : Uuid) (elapsed : Time) (s : Store) :
    Calm documentId s (s.tick elapsed) :=
  ⟨later_tick elapsed s, fun _ hrow _ _ => hrow, fun _ hjob _ => .inl hjob⟩

/-- The newest job of the document, once it is terminal, was the newest. -/
theorem findLatest (h : Calm documentId s t) (hs : Keyed s) (ht : Linked t)
    (hissued : documentId ∈ s.issued)
    (hlatest : Jobs.findLatestForDocument documentId (t.jobs .ingestion) = some job)
    (hterminal : job.terminal) :
    Jobs.findLatestForDocument documentId (s.jobs .ingestion) = some job := by
  obtain ⟨hjob, hdocument⟩ := Jobs.findLatest_mem hlatest
  obtain ⟨d, hd, hid, -⟩ := ht.jobs .ingestion job hjob
  have hold : job ∈ s.jobs .ingestion := by
    rcases h.jobs job hjob hdocument with hold | ⟨hqueued, -⟩
    · exact hold
    · simp [JobRow.terminal, hqueued] at hterminal
  refine Jobs.findLatest_of_subset (ht.jobKeys .ingestion).1 hlatest hold fun row hrow hsame => ?_
  obtain ⟨row', hrow', hlink⟩ := h.later.kept .ingestion (fun h => by cases h) row hrow (hsame ▸ hissued)
    ⟨d, hd, hid.trans (hdocument.trans hsame.symm)⟩
  obtain ⟨hrowId, -, hrowDocument, -⟩ := JobRow.link_eq_iff.mp hlink
  rcases h.jobs row' hrow' (hrowDocument.trans hsame) with hback | ⟨-, hnew⟩
  · exact Jobs.eq_of_id_eq (hs .ingestion).1 hback hrow hrowId ▸ hrow'
  · exact absurd (hrowId ▸ (hs .ingestion).2 row hrow) hnew

theorem statusFollows (h : Calm documentId s t) (hs : Linked s) (ht : Linked t)
    (hfollows : StatusFollows documentId s) : StatusFollows documentId t := by
  intro job hlatest status hstatus document hdocument hid
  have hterminal := terminal_of_statusOf hstatus
  obtain ⟨hjob, hsame⟩ := Jobs.findLatest_mem hlatest
  rcases h.jobs job hjob hsame with hold | ⟨hqueued, -⟩
  · obtain ⟨d, hd, hid', -⟩ := hs.jobs .ingestion job hold
    have hissued : documentId ∈ s.issued := hsame ▸ hid' ▸ hs.issued d hd
    exact hfollows job (h.findLatest hs.jobKeys ht hissued hlatest hterminal) status hstatus document
      (h.document document hdocument hid hissued) hid
  · simp [JobRow.terminal, hqueued] at hterminal

end Calm

/-- What writes for no ingestion job leaves every document alone. -/
theorem calm_of_effect (h : Effect o a s t) (ho : o.advances ingestionQueue = false)
    (documentId : Uuid) : Calm documentId s t := by
  refine ⟨h.later, fun row hrow hid hissued => ?_, fun job hjob _ => ?_⟩
  · by_cases hwrites : o.writesDocuments
    · cases h with
      | nothing => exact hrow
      | insertDocument hnew =>
        rcases List.mem_append.mp hrow with hrow | hrow
        · exact hrow
        · cases List.mem_singleton.mp hrow
          exact absurd (hid ▸ hissued) (hnew ▸ draw_not_mem _ _)
      | setDocumentStatus => cases ho
      | deleteSweep hok =>
        rw [(Store.swept_of_deleteSweep hok).documents] at hrow
        exact List.mem_of_mem_filter hrow
      | _ => cases hwrites
    · rwa [h.documents (by simpa using hwrites)] at hrow
  · by_cases hwrites : o.writesJobs .ingestion
    · cases h with
      | nothing => exact .inl hjob
      | deleteSweep hok => exact .inl ((Store.swept_of_deleteSweep hok).mem_jobs hjob).1
      | insertJob hnew =>
        rcases of_mem_insertJob hjob with hold | ⟨-, rfl⟩
        · exact .inl hold
        · exact .inr ⟨rfl, hnew ▸ draw_not_mem _ _⟩
      | claimJob | completeJob | failJob =>
        simp only [Op.writesJobs, Op.advances, ingestionQueue, decide_eq_true_eq,
          decide_eq_false_iff_not] at hwrites ho
        exact absurd hwrites ho
      | _ => cases hwrites
    · rw [h.jobs (by simpa using hwrites)] at hjob
      exact .inl hjob

/-- A write to the row of a job leaves the other documents alone. -/
theorem calm_updateRow {tenantId id other : Uuid} {f : JobRow → JobRow}
    (hjob : JobOf .ingestion tenantId documentId id s)
    (hlater : Later s (s.withJobs .ingestion (Jobs.updateRow id f (s.jobs .ingestion))))
    (hf : ∀ job, (f job).documentId = job.documentId) (hother : documentId ≠ other) :
    Calm other s (s.withJobs .ingestion (Jobs.updateRow id f (s.jobs .ingestion))) := by
  refine ⟨hlater, fun _ hrow _ _ => hrow, fun row hrow hsame => ?_⟩
  rw [withJobs_jobs, if_pos rfl] at hrow
  obtain ⟨old, hold, rfl⟩ := List.mem_map.mp hrow
  by_cases hid : old.id = id
  · rw [if_pos hid, hf] at hsame
    exact absurd ((hjob.rows .ingestion old hold hid).2.2.symm.trans hsame) hother
  · rw [if_neg hid]
    exact .inl hold

/-- What a worker owes that holds an ingestion job: the status of the job's document. A job may be
taken while the newest job of its document is not terminal. -/
def statusCustody : Custody exec Store.tick JobRow Uuid where
  Inv := Linked
  takes := handedOut ingestionQueue
  Taking o := o = .claimJob .ingestion
  Fit job s := ∀ row ∈ Jobs.findLatestForDocument job.documentId (s.jobs .ingestion), ¬ row.terminal
  Concerns job documentId := job.documentId = documentId
  Good := StatusFollows
  Calm := Calm
  Served a := a.refusal = none
  taking_of_takes o r job h := by
    obtain ⟨kind, htracked, rfl⟩ := exists_of_handedOut h
    rw [of_decide_eq_true htracked]
  calm_refl := .refl
  calm_trans _ _ _ _ := .trans
  calm_drift documentId elapsed s := .tick documentId elapsed s
  good_of_calm _ _ _ hs ht h := h.statusFollows hs ht

/-! ## The job in hand -/

/-- The job a worker holds: nobody else writes its row, and of its document's jobs no other is
newest and terminal. -/
structure Stage (job : JobRow) (status : JobStatus) (s : Store) : Prop where
  known : Known .ingestion job s
  keyed : Keyed s
  row : ∀ row ∈ s.jobs .ingestion, row.id = job.id → row.status = status
  newest : ∀ row ∈ Jobs.findLatestForDocument job.documentId (s.jobs .ingestion),
    row.terminal → row.id = job.id

/-- The document of the job, if there still is one, has this status. -/
def HasStatus (job : JobRow) (status : DocumentStatus) (s : Store) : Prop :=
  ∀ row ∈ s.documents, row.id = job.documentId → row.status = status

/-- The document of the job is gone. -/
def Gone (job : JobRow) (s : Store) : Prop := ∀ row ∈ s.documents, row.id ≠ job.documentId

theorem Gone.statusFollows (h : Gone job s) : StatusFollows job.documentId s :=
  fun _ _ _ _ document hdocument hid => absurd hid (h document hdocument)

namespace Stage

theorem calm (h : Stage job status s) (hcalm : Calm job.documentId s t) (ht : Linked t) :
    Stage job status t := by
  refine ⟨h.known.later hcalm.later, ht.jobKeys, fun row hrow hid => ?_,
    fun row hlatest hterminal => ?_⟩
  · have hdocument := ((hcalm.later.jobOf h.known.ofJob).rows .ingestion row hrow hid).2.2
    rcases hcalm.jobs row hrow hdocument with hold | ⟨-, hnew⟩
    · exact h.row row hold hid
    · exact absurd (hid ▸ h.known.ofJob.issued) hnew
  · exact h.newest row
      (hcalm.findLatest h.keyed ht h.known.document.issued hlatest hterminal) hterminal

theorem hasStatus (h : Stage job status s) (hcalm : Calm job.documentId s t)
    (hstatus : HasStatus job documentStatus s) : HasStatus job documentStatus t :=
  fun row hrow hid =>
    hstatus row (hcalm.document row hrow hid h.known.document.issued) hid

theorem gone (h : Stage job status s) (hcalm : Calm job.documentId s t) (hgone : Gone job s) :
    Gone job t :=
  fun row hrow hid => hgone row (hcalm.document row hrow hid h.known.document.issued) hid

/-- While the job runs there is nothing to follow. -/
theorem follows_running (h : Stage job .running s) : StatusFollows job.documentId s := by
  intro row hlatest documentStatus hstatus
  have hid := h.newest row hlatest (terminal_of_statusOf hstatus)
  rw [h.row row (Jobs.findLatest_mem hlatest).1 hid] at hstatus
  cases hstatus

/-- Once both commits are done the status follows. -/
theorem follows_closed (h : Stage job status s) (hstatus : statusOf status = some documentStatus)
    (hdocument : HasStatus job documentStatus s) : StatusFollows job.documentId s := by
  intro row hlatest documentStatus' hstatus' document hmem hid
  have hrow := h.newest row hlatest (terminal_of_statusOf hstatus')
  rw [h.row row (Jobs.findLatest_mem hlatest).1 hrow, hstatus] at hstatus'
  cases hstatus'
  exact hdocument document hmem hid

/-- A job whose row is gone went with its document. -/
theorem gone_of_row? (h : Stage job status s)
    (hnone : Jobs.row? job.id (s.jobs .ingestion) = none) : Gone job s := by
  intro row hrow hid
  obtain ⟨kept, hkept, hsame⟩ := h.known.ofJob.kept nofun
    ⟨row, hrow, hid, h.known.document.rows row hrow hid⟩
  exact List.find?_eq_none.mp hnone kept hkept (decide_eq_true hsame)

/-- The row the job has, if it has one. -/
theorem link_of_row? {row : JobRow} (h : Stage job status s)
    (hrow : Jobs.row? job.id (s.jobs .ingestion) = some row) :
    row.id = job.id ∧ row.tenantId = job.tenantId ∧ row.documentId = job.documentId ∧
      row.status = status := by
  obtain ⟨hmem, hid⟩ := Jobs.row?_mem hrow
  obtain ⟨-, htenant, hdocument⟩ := h.known.ofJob.rows .ingestion row hmem hid
  exact ⟨hid, htenant, hdocument, h.row row hmem hid⟩

end Stage

/-- A write to the row of the job in hand. -/
theorem stage_updateRow {f : JobRow → JobRow} (hknown : Known .ingestion job s) (hkeyed : Keyed s)
    (hnewest : ∀ row ∈ Jobs.findLatestForDocument job.documentId (s.jobs .ingestion),
      row.terminal → row.id = job.id)
    (hf : ∀ row, (f row).link = row.link ∧ (f row).createdAt = row.createdAt)
    (hlater : Later s (s.withJobs .ingestion (Jobs.updateRow job.id f (s.jobs .ingestion))))
    (hstatus : ∀ row ∈ s.jobs .ingestion, row.id = job.id → (f row).status = status) :
    Stage job status (s.withJobs .ingestion (Jobs.updateRow job.id f (s.jobs .ingestion))) := by
  have hid : ∀ row, (f row).id = row.id := fun row => (JobRow.link_eq_iff.mp (hf row).1).1
  refine ⟨hknown.later hlater, hkeyed.withJobs (Jobs.map_id_updateRow hid), fun row hrow hsame => ?_,
    fun row hlatest hterminal => ?_⟩
  · rw [withJobs_jobs, if_pos rfl] at hrow
    obtain ⟨old, hold, rfl⟩ := List.mem_map.mp hrow
    by_cases hmine : old.id = job.id
    · rw [if_pos hmine]
      exact hstatus old hold hmine
    · rw [if_neg hmine] at hsame
      exact absurd hsame hmine
  · rw [withJobs_jobs, if_pos rfl, Jobs.findLatest_updateRow fun row =>
      ⟨hid row, (JobRow.link_eq_iff.mp (hf row).1).2.2.1, (hf row).2⟩] at hlatest
    obtain ⟨old, hold, rfl⟩ := Option.map_eq_some_iff.mp hlatest
    by_cases hmine : old.id = job.id
    · rw [if_pos hmine]
      exact (hid old).trans hmine
    · rw [if_neg hmine] at hterminal ⊢
      exact hnewest old hold hterminal

/-! ## What a worker owes -/

/-- The worker that holds the job, among others that leave its document alone. -/
abbrev Owing {α : Type} (job : JobRow) (p : Service α) (l : Session) (s : Store)
    (Q : Except Exn α → Session → Store → Prop) : Prop :=
  Safe (statusCustody.holding job) p l s Q

/-- What holds of the store as the worker next finds it. -/
def Soon (job : JobRow) (P : Store → Prop) (s : Store) : Prop :=
  ∀ t, Calm job.documentId s t → Linked t → P t

theorem Soon.later {P : Store → Prop} (h : Soon job P s) (hcalm : Calm job.documentId s t) :
    Soon job P t :=
  fun u hu => h u (hcalm.trans hu)

/-- A claim about the document that others leave true, and that job rows do not enter. -/
structure Steady (job : JobRow) (X : Store → Prop) : Prop where
  calm : ∀ {status s t}, Stage job status s → Calm job.documentId s t → X s → X t
  documents : ∀ {s t : Store}, t.documents = s.documents → X s → X t

theorem steady_hasStatus (documentStatus : DocumentStatus) :
    Steady job (HasStatus job documentStatus) where
  calm hstage hcalm := hstage.hasStatus hcalm
  documents heq h := by
    unfold HasStatus
    rwa [heq]

theorem steady_gone : Steady job (Gone job) where
  calm hstage hcalm := hstage.gone hcalm
  documents heq h := by
    unfold Gone
    rwa [heq]

section Owing

variable {P X : Store → Prop}

theorem soon_stage (hX : Steady job X) (hstage : Stage job status s) (hdocument : X s) :
    Soon job (fun t => Stage job status t ∧ X t) s :=
  fun _ hcalm hlinked => ⟨hstage.calm hcalm hlinked, hX.calm hstage hcalm hdocument⟩

/-- One operation of the holder: what it finds, and that it leaves other documents alone. -/
theorem call_owing {Q : Except Exn o.Res → Session → Store → Prop} (h : Soon job P s)
    (htaking : o ≠ .claimJob .ingestion)
    (hop : ∀ t a, Linked t → (a.refusal = none ∨ StatusFollows job.documentId t) → P t →
      Soon job P t → (∀ other, job.documentId ≠ other → Calm other t (exec o a l t).2.2) ∧
        Q (exec o a l t).1 (exec o a l t).2.1 (exec o a l t).2.2) :
    Owing job (perform o) l s Q := by
  refine Safe.call.mpr ?_
  rintro t a hrely - ⟨hlinked, hallowed⟩
  have hcalm := hrely _ rfl
  obtain ⟨hothers, hQ⟩ := hop t a hlinked (hallowed.imp_right fun h => h _ rfl) (h t hcalm hlinked)
    (h.later hcalm)
  exact ⟨trivial, ⟨htaking, fun other hother => hothers other hother⟩, hQ⟩

/-- A query of the holder: an error ends in a store in which the status follows, provided that a
refusal is all that can go wrong, or that it follows all the time. -/
theorem query_owing {read : Store → o.Res} (hquery : ∀ a l s, exec o a l s = query read a l s)
    (ho : o.advances ingestionQueue = false) (htaking : o ≠ .claimJob .ingestion)
    (hgood : l.failed = false ∨ ∀ t, P t → StatusFollows job.documentId t) (h : Soon job P s) :
    Owing job (perform o) l s fun res l' t => Linked t ∧ P t ∧ Soon job P t ∧
      (∀ r, res = .ok r → l' = l ∧ read t = r) ∧
      ∀ e, res = .error e → StatusFollows job.documentId t := by
  refine call_owing h htaking fun t a hlinked hallowed hP hsoon => ?_
  refine ⟨fun other _ => calm_of_effect (exec_effect o a l t) ho other, ?_⟩
  rw [hquery]
  have hstore : (query read a l t).2.2 = t := by
    rcases query_cases read a l t with ⟨e, heq⟩ | heq <;> rw [heq]
  rw [hstore]
  refine ⟨hlinked, hP, hsoon, fun r hr => ?_, fun e he => ?_⟩
  · obtain ⟨hread, heq⟩ := query_eq_ok hr
    exact ⟨by rw [heq], hread⟩
  · rcases hgood with hl | hgood
    · rcases hallowed with hserved | hgood
      · rw [query_served read hl hserved] at he
        cases he
      · exact hgood
    · exact hgood t hP

/-- `refresh` of the job in hand. -/
theorem refreshJob_owing
    (hgood : l.failed = false ∨ ∀ t, Stage job status t ∧ X t → StatusFollows job.documentId t)
    (h : Soon job (fun t => Stage job status t ∧ X t) s) :
    Owing job (refreshJob .ingestion job.id) l s fun res l' t =>
      (∀ row, res = .ok row → l' = l ∧ Soon job (fun t => Stage job status t ∧ X t) t ∧
        row.id = job.id ∧ row.tenantId = job.tenantId ∧ row.documentId = job.documentId ∧
          row.status = status) ∧
      ∀ e, res = .error e → StatusFollows job.documentId t := by
  refine Safe.bind.mpr ((query_owing (o := .readJob .ingestion job.id) (fun _ _ _ => rfl) rfl nofun
    hgood h).mono ?_)
  rintro res l' t ⟨-, ⟨hstage, -⟩, hsoon, hok, herror⟩
  cases res with
  | error e => exact ⟨(fun _ h => by cases h), fun _ _ => herror e rfl⟩
  | ok found =>
    obtain ⟨rfl, hread⟩ := hok found rfl
    cases found with
    | none =>
      exact ⟨(fun _ h => by cases h), fun _ _ => (hstage.gone_of_row? hread).statusFollows⟩
    | some row =>
      refine ⟨?_, fun _ h => by cases h⟩
      rintro _ ⟨⟩
      exact ⟨rfl, hsoon, hstage.link_of_row? hread⟩

/-- The second commit: the document's status. -/
theorem setStatus_owing {document : DocumentRow} (hid : document.id = job.documentId)
    (hstatus : statusOf status = some documentStatus) (hl : l.failed = false)
    (h : Soon job (fun t => Stage job status t ∧ HasStatus job document.status t) s) :
    Owing job (setStatus document documentStatus) l s fun _ _ t =>
      Linked t → StatusFollows job.documentId t := by
  have hwrite : Owing job (perform (.setDocumentStatus document documentStatus)) l s fun res _ t =>
      (∀ r, res = .ok r →
        Soon job (fun t => Stage job status t ∧ HasStatus job documentStatus t) t) ∧
      ∀ e, res = .error e → StatusFollows job.documentId t := by
    refine call_owing h nofun fun t a hlinked hallowed hP hsoon => ?_
    obtain ⟨hstage, hdocument⟩ := hP
    have heffect := exec_effect (.setDocumentStatus document documentStatus) a l t
    rcases setDocumentStatus_cases document documentStatus a l t with
      ⟨e, heq, hnone⟩ | ⟨heq, hsame⟩ | heq
    · rw [heq]
      refine ⟨fun other _ => .refl other t, nofun, fun _ _ => ?_⟩
      rcases hallowed with hserved | hgood
      · -- the row is gone, and so is the document
        refine Gone.statusFollows fun row hrow hrowId => ?_
        exact List.find?_eq_none.mp (hnone hl hserved) row hrow
          (decide_eq_true (hrowId.trans hid.symm))
      · exact hgood
    · rw [heq]
      refine ⟨fun other _ => .refl other t, fun _ _ => ?_, nofun⟩
      exact soon_stage (steady_hasStatus _) hstage (hsame ▸ hdocument)
    · rw [heq] at heffect ⊢
      refine ⟨fun other hother => ⟨heffect.later, fun row hrow hrowId _ => ?_, fun row hrow _ =>
        .inl hrow⟩, fun _ _ => ?_, nofun⟩
      · obtain ⟨old, hold, rfl⟩ := List.mem_map.mp hrow
        by_cases hsame : old.id = document.id
        · rw [if_pos hsame] at hrowId
          exact absurd (hid.symm.trans (hsame.symm.trans hrowId)) hother
        · rw [if_neg hsame]
          exact hold
      · refine soon_stage (steady_hasStatus _) ⟨hstage.known.later heffect.later, hstage.keyed,
          hstage.row, hstage.newest⟩ fun row hrow hrowId => ?_
        obtain ⟨old, -, rfl⟩ := List.mem_map.mp hrow
        by_cases hsame : old.id = document.id
        · rw [if_pos hsame]
        · rw [if_neg hsame] at hrowId
          exact absurd (hrowId.trans hid.symm) hsame
  refine Safe.bind_of hwrite (fun r l' t hwritten => ?_) fun _ _ _ hfollows _ => hfollows
  have hclosed : ∀ t, Stage job status t ∧ HasStatus job documentStatus t →
      StatusFollows job.documentId t := fun t h => h.1.follows_closed hstatus h.2
  refine Safe.bind.mpr ((query_owing (o := .readDocument document.id) (fun _ _ _ => rfl) rfl nofun
    (.inr hclosed) hwritten).mono ?_)
  rintro res l'' u ⟨-, hP, -⟩
  cases res with
  | error e => exact fun _ => hclosed u hP
  | ok found => cases found <;> exact fun _ => hclosed u hP

/-- The first commit: a terminal write to the job's row. -/
theorem mark_owing {f : JobRow → JobRow} {r : o.Res} (hX : Steady job X)
    (ho : o ≠ .claimJob .ingestion)
    (hcases : ∀ a t, (∃ e, exec o a l t = (.error e, ⟨true⟩, t)) ∨ l.failed = false ∧
      exec o a l t =
        (.ok r, l, t.withJobs .ingestion (Jobs.updateRow job.id f (t.jobs .ingestion))))
    (hf : ∀ row, (f row).link = row.link ∧ (f row).createdAt = row.createdAt ∧
      (f row).status = status)
    (h : Soon job (fun t => Stage job .running t ∧ X t) s) :
    Owing job (perform o) l s fun res l' t =>
      (∀ r, res = .ok r → l' = l ∧ l.failed = false ∧
        Soon job (fun t => Stage job status t ∧ X t) t) ∧
      ∀ e, res = .error e → StatusFollows job.documentId t := by
  refine call_owing h ho fun t a hlinked _ hP _ => ?_
  obtain ⟨hstage, hdocument⟩ := hP
  have heffect := exec_effect o a l t
  rcases hcases a t with ⟨e, heq⟩ | ⟨hl, heq⟩
  · rw [heq]
    exact ⟨fun other _ => .refl other t, nofun, fun _ _ => hstage.follows_running⟩
  · rw [heq] at heffect ⊢
    refine ⟨fun other hother => ?_, fun _ _ => ⟨rfl, hl, ?_⟩, nofun⟩
    · exact calm_updateRow hstage.known.ofJob heffect.later
        (fun row => (JobRow.link_eq_iff.mp (hf row).1).2.2.1) hother
    · have hkept : X (t.withJobs .ingestion (Jobs.updateRow job.id f (t.jobs .ingestion))) :=
        hX.documents (by rfl) hdocument
      refine soon_stage hX ?_ hkept
      exact stage_updateRow hstage.known hstage.keyed hstage.newest
        (fun row => ⟨(hf row).1, (hf row).2.1⟩) heffect.later fun row _ _ => (hf row).2.2

/-- A terminal write and the `refresh` after it. -/
theorem marked_owing {f : JobRow → JobRow} {r : o.Res} (hX : Steady job X)
    (ho : o ≠ .claimJob .ingestion)
    (hcases : ∀ a t, (∃ e, exec o a l t = (.error e, ⟨true⟩, t)) ∨ l.failed = false ∧
      exec o a l t =
        (.ok r, l, t.withJobs .ingestion (Jobs.updateRow job.id f (t.jobs .ingestion))))
    (hf : ∀ row, (f row).link = row.link ∧ (f row).createdAt = row.createdAt ∧
      (f row).status = status)
    (h : Soon job (fun t => Stage job .running t ∧ X t) s) :
    Owing job ((perform o).bind fun _ => refreshJob .ingestion job.id) l s fun res l' t =>
      (∀ row, res = .ok row → l'.failed = false ∧
        Soon job (fun t => Stage job status t ∧ X t) t) ∧
      ∀ e, res = .error e → StatusFollows job.documentId t := by
  refine Safe.bind_of (mark_owing hX ho hcases hf h) (fun _ l' t hmarked => ?_)
    fun e l' t hfollows => ?_
  · obtain ⟨rfl, hl, hsoon⟩ := hmarked
    refine (refreshJob_owing (.inl hl) hsoon).mono ?_
    rintro res l'' u ⟨hok, herror⟩
    refine ⟨fun row hrow => ?_, herror⟩
    obtain ⟨rfl, hsoon, -⟩ := hok row hrow
    exact ⟨hl, hsoon⟩
  · exact ⟨(fun _ h => by cases h), fun _ _ => hfollows⟩

theorem markCompleted_owing {row : JobRow} (hid : row.id = job.id) (result : Json)
    (hX : Steady job X) (h : Soon job (fun t => Stage job .running t ∧ X t) s) :
    Owing job (markCompleted .ingestion row result) l s fun res l' t =>
      (∀ row, res = .ok row → l'.failed = false ∧
        Soon job (fun t => Stage job .completed t ∧ X t) t) ∧
      ∀ e, res = .error e → StatusFollows job.documentId t := by
  unfold markCompleted
  rw [hid]
  exact marked_owing hX nofun (fun a t => completeJob_cases .ingestion job.id result a l t)
    (fun _ => ⟨rfl, rfl, rfl⟩) h

theorem markFailed_owing {row : JobRow} (hid : row.id = job.id) (error : Str) (hX : Steady job X)
    (h : Soon job (fun t => Stage job .running t ∧ X t) s) :
    Owing job (markFailed .ingestion row error) l s fun res l' t =>
      (∀ row, res = .ok row → l'.failed = false ∧
        Soon job (fun t => Stage job .failed t ∧ X t) t) ∧
      ∀ e, res = .error e → StatusFollows job.documentId t := by
  unfold markFailed
  rw [hid]
  exact marked_owing hX nofun (fun a t => failJob_cases .ingestion job.id error a l t)
    (fun _ => ⟨rfl, rfl, rfl⟩) h

/-- Operations that write for no job leave what the worker knows. -/
theorem aloof_owing {α : Type} {p : Service α} (hp : Aloof ingestionQueue p) (h : Soon job P s) :
    Owing job p l s fun _ _ t => Soon job P t := by
  refine Safe.of_performs hp (fun _ _ _ hrely h => h.later (hrely _ rfl)) ?_ h
  intro o t a l ho _ _ hsoon
  have hcalm := calm_of_effect (exec_effect o a l t) ho
  refine ⟨trivial, ⟨?_, fun other _ => hcalm other⟩, hsoon.later (hcalm _)⟩
  rintro rfl
  cases ho

/-- What a pass owes, whatever it ends in. -/
abbrev Settles {α : Type} (job : JobRow) (p : Service α) (l : Session) (s : Store) : Prop :=
  Owing job p l s fun _ _ t => Linked t → StatusFollows job.documentId t

theorem setStatus_settles {document : DocumentRow} (hid : document.id = job.documentId)
    (hstatus : statusOf status = some documentStatus)
    {p : Service JobRow} (h : Owing job p l s fun res l' t => (∀ row, res = .ok row →
        l'.failed = false ∧
          Soon job (fun t => Stage job status t ∧ HasStatus job document.status t) t) ∧
      ∀ e, res = .error e → StatusFollows job.documentId t) :
    Settles job (p.bind fun _ => (setStatus document documentStatus).bind fun _ => .ret true) l s := by
  refine Safe.bind_of h (fun row l' t hmarked => ?_) fun _ _ _ hfollows _ => hfollows
  exact Safe.bind_ret (setStatus_owing hid hstatus hmarked.1 hmarked.2)

end Owing

/-! ## Passes -/

section Passes

theorem running_follows {X : Store → Prop} :
    ∀ t, Stage job .running t ∧ X t → StatusFollows job.documentId t :=
  fun _ h => h.1.follows_running

theorem steady_true : Steady job fun _ => True where
  calm _ _ _ := trivial
  documents _ _ := trivial

/-- The lookup of the job's document. -/
theorem findDocument_owing (hgood : l.failed = false ∨ status = .running)
    (h : Soon job (fun t => Stage job status t ∧ True) s) :
    Owing job (perform (.findDocument job.tenantId job.documentId)) l s fun res l' t =>
      (∀ found, res = .ok found → l' = l ∧ match found with
        | none => Soon job (fun t => Stage job status t ∧ Gone job t) t
        | some document => document.id = job.documentId ∧ document.tenantId = job.tenantId ∧
            Soon job (fun t => Stage job status t ∧ HasStatus job document.status t) t) ∧
      ∀ e, res = .error e → StatusFollows job.documentId t := by
  have hgood' : l.failed = false ∨ ∀ t, Stage job status t ∧ True → StatusFollows job.documentId t := by
    refine hgood.imp_right ?_
    rintro rfl
    exact running_follows
  refine (query_owing (o := .findDocument job.tenantId job.documentId) (fun _ _ _ => rfl) rfl nofun
    hgood' h).mono ?_
  rintro res l' t ⟨hlinked, ⟨hstage, -⟩, -, hok, herror⟩
  refine ⟨fun found hfound => ?_, herror⟩
  obtain ⟨rfl, hread⟩ := hok found hfound
  refine ⟨rfl, ?_⟩
  cases found with
  | none =>
    refine soon_stage steady_gone hstage fun row hrow hid => ?_
    have htenant := hstage.known.document.rows row hrow hid
    exact List.find?_eq_none.mp hread row hrow (by simp [hid, htenant])
  | some document =>
    obtain ⟨hmem, hid, htenant⟩ := has_of_findDocument hread
    refine ⟨hid, htenant, soon_stage (steady_hasStatus _) hstage fun row hrow hrowId => ?_⟩
    rw [hlinked.document_eq hrow hmem (hrowId.trans hid.symm)]

theorem persist_settles {row : JobRow} {document : DocumentRow} (hid : row.id = job.id)
    (hdocument : document.id = job.documentId) (ingested : Ingested)
    (h : Soon job (fun t => Stage job .running t ∧ HasStatus job document.status t) s) :
    Settles job (persist row document ingested) l s := by
  have hreplace : Aloof ingestionQueue (perform (.replaceTextAndChunks row.tenantId document.id
      ingested.parsed.text ingested.parsed.pageMap ingested.chunks ingested.embeddings)) := .call rfl
  refine Safe.bind.mpr ((aloof_owing hreplace h).mono fun res l' t hsoon => ?_)
  cases res with
  | error e => exact fun hlinked => (hsoon t (.refl _ t) hlinked).1.follows_running
  | ok _ =>
    exact setStatus_settles hdocument rfl
      (markCompleted_owing hid _ (steady_hasStatus _) hsoon)

theorem abandon_settles {row : JobRow} {document : DocumentRow} (hid : row.id = job.id)
    (hdocument : document.id = job.documentId) (e : Exn)
    (h : Soon job (fun t => Stage job .running t ∧ HasStatus job document.status t) s) :
    Settles job (abandon row document e) l s :=
  setStatus_settles hdocument rfl (markFailed_owing hid _ (steady_hasStatus _) h)

/-- The job a claim hands out is in the worker's hands alone. -/
theorem stage_claim {row : JobRow} (hlinked : Linked s) (hrow : row ∈ s.jobs .ingestion)
    (hfit : statusCustody.Fit (Jobs.claim s.now row) s)
    (hlater : Later s (s.withJobs .ingestion
      (Jobs.updateRow row.id (Jobs.claim s.now) (s.jobs .ingestion)))) :
    Stage (Jobs.claim s.now row) (Jobs.claim s.now row).status (s.withJobs .ingestion
      (Jobs.updateRow row.id (Jobs.claim s.now) (s.jobs .ingestion))) := by
  have hlink := JobRow.link_eq_iff.mp (link_claim s.now row)
  have hknown : Known .ingestion (Jobs.claim s.now row) s := by
    refine ⟨?_, ?_⟩
    · rw [hlink.1, hlink.2.1, hlink.2.2.1]
      exact hlinked.jobOf hrow
    · rw [hlink.2.1, hlink.2.2.1]
      exact hlinked.owned (hlinked.jobs .ingestion row hrow)
  rw [← hlink.1] at hlater ⊢
  refine stage_updateRow hknown hlinked.jobKeys (fun latest hlatest hterminal => ?_)
    (fun job => ⟨link_claim s.now job, ?_⟩) hlater ?_
  · exact absurd hterminal (hfit latest hlatest)
  · unfold Jobs.claim
    split <;> rfl
  · intro job hjob hid
    rw [Jobs.eq_of_id_eq (hlinked.jobKeys .ingestion).1 hjob hrow (hid.trans hlink.1)]

variable [Platform]

/-- A claimed job that is run. -/
theorem runClaimed_settles (llm : OpenAiClient) {row : JobRow} (hid : row.id = job.id)
    (htenant : row.tenantId = job.tenantId) (hdocument : row.documentId = job.documentId)
    (hrow : row.status = status) (hstatus : status = .running ∨ status = .failed ∧ l.failed = false)
    (h : Soon job (fun t => Stage job status t ∧ True) s) :
    Settles job (runClaimed llm row) l s := by
  unfold runClaimed
  rw [htenant, hdocument, hrow]
  split
  next hfailed =>
    -- past the attempt cap: the job's row is terminal since the claim
    subst hfailed
    have hl : l.failed = false := hstatus.elim nofun And.right
    refine Safe.bind_of (findDocument_owing (.inl hl) h) (fun found l' t hread => ?_)
      fun _ _ _ hfollows _ => hfollows
    obtain ⟨rfl, hfound⟩ := hread
    cases found with
    | none => exact fun hlinked => (hfound t (.refl _ t) hlinked).2.statusFollows
    | some document =>
      exact Safe.bind_ret (setStatus_owing hfound.1 rfl hl hfound.2.2)
  next hnot =>
    obtain rfl : status = .running := hstatus.resolve_right fun h => hnot h.1
    refine Safe.bind_of (findDocument_owing (.inr rfl) h) (fun found l' t hread => ?_)
      fun _ _ _ hfollows _ => hfollows
    obtain ⟨rfl, hfound⟩ := hread
    cases found with
    | none =>
      refine Safe.bind_ret ((markFailed_owing hid _ steady_gone hfound).mono ?_)
      rintro res l'' u ⟨hok, herror⟩ hlinked
      cases res with
      | error e => exact herror e rfl
      | ok _ => exact ((hok _ rfl).2 u (.refl _ u) hlinked).2.statusFollows
    | some document =>
      obtain ⟨hdocument, -, hsoon⟩ := hfound
      refine Safe.attempt_bind.mpr ((aloof_owing (TryProgram.ingest llm document
        (.sink _ _ _ _)).aloof hsoon).mono fun res l'' u hsoon' => ?_)
      cases res with
      | error e => exact abandon_settles hid hdocument e hsoon'
      | ok ingested => exact persist_settles hid hdocument ingested hsoon'

theorem ingestionWorker_idle (llm : OpenAiClient) :
    statusCustody.Idle (runNextIngestionJob llm >>= fun _ => (return () : Service Unit)) := by
  unfold runNextIngestionJob
  rw [Lib.Prog.bind_eq, Lib.Prog.bind_eq, Lib.Prog.bind_assoc]
  refine claim_idle rfl (show ingestionQueue .ingestion = true from rfl) trivial ?_
  rintro locked l s _ row hlinked hl hnext rfl hlater hfit -
  have hrow := (Jobs.nextRunnable_mem hnext).1
  have hlink := JobRow.link_eq_iff.mp (link_claim s.now row)
  refine ⟨fun documentId hother => ?_, ?_⟩
  · refine calm_updateRow (hlinked.jobOf hrow) hlater
      (fun job => (JobRow.link_eq_iff.mp (link_claim s.now job)).2.2.1) fun hsame => ?_
    exact hother (hlink.2.2.1.trans hsame)
  · have hsoon := soon_stage steady_true (stage_claim hlinked hrow hfit hlater) trivial
    refine Safe.bind_of (refreshJob_owing (.inl hl) hsoon) (fun job l' t hread => ?_)
      fun e l' t hfollows => ?_
    · obtain ⟨rfl, hsoon, hid, htenant, hdocument, hstatus⟩ := hread
      have hclaimed : (Jobs.claim s.now row).status = .running ∨
          (Jobs.claim s.now row).status = .failed ∧ l'.failed = false := by
        unfold Jobs.claim
        split
        · exact .inr ⟨rfl, hl⟩
        · exact .inl rfl
      have hsettles := runClaimed_settles llm hid htenant hdocument hstatus hclaimed hsoon
      refine hsettles.bind_ret.mono fun res _ u hfollows hinv => ?_
      rintro _ rfl
      exact hfollows hinv
    · rintro - _ rfl
      exact hfollows

/-- Only a worker over ingestion jobs has anything to do with the statuses. -/
theorem party_idle [Ucd] (party : Party) : statusCustody.Idle party.program := by
  have haside (h : ∀ k, party.queue = some k → ingestionQueue k = false) :
      statusCustody.Idle party.program := by
    refine Custody.Idle.of_performs (Aloof.party h) fun o ho => ⟨?_, fun a l s _ documentId =>
      calm_of_effect (exec_effect o a l s) ho documentId⟩
    rintro rfl
    cases ho
  match party with
  | .activity (.ingestionWorker llm) => exact ingestionWorker_idle llm
  | .documents _ | .activity (.enqueueIngestion ..) | .activity (.enqueueExtraction ..)
  | .enqueueChangeReport .. | .resolveReviewItem .. => exact haside nofun
  | .activity (.extractionWorker ..) | .changeReportWorker .. =>
    refine haside fun k hk => ?_
    cases hk
    rfl

end Passes

/-! ## Runs -/

section Runs

variable {ι : Type} {w w' : Watched ι}

/-- The turns that keep documents up with their jobs. No job is handed out for a document that
another worker has in hand, or whose newest job is already terminal; and no worker crashes, or is
refused a statement, while the status of the document it works on is behind. -/
def KeepsUp (w : Watched ι) : Turn ι → Prop
  | .act i a => (∀ row ∈ nextJob ingestionQueue w i a,
      (∀ latest ∈ Jobs.findLatestForDocument row.documentId (w.pool.store.jobs .ingestion),
        ¬ latest.terminal) ∧ ∀ j, ∀ job ∈ w.held j, job.documentId ≠ row.documentId) ∧
      (a.refusal = none ∨ ∀ job ∈ w.held i, StatusFollows job.documentId w.pool.store)
  | .drift _ => True
  | .crash i => ∀ job ∈ w.held i, StatusFollows job.documentId w.pool.store

instance [Fintype ι] (w : Watched ι) : (turn : Turn ι) → Decidable (KeepsUp w turn)
  | .act i a => inferInstanceAs (Decidable ((∀ row ∈ nextJob ingestionQueue w i a,
      (∀ latest ∈ Jobs.findLatestForDocument row.documentId (w.pool.store.jobs .ingestion),
        ¬ latest.terminal) ∧ ∀ j, ∀ job ∈ w.held j, job.documentId ≠ row.documentId) ∧
      (a.refusal = none ∨ ∀ job ∈ w.held i, StatusFollows job.documentId w.pool.store)))
  | .drift _ => .isTrue trivial
  | .crash i =>
    inferInstanceAs (Decidable (∀ job ∈ w.held i, StatusFollows job.documentId w.pool.store))

theorem KeepsUp.orderly {turn : Turn ι} (h : KeepsUp w turn) : statusCustody.Orderly w turn := by
  cases turn with
  | act i a =>
    intro l o next hi
    refine ⟨fun job htakes => ?_, fun job hheld => h.2.imp_right fun hfollows => ?_⟩
    · obtain ⟨row, hrow, rfl⟩ := mem_nextJob hi htakes
      obtain ⟨hnewest, hapart⟩ := h.1 row hrow
      have hdocument : (Jobs.claim w.pool.store.now row).documentId = row.documentId :=
        (JobRow.link_eq_iff.mp (link_claim _ row)).2.2.1
      refine ⟨?_, fun j job hj documentId hid hid' => ?_⟩
      · intro latest hlatest
        rw [hdocument] at hlatest
        exact hnewest latest hlatest
      · exact hapart j job hj (hid'.trans (hid.symm.trans hdocument))
    · rintro _ rfl
      exact hfollows job hheld
  | drift elapsed => trivial
  | crash i =>
    rintro job hheld _ rfl
    exact h job hheld

/-- In every run of any parties whose turns keep documents up with their jobs, a document that no
worker has in hand has the status its newest ingestion job calls for. -/
theorem statuses_follow_jobs [DecidableEq ι] [Ucd] [Platform] {members : ι → Option Party}
    {turns : List (Turn ι)} (hlinked : Linked s) (hstart : ∀ documentId, StatusFollows documentId s)
    (hkeeps : Along (Watched.step ingestionQueue) KeepsUp (watch s members) turns)
    (hrun : run (Watched.step ingestionQueue) (watch s members) turns = some w)
    (hfree : ∀ i, ∀ job ∈ w.held i, job.documentId ≠ documentId) :
    StatusFollows documentId w.pool.store :=
  (custody_of_run rfl rfl (fun _ party _ => party_idle party) hlinked hstart
    (hkeeps.mono fun _ _ => KeepsUp.orderly) hrun).2.free documentId hfree

end Runs

/-! ## A crash between the two commits -/

/-- An upload of two bytes of text, a request to ingest it, and two workers. -/
def textIngested : Fin 4 → Option Party
  | 0 => some (.documents (.upload ⟨[], none⟩
      ⟨1, some "a.txt".toList, some Parsing.TEXT_MIME, [[104, 105]], 100, none⟩))
  | 1 => some (.activity (.enqueueIngestion ⟨[], none⟩ 1 10))
  | _ => some (.activity (.ingestionWorker ⟨[], "text-embedding-3-small".toList⟩))

/-- The upload and the enqueue. -/
def textQueued : List (Turn (Fin 4)) :=
  [.act 0 {}, .act 0 {}, .act 0 { ids := [10] }, .act 0 {}, .act 1 {}, .act 1 {},
    .act 1 { ids := [20] }, .act 1 {}]

/-- A worker up to the commit of its job. -/
def textCompleted (i : Fin 4) : List (Turn (Fin 4)) :=
  [.act i {}, .act i {}, .act i {}, .act i {},
    .act i { embed := .replied none 0 [(0, [1])] }, .act i {}, .act i { ids := [30] }, .act i {}]

/-- One worker crashes while its job is running; after the lease another one ends it. -/
theorem statuses_follow_jobs_reclaimed :
    ∃ w, run (Watched.step ingestionQueue) (@watch (Fin 4) Ucd.ascii Documents.onePdf (.empty 0)
        textIngested) (textQueued ++ [.act 2 {}, .act 2 {}, .crash 2, .drift (seconds Jobs.LEASE_SECONDS)] ++
          textCompleted 3 ++ [.act 3 {}, .act 3 {}, .act 3 {}]) = some w ∧
      StatusFollows 10 w.pool.store := by
  have hruns : (run (Watched.step ingestionQueue) (@watch (Fin 4) Ucd.ascii Documents.onePdf
      (.empty 0) textIngested) (textQueued ++ [.act 2 {}, .act 2 {}, .crash 2, .drift (seconds Jobs.LEASE_SECONDS)] ++
        textCompleted 3 ++ [.act 3 {}, .act 3 {}, .act 3 {}])).map
          (fun w => decide (∀ i, w.held i = none)) = some true := by decide +kernel
  obtain ⟨w, hw, hfree⟩ := Option.map_eq_some_iff.mp hruns
  refine ⟨w, hw, @statuses_follow_jobs 10 (.empty 0) (Fin 4) w _ Ucd.ascii Documents.onePdf _ _
    (.empty 0) nofun (by decide +kernel) hw fun i job hjob => ?_⟩
  rw [of_decide_eq_true hfree i] at hjob
  cases hjob

/-- A worker crashes after the job's commit: nobody has the document in hand, its only job is
completed, and it is still `uploaded`. -/
theorem status_left_behind :
    ∃ w, run (Watched.step ingestionQueue) (@watch (Fin 4) Ucd.ascii Documents.onePdf (.empty 0)
        textIngested) (textQueued ++ textCompleted 2 ++ [.crash 2]) = some w ∧
      (∀ i, w.held i = none) ∧ ¬ StatusFollows 10 w.pool.store := by
  have hruns : (run (Watched.step ingestionQueue) (@watch (Fin 4) Ucd.ascii Documents.onePdf
      (.empty 0) textIngested) (textQueued ++ textCompleted 2 ++ [.crash 2])).map
        (fun w => decide ((∀ i, w.held i = none) ∧ ¬ StatusFollows 10 w.pool.store)) =
      some true := by decide +kernel
  obtain ⟨w, hw, hend⟩ := Option.map_eq_some_iff.mp hruns
  exact ⟨w, hw, of_decide_eq_true hend⟩

end ContractIntel.Ingestion
