import ContractIntel.Laws.Services.Party
import ContractIntel.Laws.Store.Links

/-!
# What the parties know

Every party knows the rows it refers to when it writes: a request has looked its documents up under
its tenant, a worker has read its job. So in every run of any parties the rows of the store belong
together (`linked_of_run`). A request of a tenant moreover touches rows by bare ids only when they
are the tenant's (`Confined`).
-/

namespace ContractIntel

open Jobs (JobRow)
open Lib (Discipline Every Kept Pool Runs Safe run)
open Lib.Prog (Performs)
open Llm (OpenAiClient UsageSink)
open Repositories

variable {owner tenantId documentId : Uuid} {kind : JobKind} {o : Op} {a : Answer}
  {l l' : Session} {s t : Store}

/-! ## Disciplines -/

theorem later_tick (elapsed : Time) (s : Store) : Later s (s.tick elapsed) :=
  .of_links (fun _ h => h) rfl fun _ => rfl

theorem Linked.tick (h : Linked s) (elapsed : Time) : Linked (s.tick elapsed) :=
  h.congr (later_tick elapsed s) (fun k => h.jobKeys k) rfl (fun _ => rfl) h.texts h.chunks h.items

/-- A party relies on rows keeping their references, and performs what `K` says it may. -/
def referring (K : Op → Store → Prop) : Discipline exec Store.tick where
  Inv := Linked
  Rely _ := Later
  Guar o _ s t := K o s ∧ Later s t
  Allowed _ _ _ := True
  Clear _ _ _ := True
  rely_refl _ := Later.refl
  rely_trans _ _ _ _ := Later.trans
  compat _ _ _ _ _ _ _ hguar _ := hguar.2
  drift_inv elapsed _ h := h.tick elapsed
  drift_rely elapsed _ s := later_tick elapsed s

/-- The discipline of parties that know what they refer to. -/
abbrev linkDiscipline : Discipline exec Store.tick := referring Knows

/-- An operation of a request of the tenant: it names the tenant, or a row by an id that is known
to be the tenant's. -/
def Confined (owner : Uuid) : Op → Store → Prop
  | .findDocument tenantId _, _ | .findDocumentBySha256 tenantId _, _ | .listDocuments tenantId .., _
  | .countDocuments tenantId, _ | .findJob _ tenantId _, _ | .listReports tenantId _, _
  | .findReviewItem tenantId _, _ | .listReviewItems tenantId _, _ | .resolveReviewItem tenantId .., _
  | .spendByJobType tenantId, _ | .spendByJob tenantId, _ | .spendTotal tenantId, _
  | .insertAudit tenantId .., _ | .saveFile tenantId .., _ | .unlinkFile tenantId _, _
  | .isFile tenantId _, _ => tenantId = owner
  | .readDocument id, s | .hasAmendments id, s | .deleteSweep id, s | .findActiveJob _ id, s
  | .findLatestJob _ id, s => Owned owner id s
  | .readJob _ id, s => ∃ kind documentId, JobOf kind owner documentId id s
  | .insertDocument tenantId _ _ _ amends, s =>
    tenantId = owner ∧ ∀ parent, amends = some parent → Owned owner parent s
  | .insertJob kind tenantId documentId amended, s => tenantId = owner ∧ Owned owner documentId s ∧
      (∀ version, amended = some version → Amends owner version documentId s) ∧
      (kind = .changeReport → amended.isSome)
  | .rollback, _ => True
  | _, _ => False

theorem Confined.knows (h : Confined owner o s) : Knows o s := by
  cases o with
  | insertDocument =>
    obtain ⟨rfl, hparent⟩ := h
    exact hparent
  | insertJob =>
    obtain ⟨rfl, howned, hamends, hreport⟩ := h
    refine ⟨howned, fun hkind => ?_⟩
    obtain ⟨version, hversion⟩ := Option.isSome_iff_exists.mp (hreport hkind)
    exact ⟨version, hversion, hamends version hversion⟩
  | replaceTextAndChunks | insertReviewItems => exact h.elim
  | _ => trivial

theorem Confined.later (h : Confined owner o s) (hlater : Later s t) : Confined owner o t := by
  cases o with
  | readDocument | hasAmendments | deleteSweep | findActiveJob | findLatestJob =>
    exact hlater.owned h
  | readJob =>
    obtain ⟨kind, documentId, hjob⟩ := h
    exact ⟨kind, documentId, hlater.jobOf hjob⟩
  | insertDocument => exact ⟨h.1, fun parent hparent => hlater.owned (h.2 parent hparent)⟩
  | insertJob =>
    obtain ⟨htenant, howned, hamends, hreport⟩ := h
    exact ⟨htenant, hlater.owned howned, fun version hversion =>
      hlater.amends (hamends version hversion), hreport⟩
  | _ => exact h

/-- The discipline of a tenant's requests. -/
abbrev confinement (owner : Uuid) : Discipline exec Store.tick := referring (Confined owner)

theorem Knows.later (h : Knows o s) (hlater : Later s t) : Knows o t := by
  cases o with
  | insertDocument => exact fun parent hparent => hlater.owned (h parent hparent)
  | insertJob =>
    refine ⟨hlater.owned h.1, fun hkind => ?_⟩
    obtain ⟨version, hversion, hamends⟩ := h.2 hkind
    exact ⟨version, hversion, hlater.amends hamends⟩
  | replaceTextAndChunks => exact hlater.owned h
  | insertReviewItems => exact ⟨hlater.owned h.1, hlater.jobOf h.2⟩
  | _ => trivial

/-- A permission that is knowledge of what an operation refers to, and is not lost. -/
structure Lasting (K : Op → Store → Prop) : Prop where
  knows : ∀ {o s}, K o s → Knows o s
  later : ∀ {o s t}, K o s → Later s t → K o t

theorem knows_lasting : Lasting Knows := ⟨id, Knows.later⟩

theorem confined_lasting (owner : Uuid) : Lasting (Confined owner) :=
  ⟨Confined.knows, Confined.later⟩

section Rules

variable {K : Op → Store → Prop} (hK : Lasting K)

/-- Parties may perform what `K` says. -/
def Lasting.permission : Lib.Permission exec Store.tick where
  Inv := Linked
  Later := Later
  May := K
  refl := Later.refl
  trans _ _ _ := Later.trans
  lasts _ _ _ := hK.later
  keeps o a l t hlinked h :=
    ⟨hlinked.effect (hK.knows h) (exec_effect o a l t), (exec_effect o a l t).later⟩
  drift_inv elapsed _ h := h.tick elapsed
  drift_later elapsed s := later_tick elapsed s

include hK

/-- A permitted operation, with what it was performed on. -/
theorem call_safe (h : K o s) :
    Safe (referring K) (perform o) l s fun res l' u => Later s u ∧ Linked u ∧
      ∃ a t, Later s t ∧ Linked t ∧ exec o a l t = (res, l', u) :=
  hK.permission.safe_call h

/-- A program of operations that are always permitted. -/
theorem performs_safe {α : Type} {p : Service α} (hp : p.Performs fun o => ∀ s, K o s) :
    Safe (referring K) p l s fun _ _ u => Later s u :=
  hK.permission.safe_performs hp

end Rules

/-- A confined request knows what it refers to. -/
theorem linked_of_confined {α : Type} {p : Service α} {Q : Except Exn α → Session → Store → Prop}
    (h : Safe (confinement owner) p l s Q) : Safe linkDiscipline p l s Q :=
  h.weaken (fun _ => Iff.rfl) (fun _ _ _ hlater => hlater) (fun _ _ _ _ => trivial)
    fun _ _ _ _ hguar => ⟨hguar.1.knows, hguar.2⟩

/-! ## Requests -/

section Requests

/-- A program of operations that name the tenant. -/
abbrev Scoped (owner : Uuid) {α : Type} (p : Service α) : Prop :=
  p.Performs fun o => ∀ s, Confined owner o s

theorem confined_kept (h : Confined owner o s) :
    Safe (confinement owner) (perform o) l s fun _ _ u => Later s u :=
  (call_safe (confined_lasting owner) h).mono fun _ _ _ hcall => hcall.1

theorem scoped_kept {α : Type} {p : Service α} (hp : Scoped owner p) :
    Safe (confinement owner) p l s fun _ _ _ => True :=
  (performs_safe (confined_lasting owner) hp).mono fun _ _ _ _ => trivial

/-- What is known of a document that was looked up. -/
structure Found (owner documentId : Uuid) (d : DocumentRow) (s : Store) : Prop where
  id : d.id = documentId
  tenant : d.tenantId = owner
  owned : Owned owner documentId s
  amends : ∀ d' ∈ s.documents, d'.id = documentId → d'.amendsDocumentId = d.amendsDocumentId

theorem Found.later {d : DocumentRow} (h : Found owner documentId d s) (hlater : Later s t) :
    Found owner documentId d t := by
  refine ⟨h.id, h.tenant, hlater.owned h.owned, fun d' hd' hid => ?_⟩
  obtain ⟨old, hold, hlink⟩ := hlater.documents d' hd' (hid ▸ h.owned.issued)
  obtain ⟨hsame, -, hamends⟩ := DocumentRow.link_eq_iff.mp hlink
  rw [← hamends]
  exact h.amends old hold (hsame.trans hid)

theorem findDocument_found :
    Safe (confinement owner) (perform (.findDocument owner documentId)) l s fun res _ u =>
      Later s u ∧ ∀ d, res = .ok (some d) → Found owner documentId d u := by
  refine (call_safe (confined_lasting owner) (o := .findDocument owner documentId) rfl).mono ?_
  rintro res l' u ⟨hlater, -, a, t, -, hlinked, hexec⟩
  refine ⟨hlater, ?_⟩
  rintro d rfl
  have hok : (query (Store.findDocument owner documentId) a l t).1 = .ok (some d) :=
    congrArg Prod.fst hexec
  obtain ⟨hread, heq⟩ := query_eq_ok hok
  rw [exec, heq] at hexec
  cases hexec
  obtain ⟨hd, hid, htenant⟩ := has_of_findDocument hread
  exact ⟨hid, htenant, hlinked.owned ⟨d, hd, hid, htenant⟩, fun d' hd' hsame => by
    rw [hlinked.document_eq hd' hd (hsame.trans hid.symm)]⟩

theorem require_safe {α : Type} {disc : Discipline exec Store.tick} {e : Exn} {found : Option α}
    {Q : Except Exn α → Session → Store → Prop} (hsome : ∀ x, found = some x → Q (.ok x) l s)
    (hnone : Q (.error e) l s) : Safe disc (require e found) l s Q := by
  cases found with
  | none => exact hnone
  | some x => exact hsome x rfl

theorem getDocument_found :
    Safe (confinement owner) (Documents.getDocument owner documentId) l s fun res _ u =>
      Later s u ∧ ∀ d, res = .ok d → Found owner documentId d u := by
  refine Safe.bind.mpr (findDocument_found.mono ?_)
  rintro res l' u ⟨hlater, hfound⟩
  cases res with
  | error e => exact ⟨hlater, nofun⟩
  | ok found =>
    refine require_safe (fun d hd => ⟨hlater, ?_⟩) ⟨hlater, nofun⟩
    rintro _ ⟨⟩
    exact hfound d (congrArg _ hd)

/-- What follows in a program whose earlier part is safe. -/
theorem bind_safe {α β : Type} {disc : Discipline exec Store.tick} {p : Service α}
    {f : α → Service β} {P : Except Exn α → Session → Store → Prop} (hp : Safe disc p l s P)
    (hf : ∀ x l' u, P (.ok x) l' u → Safe disc (f x) l' u fun _ _ _ => True) :
    Safe disc (p.bind f) l s fun _ _ _ => True := by
  refine Safe.bind.mpr (hp.mono fun res l' u hres => ?_)
  cases res with
  | error e => trivial
  | ok x => exact hf x l' u hres

/-! ### Uploads -/

theorem createDocument_confined (filename mimeType sha256 : Str) {amends : Option Uuid}
    (hparent : ∀ parent, amends = some parent → Owned owner parent s) :
    Safe (confinement owner) (createDocument owner filename mimeType sha256 amends) l s
      fun res _ _ => ∀ d, res = .ok d → d.tenantId = owner := by
  have hconfined : Confined owner (.insertDocument owner filename mimeType sha256 amends) s :=
    ⟨rfl, hparent⟩
  refine Safe.bind.mpr ((call_safe (confined_lasting owner) hconfined).mono ?_)
  rintro res l' u ⟨-, hlinked, a, t, -, -, hexec⟩
  cases res with
  | error e => exact fun _ h => by cases h
  | ok document =>
    rcases statement_cases (Store.insertDocument owner filename mimeType sha256 amends
      (a.ids.headD 0) a.began) a l t with ⟨e, heq, -⟩ | ⟨row, v, -, -, hok, heq⟩
    · rw [exec, heq] at hexec
      cases hexec
    · rw [exec, heq] at hexec
      cases hexec
      have hmem : document ∈ u.documents ∧ document.tenantId = owner := by
        obtain ⟨-, -, rfl, rfl⟩ := Store.insertDocument_eq_ok hok
        exact ⟨List.mem_append_right _ (List.mem_singleton_self _), rfl⟩
      obtain ⟨hmem, htenant⟩ := hmem
      have howned : Owned owner document.id u := hlinked.owned ⟨document, hmem, rfl, htenant⟩
      refine Safe.bind.mpr ((call_safe (confined_lasting owner)
        (o := .readDocument document.id) howned).mono ?_)
      rintro res m v ⟨-, -, b, t', hlater, -, hexec⟩
      cases res with
      | error e => exact fun _ h => by cases h
      | ok found =>
        refine require_safe (fun d hd => ?_) fun _ h => by cases h
        rintro _ ⟨⟩
        have hread : (query (Store.document? document.id) b l t').1 = .ok (some d) := by
          rw [← hd]
          exact congrArg Prod.fst hexec
        have hfind := (query_eq_ok hread).1
        exact (hlater.owned howned).rows d (List.mem_of_find?_eq_some hfind)
          (by simpa using List.find?_some hfind)

theorem checkParent_confined (request : Documents.UploadRequest) :
    Safe (confinement request.tenantId) (Documents.checkParent request) l s fun res _ u =>
      res = .ok () → ∀ parent, request.amendsDocumentId = some parent →
        Owned request.tenantId parent u := by
  unfold Documents.checkParent
  cases request.amendsDocumentId with
  | none => exact fun _ => nofun
  | some parent =>
    refine Safe.bind.mpr (findDocument_found.mono ?_)
    rintro res l' u ⟨-, hfound⟩
    cases res with
    | error e => exact nofun
    | ok found =>
      cases found with
      | none => exact nofun
      | some document =>
        rintro - _ ⟨⟩
        exact (hfound document rfl).owned

theorem uploadDocument_confined [Platform] (context : RequestContext)
    (request : Documents.UploadRequest) :
    Safe (confinement request.tenantId) (Documents.uploadDocument context request) l s
      fun _ _ _ => True := by
  unfold Documents.uploadDocument
  refine bind_safe (scoped_kept (.ofResult _)) fun checked l' u _ => ?_
  refine bind_safe (checkParent_confined request) fun _ l' u hparent => ?_
  refine bind_safe (confined_kept (o := .findDocumentBySha256 request.tenantId checked.1) rfl) ?_
  intro found l' v hlater
  cases found with
  | some existing => trivial
  | none =>
    have hstore : Safe (confinement request.tenantId)
        (Documents.store request checked.1 checked.2) l' v fun res _ _ =>
          ∀ d, res = .ok d → d.tenantId = request.tenantId := by
      refine Safe.bind.mpr ((confined_kept
        (o := .saveFile request.tenantId checked.1 checked.2) rfl).mono fun res l'' w hlater' => ?_)
      cases res with
      | error e => exact nofun
      | ok _ =>
        have howned := fun parent hamends =>
          hlater'.owned (hlater.owned (hparent rfl parent hamends))
        refine Safe.tryCatch.mpr ((createDocument_confined _ _ _ howned).mono fun res _ _ hres => ?_)
        cases res with
        | ok document => exact hres
        | error e =>
          dsimp only
          split
          · refine Safe.bind.mpr ((confined_kept (o := .rollback) trivial).mono fun res _ _ _ => ?_)
            cases res with
            | error e => exact nofun
            | ok _ =>
              refine Safe.bind.mpr ((confined_kept
                (o := .findDocumentBySha256 request.tenantId checked.1) rfl).mono fun res _ _ _ => ?_)
              cases res <;> exact nofun
          · exact nofun
    refine bind_safe hstore fun document l'' w htenant => ?_
    refine bind_safe (confined_kept ?_) fun _ _ _ _ => trivial
    exact htenant document rfl

/-! ### Deletes -/

theorem sweep_confined (howned : Owned owner documentId s) :
    Safe (confinement owner) (Documents.sweep documentId) l s fun _ _ _ => True := by
  refine Safe.tryCatch.mpr ((confined_kept (o := .deleteSweep documentId) howned).mono
    fun res _ u hlater => ?_)
  cases res with
  | ok _ => trivial
  | error e =>
    dsimp only
    split
    · refine bind_safe (confined_kept (o := .rollback) trivial) fun _ _ v hlater' => ?_
      have hstill := hlater'.owned (hlater.owned howned)
      refine bind_safe (confined_kept (o := .hasAmendments documentId) hstill) fun amended _ _ _ => ?_
      cases amended <;> trivial
    · trivial

theorem deleteDocument_confined (context : RequestContext) :
    Safe (confinement owner) (Documents.deleteDocument context owner documentId) l s
      fun _ _ _ => True := by
  unfold Documents.deleteDocument
  refine bind_safe getDocument_found fun document _ u hfound => ?_
  have hdocument := hfound.2 document rfl
  refine bind_safe (confined_kept (o := .hasAmendments documentId) hdocument.owned)
    fun amended _ v hlater => ?_
  cases amended with
  | true => trivial
  | false =>
    have howned : Owned owner document.id v := hdocument.id ▸ hlater.owned hdocument.owned
    refine bind_safe (sweep_confined howned) fun _ _ _ _ => ?_
    refine bind_safe (confined_kept (o := .unlinkFile owner document.sha256) rfl) fun _ _ _ _ => ?_
    exact scoped_kept (.call fun _ => rfl)

/-! ### Enqueues -/

theorem createJob_confined {amended : Option Uuid} (howned : Owned owner documentId s)
    (hamends : ∀ version, amended = some version → Amends owner version documentId s)
    (hreport : kind = .changeReport → amended.isSome) :
    Safe (confinement owner) (createJob kind owner documentId amended) l s fun _ _ _ => True := by
  have hconfined : Confined owner (.insertJob kind owner documentId amended) s :=
    ⟨rfl, howned, hamends, hreport⟩
  refine bind_safe (call_safe (confined_lasting owner) hconfined) ?_
  rintro job l' u ⟨-, hlinked, a, t, -, -, hexec⟩
  have hjob : job ∈ u.jobs kind ∧ job.tenantId = owner := by
    rcases statement_cases (Store.insertJob kind owner documentId amended (a.ids.headD 0) a.began)
      a l t with ⟨e, heq, -⟩ | ⟨row, v, -, -, hok, heq⟩
    · rw [exec, heq] at hexec
      cases hexec
    · rw [exec, heq] at hexec
      cases hexec
      obtain ⟨-, -, rfl, rfl⟩ := Store.insertJob_eq_ok hok
      refine ⟨?_, rfl⟩
      show _ ∈ Store.jobs _ kind
      simp
  have hknown : Confined owner (.readJob kind job.id) u :=
    ⟨kind, job.documentId, hjob.2 ▸ hlinked.jobOf hjob.1⟩
  refine bind_safe (confined_kept hknown) fun found _ _ _ => ?_
  cases found <;> trivial

theorem insertUnlessActive_confined {conflict : Uuid → Exn} (hkind : kind ≠ .changeReport)
    (howned : Owned owner documentId s) :
    Safe (confinement owner) (Ingestion.insertUnlessActive kind conflict owner documentId) l s
      fun _ _ _ => True := by
  refine bind_safe (confined_kept (o := .findActiveJob kind documentId) howned)
    fun active _ u hlater => ?_
  cases active with
  | some job => trivial
  | none => exact createJob_confined (hlater.owned howned) nofun fun h => absurd h hkind

theorem enqueueIngestion_confined (context : RequestContext) :
    Safe (confinement owner) (Ingestion.enqueueIngestion context owner documentId) l s
      fun _ _ _ => True := by
  refine bind_safe findDocument_found fun found _ u hfound => ?_
  cases found with
  | none => trivial
  | some document =>
    have howned := (hfound.2 document rfl).owned
    refine bind_safe (insertUnlessActive_confined nofun howned) fun job _ _ _ => ?_
    exact bind_safe (confined_kept (by rfl)) fun _ _ _ _ => trivial

theorem enqueueExtraction_confined (context : RequestContext) :
    Safe (confinement owner) (Extraction.enqueueExtraction context owner documentId) l s
      fun _ _ _ => True := by
  refine bind_safe findDocument_found fun found _ u hfound => ?_
  cases found with
  | none => trivial
  | some document =>
    have howned := (hfound.2 document rfl).owned
    dsimp only
    split
    · exact bind_safe (confined_kept (o := .findLatestJob .ingestion documentId) howned)
        fun _ _ _ _ => trivial
    · refine bind_safe (insertUnlessActive_confined nofun howned) fun job _ _ _ => ?_
      exact bind_safe (confined_kept (by rfl)) fun _ _ _ _ => trivial

theorem requireVersion_confined {document : DocumentRow} (howned : Owned owner document.id s) :
    Safe (confinement owner) (ChangeReport.requireVersion document) l s
      fun _ _ u => Later s u := by
  unfold ChangeReport.requireVersion
  split
  · refine Safe.bind.mpr ((confined_kept (o := .findLatestJob .ingestion document.id) howned).mono
      fun res _ u hlater => ?_)
    cases res <;> exact hlater
  · refine Safe.bind.mpr ((confined_kept (o := .findLatestJob .extraction document.id) howned).mono
      fun res _ u hlater => ?_)
    cases res with
    | error e => exact hlater
    | ok latest =>
      cases latest with
      | none => exact hlater
      | some latest =>
        dsimp only
        split <;> exact hlater

theorem enqueueChangeReport_confined {amendedId : Uuid} (context : RequestContext) :
    Safe (confinement owner)
      (ChangeReport.enqueueChangeReport context owner documentId amendedId) l s
      fun _ _ _ => True := by
  unfold ChangeReport.enqueueChangeReport
  refine bind_safe findDocument_found fun found _ u hfound => ?_
  refine bind_safe (P := fun res _ v => Later u v ∧ ∀ d, res = .ok d → Found owner documentId d v)
    (require_safe (fun d hd => ⟨.refl _, ?_⟩) ⟨.refl _, nofun⟩) fun base _ u' hbase => ?_
  · rintro _ ⟨⟩
    exact hfound.2 d (congrArg _ hd)
  replace hbase := hbase.2 base rfl
  refine bind_safe findDocument_found fun found _ v hfound => ?_
  refine bind_safe (P := fun res _ w => Later v w ∧ ∀ d, res = .ok d → Found owner amendedId d w)
    (require_safe (fun d hd => ⟨.refl _, ?_⟩) ⟨.refl _, nofun⟩) fun amended _ v' hamended => ?_
  · rintro _ ⟨⟩
    exact hfound.2 d (congrArg _ hd)
  have hbase' := hbase.later (hfound.1.trans hamended.1)
  replace hamended := hamended.2 amended rfl
  dsimp only
  split
  · trivial
  next hparent =>
    have hamends : Amends owner amended.id base.id v' := by
      refine ⟨hamended.id ▸ hamended.owned.issued, fun d hd hid => ?_⟩
      have hid' := hid.trans hamended.id
      exact ⟨hamended.owned.rows d hd hid', (hamended.amends d hd hid').trans (by simpa using hparent)⟩
    have hbaseOwned : Owned owner base.id v' := hbase'.id ▸ hbase'.owned
    have hamendedOwned : Owned owner amended.id v' := hamended.id ▸ hamended.owned
    refine bind_safe (requireVersion_confined hbaseOwned) fun _ _ w hlater => ?_
    refine bind_safe (requireVersion_confined (hlater.owned hamendedOwned)) fun _ _ x hlater' => ?_
    have hlast := hlater.trans hlater'
    refine bind_safe (createJob_confined (hlast.owned hbaseOwned) ?_ fun _ => rfl) fun _ _ _ _ => ?_
    · rintro _ ⟨⟩
      exact hlast.amends hamends
    · exact bind_safe (confined_kept (by rfl)) fun _ _ _ _ => trivial

/-! ### Review items -/

theorem getReviewItem_scoped (itemId : Uuid) :
    Scoped owner (ReviewQueue.getReviewItem owner itemId) := by
  refine .bind (.call fun _ => rfl) fun found => ?_
  cases found <;> trivial

theorem resolveReviewItem_scoped (context : RequestContext) (itemId : Uuid)
    (request : ReviewQueue.ReviewDispositionCreate) :
    Scoped owner (ReviewQueue.resolveReviewItem context owner itemId request) := by
  refine .bind (getReviewItem_scoped itemId) fun _ => .bind (.call fun _ => rfl) fun resolved => ?_
  cases resolved with
  | none => exact .raise _
  | some row => exact .bind (.call fun _ => rfl) fun _ => .ret _

end Requests

/-! ## Workers -/

/-- What a worker knows of the job it has read. -/
structure Known (kind : JobKind) (job : JobRow) (s : Store) : Prop where
  ofJob : JobOf kind job.tenantId job.documentId job.id s
  document : Owned job.tenantId job.documentId s

theorem Known.later {job : JobRow} (h : Known kind job s) (hlater : Later s t) : Known kind job t :=
  ⟨hlater.jobOf h.ofJob, hlater.owned h.document⟩

section Workers

/-- Operations that refer to nothing. -/
abbrev Plain {α : Type} (p : Service α) : Prop := p.Performs fun o => ∀ s, Knows o s

theorem plain_safe {α : Type} {p : Service α} (hp : Plain p) :
    Safe linkDiscipline p l s fun _ _ u => Later s u :=
  performs_safe knows_lasting hp

theorem plain_kept {α : Type} {p : Service α} (hp : Plain p) :
    Safe linkDiscipline p l s fun _ _ _ => True :=
  (plain_safe hp).mono fun _ _ _ _ => trivial

theorem TryProgram.plain {α : Type} {p : Service α} (h : TryProgram p) : Plain p := by
  refine h.mono fun o _ ho s => ?_
  cases o <;> trivial

/-- A claimed job is one that was read. -/
theorem claimNextQueued_known :
    Safe linkDiscipline (claimNextQueued kind) l s fun res _ u =>
      ∀ job, res = .ok (some job) → Known kind job u := by
  refine Safe.bind.mpr ((call_safe knows_lasting (o := .claimJob kind) trivial).mono
    fun res l' u _ => ?_)
  cases res with
  | error e => exact nofun
  | ok found =>
    cases found with
    | none => exact nofun
    | some job =>
      refine Safe.bind.mpr (Safe.bind.mpr ((call_safe knows_lasting (o := .readJob kind job.id)
        trivial).mono ?_))
      rintro res m v ⟨-, -, a, t, -, hlinked, hexec⟩
      cases res with
      | error e => exact nofun
      | ok found =>
        refine require_safe (fun row hrow => ?_) nofun
        rintro _ ⟨⟩
        have hread : (query (fun s => Jobs.row? job.id (s.jobs kind)) a l' t).1 = .ok (some row) := by
          rw [← hrow]
          exact congrArg Prod.fst hexec
        obtain ⟨hfind, heq⟩ := query_eq_ok hread
        rw [exec, heq] at hexec
        cases hexec
        have hmem := (Jobs.row?_mem hfind).1
        exact ⟨hlinked.jobOf hmem, hlinked.owned (hlinked.jobs kind row hmem)⟩

theorem abandon_linked (job : JobRow) {usageSink : UsageSink}
    (hsink : ∀ usage, TryProgram (usageSink usage)) (e : Exn) :
    Safe linkDiscipline (Extraction.abandon kind job usageSink e) l s fun _ _ _ => True := by
  refine plain_kept ?_
  unfold Extraction.abandon
  split
  · exact .bind (markFailed_performs (fun _ => trivial) fun _ => trivial) fun _ =>
      .bind (TryProgram.accountRejectedOutput hsink _).plain fun _ => .ret _
  · exact .raise _

theorem routeForReview_linked {job : JobRow} (source : ReviewItemSource)
    (h : Known source.kind job s) (candidates : List (Str × Json × Rat)) (threshold : Rat) :
    Safe linkDiscipline (ReviewQueue.routeForReview job.tenantId source job.documentId job.id
      candidates threshold) l s fun _ _ _ => True := by
  unfold ReviewQueue.routeForReview
  dsimp only
  split
  · trivial
  · refine bind_safe (call_safe knows_lasting ?_) fun _ _ _ _ => trivial
    exact ⟨h.document, h.ofJob⟩

theorem persist_linked {job : JobRow} {document : DocumentRow} {ingested : Ingestion.Ingested}
    (h : Owned job.tenantId document.id s) :
    Safe linkDiscipline (Ingestion.persist job document ingested) l s fun _ _ _ => True := by
  refine bind_safe (call_safe knows_lasting h) fun _ _ _ _ => ?_
  exact plain_kept (.bind (markCompleted_performs (fun _ => trivial) fun _ => trivial) fun _ =>
    .bind (setStatus_performs (fun _ => trivial) fun _ => trivial) fun _ => .ret _)

variable [Platform]

theorem runNextIngestionJob_linked (llm : OpenAiClient) :
    Safe linkDiscipline (Ingestion.runNextIngestionJob llm) l s fun _ _ _ => True := by
  refine bind_safe claimNextQueued_known fun claimed _ u _ => ?_
  cases claimed with
  | none => trivial
  | some job =>
    show Safe linkDiscipline (Ingestion.runClaimed llm job) _ _ _
    unfold Ingestion.runClaimed
    split
    · refine plain_kept (.bind (.call fun _ => trivial) fun found => ?_)
      cases found with
      | none => exact .ret _
      | some document => exact .bind (setStatus_performs (fun _ => trivial) fun _ => trivial) fun _ => .ret _
    · refine bind_safe (linked_of_confined findDocument_found) fun found _ v hfound => ?_
      cases found with
      | none => exact plain_kept (.bind (markFailed_performs (fun _ => trivial) fun _ => trivial) fun _ => .ret _)
      | some document =>
        have hdocument := hfound.2 document rfl
        refine Safe.attempt_bind.mpr ((plain_safe (TryProgram.ingest llm document
          (.sink _ _ _ _)).plain).mono fun res _ w hlater => ?_)
        cases res with
        | error e =>
          exact plain_kept (.bind (markFailed_performs (fun _ => trivial) fun _ => trivial) fun _ =>
            .bind (setStatus_performs (fun _ => trivial) fun _ => trivial) fun _ => .ret _)
        | ok ingested => exact persist_linked (hdocument.id ▸ hlater.owned hdocument.owned)

omit [Platform] in
theorem runNextExtractionJob_linked (llm : OpenAiClient) (threshold : Rat) :
    Safe linkDiscipline (Extraction.runNextExtractionJob llm threshold) l s fun _ _ _ => True := by
  refine bind_safe claimNextQueued_known fun claimed _ u hknown => ?_
  cases claimed with
  | none => trivial
  | some job =>
    replace hknown := hknown job rfl
    show Safe linkDiscipline (Extraction.runClaimed llm threshold job) _ _ _
    unfold Extraction.runClaimed
    split
    · trivial
    · refine Safe.attempt_bind.mpr ((plain_safe (TryProgram.extract llm job
        (.sink _ _ _ _)).plain).mono fun res _ v hlater => ?_)
      cases res with
      | error e => exact abandon_linked job (.sink _ _ _ _) e
      | ok extraction =>
        refine bind_safe (plain_safe (markCompleted_performs (fun _ => trivial) fun _ => trivial))
          fun _ _ w hlater' => ?_
        refine bind_safe (routeForReview_linked .extraction
          (hknown.later (hlater.trans hlater')) _ _) fun _ _ _ _ => trivial

theorem runNextChangeReportJob_linked [Ucd] (llm : OpenAiClient) (threshold : Rat) :
    Safe linkDiscipline (ChangeReport.runNextChangeReportJob llm threshold) l s
      fun _ _ _ => True := by
  refine bind_safe claimNextQueued_known fun claimed _ u hknown => ?_
  cases claimed with
  | none => trivial
  | some job =>
    replace hknown := hknown job rfl
    show Safe linkDiscipline (ChangeReport.runClaimed llm threshold job) _ _ _
    unfold ChangeReport.runClaimed
    split
    · trivial
    · refine Safe.attempt_bind.mpr ((plain_safe (TryProgram.examine llm job
        (.sink _ _ _ _)).plain).mono fun res _ v hlater => ?_)
      cases res with
      | error e => exact abandon_linked job (.sink _ _ _ _) e
      | ok findings =>
        refine bind_safe (plain_safe (.ofResult _)) fun rows _ w hlater' => ?_
        refine bind_safe (plain_safe (markCompleted_performs (fun _ => trivial) fun _ => trivial))
          fun _ _ x hlater'' => ?_
        refine bind_safe (routeForReview_linked .impactMapping
          (hknown.later ((hlater.trans hlater').trans hlater'')) _ _) fun _ _ _ _ => trivial

end Workers

/-! ## Parties -/

section Parties

variable [Ucd] [Platform]

theorem Party.program_linked (party : Party) (l : Session) (s : Store) :
    Safe linkDiscipline party.program l s fun _ _ _ => True := by
  cases party with
  | documents request =>
    cases request with
    | upload context request =>
      exact bind_safe (linked_of_confined (uploadDocument_confined context request))
        fun _ _ _ _ => trivial
    | delete context tenantId documentId => exact linked_of_confined (deleteDocument_confined context)
  | activity work =>
    cases work with
    | enqueueIngestion context tenantId documentId =>
      exact bind_safe (linked_of_confined (enqueueIngestion_confined context)) fun _ _ _ _ => trivial
    | enqueueExtraction context tenantId documentId =>
      exact bind_safe (linked_of_confined (enqueueExtraction_confined context)) fun _ _ _ _ => trivial
    | ingestionWorker llm => exact bind_safe (runNextIngestionJob_linked llm) fun _ _ _ _ => trivial
    | extractionWorker llm threshold =>
      exact bind_safe (runNextExtractionJob_linked llm threshold) fun _ _ _ _ => trivial
  | enqueueChangeReport context tenantId baseId amendedId =>
    exact bind_safe (linked_of_confined (enqueueChangeReport_confined context)) fun _ _ _ _ => trivial
  | changeReportWorker llm threshold =>
    exact bind_safe (runNextChangeReportJob_linked llm threshold) fun _ _ _ _ => trivial
  | resolveReviewItem context tenantId itemId request =>
    exact bind_safe (linked_of_confined (scoped_kept (resolveReviewItem_scoped context itemId request)))
      fun _ _ _ _ => trivial

variable {ι : Type} [DecidableEq ι] {members : ι → Option Party} {turns : List (Turn ι)}
  {c : System ι}

omit [Ucd] [Platform] [DecidableEq ι] in
/-- The store refuses nothing for the sake of the links. -/
theorem linked_undisturbed (c : System ι) (turn : Turn ι) : linkDiscipline.Undisturbed c turn :=
  knows_lasting.permission.undisturbed c turn

/-- In every run of any parties the rows of the store belong together, and every party knows what
it refers to. -/
theorem holds_of_run (hlinked : Linked s)
    (hrun : run System.step (everyone s members) turns = some c) : linkDiscipline.Holds c := by
  have hstart : linkDiscipline.Holds (everyone s members) := by
    refine ⟨hlinked, fun i l p hi => ?_⟩
    obtain ⟨program, hprogram, heq⟩ := Option.map_eq_some_iff.mp hi
    obtain ⟨party, -, rfl⟩ := Option.map_eq_some_iff.mp hprogram
    cases heq
    exact party.program_linked _ _
  exact knows_lasting.permission.holds_run hstart hrun

end Parties

end ContractIntel
