import ContractIntel.Laws.Services.Documents
import ContractIntel.Laws.Services.Links
import ContractIntel.Laws.Store.Agreement
import ContractIntel.Services.Requests

/-!
# Tenants are isolated

Two runs of one request, on stores that agree on the tenant, are one run as far as the tenant can
tell, and neither touches what is another tenant's. The request may name any ids: what it looks up
under its tenant it does not find when it is another's, and what it touches by bare ids is known to
be its own (`Confined`), which rests on the rows of a reached store belonging together (`Linked`).
-/

namespace ContractIntel

open Lib (Safe filter_append_foreign filter_filter_foreign filter_map_foreign replay)
open Repositories

variable {owner other tenantId documentId : Uuid} {kind : JobKind} {o : Op} {a : Answer}
  {l l' : Session} {s s₁ s₂ t t₁ t₂ : Store}

/-! ## Other tenants -/

theorem swept_untouched (hlinked : Linked s) (howned : Owned owner documentId s)
    (hother : other ≠ owner) (hswept : Swept documentId s t) : Agree other s t := by
  have hspared : ∀ {tenantId d}, s.Has tenantId d → tenantId = other → d ≠ documentId := by
    rintro tenantId _ ⟨d, hd, hid, htenant⟩ rfl rfl
    exact hother (htenant.symm.trans (howned.rows d hd hid))
  refine ⟨?_, ?_, ?_, fun k => ?_, ?_, ?_, ?_, ?_⟩
  · rw [hswept.documents, filter_filter_foreign fun d hd htenant => ?_]
    exact decide_eq_true (hspared ⟨d, hd, rfl, rfl⟩ (of_decide_eq_true htenant))
  · rw [hswept.texts, filter_filter_foreign fun row hrow htenant => ?_]
    exact decide_eq_true (hspared (hlinked.texts row hrow) (of_decide_eq_true htenant))
  · rw [hswept.chunks, filter_filter_foreign fun row hrow htenant => ?_]
    exact decide_eq_true (hspared (hlinked.chunks row hrow) (of_decide_eq_true htenant))
  · by_cases hk : k = .changeReport
    · subst hk
      rw [hswept.reports, filter_filter_foreign fun job hjob htenant => ?_]
      refine decide_eq_true fun hamended => hother ?_
      rw [← of_decide_eq_true htenant]
      exact hlinked.report_tenant howned hjob hamended
    · rw [hswept.jobs k hk, filter_filter_foreign fun job hjob htenant => ?_]
      exact decide_eq_true (hspared (hlinked.jobs k job hjob) (of_decide_eq_true htenant))
  · rw [hswept.reviewItems, filter_filter_foreign fun item hitem htenant => ?_]
    obtain ⟨hhas, hjobOf⟩ := hlinked.items item hitem
    rw [Bool.and_eq_true, decide_eq_true_eq, decide_eq_true_eq]
    refine ⟨fun hreport => hother ?_, hspared hhas (of_decide_eq_true htenant)⟩
    -- an item that carries the id of a report has that report's tenant
    obtain ⟨job, hjob, hid⟩ := List.mem_map.mp hreport
    obtain ⟨hjob, hamended⟩ := List.mem_filter.mp hjob
    rw [← of_decide_eq_true htenant, ← (hjobOf.rows .changeReport job hjob hid).2.1]
    exact hlinked.report_tenant howned hjob (of_decide_eq_true hamended)
  · rw [hswept.rest]
  · rw [hswept.rest]
  · rw [hswept.rest]
    exact fun _ => rfl

/-- A confined operation leaves the rows and files of other tenants as they are. -/
theorem Confined.untouched (h : Confined owner o s) (hlinked : Linked s)
    (heffect : Effect o a s t) (hother : other ≠ owner) : Agree other s t := by
  have hforeign : ∀ {tenantId : Uuid}, tenantId = owner → ¬ decide (tenantId = other) = true := by
    rintro _ rfl hsame
    exact hother (of_decide_eq_true hsame).symm
  have hkept := Agree.refl other s
  cases heffect with
  | nothing => exact hkept
  | insertDocument =>
    refine { hkept with documents := ?_ }
    rw [filter_append_foreign fun row hrow => List.mem_singleton.mp hrow ▸ hforeign h.1]
  | deleteSweep hswept =>
    exact swept_untouched hlinked h hother (Store.swept_of_deleteSweep hswept)
  | insertJob =>
    refine { hkept with jobs := fun k => ?_ }
    rw [withJobs_jobs]
    split
    next hk =>
      subst hk
      rw [filter_append_foreign fun row hrow => List.mem_singleton.mp hrow ▸ hforeign h.1]
    next => exact .refl _
  | insertAudit =>
    refine { hkept with audit := ?_ }
    rw [Store.insertAudit,
      filter_append_foreign fun row hrow => List.mem_singleton.mp hrow ▸ hforeign h]
  | @resolveReviewItem tenantId itemId status values =>
    refine { hkept with reviewItems := ?_ }
    rw [filter_map_foreign (fun item => by split <;> rfl) fun item _ htenant => ?_]
    rw [if_neg]
    intro hresolvable
    simp only [Store.resolvable, Bool.and_eq_true, decide_eq_true_eq] at hresolvable
    exact hforeign h (hresolvable.1.2 ▸ htenant)
  | saveFile | unlinkFile =>
    refine { hkept with files := fun sha => ?_ }
    unfold Store.setFile
    dsimp only
    rw [if_neg fun hsame => hother (hsame.1.trans h)]
  | _ => exact h.elim

/-! ## One operation, twice -/

/-- The operations of requests that draw an identifier. -/
def Op.draws : Op → Bool
  | .insertDocument .. | .insertJob .. => true
  | _ => false

theorem Effect.now (h : Effect o a s t) : t.now = s.now := by
  cases h with
  | deleteSweep hswept => rw [(Store.swept_of_deleteSweep hswept).rest]
  | _ => rfl

theorem draw_of_new {issued : List Uuid} {drawn : Uuid} (h : drawn ∉ issued) :
    draw issued drawn = drawn := if_neg h

/-- On sound stores that agree on the tenant a confined operation answers the same and leaves
stores that agree. -/
theorem Confined.alike (h₁ : Confined owner o s₁) (h₂ : Confined owner o s₂) (hs₁ : Sound s₁)
    (hs₂ : Sound s₂) (hagree : Agree owner s₁ s₂) (hnow : s₁.now = s₂.now)
    (hnew : o.draws → a.ids.headD 0 ∉ s₁.issued ∧ a.ids.headD 0 ∉ s₂.issued) :
    Alike owner (exec o a l s₁) (exec o a l s₂) := by
  cases o with
  | findDocument tenantId documentId =>
    obtain rfl := h₁
    exact query_alike hagree (findDocument_agree hs₁ hagree documentId)
  | findDocumentBySha256 tenantId sha256 =>
    obtain rfl := h₁
    exact query_alike hagree (findDocumentBySha256_agree hs₁ hagree sha256)
  | readDocument documentId => exact query_alike hagree (document?_agree hs₁ hagree h₁ h₂)
  | hasAmendments documentId => exact query_alike hagree (hasAmendments_agree hs₁ hs₂ hagree h₁ h₂)
  | insertDocument tenantId filename mimeType sha256 amends =>
    obtain ⟨rfl, hparent₁⟩ := h₁
    obtain ⟨-, hparent₂⟩ := h₂
    obtain ⟨hnew₁, hnew₂⟩ := hnew rfl
    refine statement_alike hagree ?_
    have hparents : (amends.any fun parent => (s₁.document? parent).isNone) =
        amends.any fun parent => (s₂.document? parent).isNone := by
      cases amends with
      | none => rfl
      | some parent =>
        exact congrArg Option.isNone
          (document?_agree hs₁ hagree (hparent₁ parent rfl) (hparent₂ parent rfl))
    simp only [Store.insertDocument, findDocumentBySha256_agree hs₁ hagree sha256, hparents,
      draw_of_new hnew₁, draw_of_new hnew₂, Store.started, hnow]
    split
    · exact .inl ⟨_, rfl, rfl⟩
    · split
      · exact .inl ⟨_, rfl, rfl⟩
      · exact .inr ⟨_, _, _, rfl, rfl, appendDocument_agree hagree _ _ _ _⟩
  | deleteSweep documentId =>
    exact statement_alike hagree (deleteSweep_agree hs₁ hs₂ hagree h₁ h₂)
  | readJob kind id =>
    obtain ⟨_, _, hjob₁⟩ := h₁
    obtain ⟨_, _, hjob₂⟩ := h₂
    exact query_alike hagree (row?_agree hs₁ hagree hjob₁ hjob₂)
  | findActiveJob kind documentId =>
    exact query_alike hagree (findActive_agree hs₁ hs₂ hagree h₁ h₂)
  | findLatestJob kind documentId =>
    exact query_alike hagree (findLatest_agree hs₁ hs₂ hagree h₁ h₂)
  | insertJob kind tenantId documentId amended =>
    obtain ⟨rfl, howned₁, hamends₁, -⟩ := h₁
    obtain ⟨-, howned₂, hamends₂, -⟩ := h₂
    obtain ⟨hnew₁, hnew₂⟩ := hnew rfl
    refine statement_alike hagree ?_
    have hversions : (amended.any fun version => (s₁.document? version).isNone) =
        amended.any fun version => (s₂.document? version).isNone := by
      cases amended with
      | none => rfl
      | some version =>
        exact congrArg Option.isNone (document?_agree hs₁ hagree (hamends₁ version rfl).owned
          (hamends₂ version rfl).owned)
    simp only [Store.insertJob, document?_agree hs₁ hagree howned₁ howned₂, hversions,
      draw_of_new hnew₁, draw_of_new hnew₂, Store.started, hnow]
    split
    · exact .inl ⟨_, rfl, rfl⟩
    · split
      · exact .inl ⟨_, rfl, rfl⟩
      · exact .inr ⟨_, _, _, rfl, rfl, appendJob_agree hagree _ _ _ _⟩
  | insertAudit tenantId actor requestId action resourceType resourceId detail =>
    exact statement_alike hagree
      (.inr ⟨_, _, _, rfl, rfl, insertAudit_agree hagree hnow _ _ _ _ _ _ _ _⟩)
  | listDocuments tenantId limit offset =>
    obtain rfl := h₁
    exact query_alike hagree (listDocuments_agree hs₁ hagree limit offset)
  | countDocuments tenantId =>
    obtain rfl := h₁
    exact query_alike hagree (countDocuments_agree hagree)
  | findJob kind tenantId id =>
    obtain rfl := h₁
    exact query_alike hagree (findById_agree hs₁ hagree id)
  | listReports tenantId baseDocumentId =>
    obtain rfl := h₁
    exact query_alike hagree (listReports_agree hs₁ hagree baseDocumentId)
  | findReviewItem tenantId itemId =>
    obtain rfl := h₁
    exact query_alike hagree (findReviewItem_agree hs₁ hagree itemId)
  | listReviewItems tenantId status =>
    obtain rfl := h₁
    exact query_alike hagree (listReviewItems_agree hs₁ hagree status)
  | resolveReviewItem tenantId itemId status values =>
    obtain rfl := h₁
    refine statement_alike hagree (.inr ⟨_, _, _, rfl, ?_, resolve_agree hagree hnow itemId status values⟩)
    rw [Store.resolveReviewItem, find?_resolvable_agree hs₁ hagree itemId, hnow]
  | spendByJobType tenantId =>
    obtain rfl := h₁
    exact query_alike hagree (spendByJobType_agree hagree)
  | spendByJob tenantId =>
    obtain rfl := h₁
    exact query_alike hagree (spendByJob_agree hagree)
  | spendTotal tenantId =>
    obtain rfl := h₁
    exact query_alike hagree (spendTotal_agree hagree)
  | rollback => exact ⟨rfl, rfl, hagree⟩
  | saveFile tenantId sha256 content =>
    obtain rfl := h₁
    exact fileCall_alike hagree rfl rfl (setFile_agree hagree sha256 (some content))
  | unlinkFile tenantId sha256 =>
    obtain rfl := h₁
    refine fileCall_alike hagree rfl ?_ (setFile_agree hagree sha256 none)
    rw [hagree.files sha256]
  | isFile tenantId sha256 =>
    obtain rfl := h₁
    refine ⟨?_, rfl, hagree⟩
    rw [exec, exec, hagree.files sha256]
  | _ => exact h₁.elim

theorem Confined.issued (h : Confined owner o s) (heffect : Effect o a s t)
    (hnew : o.draws → a.ids.headD 0 ∉ s.issued) {id : Uuid} (hid : id ∈ t.issued) :
    id ∈ s.issued ∨ o.draws ∧ id = a.ids.headD 0 := by
  cases heffect with
  | insertDocument hdrawn =>
    rw [hdrawn, draw_of_new (hnew rfl)] at hid
    exact (List.mem_cons.mp hid).elim (fun heq => .inr ⟨rfl, heq⟩) .inl
  | insertJob hdrawn =>
    rw [hdrawn, draw_of_new (hnew rfl)] at hid
    exact (List.mem_cons.mp hid).elim (fun heq => .inr ⟨rfl, heq⟩) .inl
  | deleteSweep hswept => exact .inl ((Store.swept_of_deleteSweep hswept).issued ▸ hid)
  | replaceTextAndChunks | insertReviewItems => exact h.elim
  | _ => exact .inl hid

/-! ## One request, twice -/

/-- The identifiers a run draws. -/
def drawn (trace : List (Lib.Entry Op Op.Res Exn Answer)) : List Uuid :=
  (trace.filter fun entry => entry.op.draws).map fun entry => entry.answer.ids.headD 0

/-- The identifiers a run draws differ from one another and from those in use. -/
structure Fresh (trace : List (Lib.Entry Op Op.Res Exn Answer)) (s : Store) : Prop where
  nodup : (drawn trace).Nodup
  new : ∀ id ∈ drawn trace, id ∉ s.issued

theorem Fresh.head {r : Except Exn o.Res} {trace : List (Lib.Entry Op Op.Res Exn Answer)}
    (h : Fresh (⟨o, a, r⟩ :: trace) s) : o.draws → a.ids.headD 0 ∉ s.issued := by
  intro hdraws
  refine h.new _ ?_
  simp [drawn, hdraws]

theorem Fresh.tail {r : Except Exn o.Res} {trace : List (Lib.Entry Op Op.Res Exn Answer)}
    (h : Fresh (⟨o, a, r⟩ :: trace) s) (hconfined : Confined owner o s) (heffect : Effect o a s t) :
    Fresh trace t := by
  have hdrawn : ∀ id ∈ drawn trace, id ∈ drawn (⟨o, a, r⟩ :: trace) ∧
      (o.draws → id ≠ a.ids.headD 0) := by
    intro id hid
    obtain ⟨hnodup, -⟩ := h
    by_cases hdraws : o.draws
    · simp only [drawn, List.filter_cons, hdraws, if_true, List.map_cons, List.nodup_cons] at hnodup ⊢
      refine ⟨List.mem_cons_of_mem _ hid, fun _ heq => hnodup.1 ?_⟩
      rw [← heq]
      exact hid
    · simp only [drawn, List.filter_cons, hdraws]
      exact ⟨hid, fun h => absurd h nofun⟩
  refine ⟨?_, fun id hid hissued => ?_⟩
  · refine h.nodup.sublist (List.Sublist.map _ ?_)
    exact (List.sublist_cons_self _ _).filter _
  · obtain ⟨hmem, hother⟩ := hdrawn id hid
    rcases hconfined.issued heffect h.head hissued with hold | ⟨hdraws, heq⟩
    · exact h.new id hmem hold
    · exact hother hdraws heq

/-- On sound stores that agree on the tenant, two runs of a confined program are answered the same,
end in stores that agree, and leave other tenants alone. -/
theorem replay_alike {α : Type} {p : Service α} {Q₁ Q₂ : Except Exn α → Session → Store → Prop}
    {answers : List Answer} {trace : List (Lib.Entry Op Op.Res Exn Answer)} {res : Except Exn α}
    (h₁ : Safe (confinement owner) p l s₁ Q₁) (h₂ : Safe (confinement owner) p l s₂ Q₂)
    (hs₁ : Sound s₁) (hs₂ : Sound s₂) (hagree : Agree owner s₁ s₂) (hnow : s₁.now = s₂.now)
    (hfresh₁ : Fresh trace s₁) (hfresh₂ : Fresh trace s₂)
    (hrun : replay exec p l s₁ answers = some (trace, res, l', t₁)) :
    ∃ t₂, replay exec p l s₂ answers = some (trace, res, l', t₂) ∧ Agree owner t₁ t₂ ∧
      ∀ other, other ≠ owner → Agree other s₁ t₁ ∧ Agree other s₂ t₂ := by
  induction p generalizing l s₁ s₂ answers trace with
  | ret x =>
    cases hrun
    exact ⟨s₂, rfl, hagree, fun other _ => ⟨.refl _ _, .refl _ _⟩⟩
  | raise e =>
    cases hrun
    exact ⟨s₂, rfl, hagree, fun other _ => ⟨.refl _ _, .refl _ _⟩⟩
  | op o next ih =>
    cases answers with
    | nil => cases hrun
    | cons a answers =>
      obtain ⟨⟨more, rest⟩, hmore, heq⟩ := Option.map_eq_some_iff.mp hrun
      obtain ⟨rfl, rfl⟩ := Prod.mk.inj heq
      obtain ⟨-, ⟨hconfined₁, -⟩, hrest₁⟩ := h₁ s₁ a (.refl _) hs₁.linked trivial
      obtain ⟨-, ⟨hconfined₂, -⟩, hrest₂⟩ := h₂ s₂ a (.refl _) hs₂.linked trivial
      have heffect₁ := exec_effect o a l s₁
      have heffect₂ := exec_effect o a l s₂
      obtain ⟨hres, hsession, hagree'⟩ := hconfined₁.alike (l := l) hconfined₂ hs₁ hs₂ hagree hnow
        fun hdraws => ⟨hfresh₁.head hdraws, hfresh₂.head hdraws⟩
      have hfresh₂' := hfresh₂.tail hconfined₂ heffect₂
      rw [← hres, ← hsession] at hrest₂
      obtain ⟨t₂, hrun₂, hafter, huntouched⟩ := ih _ hrest₁ hrest₂
        (hs₁.effect hconfined₁.knows heffect₁) (hs₂.effect hconfined₂.knows heffect₂) hagree'
        (by rw [heffect₁.now, heffect₂.now, hnow]) (hfresh₁.tail hconfined₁ heffect₁) hfresh₂' hmore
      refine ⟨t₂, ?_, hafter, fun other hother => ?_⟩
      · rw [replay, ← hres, ← hsession, hrun₂]
        rfl
      · obtain ⟨hleft, hright⟩ := huntouched other hother
        exact ⟨(hconfined₁.untouched hs₁.linked heffect₁ hother).trans hleft,
          (hconfined₂.untouched hs₂.linked heffect₂ hother).trans hright⟩

/-! ## Requests -/

theorem Call.program_confined [Platform] (call : Call) :
    Safe (confinement tenantId) (call.program tenantId) l s fun _ _ _ => True := by
  have hfind : ∀ documentId, Scoped tenantId (Documents.getDocument tenantId documentId) := by
    intro documentId
    exact .bind (.call fun _ => rfl) fun found => by cases found <;> trivial
  cases call with
  | uploadDocument context request =>
    exact uploadDocument_confined context { request with tenantId }
  | getDocument documentId => exact scoped_kept (hfind documentId)
  | listDocuments limit offset =>
    exact scoped_kept (.bind (.call fun _ => rfl) fun _ => .bind (.call fun _ => rfl) fun _ => .ret _)
  | resolveDocumentFile documentId =>
    refine scoped_kept (.bind (hfind documentId) fun d => .bind (.call fun _ => rfl) fun there => ?_)
    cases there <;> trivial
  | deleteDocument context documentId => exact deleteDocument_confined context
  | enqueueIngestion context documentId => exact enqueueIngestion_confined context
  | enqueueExtraction context documentId => exact enqueueExtraction_confined context
  | enqueueChangeReport context baseId amendedId => exact enqueueChangeReport_confined context
  | getJob kind jobId =>
    refine scoped_kept (.bind (.call fun _ => rfl) fun found => ?_)
    cases found <;> trivial
  | listChangeReportJobs baseId =>
    refine scoped_kept (.bind (.call fun _ => rfl) fun found => .bind ?_ fun _ => .call fun _ => rfl)
    cases found <;> trivial
  | listReviewItems status => exact scoped_kept (.call fun _ => rfl)
  | getReviewItem itemId => exact scoped_kept (getReviewItem_scoped itemId)
  | resolveReviewItem context itemId request =>
    exact scoped_kept (resolveReviewItem_scoped context itemId request)
  | spend groupBy =>
    show Safe (confinement tenantId) (Usage.spend tenantId groupBy) _ _ _
    unfold Usage.spend
    cases groupBy <;> exact scoped_kept (.bind (.call fun _ => rfl) fun _ =>
      .bind (.call fun _ => rfl) fun _ => .ret _)

variable [Ucd] [Platform]

/-- The rows of a reached store belong together and have their keys. -/
theorem Reached.sound (h : Reached s) : Sound s := by
  obtain ⟨ι, _, members, now, turns, c, hrun, rfl⟩ := h
  have hparties : ∀ i l p, (everyone (.empty now) members).parties i = some (l, p) →
      p.Performs fun _ => True := by
    intro i l p hi
    obtain ⟨program, hprogram, heq⟩ := Option.map_eq_some_iff.mp hi
    obtain ⟨party, -, rfl⟩ := Option.map_eq_some_iff.mp hprogram
    cases heq
    exact party.program_performs.mono fun _ _ _ => trivial
  have hkeys : ItemKeys (.empty now) ∧ Addressed (.empty now) := ⟨⟨.nil, nofun⟩, .nil⟩
  have htick : ∀ elapsed s, ItemKeys s ∧ Addressed s →
      ItemKeys (s.tick elapsed) ∧ Addressed (s.tick elapsed) :=
    fun _ _ h => ⟨⟨h.1.nodup, h.1.issued⟩, h.2⟩
  obtain ⟨hitems, haddressed⟩ := Lib.Pool.store_run
    (R := fun s t => ItemKeys s ∧ Addressed s → ItemKeys t ∧ Addressed t) (fun _ h => h)
    (fun _ _ _ hst htu h => htu (hst h)) htick
    (fun o a l s _ h => ⟨h.1.effect (exec_effect o a l s), h.2.effect (exec_effect o a l s)⟩)
    hparties hrun hkeys
  exact ⟨(holds_of_run (Linked.empty now) hrun).1, hitems, haddressed⟩

/-- Tenants are isolated: on two reached stores that agree on a tenant, a call for the tenant with
the same arguments, clock and fresh identifiers returns or raises the same, leaves stores that
agree on the tenant, and leaves every row and file of other tenants as it was. -/
theorem tenants_isolated (hs₁ : Reached s₁) (hs₂ : Reached s₂) (hagree : Agree tenantId s₁ s₂)
    (hnow : s₁.now = s₂.now) (call : Call) {answers : List Answer}
    {trace : List (Lib.Entry Op Op.Res Exn Answer)} {res : Except Exn call.Returns}
    (hrun : replay exec (call.program tenantId) ⟨false⟩ s₁ answers = some (trace, res, l', t₁))
    (hfresh₁ : Fresh trace s₁) (hfresh₂ : Fresh trace s₂) :
    ∃ t₂, replay exec (call.program tenantId) ⟨false⟩ s₂ answers = some (trace, res, l', t₂) ∧
      Agree tenantId t₁ t₂ ∧
        ∀ other, other ≠ tenantId → Agree other s₁ t₁ ∧ Agree other s₂ t₂ :=
  replay_alike call.program_confined call.program_confined hs₁.sound hs₂.sound hagree hnow hfresh₁
    hfresh₂ hrun

omit [Ucd] [Platform]

/-- A store after one upload by a tenant. -/
def uploaded (tenantId : Uuid) : Store :=
  { Store.empty 0 with
    documents := [⟨10, tenantId, "a.pdf".toList, Parsing.PDF_MIME,
      Documents.onePdf.sha256 Documents.PDF_MAGIC, none, .uploaded, 0⟩]
    files := fun tenant sha =>
      if tenant = tenantId ∧ sha = Documents.onePdf.sha256 Documents.PDF_MAGIC then
        some Documents.PDF_MAGIC
      else none
    issued := [10] }

theorem reached_uploaded (tenantId : Uuid) :
    @Reached Ucd.ascii Documents.onePdf (uploaded tenantId) :=
  ⟨Fin 1, inferInstance,
    fun _ => some (.documents
      (.upload ⟨[], none⟩ { Documents.pdfUpload with tenantId := tenantId })), 0,
    [.act 0 {}, .act 0 {}, .act 0 { ids := [10] }], _, rfl, rfl⟩

theorem linked_uploaded (tenantId : Uuid) : Linked (uploaded tenantId) := by
  let := Ucd.ascii
  let := Documents.onePdf
  exact (reached_uploaded tenantId).sound.linked

/-- Tenant 2 does not find the document of tenant 1, as if it were not there. -/
theorem tenants_isolated_foreign_id : ∃ trace t₂,
    replay exec (@Call.program Documents.onePdf 2 (.getDocument 10)) ⟨false⟩ (uploaded 1) [{}] =
      some (trace, .error (.documentNotFoundError 10), ⟨false⟩, t₂) ∧ Agree 2 (.empty 0) t₂ := by
  let := Ucd.ascii
  let := Documents.onePdf
  have hempty : Reached (.empty 0) := ⟨Fin 1, inferInstance, fun _ => none, 0, [], _, rfl, rfl⟩
  have hagree : Agree 2 (.empty 0) (uploaded 1) :=
    ⟨.nil, .nil, .nil, fun _ => .nil, .nil, .nil, .nil, fun _ => rfl⟩
  have hmissing : replay exec (Call.program 2 (.getDocument 10)) ⟨false⟩ (.empty 0) [{}] =
      some ([⟨.findDocument 2 10, {}, .ok none⟩], .error (.documentNotFoundError 10), ⟨false⟩,
        .empty 0) := rfl
  obtain ⟨t₂, hrun, hafter, -⟩ := tenants_isolated hempty (reached_uploaded 1) hagree rfl
    (.getDocument 10) hmissing ⟨.nil, nofun⟩ ⟨.nil, nofun⟩
  exact ⟨_, t₂, hrun, hafter⟩

end ContractIntel
