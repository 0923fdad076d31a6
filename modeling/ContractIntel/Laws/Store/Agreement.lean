import ContractIntel.Laws.Store.Keys
import ContractIntel.Laws.Store.Links
import ContractIntel.Lib.Reorder
import Mathlib.Algebra.BigOperators.Group.List.Basic
import Mathlib.Algebra.Ring.Rat

/-!
# Stores that agree on a tenant

Two stores agree on a tenant when they hold the same rows and files of that tenant, in whatever
order and among whatever rows of others. In sound stores a query of the tenant cannot tell them
apart: it looks at rows of the tenant, sorts them by an order without ties, and looks single rows
up by keys.
-/

namespace ContractIntel

open Jobs (JobRow)
open Lib (any_agree append_agree filter_agree filter_append_foreign filter_filter_agree
  filter_filter_foreign find?_agree insertionSort_perm map_agree)

variable {owner tenantId documentId id : Uuid} {kind : JobKind} {s s₁ s₂ t₁ t₂ : Store}

/-- The rows and the files of the tenant are the same. -/
structure Agree (tenantId : Uuid) (s t : Store) : Prop where
  documents : (s.documents.filter (·.tenantId = tenantId)).Perm
    (t.documents.filter (·.tenantId = tenantId))
  texts : (s.texts.filter (·.tenantId = tenantId)).Perm (t.texts.filter (·.tenantId = tenantId))
  chunks : (s.chunks.filter (·.tenantId = tenantId)).Perm (t.chunks.filter (·.tenantId = tenantId))
  jobs : ∀ kind, ((s.jobs kind).filter (·.tenantId = tenantId)).Perm
    ((t.jobs kind).filter (·.tenantId = tenantId))
  reviewItems : (s.reviewItems.filter (·.tenantId = tenantId)).Perm
    (t.reviewItems.filter (·.tenantId = tenantId))
  usage : (s.usage.filter (·.tenantId = tenantId)).Perm (t.usage.filter (·.tenantId = tenantId))
  audit : (s.audit.filter (·.tenantId = tenantId)).Perm (t.audit.filter (·.tenantId = tenantId))
  files : ∀ sha256, s.files tenantId sha256 = t.files tenantId sha256

namespace Agree

theorem refl (tenantId : Uuid) (s : Store) : Agree tenantId s s :=
  ⟨.refl _, .refl _, .refl _, fun _ => .refl _, .refl _, .refl _, .refl _, fun _ => rfl⟩

theorem trans {u : Store} (h : Agree tenantId s₁ s₂) (h' : Agree tenantId s₂ u) :
    Agree tenantId s₁ u :=
  ⟨h.documents.trans h'.documents, h.texts.trans h'.texts, h.chunks.trans h'.chunks,
    fun kind => (h.jobs kind).trans (h'.jobs kind), h.reviewItems.trans h'.reviewItems,
    h.usage.trans h'.usage, h.audit.trans h'.audit, fun sha256 => (h.files sha256).trans (h'.files sha256)⟩

end Agree

/-- The invariant of the rows and their keys. -/
structure Sound (s : Store) : Prop where
  linked : Linked s
  items : ItemKeys s
  addressed : Addressed s

theorem Sound.effect {o : Op} {a : Answer} {t : Store} (h : Sound s) (hknows : Knows o s)
    (heffect : Effect o a s t) : Sound t :=
  ⟨h.linked.effect hknows heffect, h.items.effect heffect, h.addressed.effect heffect⟩

/-! ## Orders without ties -/

namespace Store

instance : Std.Total newerDocument := ⟨fun a b => by unfold newerDocument; grind⟩

instance : IsTrans DocumentRow newerDocument :=
  ⟨fun a b c hab hbc => by unfold newerDocument at *; grind⟩

instance : Std.Total olderItem := ⟨fun a b => by unfold olderItem; grind⟩

instance : IsTrans ReviewItemRow olderItem := ⟨fun a b c hab hbc => by unfold olderItem at *; grind⟩

instance : Std.Total jobIdBefore := ⟨fun a b => by cases a <;> cases b <;> simp [jobIdBefore, Nat.le_total]⟩

instance : IsTrans (Option Uuid) jobIdBefore :=
  ⟨fun a b c => by cases a <;> cases b <;> cases c <;> simp [jobIdBefore]; exact Nat.le_trans⟩

theorem jobIdBefore_antisymm {a b : Option Uuid} (hab : jobIdBefore a b) (hba : jobIdBefore b a) :
    a = b := by
  cases a <;> cases b <;> simp only [jobIdBefore] at hab hba
  · rfl
  · exact congrArg some (Nat.le_antisymm hab hba)

end Store

theorem ItemKeys.eq_of_id_eq (h : ItemKeys s) {item item' : ReviewItemRow}
    (hitem : item ∈ s.reviewItems) (hitem' : item' ∈ s.reviewItems) (hid : item.id = item'.id) :
    item = item' :=
  List.inj_on_of_nodup_map h.nodup hitem hitem' hid

/-! ## Whose rows a query looks at -/

/-- A job of a document of the tenant is the tenant's. -/
theorem Linked.job_tenant (h : Linked s) (howned : Owned owner documentId s) {job : JobRow}
    (hjob : job ∈ s.jobs kind) (hdocument : job.documentId = documentId) : job.tenantId = owner := by
  obtain ⟨d, hd, hid, htenant⟩ := h.jobs kind job hjob
  rw [← htenant]
  exact howned.rows d hd (hid.trans hdocument)

/-- A report on an amendment of the tenant is the tenant's. -/
theorem Linked.report_tenant (h : Linked s) (howned : Owned owner documentId s) {job : JobRow}
    (hjob : job ∈ s.jobs .changeReport) (hamended : job.amendedDocumentId = some documentId) :
    job.tenantId = owner := by
  obtain ⟨d, hd, hversion, htenant, -⟩ := h.reports job hjob
  rw [← htenant]
  exact howned.rows d hd (Option.some.inj (hversion.symm.trans hamended))

/-- An amendment of a document of the tenant is the tenant's. -/
theorem Linked.amendment_tenant (h : Linked s) (howned : Owned owner documentId s) {d : DocumentRow}
    (hd : d ∈ s.documents) (hamends : d.amendsDocumentId = some documentId) : d.tenantId = owner := by
  obtain ⟨parent, hparent, hid, htenant⟩ := h.parents d hd documentId hamends
  rw [← htenant]
  exact howned.rows parent hparent hid

/-! ## Reads -/

section Reads

variable (h₁ : Sound s₁) (h₂ : Sound s₂) (hagree : Agree owner s₁ s₂)

include h₁ hagree

theorem findDocument_agree (documentId : Uuid) :
    s₁.findDocument owner documentId = s₂.findDocument owner documentId := by
  refine find?_agree hagree.documents (fun d _ hd => ?_) (fun d _ hd => ?_) fun d hd d' hd' hp hp' => ?_
  · simp only [Bool.and_eq_true] at hd
    exact hd.2
  · simp only [Bool.and_eq_true] at hd
    exact hd.2
  · simp only [Bool.and_eq_true, decide_eq_true_eq] at hp hp'
    exact h₁.linked.document_eq hd hd' (hp.1.trans hp'.1.symm)

theorem findDocumentBySha256_agree (sha256 : Str) :
    s₁.findDocumentBySha256 owner sha256 = s₂.findDocumentBySha256 owner sha256 := by
  refine find?_agree hagree.documents (fun d _ hd => ?_) (fun d _ hd => ?_) fun d hd d' hd' hp hp' => ?_
  · simp only [Bool.and_eq_true] at hd
    exact hd.1
  · simp only [Bool.and_eq_true] at hd
    exact hd.1
  · simp only [Bool.and_eq_true, decide_eq_true_eq] at hp hp'
    refine List.inj_on_of_nodup_map h₁.addressed hd hd' ?_
    rw [hp.1, hp.2, hp'.1, hp'.2]

theorem document?_agree (howned₁ : Owned owner documentId s₁) (howned₂ : Owned owner documentId s₂) :
    s₁.document? documentId = s₂.document? documentId := by
  refine find?_agree hagree.documents (fun d hd hp => ?_) (fun d hd hp => ?_) fun d hd d' hd' hp hp' => ?_
  · exact decide_eq_true (howned₁.rows d hd (of_decide_eq_true hp))
  · exact decide_eq_true (howned₂.rows d hd (of_decide_eq_true hp))
  · exact h₁.linked.document_eq hd hd' ((of_decide_eq_true hp).trans (of_decide_eq_true hp').symm)

theorem findById_agree (id : Uuid) :
    Jobs.findById owner id (s₁.jobs kind) = Jobs.findById owner id (s₂.jobs kind) := by
  refine find?_agree (hagree.jobs kind) (fun job _ hp => ?_) (fun job _ hp => ?_)
    fun job hjob job' hjob' hp hp' => ?_
  · simp only [Bool.and_eq_true] at hp
    exact hp.2
  · simp only [Bool.and_eq_true] at hp
    exact hp.2
  · simp only [Bool.and_eq_true, decide_eq_true_eq] at hp hp'
    exact Jobs.eq_of_id_eq (h₁.linked.jobKeys kind).1 hjob hjob' (hp.1.trans hp'.1.symm)

theorem row?_agree {k₁ k₂ : JobKind} {d₁ d₂ : Uuid} (hjob₁ : JobOf k₁ owner d₁ id s₁)
    (hjob₂ : JobOf k₂ owner d₂ id s₂) :
    Jobs.row? id (s₁.jobs kind) = Jobs.row? id (s₂.jobs kind) := by
  refine find?_agree (hagree.jobs kind) (fun job hjob hp => ?_) (fun job hjob hp => ?_)
    fun job hjob job' hjob' hp hp' => ?_
  · exact decide_eq_true (hjob₁.rows kind job hjob (of_decide_eq_true hp)).2.1
  · exact decide_eq_true (hjob₂.rows kind job hjob (of_decide_eq_true hp)).2.1
  · exact Jobs.eq_of_id_eq (h₁.linked.jobKeys kind).1 hjob hjob'
      ((of_decide_eq_true hp).trans (of_decide_eq_true hp').symm)

theorem findReviewItem_agree (itemId : Uuid) :
    s₁.findReviewItem owner itemId = s₂.findReviewItem owner itemId := by
  refine find?_agree hagree.reviewItems (fun item _ hp => ?_) (fun item _ hp => ?_)
    fun item hitem item' hitem' hp hp' => ?_
  · simp only [Bool.and_eq_true] at hp
    exact hp.2
  · simp only [Bool.and_eq_true] at hp
    exact hp.2
  · simp only [Bool.and_eq_true, decide_eq_true_eq] at hp hp'
    exact h₁.items.eq_of_id_eq hitem hitem' (hp.1.trans hp'.1.symm)

theorem find?_resolvable_agree (itemId : Uuid) :
    s₁.reviewItems.find? (Store.resolvable owner itemId) =
      s₂.reviewItems.find? (Store.resolvable owner itemId) := by
  refine find?_agree hagree.reviewItems (fun item _ hp => ?_) (fun item _ hp => ?_)
    fun item hitem item' hitem' hp hp' => ?_
  · simp only [Store.resolvable, Bool.and_eq_true] at hp
    exact hp.1.2
  · simp only [Store.resolvable, Bool.and_eq_true] at hp
    exact hp.1.2
  · simp only [Store.resolvable, Bool.and_eq_true, decide_eq_true_eq] at hp hp'
    exact h₁.items.eq_of_id_eq hitem hitem' (hp.1.1.trans hp'.1.1.symm)

/-- Jobs of the tenant, newest first. -/
theorem newestJobs_agree {p : JobRow → Bool} (hp₁ : ∀ job ∈ s₁.jobs kind, p job → job.tenantId = owner)
    (hp₂ : ∀ job ∈ s₂.jobs kind, p job → job.tenantId = owner) :
    ((s₁.jobs kind).filter p).insertionSort Jobs.newerFirst =
      ((s₂.jobs kind).filter p).insertionSort Jobs.newerFirst := by
  refine insertionSort_perm (filter_agree (hagree.jobs kind)
    (fun job hjob hp => decide_eq_true (hp₁ job hjob hp))
    fun job hjob hp => decide_eq_true (hp₂ job hjob hp)) fun job hjob job' hjob' hle hle' => ?_
  refine Jobs.eq_of_id_eq (h₁.linked.jobKeys kind).1 (List.mem_of_mem_filter hjob)
    (List.mem_of_mem_filter hjob') ?_
  unfold Jobs.newerFirst at hle hle'
  grind

theorem listReports_agree (baseDocumentId : Uuid) :
    s₁.listReports owner baseDocumentId = s₂.listReports owner baseDocumentId := by
  refine newestJobs_agree h₁ hagree (fun job _ hp => ?_) fun job _ hp => ?_
  all_goals
    simp only [Bool.and_eq_true, decide_eq_true_eq] at hp
    exact hp.1

theorem listDocuments_agree (limit offset : Nat) :
    s₁.listDocuments owner limit offset = s₂.listDocuments owner limit offset := by
  unfold Store.listDocuments
  rw [insertionSort_perm hagree.documents fun d hd d' hd' hle hle' => ?_]
  refine h₁.linked.document_eq (List.mem_of_mem_filter hd) (List.mem_of_mem_filter hd') ?_
  unfold Store.newerDocument at hle hle'
  grind

theorem listReviewItems_agree (status : Option ReviewItemStatus) :
    s₁.listReviewItems owner status = s₂.listReviewItems owner status := by
  refine insertionSort_perm (filter_agree hagree.reviewItems (fun item _ hp => ?_)
    fun item _ hp => ?_) fun item hitem item' hitem' hle hle' => ?_
  · simp only [Bool.and_eq_true] at hp
    exact hp.1
  · simp only [Bool.and_eq_true] at hp
    exact hp.1
  · refine h₁.items.eq_of_id_eq (List.mem_of_mem_filter hitem) (List.mem_of_mem_filter hitem') ?_
    unfold Store.olderItem at hle hle'
    grind

include h₂

theorem hasAmendments_agree (howned₁ : Owned owner documentId s₁)
    (howned₂ : Owned owner documentId s₂) :
    s₁.hasAmendments documentId = s₂.hasAmendments documentId := by
  refine any_agree hagree.documents (fun d hd hp => ?_) fun d hd hp => ?_
  · exact decide_eq_true (h₁.linked.amendment_tenant howned₁ hd (of_decide_eq_true hp))
  · exact decide_eq_true (h₂.linked.amendment_tenant howned₂ hd (of_decide_eq_true hp))

/-- Jobs of a document of the tenant, newest first. -/
theorem newestOfDocument_agree (howned₁ : Owned owner documentId s₁)
    (howned₂ : Owned owner documentId s₂) {p : JobRow → Bool}
    (hp : ∀ job, p job → job.documentId = documentId) :
    ((s₁.jobs kind).filter p).insertionSort Jobs.newerFirst =
      ((s₂.jobs kind).filter p).insertionSort Jobs.newerFirst :=
  newestJobs_agree h₁ hagree (fun job hjob hjp => h₁.linked.job_tenant howned₁ hjob (hp job hjp))
    fun job hjob hjp => h₂.linked.job_tenant howned₂ hjob (hp job hjp)

theorem findActive_agree (howned₁ : Owned owner documentId s₁)
    (howned₂ : Owned owner documentId s₂) :
    Jobs.findActiveForDocument documentId (s₁.jobs kind) =
      Jobs.findActiveForDocument documentId (s₂.jobs kind) := by
  unfold Jobs.findActiveForDocument
  rw [newestOfDocument_agree h₁ h₂ hagree howned₁ howned₂ fun job hp => ?_]
  simp only [Bool.and_eq_true, decide_eq_true_eq] at hp
  exact hp.1

theorem findLatest_agree (howned₁ : Owned owner documentId s₁)
    (howned₂ : Owned owner documentId s₂) :
    Jobs.findLatestForDocument documentId (s₁.jobs kind) =
      Jobs.findLatestForDocument documentId (s₂.jobs kind) := by
  unfold Jobs.findLatestForDocument
  rw [newestOfDocument_agree h₁ h₂ hagree howned₁ howned₂ fun job hp => of_decide_eq_true hp]

omit h₁ h₂

theorem countDocuments_agree : s₁.countDocuments owner = s₂.countDocuments owner :=
  hagree.documents.length_eq

/-! ### Spend -/

omit hagree in
theorem spendRow_perm {rows rows' : List UsageRow} (h : rows.Perm rows') (jobType : Str)
    (jobId : Option Uuid) : Store.spendRow jobType jobId rows = Store.spendRow jobType jobId rows' := by
  unfold Store.spendRow
  rw [h.length_eq, (h.map _).sum_eq, (h.map (·.usage.completionTokens)).sum_eq,
    (h.map (·.usage.costUsd)).sum_eq, (h.map (·.usage.latencyMs)).sum_eq]

theorem spendTotal_agree : s₁.spendTotal owner = s₂.spendTotal owner :=
  spendRow_perm hagree.usage _ _

theorem spendByJobType_agree : s₁.spendByJobType owner = s₂.spendByJobType owner := by
  unfold Store.spendByJobType
  refine List.filterMap_congr fun kind _ => ?_
  have hperm : ((Store.usageOf owner s₁).filter (·.jobType = kind)).Perm
      ((Store.usageOf owner s₂).filter (·.jobType = kind)) := hagree.usage.filter _
  split
  next hnone =>
    rw [hnone] at hperm
    rw [← hperm.nil_eq]
  next rows hrows =>
    split
    next hnone =>
      rw [hnone] at hperm
      exact absurd hperm.eq_nil hrows
    next => exact congrArg some (spendRow_perm hperm _ _)

theorem spendByJob_agree : s₁.spendByJob owner = s₂.spendByJob owner := by
  unfold Store.spendByJob
  refine List.flatMap_congr fun kind _ => ?_
  have hperm : ((Store.usageOf owner s₁).filter (·.jobType = kind)).Perm
      ((Store.usageOf owner s₂).filter (·.jobType = kind)) := hagree.usage.filter _
  dsimp only
  rw [insertionSort_perm ((hperm.map UsageRow.jobId).dedup) fun _ _ _ _ =>
    Store.jobIdBefore_antisymm]
  exact List.map_congr_left fun jobId _ => spendRow_perm (hperm.filter _) _ _

end Reads

/-! ## Operations -/

/-- Outcomes that differ in the stores only, which agree on the tenant. -/
def Alike {α : Type} (owner : Uuid) (x y : Outcome α) : Prop :=
  x.1 = y.1 ∧ x.2.1 = y.2.1 ∧ Agree owner x.2.2 y.2.2

section Alike

variable {α : Type} {a : Answer} {l : Session} {body₁ body₂ : Store → Except Exn (α × Store)}

theorem statement_alike (hagree : Agree owner s₁ s₂)
    (hbody : (∃ e, body₁ s₁ = .error e ∧ body₂ s₂ = .error e) ∨
      ∃ r t₁ t₂, body₁ s₁ = .ok (r, t₁) ∧ body₂ s₂ = .ok (r, t₂) ∧ Agree owner t₁ t₂) :
    Alike owner (statement body₁ a l s₁) (statement body₂ a l s₂) := by
  unfold statement
  split
  · exact ⟨rfl, rfl, hagree⟩
  · split
    · exact ⟨rfl, rfl, hagree⟩
    · rcases hbody with ⟨e, he₁, he₂⟩ | ⟨r, t₁, t₂, hok₁, hok₂, hafter⟩
      · rw [he₁, he₂]
        exact ⟨rfl, rfl, hagree⟩
      · rw [hok₁, hok₂]
        exact ⟨rfl, rfl, hafter⟩

theorem query_alike {read₁ read₂ : Store → α} (hagree : Agree owner s₁ s₂)
    (hread : read₁ s₁ = read₂ s₂) : Alike owner (query read₁ a l s₁) (query read₂ a l s₂) :=
  statement_alike hagree (.inr ⟨_, _, _, rfl, by rw [hread], hagree⟩)

theorem fileCall_alike {r : α} (hagree : Agree owner s₁ s₂) (hok₁ : body₁ s₁ = .ok (r, t₁))
    (hok₂ : body₂ s₂ = .ok (r, t₂)) (hafter : Agree owner t₁ t₂) :
    Alike owner (fileCall body₁ a l s₁) (fileCall body₂ a l s₂) := by
  unfold fileCall
  split
  · exact ⟨rfl, rfl, hagree⟩
  · rw [hok₁, hok₂]
    exact ⟨rfl, rfl, hafter⟩

end Alike

/-! ### Writes -/

section Writes

variable (h₁ : Sound s₁) (h₂ : Sound s₂) (hagree : Agree owner s₁ s₂)

include hagree

theorem setFile_agree (sha256 : Str) (content : Option Parsing.Bytes) :
    Agree owner (s₁.setFile owner sha256 content) (s₂.setFile owner sha256 content) := by
  refine { hagree with files := fun sha => ?_ }
  unfold Store.setFile
  dsimp only
  split
  · rfl
  · exact hagree.files sha

theorem insertAudit_agree (hnow : s₁.now = s₂.now) (tenantId : Uuid) (actor : Option Str)
    (requestId action resourceType : Str) (resourceId : Option Uuid) (detail : Option Json)
    (began : Time) :
    Agree owner
      (s₁.insertAudit tenantId actor requestId action resourceType resourceId detail began)
      (s₂.insertAudit tenantId actor requestId action resourceType resourceId detail began) := by
  refine { hagree with audit := ?_ }
  rw [Store.insertAudit, Store.insertAudit, Store.started, Store.started, hnow]
  exact append_agree hagree.audit _

theorem resolve_agree (hnow : s₁.now = s₂.now) (itemId : Uuid) (status : ReviewItemStatus)
    (values : Option Json) :
    Agree owner
      { s₁ with reviewItems := s₁.reviewItems.map fun item =>
          if Store.resolvable owner itemId item then Store.resolved status values s₁.now item else item }
      { s₂ with reviewItems := s₂.reviewItems.map fun item =>
          if Store.resolvable owner itemId item then Store.resolved status values s₂.now item
          else item } := by
  refine { hagree with reviewItems := ?_ }
  rw [hnow]
  refine map_agree hagree.reviewItems fun item => ?_
  split <;> rfl

theorem appendDocument_agree (row : DocumentRow) (issued₁ issued₂ : List Uuid) (now : Time) :
    Agree owner { s₁ with documents := s₁.documents ++ [row], issued := issued₁, now := now }
      { s₂ with documents := s₂.documents ++ [row], issued := issued₂ } :=
  { hagree with documents := append_agree hagree.documents _ }

theorem appendJob_agree (kind : JobKind) (row : JobRow) (issued₁ issued₂ : List Uuid) :
    Agree owner { s₁.withJobs kind (s₁.jobs kind ++ [row]) with issued := issued₁ }
      { s₂.withJobs kind (s₂.jobs kind ++ [row]) with issued := issued₂ } := by
  refine { hagree with jobs := fun k => ?_ }
  rw [withJobs_jobs, withJobs_jobs]
  split
  · exact append_agree (hagree.jobs kind) _
  · exact hagree.jobs k

include h₁ h₂

/-- The reports on an amendment of the tenant are the same. -/
theorem reportsOfAmendment_agree (howned₁ : Owned owner documentId s₁)
    (howned₂ : Owned owner documentId s₂) :
    (s₁.reportsOfAmendment documentId).Perm (s₂.reportsOfAmendment documentId) := by
  refine List.Perm.map _ (filter_agree (hagree.jobs .changeReport) (fun job hjob hp => ?_)
    fun job hjob hp => ?_)
  · exact decide_eq_true (h₁.linked.report_tenant howned₁ hjob (of_decide_eq_true hp))
  · exact decide_eq_true (h₂.linked.report_tenant howned₂ hjob (of_decide_eq_true hp))

theorem swept_agree (howned₁ : Owned owner documentId s₁) (howned₂ : Owned owner documentId s₂)
    (hswept₁ : Swept documentId s₁ t₁) (hswept₂ : Swept documentId s₂ t₂) : Agree owner t₁ t₂ := by
  refine ⟨?_, ?_, ?_, fun k => ?_, ?_, ?_, ?_, ?_⟩
  · rw [hswept₁.documents, hswept₂.documents]
    exact filter_filter_agree hagree.documents fun _ _ => rfl
  · rw [hswept₁.texts, hswept₂.texts]
    exact filter_filter_agree hagree.texts fun _ _ => rfl
  · rw [hswept₁.chunks, hswept₂.chunks]
    exact filter_filter_agree hagree.chunks fun _ _ => rfl
  · by_cases hk : k = .changeReport
    · subst hk
      rw [hswept₁.reports, hswept₂.reports]
      exact filter_filter_agree (hagree.jobs _) fun _ _ => rfl
    · rw [hswept₁.jobs k hk, hswept₂.jobs k hk]
      exact filter_filter_agree (hagree.jobs k) fun _ _ => rfl
  · rw [hswept₁.reviewItems, hswept₂.reviewItems]
    refine filter_filter_agree hagree.reviewItems fun item _ => ?_
    have hsame := (reportsOfAmendment_agree h₁ h₂ hagree howned₁ howned₂).mem_iff (a := item.jobId)
    simp only [hsame]
  · rw [hswept₁.rest, hswept₂.rest]
    exact hagree.usage
  · rw [hswept₁.rest, hswept₂.rest]
    exact hagree.audit
  · rw [hswept₁.rest, hswept₂.rest]
    exact hagree.files

/-- A delete is refused in both stores or in neither. -/
theorem deleteSweep_agree (howned₁ : Owned owner documentId s₁)
    (howned₂ : Owned owner documentId s₂) :
    (∃ e, s₁.deleteSweep documentId = .error e ∧ s₂.deleteSweep documentId = .error e) ∨
      ∃ r t₁ t₂, s₁.deleteSweep documentId = .ok (r, t₁) ∧ s₂.deleteSweep documentId = .ok (r, t₂) ∧
        Agree owner t₁ t₂ := by
  have hdocuments := hasAmendments_agree h₁ h₂ hagree howned₁ howned₂
  have hreports : ((s₁.jobs .changeReport).filter (·.amendedDocumentId ≠ some documentId)).any
        (·.documentId = documentId) =
      ((s₂.jobs .changeReport).filter (·.amendedDocumentId ≠ some documentId)).any
        (·.documentId = documentId) := by
    refine any_agree (filter_filter_agree (hagree.jobs .changeReport) fun _ _ => rfl)
      (fun job hjob hp => ?_) fun job hjob hp => ?_
    · exact decide_eq_true (h₁.linked.job_tenant howned₁ (List.mem_of_mem_filter hjob)
        (of_decide_eq_true hp))
    · exact decide_eq_true (h₂.linked.job_tenant howned₂ (List.mem_of_mem_filter hjob)
        (of_decide_eq_true hp))
  rcases s₁.deleteSweep_cases documentId with ⟨t₁, hok₁, hswept₁⟩ | ⟨herror₁, -⟩
  · rcases s₂.deleteSweep_cases documentId with ⟨t₂, hok₂, hswept₂⟩ | ⟨herror₂, -⟩
    · exact .inr ⟨(), t₁, t₂, hok₁, hok₂,
        swept_agree h₁ h₂ hagree howned₁ howned₂ hswept₁ hswept₂⟩
    · simp only [Store.deleteSweep, ← hdocuments, ← hreports] at herror₂ hok₁
      split at herror₂
      next hreferred =>
        rw [if_pos hreferred] at hok₁
        cases hok₁
      · cases herror₂
  · refine .inl ⟨_, herror₁, ?_⟩
    simp only [Store.deleteSweep, hdocuments, hreports] at herror₁ ⊢
    split at herror₁
    next hreferred => rw [if_pos hreferred]
    · cases herror₁

end Writes

end ContractIntel
