import ContractIntel.Laws.Services.Documents
import ContractIntel.Laws.Services.Party
import ContractIntel.Laws.Store.Keys
import ContractIntel.Laws.Store.Links
import ContractIntel.Laws.Store.Repositories
import ContractIntel.Lib.Journal

/-!
# Effects and their audit rows

An upload, a delete, an enqueue and a resolution commit their effect in one transaction and the
audit row in a later one. Between the two the party owes the row: if it crashes, or the world
refuses it an operation, the effect stays without one (`crashed_upload_is_not_audited`). In every
run in which this does not happen, the rows are the effects (`audited_unless_interrupted`).
-/

namespace ContractIntel.AuditTrail

open Lib (Along Bookkeeping Diligent Journal Stage)
open Lib.Prog (Performs)
open Repositories

/-! ## Deeds -/

/-- What an audit row is about. -/
structure Deed where
  tenantId : Uuid
  action : Str
  resourceId : Option Uuid
  deriving DecidableEq

def deed (row : AuditRow) : Deed := ⟨row.tenantId, row.action, row.resourceId⟩

/-- What the audit rows are about. -/
def deeds (s : Store) : List Deed := s.audit.map deed

/-- The action of an enqueue. -/
def enqueueAction : JobKind → Str
  | .ingestion => "ingestion.enqueue".toList
  | .extraction => "extraction.enqueue".toList
  | .changeReport => "change_report.enqueue".toList

/-- The effect an operation committed: a document row created or deleted, a job row created, or a
review item resolved. -/
def committed (s : Store) : Entry → Option Deed
  | ⟨.insertDocument .., _, .ok row⟩ =>
    some ⟨row.tenantId, "document.upload".toList, some row.id⟩
  | ⟨.deleteSweep documentId, _, .ok _⟩ =>
    (s.document? documentId).map fun d => ⟨d.tenantId, "document.delete".toList, some d.id⟩
  | ⟨.insertJob kind .., _, .ok row⟩ => some ⟨row.tenantId, enqueueAction kind, some row.id⟩
  | ⟨.resolveReviewItem .., _, .ok (some item)⟩ =>
    if item.status = .pending then none
    else some ⟨item.tenantId, "review_item.resolve".toList, some item.id⟩
  | _ => none

/-- The audit row an operation committed. -/
def audited : Entry → Option Deed
  | ⟨.insertAudit tenantId _ _ action _ resourceId _, _, .ok _⟩ => some ⟨tenantId, action, resourceId⟩
  | _ => none

/-- The effect was committed, and cannot be again: the id is in use, no document has it after a
delete, and no pending item after a resolution. -/
def Spent (k : Deed) (s : Store) : Prop :=
  ∃ id, k.resourceId = some id ∧ id ∈ s.issued ∧
    (k.action = "document.delete".toList → ∀ d ∈ s.documents, d.id ≠ id) ∧
    (k.action = "review_item.resolve".toList →
      ∀ item ∈ s.reviewItems, item.id = id → item.status ≠ .pending)

/-- Document and review item ids are keys. -/
structure Keys (s : Store) : Prop where
  documents : DocumentKeys s
  items : ItemKeys s

variable {o : Op} {a : Answer} {l : Session} {s t : Store} {k : Deed}

/-! ## No effect twice -/

/-- A pending item under an id in use was pending before. -/
theorem pending_of_effect (h : Effect o a s t) {item' : ReviewItemRow} (hitem : item' ∈ t.reviewItems)
    (hissued : item'.id ∈ s.issued) (hpending : item'.status = .pending) :
    ∃ item ∈ s.reviewItems, item.id = item'.id ∧ item.status = .pending := by
  cases h.item_origin hitem with
  | kept hmem => exact ⟨item', hmem, rfl, hpending⟩
  | resolved _ hold hpending heq => exact ⟨_, hold, heq ▸ rfl, hpending⟩
  | inserted _ hfresh => exact absurd hissued hfresh

theorem Spent.effect (hspent : Spent k s) (h : Effect o a s t) : Spent k t := by
  obtain ⟨id, hid, hissued, hdeleted, hresolved⟩ := hspent
  refine ⟨id, hid, h.issued id hissued, fun haction d' hd' hsame => ?_,
    fun haction item' hitem' hsame hpending => ?_⟩
  · obtain ⟨d, hd, hlink⟩ := h.later.documents d' hd' (hsame ▸ hissued)
    exact hdeleted haction d hd ((DocumentRow.link_eq_iff.mp hlink).1.trans hsame)
  · obtain ⟨item, hitem, heq, hstill⟩ := pending_of_effect h hitem' (hsame ▸ hissued) hpending
    exact hresolved haction item hitem (heq.trans hsame) hstill

section Spends

variable {tenantId id : Uuid} {action : Str}

theorem not_spent_of_fresh (h : id ∉ s.issued) : ¬ Spent ⟨tenantId, action, some id⟩ s := by
  rintro ⟨id', hid, hissued, -⟩
  exact h (Option.some.inj hid ▸ hissued)

theorem spent_of_issued (h : id ∈ s.issued) (hdelete : action ≠ "document.delete".toList)
    (hresolve : action ≠ "review_item.resolve".toList) : Spent ⟨tenantId, action, some id⟩ s :=
  ⟨id, rfl, h, fun haction => absurd haction hdelete, fun haction => absurd haction hresolve⟩

/-- The row an insert answers with is new, and the caller's. -/
theorem insertDocument_served {filename mimeType sha256 : Str} {amends : Option Uuid}
    {row : DocumentRow}
    (h : (exec (.insertDocument tenantId filename mimeType sha256 amends) a l s).1 = .ok row) :
    l.failed = false ∧ row.id ∉ s.issued ∧ ∃ t,
      exec (.insertDocument tenantId filename mimeType sha256 amends) a l s = (.ok row, l, t) ∧
        row ∈ t.documents ∧ row.id ∈ t.issued := by
  obtain ⟨hl, t, -, hok, heq⟩ := statement_eq_ok h
  obtain ⟨-, -, rfl, rfl⟩ := Store.insertDocument_eq_ok hok
  exact ⟨hl, draw_not_mem _ _, _, heq, List.mem_append_right _ (List.mem_singleton_self _),
    List.mem_cons_self⟩

theorem insertJob_served {kind : JobKind} {documentId : Uuid} {amended : Option Uuid}
    {row : Jobs.JobRow} (h : (exec (.insertJob kind tenantId documentId amended) a l s).1 = .ok row) :
    l.failed = false ∧ row.id ∉ s.issued ∧ row.tenantId = tenantId ∧ ∃ t,
      exec (.insertJob kind tenantId documentId amended) a l s = (.ok row, l, t) ∧
        row.id ∈ t.issued := by
  obtain ⟨hl, t, -, hok, heq⟩ := statement_eq_ok h
  obtain ⟨-, -, rfl, rfl⟩ := Store.insertJob_eq_ok hok
  exact ⟨hl, draw_not_mem _ _, rfl, _, heq, List.mem_cons_self⟩

/-- The row a resolution answers with was pending. -/
theorem resolveReviewItem_served {itemId : Uuid} {status : ReviewItemStatus} {values : Option Json}
    {item : ReviewItemRow}
    (h : (exec (.resolveReviewItem tenantId itemId status values) a l s).1 = .ok (some item)) :
    l.failed = false ∧ item.tenantId = tenantId ∧ item.id = itemId ∧ item.status = status ∧
      (∃ old ∈ s.reviewItems, old.id = itemId ∧ old.tenantId = tenantId ∧ old.status = .pending) ∧
      ∃ t, exec (.resolveReviewItem tenantId itemId status values) a l s = (.ok (some item), l, t) ∧
        t.reviewItems = s.reviewItems.map fun item =>
          if Store.resolvable tenantId itemId item then Store.resolved status values s.now item
          else item := by
  obtain ⟨hl, t, -, hok, heq⟩ := statement_eq_ok h
  unfold Store.resolveReviewItem at hok
  obtain ⟨hfound, rfl⟩ := Prod.mk.inj (Except.ok.inj hok)
  obtain ⟨old, hold, rfl⟩ := Option.map_eq_some_iff.mp hfound
  have hguard : (old.id = itemId ∧ old.tenantId = tenantId) ∧ old.status = .pending := by
    simpa [Store.resolvable] using List.find?_some hold
  exact ⟨hl, hguard.1.2, hguard.1.1, rfl,
    ⟨old, List.mem_of_find?_eq_some hold, hguard.1.1, hguard.1.2, hguard.2⟩, _, heq, rfl⟩

/-- A sweep that is answered deletes the row, if there is one. -/
theorem deleteSweep_served {documentId : Uuid} {r : Unit}
    (h : (exec (.deleteSweep documentId) a l s).1 = .ok r) :
    l.failed = false ∧ a.refusal = none ∧ ∃ t, exec (.deleteSweep documentId) a l s = (.ok r, l, t) ∧
      Swept documentId s t := by
  obtain ⟨hl, t, hserved, hok, heq⟩ := statement_eq_ok h
  exact ⟨hl, hserved, t, heq, Store.swept_of_deleteSweep hok⟩

theorem mem_of_document?_eq_some {d : DocumentRow} (h : s.document? id = some d) :
    d ∈ s.documents ∧ d.id = id :=
  ⟨List.mem_of_find?_eq_some h, by simpa using List.find?_some h⟩

theorem enqueueAction_ne (kind : JobKind) : enqueueAction kind ≠ "document.delete".toList ∧
    enqueueAction kind ≠ "review_item.resolve".toList := by
  cases kind <;> exact ⟨by decide, by decide⟩

theorem delete_ne_resolve : "document.delete".toList ≠ "review_item.resolve".toList := by decide

/-- An effect is new when it is committed. -/
theorem spends (hkeys : Keys s) (h : committed s ⟨o, a, (exec o a l s).1⟩ = some k) :
    ¬ Spent k s ∧ Spent k (exec o a l s).2.2 := by
  cases hres : (exec o a l s).1 with
  | error e =>
    rw [hres] at h
    cases o <;> cases h
  | ok r =>
    rw [hres] at h
    cases o with
    | insertDocument tenantId filename mimeType sha256 amends =>
      obtain ⟨-, hfresh, t, heq, -, hissued⟩ := insertDocument_served hres
      cases h
      rw [heq]
      exact ⟨not_spent_of_fresh hfresh, spent_of_issued hissued (by decide) (by decide)⟩
    | insertJob kind tenantId documentId amended =>
      obtain ⟨-, hfresh, -, t, heq, hissued⟩ := insertJob_served hres
      cases h
      rw [heq]
      exact ⟨not_spent_of_fresh hfresh,
        spent_of_issued hissued (enqueueAction_ne kind).1 (enqueueAction_ne kind).2⟩
    | deleteSweep documentId =>
      obtain ⟨d, hd, rfl⟩ := Option.map_eq_some_iff.mp h
      obtain ⟨hmem, rfl⟩ := mem_of_document?_eq_some hd
      obtain ⟨-, -, t, heq, hswept⟩ := deleteSweep_served hres
      rw [heq]
      refine ⟨?_, d.id, rfl, hswept.issued ▸ hkeys.documents.issued d hmem, fun _ d' hd' hid => ?_,
        fun haction => absurd haction delete_ne_resolve⟩
      · rintro ⟨id, hid, -, hdeleted, -⟩
        exact hdeleted rfl d hmem (Option.some.inj hid)
      · rw [hswept.documents, List.mem_filter] at hd'
        exact absurd hid (by simpa using hd'.2)
    | resolveReviewItem tenantId itemId status values =>
      cases r with
      | none => cases h
      | some item =>
        obtain ⟨-, htenant, hid, hstatus, ⟨old, hold, holdId, holdTenant, hpending⟩, t, heq, hitems⟩ :=
          resolveReviewItem_served hres
        simp only [committed] at h
        split at h
        · cases h
        next hresolved =>
          cases h
          have hissued : item.id ∈ s.issued := hid ▸ holdId ▸ hkeys.items.issued old hold
          have heffect := exec_effect (.resolveReviewItem tenantId itemId status values) a l s
          rw [heq] at heffect ⊢
          refine ⟨?_, item.id, rfl, heffect.issued _ hissued,
            fun haction => absurd haction.symm delete_ne_resolve,
            fun _ item' hitem' hsame hpending' => ?_⟩
          · rintro ⟨id, hid', -, -, hnone⟩
            exact hnone rfl old hold (holdId.trans (hid.symm.trans (Option.some.inj hid'))) hpending
          · rw [hitems] at hitem'
            obtain ⟨row, hrow, rfl⟩ := List.mem_map.mp hitem'
            by_cases hguard : Store.resolvable tenantId itemId row
            · rw [if_pos hguard] at hpending'
              exact hresolved (hstatus.trans hpending')
            · -- another pending row under the id would be the one resolved
              rw [if_neg hguard] at hsame hpending'
              obtain rfl := List.inj_on_of_nodup_map hkeys.items.nodup hrow hold
                (hsame.trans (hid.trans holdId.symm))
              exact hguard (by simp [Store.resolvable, holdId, holdTenant, hpending])
    | _ => cases h

end Spends

/-! ## The books -/

/-- The turns that let a party do its part. While it owes an audit row nothing is refused to it, and
the row it reads back is still there; a delete comes first to its document. -/
def attended : Stage Deed → Op → Answer → Store → Bool
  | .owing _, .readDocument documentId, a, s => a.refusal.isNone && (s.document? documentId).isSome
  | .owing _, .readJob kind id, a, s => a.refusal.isNone && (Jobs.row? id (s.jobs kind)).isSome
  | .owing _, _, a, _ => a.refusal.isNone
  | _, .deleteSweep documentId, a, s => a.refusal.isSome || (s.document? documentId).isSome
  | _, _, _, _ => true

/-- Effects and audit rows. -/
def books : Bookkeeping exec Store.tick Deed where
  Inv := Keys
  Later := Later
  effect o a l s := committed s ⟨o, a, (exec o a l s).1⟩
  record o a l s := audited ⟨o, a, (exec o a l s).1⟩
  Fair stage o a s := attended stage o a s
  Spent := Spent
  later_refl := .refl
  later_trans _ _ _ := .trans
  exec_inv o a l s h := ⟨h.documents.effect (exec_effect o a l s), h.items.effect (exec_effect o a l s)⟩
  exec_later o a l s := (exec_effect o a l s).later
  drift_inv _ _ h := ⟨⟨h.documents.nodup, h.documents.issued⟩, ⟨h.items.nodup, h.items.issued⟩⟩
  drift_later _ _ := .of_links (fun _ h => h) rfl fun _ => rfl
  spends _ _ _ _ _ := spends
  exec_spent o a l s _ h := h.effect (exec_effect o a l s)
  drift_spent _ _ _ h := h

instance (stage : Stage Deed) (o : Op) (a : Answer) (s : Store) :
    Decidable (books.Fair stage o a s) :=
  inferInstanceAs (Decidable (attended stage o a s = true))

/-- The operations that commit no effect and no audit row. -/
def Op.quiet : Op → Bool
  | .insertDocument .. | .deleteSweep .. | .insertJob .. | .resolveReviewItem .. | .insertAudit .. =>
    false
  | _ => true

theorem nothing_of_quiet (ho : Op.quiet o = true) :
    books.effect o a l s = none ∧ books.record o a l s = none := by
  cases o <;> first | exact ⟨rfl, rfl⟩ | cases ho

section Programs

variable {α β : Type} {stage : Stage Deed} {p : Service α} {f : α → Service β}
  {Q : Stage Deed → Except Exn β → Session → Store → Prop}

/-- What follows a quiet program. -/
theorem after (hp : p.Performs fun o => Op.quiet o = true)
    (hraise : ∀ e l t, Q stage (.error e) l t)
    (hf : ∀ a l' t, Later s t → Diligent books stage (f a) l' t Q) :
    Diligent books stage (p.bind f) l s Q := by
  refine Diligent.bind.mpr ((Diligent.of_performs hp fun _ _ _ _ => nothing_of_quiet).mono ?_)
  rintro st res l' t ⟨rfl, hlater⟩
  cases res with
  | error e => exact hraise e l' t
  | ok a => exact hf a l' t hlater

theorem ends_error (e : Exn) : Bookkeeping.Ends (.idle : Stage Deed) (.error e : Except Exn α) :=
  ⟨rfl, fun _ _ => rfl⟩

/-- A program ends as it should when it has committed nothing. -/
theorem ends_of_quiet (hp : p.Performs fun o => Op.quiet o = true) :
    Diligent books .idle p l s fun st res _ _ => Bookkeeping.Ends st res := by
  refine (Diligent.of_performs hp fun _ _ _ _ => nothing_of_quiet).mono ?_
  rintro st res _ _ ⟨rfl, -⟩
  exact ⟨rfl, fun _ _ => rfl⟩

end Programs

/-! ## While a row is owed -/

section Owing

theorem admits_of_quiet {stage : Stage Deed} (ho : Op.quiet o = true) :
    stage.Admits (books.effect o a l s) (books.record o a l s) ∧
      stage.next (books.effect o a l s) (books.record o a l s) = stage := by
  obtain ⟨heffect, hrecord⟩ := @nothing_of_quiet o a l s ho
  rw [heffect, hrecord]
  exact ⟨stage.admits_none, stage.next_none⟩

theorem refreshJob_owing {kind : JobKind} {id : Uuid} (hl : l.failed = false) :
    Diligent books (.owing k) (refreshJob kind id) l s fun st res l' _ =>
      st = .owing k ∧ l'.failed = false ∧ ∃ job, res = .ok job ∧ job.id = id := by
  refine Diligent.bind.mpr (Diligent.call.mpr fun t a _ _ hfair => ?_)
  obtain ⟨hadmits, hstays⟩ := @admits_of_quiet (.readJob kind id) a l t (.owing k) rfl
  obtain ⟨hserved, hfound⟩ : a.refusal = none ∧ (Jobs.row? id (t.jobs kind)).isSome := by
    simpa [books, attended] using hfair
  obtain ⟨job, hjob⟩ := Option.isSome_iff_exists.mp hfound
  have hexec : exec (.readJob kind id) a l t = (.ok (some job), l, t) :=
    (query_served _ hl hserved).trans (by rw [hjob])
  refine ⟨hadmits, ?_⟩
  rw [hstays, hexec]
  exact ⟨rfl, hl, job, rfl, (Jobs.row?_mem hjob).2⟩

theorem refreshDocument_owing {tenantId id : Uuid} (hl : l.failed = false)
    (howned : Owned tenantId id s) :
    Diligent books (.owing k) (refreshDocument id) l s fun st res l' _ =>
      st = .owing k ∧ l'.failed = false ∧ ∃ d, res = .ok d ∧ d.id = id ∧ d.tenantId = tenantId := by
  refine Diligent.bind.mpr (Diligent.call.mpr fun t a hlater _ hfair => ?_)
  obtain ⟨hadmits, hstays⟩ := @admits_of_quiet (.readDocument id) a l t (.owing k) rfl
  obtain ⟨hserved, hfound⟩ : a.refusal = none ∧ (t.document? id).isSome := by
    simpa [books, attended] using hfair
  obtain ⟨d, hd⟩ := Option.isSome_iff_exists.mp hfound
  obtain ⟨hmem, hid⟩ := mem_of_document?_eq_some hd
  have hexec : exec (.readDocument id) a l t = (.ok (some d), l, t) :=
    (query_served _ hl hserved).trans (by rw [hd])
  refine ⟨hadmits, ?_⟩
  rw [hstays, hexec]
  exact ⟨rfl, hl, d, rfl, hid, (hlater.owned howned).rows d hmem hid⟩

theorem unlinkFile_owing {tenantId : Uuid} {sha256 : Str} (hl : l.failed = false) :
    Diligent books (.owing k) (perform (.unlinkFile tenantId sha256)) l s fun st res l' _ =>
      st = .owing k ∧ l'.failed = false ∧ ∃ removed, res = .ok removed := by
  refine Diligent.call.mpr fun t a _ _ hfair => ?_
  obtain ⟨hadmits, hstays⟩ := @admits_of_quiet (.unlinkFile tenantId sha256) a l t (.owing k) rfl
  have hserved : a.refusal = none := by simpa [books, attended] using hfair
  obtain ⟨removed, u, hexec⟩ :
      ∃ removed u, exec (.unlinkFile tenantId sha256) a l t = (.ok removed, l, u) := by
    simp only [exec, fileCall, hserved]
    exact ⟨_, _, rfl⟩
  refine ⟨hadmits, ?_⟩
  rw [hstays, hexec]
  exact ⟨rfl, hl, removed, rfl⟩

/-- The audit row of the effect. -/
theorem insertAudit_owing {tenantId : Uuid} {actor : Option Str} {requestId action resourceType : Str}
    {resourceId : Option Uuid} {detail : Option Json} (hl : l.failed = false) :
    Diligent books (.owing ⟨tenantId, action, resourceId⟩)
      (perform (.insertAudit tenantId actor requestId action resourceType resourceId detail)) l s
      fun st res _ _ => st = .settled ⟨tenantId, action, resourceId⟩ ∧ res = .ok () := by
  refine Diligent.call.mpr fun t a _ _ hfair => ?_
  have hserved : a.refusal = none := by simpa [books, attended] using hfair
  have hexec : exec (.insertAudit tenantId actor requestId action resourceType resourceId detail) a l t =
      (.ok (), l,
        t.insertAudit tenantId actor requestId action resourceType resourceId detail a.began) := by
    simp [exec, insert, statement, hl, hserved]
  dsimp only [books]
  rw [hexec]
  exact ⟨⟨rfl, fun k' hk' => (Option.some.inj hk').symm⟩, rfl, rfl⟩

/-- What follows the effect is its audit row, and the value is returned. -/
theorem record_ends {α : Type} {tenantId : Uuid} {actor : Option Str}
    {requestId action resourceType : Str} {resourceId : Option Uuid} {detail : Option Json} (value : α)
    (hl : l.failed = false) :
    Diligent books (.owing ⟨tenantId, action, resourceId⟩)
      ((perform (.insertAudit tenantId actor requestId action resourceType resourceId detail)).bind
        fun _ => .ret value) l s fun st res _ _ => Bookkeeping.Ends st res := by
  refine Diligent.bind.mpr ((insertAudit_owing hl).mono ?_)
  rintro st res _ _ ⟨rfl, rfl⟩
  exact ⟨rfl, nofun⟩

end Owing

/-! ## Enqueues -/

section Enqueues

variable {kind : JobKind} {tenantId documentId : Uuid} {amended : Option Uuid}

/-- A job that is created and read back owes the audit row of its enqueue. -/
theorem createJob_diligent :
    Diligent books .idle (createJob kind tenantId documentId amended) l s fun st res l' _ =>
      match res with
      | .ok job => st = .owing ⟨tenantId, enqueueAction kind, some job.id⟩ ∧ l'.failed = false
      | .error _ => st = .idle := by
  refine Diligent.bind.mpr (Diligent.call.mpr fun t a _ _ _ => ?_)
  cases hres : (exec (.insertJob kind tenantId documentId amended) a l t).1 with
  | error e =>
    simp only [books, hres]
    exact ⟨rfl, rfl⟩
  | ok row =>
    obtain ⟨hl, -, htenant, u, heq, -⟩ := insertJob_served hres
    simp only [books, heq]
    refine ⟨rfl, (refreshJob_owing hl).mono ?_⟩
    rintro st res l' _ ⟨rfl, hl', job, rfl, hid⟩
    dsimp only
    rw [hid, ← htenant]
    exact ⟨rfl, hl'⟩

/-- Unless there is an active job, one is created. -/
theorem insertUnlessActive_diligent {conflict : Uuid → Exn} :
    Diligent books .idle (Ingestion.insertUnlessActive kind conflict tenantId documentId) l s
      fun st res l' _ =>
        match res with
        | .ok job => st = .owing ⟨tenantId, enqueueAction kind, some job.id⟩ ∧ l'.failed = false
        | .error _ => st = .idle := by
  refine after (.call rfl) (fun _ _ _ => rfl) fun active _ _ _ => ?_
  cases active with
  | some job => exact rfl
  | none => exact createJob_diligent

/-- The job of an enqueue, then its audit row. -/
theorem enqueue_ends {p : Service Jobs.JobRow} (actor : Option Str) (requestId resourceType : Str)
    (detail : Option Json) (hp : Diligent books .idle p l s fun st res l' _ =>
      match res with
      | .ok job => st = .owing ⟨tenantId, enqueueAction kind, some job.id⟩ ∧ l'.failed = false
      | .error _ => st = .idle) :
    Diligent books .idle (p.bind fun job =>
      (perform (.insertAudit tenantId actor requestId (enqueueAction kind) resourceType (some job.id)
        detail)).bind fun _ => .ret job) l s fun st res _ _ => Bookkeeping.Ends st res := by
  refine Diligent.bind.mpr (hp.mono fun st res l' t h => ?_)
  cases res with
  | error e =>
    obtain rfl : st = .idle := h
    exact ends_error e
  | ok job =>
    obtain ⟨rfl, hl⟩ := h
    exact record_ends job hl

theorem enqueueIngestion_ends (context : RequestContext) :
    Diligent books .idle (Ingestion.enqueueIngestion context tenantId documentId) l s
      fun st res _ _ => Bookkeeping.Ends st res := by
  refine after (.call rfl) (fun e _ _ => ends_error e) fun found _ _ _ => ?_
  cases found with
  | none => exact ends_error _
  | some document => exact @enqueue_ends _ _ .ingestion _ _ _ _ _ _ insertUnlessActive_diligent

theorem enqueueExtraction_ends (context : RequestContext) :
    Diligent books .idle (Extraction.enqueueExtraction context tenantId documentId) l s
      fun st res _ _ => Bookkeeping.Ends st res := by
  refine after (.call rfl) (fun e _ _ => ends_error e) fun found _ _ _ => ?_
  cases found with
  | none => exact ends_error _
  | some document =>
    dsimp only
    split
    · exact ends_of_quiet (.bind (.call rfl) fun _ => .raise _)
    · exact @enqueue_ends _ _ .extraction _ _ _ _ _ _ insertUnlessActive_diligent

theorem enqueueChangeReport_ends (context : RequestContext) (baseId amendedId : Uuid) :
    Diligent books .idle (ChangeReport.enqueueChangeReport context tenantId baseId amendedId) l s
      fun st res _ _ => Bookkeeping.Ends st res := by
  refine after (.call rfl) (fun e _ _ => ends_error e) fun _ _ _ _ => ?_
  refine after (require_performs _ _) (fun e _ _ => ends_error e) fun base _ _ _ => ?_
  refine after (.call rfl) (fun e _ _ => ends_error e) fun _ _ _ _ => ?_
  refine after (require_performs _ _) (fun e _ _ => ends_error e) fun amended _ _ _ => ?_
  dsimp only
  split
  · exact ends_of_quiet (.raise _)
  · refine after (requireVersion_performs fun _ _ => rfl) (fun e _ _ => ends_error e) fun _ _ _ _ => ?_
    refine after (requireVersion_performs fun _ _ => rfl) (fun e _ _ => ends_error e) fun _ _ _ _ => ?_
    exact @enqueue_ends _ _ .changeReport _ _ _ _ _ _ createJob_diligent

end Enqueues

/-! ## Documents and review items -/

section Documents

variable {tenantId : Uuid}

/-- A document that is created and read back owes the audit row of its upload. -/
theorem createDocument_diligent {filename mimeType sha256 : Str} {amends : Option Uuid} :
    Diligent books .idle (createDocument tenantId filename mimeType sha256 amends) l s
      fun st res l' _ =>
        match res with
        | .ok d => st = .owing ⟨d.tenantId, "document.upload".toList, some d.id⟩ ∧ l'.failed = false
        | .error _ => st = .idle := by
  refine Diligent.bind.mpr (Diligent.call.mpr fun t a _ hinv _ => ?_)
  have hkeys : Keys (exec (.insertDocument tenantId filename mimeType sha256 amends) a l t).2.2 :=
    books.exec_inv _ a l t hinv
  cases hres : (exec (.insertDocument tenantId filename mimeType sha256 amends) a l t).1 with
  | error e =>
    simp only [books, hres]
    exact ⟨rfl, rfl⟩
  | ok row =>
    obtain ⟨hl, -, u, heq, hmem, hissued⟩ := insertDocument_served hres
    rw [heq] at hkeys
    have howned : Owned row.tenantId row.id u := by
      refine ⟨hissued, fun d hd hid => ?_⟩
      rw [List.inj_on_of_nodup_map hkeys.documents.nodup hd hmem hid]
    simp only [books, heq]
    refine ⟨rfl, (refreshDocument_owing hl howned).mono ?_⟩
    rintro st res l' _ ⟨rfl, hl', d, rfl, hid, htenant⟩
    dsimp only
    rw [hid, htenant]
    exact ⟨rfl, hl'⟩

theorem uploadDocument_ends [Platform] (context : RequestContext)
    (request : Documents.UploadRequest) :
    Diligent books .idle (Documents.uploadDocument context request) l s
      fun st res _ _ => Bookkeeping.Ends st res := by
  refine after (.ofResult _) (fun e _ _ => ends_error e) fun checked _ _ _ => ?_
  refine after (checkParent_performs fun _ _ => rfl) (fun e _ _ => ends_error e) fun _ _ _ _ => ?_
  refine after (.call rfl) (fun e _ _ => ends_error e) fun existing _ _ _ => ?_
  cases existing with
  | some row => exact ends_error _
  | none =>
    dsimp only [Documents.store]
    rw [Lib.Prog.bind_eq, Lib.Prog.bind_eq, Lib.Prog.bind_assoc]
    refine after (.call rfl) (fun e _ _ => ends_error e) fun _ _ _ _ => ?_
    refine Diligent.bind.mpr (Diligent.tryCatch.mpr (createDocument_diligent.mono ?_))
    intro st res l' t h
    cases res with
    | ok d =>
      obtain ⟨rfl, hl⟩ := h
      exact record_ends d hl
    | error e =>
      obtain rfl : st = .idle := h
      cases e with
      | integrityError =>
        refine after (.call rfl) (fun e _ _ => ends_error e) fun _ _ _ _ => ?_
        exact after (.call rfl) (fun e _ _ => ends_error e) fun raced l t _ => ends_error _
      | _ => exact ends_error _

/-- A sweep that goes through deleted the document, and owes the audit row. -/
theorem sweep_diligent {documentId : Uuid} (howned : Owned tenantId documentId s) :
    Diligent books .idle (Documents.sweep documentId) l s fun st res l' _ =>
      match res with
      | .ok _ =>
        st = .owing ⟨tenantId, "document.delete".toList, some documentId⟩ ∧ l'.failed = false
      | .error _ => st = .idle := by
  refine Diligent.tryCatch.mpr (Diligent.call.mpr fun t a hlater _ hfair => ?_)
  cases hres : (exec (.deleteSweep documentId) a l t).1 with
  | ok r =>
    obtain ⟨hl, hserved, u, heq, -⟩ := deleteSweep_served hres
    have hthere : (t.document? documentId).isSome := by
      simpa [books, attended, hserved] using hfair
    obtain ⟨d, hd⟩ := Option.isSome_iff_exists.mp hthere
    obtain ⟨hmem, hid⟩ := mem_of_document?_eq_some hd
    have htenant : d.tenantId = tenantId := (hlater.owned howned).rows d hmem hid
    have hcommitted : committed t ⟨.deleteSweep documentId, a, .ok r⟩ =
        some ⟨tenantId, "document.delete".toList, some documentId⟩ := by
      rw [← htenant, ← hid]
      exact congrArg (Option.map _) (hid ▸ hd)
    dsimp only [books]
    rw [heq, hcommitted]
    exact ⟨rfl, rfl, hl⟩
  | error e =>
    simp only [books, hres]
    refine ⟨rfl, ?_⟩
    cases e with
    | integrityError =>
      refine after (.call rfl) (fun _ _ _ => rfl) fun _ _ _ _ => ?_
      refine after (.call rfl) (fun _ _ _ => rfl) fun amended _ _ _ => ?_
      cases amended <;> exact rfl
    | _ => exact rfl

theorem deleteDocument_ends (context : RequestContext) (documentId : Uuid) :
    Diligent books .idle (Documents.deleteDocument context tenantId documentId) l s
      fun st res _ _ => Bookkeeping.Ends st res := by
  refine Diligent.bind.mpr (Diligent.bind.mpr (Diligent.call.mpr fun t a _ hinv _ => ?_))
  obtain ⟨hadmits, hstays⟩ := @admits_of_quiet (.findDocument tenantId documentId) a l t .idle rfl
  refine ⟨hadmits, ?_⟩
  rw [hstays]
  rcases query_cases (Store.findDocument tenantId documentId) a l t with ⟨e, heq⟩ | heq
  · rw [exec, heq]
    exact ends_error e
  · rw [exec, heq]
    cases hfound : t.findDocument tenantId documentId with
    | none => exact ends_error _
    | some document =>
      obtain ⟨hmem, hid, htenant⟩ := has_of_findDocument hfound
      have howned : Owned tenantId document.id t := by
        refine ⟨hinv.documents.issued _ hmem, fun d hd hsame => ?_⟩
        rw [List.inj_on_of_nodup_map hinv.documents.nodup hd hmem hsame, htenant]
      refine after (.call rfl) (fun e _ _ => ends_error e) fun amended l' u hlater => ?_
      cases amended with
      | true => exact ends_error _
      | false =>
        refine Diligent.bind.mpr ((sweep_diligent (hlater.owned howned)).mono ?_)
        intro st res l' u h
        cases res with
        | error e =>
          obtain rfl : st = .idle := h
          exact ends_error e
        | ok r =>
          obtain ⟨rfl, hl⟩ := h
          refine Diligent.bind.mpr ((unlinkFile_owing hl).mono ?_)
          rintro st res l' u ⟨rfl, hl', removed, rfl⟩
          refine (insertAudit_owing hl').mono ?_
          rintro st res _ _ ⟨rfl, rfl⟩
          exact ⟨rfl, fun _ h => by cases h⟩

theorem status_ne_pending (disposition : ReviewQueue.Disposition) :
    disposition.status ≠ .pending := by
  cases disposition <;> exact nofun

theorem resolveReviewItem_ends (context : RequestContext) (itemId : Uuid)
    (request : ReviewQueue.ReviewDispositionCreate) :
    Diligent books .idle (ReviewQueue.resolveReviewItem context tenantId itemId request) l s
      fun st res _ _ => Bookkeeping.Ends st res := by
  refine after (.bind (.call rfl) fun _ => require_performs _ _) (fun e _ _ => ends_error e) fun _ _ _ _ => ?_
  refine Diligent.bind.mpr (Diligent.call.mpr fun t a _ _ _ => ?_)
  cases hres : (exec (.resolveReviewItem tenantId itemId request.disposition.status
      request.correctedValues) a _ t).1 with
  | error e =>
    simp only [books, hres]
    exact ⟨rfl, ends_error e⟩
  | ok found =>
    cases found with
    | none =>
      simp only [books, hres]
      exact ⟨rfl, ends_error _⟩
    | some item =>
      obtain ⟨hl, htenant, hid, hstatus, -, u, heq, -⟩ := resolveReviewItem_served hres
      have hcommitted : committed t ⟨.resolveReviewItem tenantId itemId request.disposition.status
          request.correctedValues, a, .ok (some item)⟩ =
            some ⟨tenantId, "review_item.resolve".toList, some itemId⟩ := by
        rw [← htenant, ← hid]
        exact if_neg (hstatus ▸ status_ne_pending request.disposition)
      dsimp only [books]
      rw [heq, hcommitted]
      exact ⟨rfl, record_ends item hl⟩

end Documents

/-! ## Parties -/

/-- A party's value is dropped. -/
theorem ends_unit {α : Type} {p : Service α}
    (h : Diligent books .idle p l s fun st res _ _ => Bookkeeping.Ends st res) :
    Diligent books .idle (p.bind fun _ => (.ret () : Service Unit)) l s
      fun st res _ _ => Bookkeeping.Ends st res := by
  refine Diligent.bind.mpr (h.mono fun st res _ _ hends => ?_)
  cases res with
  | ok a => exact ⟨hends.1, nofun⟩
  | error e => exact ⟨hends.1, fun _ _ => hends.2 e rfl⟩

theorem quiet_of_ofIngestion (ho : o.ofIngestion = true) : Op.quiet o = true := by
  cases o <;> first | rfl | cases ho

/-- On attended turns every party commits an effect and its audit row, or neither. -/
theorem program_ends [Ucd] [Platform] (party : Party) :
    Diligent books .idle party.program l s fun st res _ _ => Bookkeeping.Ends st res := by
  have hworker : ∀ {α : Type} {p : Service α}, IngestionProgram p →
      Diligent books .idle p l s fun st res _ _ => Bookkeeping.Ends st res :=
    fun h => ends_of_quiet (h.mono fun _ _ => quiet_of_ofIngestion)
  cases party with
  | documents request =>
    cases request with
    | upload context request => exact ends_unit (uploadDocument_ends context request)
    | delete context tenantId documentId => exact deleteDocument_ends context documentId
  | activity work =>
    cases work with
    | enqueueIngestion context tenantId documentId => exact ends_unit (enqueueIngestion_ends context)
    | enqueueExtraction context tenantId documentId => exact ends_unit (enqueueExtraction_ends context)
    | ingestionWorker llm => exact ends_unit (hworker (WorkerProgram.runNextIngestionJob llm))
    | extractionWorker llm threshold =>
      exact ends_unit (hworker (WorkerProgram.runNextExtractionJob llm threshold).ingestion)
  | enqueueChangeReport context tenantId baseId amendedId =>
    exact ends_unit (enqueueChangeReport_ends context baseId amendedId)
  | changeReportWorker llm threshold =>
    exact ends_unit (hworker (WorkerProgram.runNextChangeReportJob llm threshold).ingestion)
  | resolveReviewItem context tenantId itemId request =>
    exact ends_unit (resolveReviewItem_ends context itemId request)

/-! ## Runs -/

/-- The system, with the effects that were committed, the audit rows, and whose they are. -/
abbrev Trail (ι : Type) := Journal ι Session Store Op Op.Res Exn Unit Deed

namespace Trail

variable {ι : Type}

def start (c : System ι) : Trail ι := ⟨c, fun _ => .idle, [], []⟩

def step [DecidableEq ι] : Trail ι → Turn ι → Option (Trail ι) := books.step

/-- No operation is in progress: who has taken a turn has returned, raised or crashed. -/
def AtRest (turns : List (Turn ι)) (w : Trail ι) : Prop :=
  ∀ i l o next, w.pool.parties i = some (l, .op o next) → ∀ a, .act i a ∉ turns

/-- Every effect has one audit row, every row is of an effect, and who raised has written none. -/
structure Complete (w : Trail ι) : Prop where
  once : (w.effects.map Prod.snd).Nodup
  rows : (deeds w.pool.store).Perm (w.effects.map Prod.snd)
  written : deeds w.pool.store = w.records.map Prod.snd
  rejected : ∀ i l e, w.pool.parties i = some (l, .raise e) → ∀ k, (i, k) ∉ w.records

variable [DecidableEq ι] {c c' : System ι} {turns : List (Turn ι)} {w w' : Trail ι}

/-- Every run of the system has its trail. -/
theorem of_run (hrun : Lib.run System.step c turns = some c') :
    ∃ w, Lib.run step (start c) turns = some w ∧ w.pool = c' :=
  Bookkeeping.exists_run hrun

/-- An operation appends the audit row it commits, and otherwise leaves the rows alone. -/
theorem audit_exec (o : Op) (a : Answer) (l : Session) (s : Store) :
    deeds (exec o a l s).2.2 = deeds s ++ (audited ⟨o, a, (exec o a l s).1⟩).toList := by
  cases o with
  | insertAudit tenantId actor requestId action resourceType resourceId detail =>
    rcases statement_cases (fun s => .ok ((), s.insertAudit tenantId actor requestId action
      resourceType resourceId detail a.began)) a l s with ⟨e, heq, -⟩ | ⟨r, t, -, -, hok, heq⟩
    · rw [exec, insert, heq]
      exact (List.append_nil _).symm
    · cases hok
      rw [exec, insert, heq]
      exact List.map_append
  | _ =>
    show deeds _ = deeds s ++ []
    rw [List.append_nil]
    exact congrArg (List.map deed) ((exec_effect _ a l s).audit rfl)

theorem keys_empty (now : Time) : Keys (.empty now) :=
  ⟨⟨.nil, fun _ h => nomatch h⟩, ⟨.nil, fun _ h => nomatch h⟩⟩

omit [DecidableEq ι] in
theorem start_holds [Ucd] [Platform] (members : ι → Option Party) (now : Time) :
    books.Holds (start (everyone (.empty now) members)) where
  inv := keys_empty now
  parties i l p hi := by
    obtain ⟨program, hprogram, heq⟩ := Option.map_eq_some_iff.mp hi
    obtain ⟨party, -, rfl⟩ := Option.map_eq_some_iff.mp hprogram
    cases heq
    exact program_ends party
  gone _ _ := rfl
  balanced := ⟨⟨[], .nil, fun _ _ => iff_of_false List.not_mem_nil nofun, .nil⟩, fun _ _ h => nomatch h⟩
  once := .nil
  spent := fun _ h => nomatch h

/-- In a run of any parties in which no party crashes that owes an audit row, none that owes one is
refused an operation or finds the row it reads back deleted, and no delete comes second to its
document: whenever no operation is in progress, the audit rows are the committed effects, each once,
and who was rejected has written none. -/
theorem audited_unless_interrupted [Ucd] [Platform] {members : ι → Option Party} {now : Time}
    (horderly : Along step books.Orderly (start (everyone (.empty now) members)) turns)
    (hrun : Lib.run step (start (everyone (.empty now) members)) turns = some w)
    (hrest : AtRest turns w) : Complete w := by
  have hholds := (start_holds members now).run horderly hrun
  have hwritten : deeds w.pool.store = w.records.map Prod.snd :=
    @Bookkeeping.records_run _ _ _ _ _ _ _ _ _ _ _ _ books _ _ _ deeds _ audit_exec
      (fun _ _ => rfl) rfl hrun
  have hnone : ∀ i, (w.stage i).owed = none := by
    intro i
    cases hi : w.pool.parties i with
    | none => exact hholds.gone i hi
    | some party =>
      obtain ⟨l, p⟩ := party
      cases p with
      | ret a => exact (hholds.parties i l _ hi).1
      | raise e => exact (hholds.parties i l _ hi).1
      | op o next =>
        rw [Bookkeeping.stage_run (hrest i l o next hi) hrun]
        rfl
  refine ⟨hholds.once, ?_, hwritten, fun i l e hi => hholds.rejected hi⟩
  rw [hwritten]
  exact (hholds.settled hnone).map _

/-- The program of a party that has returned, raised or crashed. -/
def isOver : Option (Session × Service Unit) → Bool
  | some (_, .op ..) => false
  | _ => true

omit [DecidableEq ι] in
theorem atRest_of_over (h : ∀ i, isOver (w.pool.parties i)) : AtRest turns w := by
  intro i l o next hi
  have := h i
  rw [hi] at this
  cases this

/-- An upload, a delete of its document, and a delete of another one. -/
def threeRequests : Fin 3 → Option Party
  | 0 => some (.documents (.upload ⟨[], none⟩ Documents.pdfUpload))
  | 1 => some (.documents (.delete ⟨[], none⟩ 1 10))
  | 2 => some (.documents (.delete ⟨[], none⟩ 1 11))

def threeTurns : List (Turn (Fin 3)) :=
  [.act 0 {}, .act 0 {}, .act 0 { ids := [10] }, .act 0 {}, .act 0 {}, .act 2 {},
    .act 1 {}, .act 1 {}, .act 1 {}, .act 1 {}, .act 1 {}]

theorem audited_unless_interrupted_three :
    ∃ w, Lib.run step (start (@everyone Ucd.ascii Documents.onePdf (Fin 3) (.empty 0) threeRequests))
      threeTurns = some w ∧ AtRest threeTurns w ∧ Complete w ∧ w.effects.length = 2 := by
  let := Ucd.ascii
  let := Documents.onePdf
  have hend : ((Lib.run step (start (everyone (.empty 0) threeRequests)) threeTurns).map fun w =>
      (decide (∀ i, isOver (w.pool.parties i)), w.effects.length)) = some (true, 2) := by
    decide +kernel
  obtain ⟨w, hrun, hw⟩ := Option.map_eq_some_iff.mp hend
  obtain ⟨hover, hlength⟩ := Prod.mk.inj hw
  have hrest : AtRest threeTurns w := atRest_of_over (of_decide_eq_true hover)
  exact ⟨w, hrun, hrest, audited_unless_interrupted (by decide +kernel) hrun hrest, hlength⟩

/-- An upload that crashes after its row, before the audit row. -/
def crashedTurns : List (Turn (Fin 1)) :=
  [.act 0 {}, .act 0 {}, .act 0 { ids := [10] }, .act 0 {}, .crash 0]

theorem crashed_upload_is_not_audited :
    ∃ w, Lib.run step (start (@everyone Ucd.ascii Documents.onePdf (Fin 1) (.empty 0)
        fun _ => some (.documents (.upload ⟨[], none⟩ Documents.pdfUpload)))) crashedTurns = some w ∧
      AtRest crashedTurns w ∧ w.effects ≠ [] ∧ w.pool.store.audit = [] ∧ ¬ Complete w := by
  let := Ucd.ascii
  let := Documents.onePdf
  have hend : ((Lib.run step (start (everyone (.empty 0) fun _ : Fin 1 =>
      some (.documents (.upload ⟨[], none⟩ Documents.pdfUpload)))) crashedTurns).map fun w =>
        (decide (∀ i, isOver (w.pool.parties i)), w.effects.length, w.pool.store.audit.length)) =
          some (true, 1, 0) := by
    decide +kernel
  obtain ⟨w, hrun, hw⟩ := Option.map_eq_some_iff.mp hend
  simp only [Prod.mk.injEq, decide_eq_true_eq] at hw
  obtain ⟨hover, heffects, haudit⟩ := hw
  have hnone : w.pool.store.audit = [] := List.length_eq_zero_iff.mp haudit
  refine ⟨w, hrun, atRest_of_over hover, fun hempty => ?_, hnone, fun hcomplete => ?_⟩
  · rw [hempty] at heffects
    cases heffects
  · have hlength := hcomplete.rows.length_eq
    rw [List.length_map, heffects, deeds, hnone] at hlength
    cases hlength

end Trail

end ContractIntel.AuditTrail
