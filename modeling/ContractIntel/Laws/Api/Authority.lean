import ContractIntel.Api.Deployment
import ContractIntel.Laws.Api.Responses
import ContractIntel.Laws.Services.Calls
import ContractIntel.Laws.Services.Isolation
import ContractIntel.Lib.Endings

/-!
# On whose authority

Whatever the members of a deployment do, in whatever order: what comes into a tenant's tables by a
request, and what goes, does so because somebody's token verified for the tenant, with a role that may
have it done. A tenant for whom no token verifies keeps everything as it was.

## What is proved

- `authorized`: of every row of a reached store, on whose authority it is there.
- `untouched_without_token`: a tenant for whom no token verifies.
-/

namespace ContractIntel.Api

open Auth (AuthSettings Identity Principal ROLE_CLAIM Role TENANT_CLAIM claim decodeOptions
  getPrincipal keyId lower readClaims text verifyToken)
open Jobs (JobRow)
open Lib (Safe run)
open Lib.Prog (Performs)
open Repositories

variable {Key : Type} [Identity Key] {o : Op} {a : Answer} {l : Session} {s t : Store}

/-! ## Tokens -/

/-- The request carries a bearer token that verifies under a signing key of the issuer, and whose claims
name the tenant, the role and the subject of the principal. -/
def Bears (settings : AuthSettings) (incoming : Incoming Key) (principal : Principal) : Prop :=
  ∃ authorization token header key claims subject tenant role,
    incoming.authorization = some authorization ∧
    lower (authorization.takeWhile (· ≠ ' ')) = "bearer".toList ∧
    token = Str.strip ((authorization.dropWhile (· ≠ ' ')).drop 1) ∧
    Identity.unverifiedHeader Key token = some header ∧
    incoming.getKey (keyId Key header) = .ok (some key) ∧
    Identity.decode token key (decodeOptions settings) = .ok claims ∧
    claim "sub" claims = some subject ∧ text Key subject = principal.subject ∧
    claim TENANT_CLAIM claims = some tenant ∧
      Identity.uuid Key (text Key tenant) = some principal.tenantId ∧
    claim ROLE_CLAIM claims = some role ∧ Role.ofValue (text Key role) = some principal.role

theorem readClaims_eq_ok {claims : List (Str × Json)} {principal : Principal}
    (h : readClaims Key claims = .ok principal) : ∃ subject tenant role,
      claim "sub" claims = some subject ∧ text Key subject = principal.subject ∧
      claim TENANT_CLAIM claims = some tenant ∧
        Identity.uuid Key (text Key tenant) = some principal.tenantId ∧
      claim ROLE_CLAIM claims = some role ∧ Role.ofValue (text Key role) = some principal.role := by
  unfold readClaims at h
  split at h
  next subject tenant role hsubject htenant hrole =>
    split at h
    · cases h
    next tenantId hid =>
      split at h
      · cases h
      next found hfound =>
        cases h
        exact ⟨subject, tenant, role, hsubject, rfl, htenant, hid, hrole, hfound⟩
  · cases h

theorem bears_of_getPrincipal {settings : AuthSettings} {incoming : Incoming Key}
    {principal : Principal}
    (h : getPrincipal incoming.getKey settings incoming.authorization = .ok principal) :
    Bears settings incoming principal := by
  unfold getPrincipal at h
  split at h
  · cases h
  dsimp only at h
  split at h
  · cases h
  next hbearer =>
    obtain ⟨hscheme, -⟩ := not_or.mp hbearer
    cases hauthorization : incoming.authorization with
    | none =>
      rw [hauthorization] at hscheme
      exact absurd hscheme (by decide)
    | some authorization =>
      rw [hauthorization, Option.getD_some] at h hscheme
      unfold verifyToken at h
      split at h
      · cases h
      next header hheader =>
        split at h
        · cases h
        · cases h
        next key hkey =>
          split at h
          · cases h
          · cases h
          next claims hclaims =>
            obtain ⟨subject, tenant, role, hread⟩ := readClaims_eq_ok h
            exact ⟨authorization, _, header, key, claims, subject, tenant, role, hauthorization,
              not_not.mp hscheme, rfl, hheader, hkey, hclaims, hread⟩

/-! ## Requests -/

/-- The roles that may have a call made. -/
def allowed : Call → List Role
  | .uploadDocument .. | .deleteDocument .. | .enqueueIngestion .. | .enqueueExtraction ..
  | .enqueueChangeReport .. | .spend _ => [.admin]
  | .resolveReviewItem .. => [.reviewer, .admin]
  | _ => [.admin, .reviewer]

/-- A call is made by the endpoint that has these roles, and audits the context of its request. -/
theorem of_action {settings : Settings} {context : RequestContext} {endpoint : Endpoint}
    {work : Call} (h : endpoint.action settings context = some (.call work)) :
    endpoint.allowed = allowed work ∧ ∀ audits, work.context = some audits → audits = context := by
  cases endpoint with
  | postDocuments filename contentType stream amendsDocumentId =>
    rcases amendsDocumentId with _ | _ | parent <;> cases h <;>
      exact ⟨rfl, fun _ h => (Option.some.inj h).symm⟩
  | getDocuments limit offset =>
    obtain ⟨_, -, h⟩ := Option.bind_eq_some_iff.mp h
    obtain ⟨_, -, h⟩ := Option.bind_eq_some_iff.mp h
    cases h
    exact ⟨rfl, fun _ h => by cases h⟩
  | postAgreementChangeReport agreementId amendmentDocumentId =>
    obtain ⟨_, -, h⟩ := Option.bind_eq_some_iff.mp h
    obtain ⟨_, -, h⟩ := Option.bind_eq_some_iff.mp h
    cases h
    exact ⟨rfl, fun _ h => (Option.some.inj h).symm⟩
  | postReviewItemDisposition itemId request =>
    obtain ⟨_, -, h⟩ := Option.bind_eq_some_iff.mp h
    obtain ⟨_, -, h⟩ := Option.bind_eq_some_iff.mp h
    cases h
    exact ⟨rfl, fun _ h => (Option.some.inj h).symm⟩
  | getSearch q limit =>
    obtain ⟨_, -, h⟩ := Option.bind_eq_some_iff.mp h
    split at h <;> cases h
  | getReviewItems status =>
    cases status with
    | none =>
      cases h
      exact ⟨rfl, fun _ h => by cases h⟩
    | some status =>
      obtain ⟨_, -, h⟩ := Option.map_eq_some_iff.mp h
      cases h
      exact ⟨rfl, fun _ h => by cases h⟩
  | getUsageSpend groupBy =>
    cases groupBy with
    | none =>
      cases h
      exact ⟨rfl, fun _ h => by cases h⟩
    | some groupBy =>
      obtain ⟨_, -, h⟩ := Option.map_eq_some_iff.mp h
      cases h
      exact ⟨rfl, fun _ h => by cases h⟩
  | _ =>
    obtain ⟨_, -, h⟩ := Option.map_eq_some_iff.mp h
    cases h
    exact ⟨rfl, fun _ h => by cases h <;> rfl⟩

/-- A request that has the work done: its token verifies for the principal, whose role may have it
done. -/
structure Acts (settings : Settings) (incoming : Incoming Key) (principal : Principal)
    (work : Call) : Prop where
  bears : Bears settings.toAuthSettings incoming principal
  role : principal.role ∈ allowed work
  action : incoming.endpoint.action settings ⟨incoming.id, some principal.subject⟩ =
    some (.call work)

/-- One of the requests has the work done for the tenant. -/
def Worked (settings : Settings) (Sent : Incoming Key → Prop) (tenantId : Uuid) (work : Call) : Prop :=
  ∃ incoming principal, Sent incoming ∧ Acts settings incoming principal work ∧
    principal.tenantId = tenantId

/-- One of the requests uploaded the content for the tenant. -/
def Uploaded [Platform] (settings : Settings) (Sent : Incoming Key → Prop) (tenantId : Uuid)
    (content : Parsing.Bytes) : Prop :=
  ∃ work, Worked settings Sent tenantId work ∧ work.Uploads content

/-- The tenant had it saved before, or one of the requests uploaded it. -/
def SavedBy [Platform] (Before : Uuid → Parsing.Bytes → Prop) (settings : Settings)
    (Sent : Incoming Key → Prop) (tenantId : Uuid) (content : Parsing.Bytes) : Prop :=
  Before tenantId content ∨ Uploaded settings Sent tenantId content

/-! ## Rows -/

section Rows

variable (settings : Settings) (Sent : Incoming Key → Prop)

/-- On whose authority the rows of a store are not as they were. -/
structure Authorized (s t : Store) : Prop where
  added : ∀ d ∈ t.documents, (∃ old ∈ s.documents, old.id = d.id) ∨
    ∃ context request, Worked settings Sent d.tenantId (.uploadDocument context request)
  gone : ∀ d ∈ s.documents, (∃ left ∈ t.documents, left.id = d.id) ∨
    ∃ context, Worked settings Sent d.tenantId (.deleteDocument context d.id)
  enqueued : ∀ kind, ∀ job ∈ t.jobs kind, (∃ old ∈ s.jobs kind, old.id = job.id) ∨
    ∃ work, Worked settings Sent job.tenantId work ∧ work.enqueues = some kind
  resolved : ∀ item ∈ t.reviewItems, item.status = .pending ∨
    (∃ old ∈ s.reviewItems, old.id = item.id ∧ old.status = item.status) ∨
    ∃ context request, Worked settings Sent item.tenantId (.resolveReviewItem context item.id request) ∧
      item.status = request.disposition.status
  audited : ∀ row ∈ t.audit, row ∈ s.audit ∨ ∃ incoming principal work, Sent incoming ∧
    Acts settings incoming principal work ∧ row.tenantId = principal.tenantId ∧
    row.actor = some principal.subject ∧ row.requestId = incoming.id

variable {settings Sent}

theorem Authorized.refl (s : Store) : Authorized settings Sent s s where
  added d hd := .inl ⟨d, hd, rfl⟩
  gone d hd := .inl ⟨d, hd, rfl⟩
  enqueued _ job hjob := .inl ⟨job, hjob, rfl⟩
  resolved item hitem := .inr (.inl ⟨item, hitem, rfl, rfl⟩)
  audited _ hrow := .inl hrow

/-- The operations that take a request's authority. -/
def Op.signed : Op → Bool
  | .insertDocument .. | .deleteSweep _ | .insertJob .. | .resolveReviewItem .. | .insertAudit .. => true
  | _ => false

/-- An operation of a request, for its principal's tenant. -/
structure Signed (settings : Settings) (Sent : Incoming Key → Prop) (o : Op) (s : Store)
    (incoming : Incoming Key) (principal : Principal) (work : Call) : Prop where
  sent : Sent incoming
  acts : Acts settings incoming principal work
  confined : Confined principal.tenantId o s
  does : work.Does o
  sweeps : ∀ documentId, o = .deleteSweep documentId → ∃ context, work = .deleteDocument context documentId

/-- What the members of a deployment perform. -/
def May (settings : Settings) (Sent : Incoming Key → Prop) (o : Op) (s : Store) : Prop :=
  (∃ incoming principal work, Signed settings Sent o s incoming principal work) ∨
    Op.signed o = false ∧ Knows o s

theorem May.knows (h : May settings Sent o s) : Knows o s := by
  obtain ⟨_, _, _, hsigned⟩ | ⟨-, hknows⟩ := h
  · exact hsigned.confined.knows
  · exact hknows

theorem May.later (h : May settings Sent o s) (hlater : Later s t) : May settings Sent o t := by
  obtain ⟨incoming, principal, work, hsigned⟩ | ⟨hsign, hknows⟩ := h
  · exact .inl ⟨incoming, principal, work, { hsigned with confined := hsigned.confined.later hlater }⟩
  · exact .inr ⟨hsign, hknows.later hlater⟩

/-- Whose request performs an operation that takes one. -/
theorem May.signed (h : May settings Sent o s) (ho : Op.signed o = true) :
    ∃ incoming principal work, Signed settings Sent o s incoming principal work :=
  h.resolve_right fun ⟨hsign, _⟩ => by rw [ho] at hsign; cases hsign

theorem Authorized.effect {s₀ : Store} (hstart : Linked s₀) (hlinked : Linked s) (hlater : Later s₀ s)
    (h : Authorized settings Sent s₀ s) (hmay : May settings Sent o s) (heffect : Effect o a s t) :
    Authorized settings Sent s₀ t := by
  -- jobs that are updated in their places are the jobs they were
  have hjobs : t.issued = s.issued → ∀ kind, ∀ job ∈ t.jobs kind,
      (∃ old ∈ s₀.jobs kind, old.id = job.id) ∨
        ∃ work, Worked settings Sent job.tenantId work ∧ work.enqueues = some kind := by
    intro hissued kind job hjob
    have hid := ((hlinked.effect hmay.knows heffect).jobKeys kind).2 job hjob
    obtain ⟨old, hold, hlink⟩ := heffect.later.jobs kind job hjob (hissued ▸ hid)
    obtain ⟨hsame, htenant, -⟩ := JobRow.link_eq_iff.mp hlink
    rw [← hsame, ← htenant]
    exact h.enqueued kind old hold
  cases heffect with
  | nothing => exact h
  | insertDocument =>
    obtain ⟨incoming, principal, work, hsigned⟩ := hmay.signed rfl
    obtain ⟨context, request, rfl⟩ := hsigned.does
    refine { h with added := fun d hd => ?_, gone := fun d hd => ?_ }
    · rcases List.mem_append.mp hd with hd | hd
      · exact h.added d hd
      · cases List.mem_singleton.mp hd
        exact .inr ⟨context, request, incoming, principal, hsigned.sent, hsigned.acts,
          hsigned.confined.1.symm⟩
    · refine (h.gone d hd).imp_left ?_
      rintro ⟨left, hleft, hid⟩
      exact ⟨left, List.mem_append_left _ hleft, hid⟩
  | setDocumentStatus =>
    refine { h with added := fun d hd => ?_, gone := fun d hd => ?_ }
    · obtain ⟨old, hold, rfl⟩ := List.mem_map.mp hd
      have := h.added old hold
      split <;> exact this
    · refine (h.gone d hd).imp_left ?_
      rintro ⟨left, hleft, hid⟩
      refine ⟨_, List.mem_map_of_mem hleft, ?_⟩
      split <;> exact hid
  | @deleteSweep documentId _ _ _ hswept =>
    obtain ⟨incoming, principal, work, hsigned⟩ := hmay.signed rfl
    obtain ⟨context, rfl⟩ := hsigned.sweeps documentId rfl
    replace hswept := Store.swept_of_deleteSweep hswept
    have hrest := hswept.rest
    have hissued : t.issued = s.issued := by rw [hrest]
    refine ⟨fun d hd => ?_, fun d hd => ?_, hjobs hissued, fun item hitem => ?_, fun row hrow => ?_⟩
    · rw [hrest] at hd
      exact h.added d (List.mem_of_mem_filter hd)
    · obtain ⟨left, hleft, hid⟩ | hgone := h.gone d hd
      · by_cases hdeleted : left.id = documentId
        · -- what is left of the row is the tenant's
          right
          obtain ⟨old, hold, hlink⟩ := hlater.documents left hleft (hid ▸ hstart.issued d hd)
          obtain ⟨hsame, htenant, -⟩ := DocumentRow.link_eq_iff.mp hlink
          obtain rfl := hstart.document_eq hold hd (hsame.trans hid)
          refine ⟨context, incoming, principal, hsigned.sent, ?_, ?_⟩
          · rw [← hid, hdeleted]
            exact hsigned.acts
          · rw [htenant]
            exact (hsigned.confined.rows left hleft hdeleted).symm
        · refine .inl ⟨left, ?_, hid⟩
          rw [hrest]
          exact List.mem_filter.mpr ⟨hleft, decide_eq_true hdeleted⟩
      · exact .inr hgone
    · rw [hrest] at hitem
      exact h.resolved item (List.mem_of_mem_filter hitem)
    · rw [hrest] at hrow
      exact h.audited row hrow
  | @insertJob kind =>
    obtain ⟨incoming, principal, work, hsigned⟩ := hmay.signed rfl
    refine { h with enqueued := fun k job hjob => ?_ }
    rw [withJobs_jobs] at hjob
    split at hjob
    next hk =>
      subst hk
      rcases List.mem_append.mp hjob with hjob | hjob
      · exact h.enqueued k job hjob
      · cases List.mem_singleton.mp hjob
        exact .inr ⟨work, ⟨incoming, principal, hsigned.sent, hsigned.acts, hsigned.confined.1.symm⟩,
          hsigned.does⟩
    next => exact h.enqueued k job hjob
  | claimJob => exact { h with enqueued := hjobs rfl }
  | completeJob => exact { h with enqueued := hjobs rfl }
  | failJob => exact { h with enqueued := hjobs rfl }
  | insertAudit =>
    obtain ⟨incoming, principal, work, hsigned⟩ := hmay.signed rfl
    refine { h with audited := fun row hrow => ?_ }
    rcases List.mem_append.mp hrow with hrow | hrow
    · exact h.audited row hrow
    · cases List.mem_singleton.mp hrow
      have hcontext := (of_action hsigned.acts.action).2 _ hsigned.does
      obtain ⟨hid, hactor⟩ := RequestContext.mk.inj hcontext
      exact .inr ⟨incoming, principal, work, hsigned.sent, hsigned.acts, hsigned.confined, hactor, hid⟩
  | insertReviewItems _ _ hrows =>
    refine { h with resolved := fun item hitem => ?_ }
    rcases List.mem_append.mp hitem with hitem | hitem
    · exact h.resolved item hitem
    · rw [hrows] at hitem
      obtain ⟨_, -, rfl⟩ := List.mem_map.mp hitem
      exact .inl rfl
  | resolveReviewItem =>
    obtain ⟨incoming, principal, work, hsigned⟩ := hmay.signed rfl
    obtain ⟨context, request, rfl, hstatus⟩ := hsigned.does
    refine { h with resolved := fun item hitem => ?_ }
    obtain ⟨old, hold, rfl⟩ := List.mem_map.mp hitem
    split
    next hresolvable =>
      simp only [Store.resolvable, Bool.and_eq_true, decide_eq_true_eq] at hresolvable
      obtain ⟨⟨hid, htenant⟩, -⟩ := hresolvable
      refine .inr (.inr ⟨context, request, ⟨incoming, principal, hsigned.sent, ?_, ?_⟩, hstatus⟩)
      · rw [Store.resolved, hid]
        exact hsigned.acts
      · exact (htenant.trans hsigned.confined).symm
    next => exact h.resolved old hold
  | _ => exact { h with }

end Rows

/-! ## Members -/

section Workers

open Worker (queueAt runNextJob runQueue tryQueues)

variable [Ucd] [Platform] {worker : Worker.Settings}

/-- A worker process does what its queues have it do. -/
theorem loop_performs {P : Op → Prop} (hrollback : P .rollback)
    (hqueue : ∀ kind, (runQueue worker kind).Performs P) (rounds turn : Nat) :
    (Worker.loop worker rounds turn).Performs P := by
  have htry : ∀ first offsets, (tryQueues worker first offsets).Performs P := by
    intro first offsets
    induction offsets with
    | nil => exact .ret _
    | cons offset rest ih =>
      refine .bind (hqueue _) fun ran => ?_
      cases ran with
      | true => exact .ret _
      | false => exact ih
  induction rounds generalizing turn with
  | zero => exact .ret _
  | succ rounds ih => exact .bind (.call hrollback) fun _ => .bind (htry _ _) fun _ => ih _

theorem loop_kept {disc : Lib.Discipline exec Store.tick} (hrollback : Lib.Kept disc (perform .rollback))
    (hqueue : ∀ kind, Lib.Kept disc (runQueue worker kind)) (rounds turn : Nat) :
    Lib.Kept disc (Worker.loop worker rounds turn) := by
  have htry : ∀ first offsets, Lib.Kept disc (tryQueues worker first offsets) := by
    intro first offsets
    induction offsets with
    | nil => exact .ret _
    | cons offset rest ih =>
      refine .bind (hqueue _) fun ran => ?_
      cases ran with
      | true => exact .ret _
      | false => exact ih
  induction rounds generalizing turn with
  | zero => exact .ret _
  | succ rounds ih => exact .bind hrollback fun _ => .bind (htry _ _) fun _ => ih _

theorem runQueue_ingestion (worker : Worker.Settings) (kind : JobKind) :
    IngestionProgram (runQueue worker kind) := by
  cases kind with
  | extraction => exact (WorkerProgram.runNextExtractionJob _ _).ingestion
  | ingestion => exact WorkerProgram.runNextIngestionJob _
  | changeReport => exact (WorkerProgram.runNextChangeReportJob _ _).ingestion

theorem runQueue_linked (worker : Worker.Settings) (kind : JobKind) :
    Lib.Kept linkDiscipline (runQueue worker kind) := by
  intro l s
  cases kind with
  | extraction => exact runNextExtractionJob_linked _ _
  | ingestion => exact runNextIngestionJob_linked _
  | changeReport => exact runNextChangeReportJob_linked _ _

end Workers

section Members

variable {settings : Settings} {Sent : Incoming Key → Prop} {s₀ : Store}

/-- The discipline of the members: they perform what they may, and the rows stay accounted for. -/
def authority (settings : Settings) (Sent : Incoming Key → Prop) (hstart : Linked s₀) :
    Lib.Permission exec Store.tick where
  Inv t := Linked t ∧ Later s₀ t ∧ Authorized settings Sent s₀ t
  Later := Later
  May := May settings Sent
  refl := Later.refl
  trans _ _ _ := Later.trans
  lasts _ _ _ := May.later
  keeps o a l t h hmay := by
    obtain ⟨hlinked, hlater, hauthorized⟩ := h
    have heffect := exec_effect o a l t
    exact ⟨⟨hlinked.effect hmay.knows heffect, hlater.trans heffect.later,
      hauthorized.effect hstart hlinked hlater hmay heffect⟩, heffect.later⟩
  drift_inv elapsed t h :=
    ⟨h.1.tick elapsed, h.2.1.trans (later_tick elapsed t), { h.2.2 with }⟩
  drift_later elapsed t := later_tick elapsed t

variable (hstart : Linked s₀) {incoming : Incoming Key} {principal : Principal} {work : Call}

/-- A part of a request that sweeps what the request names. -/
theorem signed_safe {α : Type} {p : Service α} {Q : Except Exn α → Session → Store → Prop}
    (hsent : Sent incoming) (hacts : Acts settings incoming principal work)
    (hp : p.Performs fun o => work.Does o ∧ ∀ documentId, o = .deleteSweep documentId →
      ∃ context, work = .deleteDocument context documentId)
    (h : Safe (confinement principal.tenantId) p l s Q) :
    Safe (authority settings Sent hstart).discipline p l s Q :=
  (confined_lasting principal.tenantId).permission.safe_of h hp (fun _ h => h.1)
    (fun _ _ h => h) fun _ _ hdoes hconfined =>
      .inl ⟨incoming, principal, work, hsent, hacts, hconfined, hdoes.1, hdoes.2⟩

theorem deleteDocument_safe {context : RequestContext} {documentId : Uuid} (hsent : Sent incoming)
    (hacts : Acts settings incoming principal (.deleteDocument context documentId)) :
    Safe (authority settings Sent hstart).discipline
      (Documents.deleteDocument context principal.tenantId documentId) l s fun _ _ _ => True := by
  have hdoes : ∃ c id, Call.deleteDocument context documentId = .deleteDocument c id :=
    ⟨context, documentId, rfl⟩
  refine bind_safe (signed_safe hstart hsent hacts
    (.bind (.call ⟨trivial, by simp⟩) fun _ => require_performs _ _) getDocument_found) ?_
  intro document l' u hfound
  obtain ⟨rfl, -, howned, -⟩ := hfound.2 document rfl
  refine signed_safe hstart hsent hacts (.bind (.call ⟨hdoes, by simp⟩) fun amended => ?_) ?_
  · cases amended with
    | true => exact .raise _
    | false =>
      refine .bind (.tryCatch (.call ⟨hdoes, ?_⟩) fun e => ?_) fun _ =>
        .bind (.call ⟨trivial, by simp⟩) fun _ => .call ⟨rfl, by simp⟩
      · rintro _ ⟨⟩
        exact ⟨context, rfl⟩
      · split
        · refine .bind (.call ⟨trivial, by simp⟩) fun _ => .bind (.call ⟨hdoes, by simp⟩)
            fun amended => ?_
          cases amended <;> exact .raise _
        · exact .raise _
  · refine bind_safe (confined_kept (o := .hasAmendments document.id) howned) fun amended _ v hlater => ?_
    cases amended with
    | true => trivial
    | false =>
      refine bind_safe (sweep_confined (hlater.owned howned)) fun _ _ _ _ => ?_
      exact bind_safe (confined_kept (by rfl)) fun _ _ _ _ => scoped_kept (.call fun _ => rfl)

variable [Platform]

theorem program_safe (hsent : Sent incoming) (hacts : Acts settings incoming principal work) :
    Safe (authority settings Sent hstart).discipline (work.program principal.tenantId) l s
      fun _ _ _ => True := by
  have hothers : (∀ context documentId, work ≠ .deleteDocument context documentId) →
      Safe (authority settings Sent hstart).discipline (work.program principal.tenantId) l s
        fun _ _ _ => True := by
    refine fun hne => signed_safe hstart hsent hacts (work.program_performs.mono ?_) work.program_confined
    refine fun o _ hdoes => ⟨hdoes, ?_⟩
    rintro documentId rfl
    obtain ⟨context, id, rfl⟩ := hdoes
    exact absurd rfl (hne context id)
  cases work with
  | deleteDocument context documentId => exact deleteDocument_safe hstart hsent hacts
  | _ => exact hothers (by simp)

theorem serve_safe (hsent : Sent incoming) :
    Safe (authority settings Sent hstart).discipline (serve settings incoming) l s
      fun _ _ _ => True := by
  obtain ⟨e, hrefused, -⟩ | ⟨principal, action, hresolved, hprincipal, hrole, haction⟩ :=
    resolve_cases settings incoming
  · rw [serve_of_error hrefused]
    trivial
  · rw [serve_of_ok hresolved]
    refine Safe.attempt_bind.mpr (Safe.mono (Q := fun _ _ _ => True) ?_ fun _ _ _ _ => trivial)
    cases action with
    | call work =>
      have hacts : Acts settings incoming principal work :=
        ⟨bears_of_getPrincipal hprincipal, (of_action haction).1 ▸ hrole, haction⟩
      exact bind_safe (program_safe hstart hsent hacts) fun _ _ _ _ => trivial
    | search requestId query limit =>
      refine ((authority settings Sent hstart).safe_performs ?_).mono fun _ _ _ _ => trivial
      refine .bind ((search_performs _ _ _ _).mono fun o _ hasks s => ?_) fun _ => .ret _
      cases o <;> first | exact .inr ⟨rfl, trivial⟩ | cases hasks

variable [Ucd]

theorem Member.safe (worker : Worker.Settings) (member : Member Key)
    (hsent : ∀ incoming, member = .request incoming → Sent incoming) :
    Safe (authority settings Sent hstart).discipline (member.program settings worker) l s
      fun _ _ _ => True := by
  cases member with
  | request incoming =>
    exact bind_safe (serve_safe hstart (hsent incoming rfl)) fun _ _ _ _ => trivial
  | worker rounds turn =>
    have hloop : Safe linkDiscipline (Worker.loop worker rounds turn) l s fun _ _ _ => True :=
      loop_kept (fun _ _ => plain_kept (.call fun _ => trivial)) (runQueue_linked worker) rounds turn l s
    refine knows_lasting.permission.safe_of (P := fun o => Op.signed o = false) hloop ?_
      (fun _ h => h.1) (fun _ _ h => h) fun _ _ ho hknows => .inr ⟨ho, hknows⟩
    refine loop_performs (P := fun o => Op.signed o = false) rfl (fun kind => ?_) _ _
    refine (runQueue_ingestion worker kind).mono fun o _ ho => ?_
    cases o <;> first | rfl | cases ho

/-- Whatever the members of a deployment do, in whatever order: every document, job and audit row that
was not there before, every document that is gone and every review item that was resolved is so on the
authority of a token that verified for the row's tenant, with a role that may have it done. -/
theorem authorized {ι : Type} [DecidableEq ι] {settings : Settings} {worker : Worker.Settings}
    {s : Store} {members : ι → Option (Member Key)} {turns : List (Turn ι)} {c : System ι}
    (hlinked : Linked s)
    (hrun : run System.step (deployment settings worker s members) turns = some c) :
    Authorized settings (fun incoming => ∃ i, members i = some (.request incoming)) s c.store := by
  have hholds := (authority settings
    (fun incoming => ∃ i, members i = some (.request incoming)) hlinked).holds_run ?_ hrun
  · exact hholds.1.2.2
  · refine ⟨⟨hlinked, .refl _, .refl _⟩, fun i l p hi => ?_⟩
    obtain ⟨program, hprogram, heq⟩ := Option.map_eq_some_iff.mp hi
    obtain ⟨member, hmember, rfl⟩ := Option.map_eq_some_iff.mp hprogram
    cases heq
    exact member.safe hlinked worker fun incoming h => ⟨i, h ▸ hmember⟩

omit [Ucd] [Platform]

/-- An issuer of one token, for an admin of tenant 1. -/
@[reducible] def oneToken : Identity Unit where
  unverifiedHeader _ := some []
  decode token _ _ :=
    if token = "e30.e30.c2ln".toList then
      .ok [("sub".toList, .str "auth0|1".toList),
        (TENANT_CLAIM.toList, .str "00000000-0000-0000-0000-000000000001".toList),
        (ROLE_CLAIM.toList, .str "admin".toList)]
    else .error .pyJwtError
  uuid value := if value = "00000000-0000-0000-0000-000000000001".toList then some 1 else none
  repr _ := []

def oneSettings : Settings where
  auth0Domain := "example.eu.auth0.com".toList
  auth0Audience := "https://api".toList
  openaiApiKey := []
  openaiModel := "gpt-4o-mini".toList
  openaiEmbeddingModel := "text-embedding-3-small".toList
  maxUploadMb := 1

/-- An upload of the admin's. -/
def oneUpload : Incoming Unit where
  requestId := some "r1".toList
  drawnId := []
  authorization := some "Bearer e30.e30.c2ln".toList
  getKey _ := .ok (some ())
  retryAfter := none
  endpoint := .postDocuments (some "a.pdf".toList) (some Parsing.PDF_MIME) [Documents.PDF_MAGIC] none

def oneWorker : Worker.Settings := ⟨⟨[], []⟩, 0, 0⟩

/-- An upload of the bytes that tenant 2 has uploaded, and a delete of tenant 2's document. -/
def twoOrders : Fin 2 → Incoming Unit
  | 0 => oneUpload
  | 1 => { oneUpload with endpoint := .deleteDocument (some 10) }

/-- The requests of tenant 1, on the rows of tenant 2. -/
def besideTenant : System (Fin 2) :=
  @deployment Unit (Fin 2) oneToken Ucd.ascii Documents.onePdf oneSettings oneWorker (uploaded 2)
    fun i => some (.request (twoOrders i))

def besideTurns : List (Turn (Fin 2)) :=
  [.act 0 {}, .act 1 {}, .act 0 {}, .act 0 { ids := [20] }]

theorem authorized_upload : ∃ c : System (Fin 2),
    run System.step besideTenant besideTurns = some c ∧
      c.store.documents.map DocumentRow.tenantId = [2, 1] ∧
        @Authorized Unit oneToken oneSettings (fun incoming => ∃ i : Fin 2,
          some (Member.request (twoOrders i)) = some (.request incoming)) (uploaded 2) c.store := by
  have hruns : ((run System.step besideTenant besideTurns).map fun c =>
      c.store.documents.map DocumentRow.tenantId) = some [2, 1] := by decide +kernel
  obtain ⟨c, hc, hdocuments⟩ := Option.map_eq_some_iff.mp hruns
  exact ⟨c, hc, hdocuments, @authorized Unit oneToken Documents.onePdf Ucd.ascii _ _ _ _ _ _ _ _
    (linked_uploaded 2) hc⟩

end Members

/-! ## Other tenants -/

section Others

variable {tenantId : Uuid} {s₀ : Store}

/-- An operation of a request of the tenant. -/
def Own (tenantId : Uuid) (o : Op) (s : Store) : Prop := Confined tenantId o s ∨ Op.asks tenantId o

theorem Own.knows (h : Own tenantId o s) : Knows o s := by
  rcases h with hconfined | hasks
  · exact hconfined.knows
  · cases o <;> trivial

theorem Own.later (h : Own tenantId o s) (hlater : Later s t) : Own tenantId o t :=
  h.imp_left fun hconfined => hconfined.later hlater

/-- An operation of a request of another tenant. -/
def Foreign (tenantId : Uuid) (o : Op) (s : Store) : Prop :=
  ∃ owner, tenantId ≠ owner ∧ Own owner o s

theorem Foreign.knows (h : Foreign tenantId o s) : Knows o s := by
  obtain ⟨owner, -, hown⟩ := h
  exact hown.knows

theorem Foreign.later (h : Foreign tenantId o s) (hlater : Later s t) : Foreign tenantId o t := by
  obtain ⟨owner, hother, hown⟩ := h
  exact ⟨owner, hother, hown.later hlater⟩

theorem Foreign.agree (hlinked : Linked s) (h : Foreign tenantId o s) (heffect : Effect o a s t) :
    Agree tenantId s t := by
  obtain ⟨owner, hother, hconfined | hasks⟩ := h
  · exact hconfined.untouched hlinked heffect hother
  · cases heffect with
    | nothing => exact .refl _ _
    | insertUsage =>
      refine { Agree.refl tenantId s with usage := ?_ }
      rw [Store.insertUsage, Lib.filter_append_foreign fun row hrow => ?_]
      rw [List.mem_singleton.mp hrow, decide_eq_true_eq]
      exact fun h => hother (h.symm.trans hasks)
    | _ => exact hasks.elim

/-- The discipline of members that are no concern of the tenant. -/
def concern (tenantId : Uuid) (s₀ : Store) : Lib.Permission exec Store.tick where
  Inv t := Linked t ∧ Agree tenantId s₀ t
  Later := Later
  May := Foreign tenantId
  refl := Later.refl
  trans _ _ _ := Later.trans
  lasts _ _ _ := Foreign.later
  keeps o a l t h hforeign := by
    have heffect := exec_effect o a l t
    exact ⟨⟨h.1.effect hforeign.knows heffect, h.2.trans (hforeign.agree h.1 heffect)⟩, heffect.later⟩
  drift_inv elapsed t h := ⟨h.1.tick elapsed, { h.2 with }⟩
  drift_later elapsed t := later_tick elapsed t

variable [Platform] {settings : Settings} {incoming : Incoming Key}

/-- A request performs operations of its tenant. -/
theorem respond_safe {perm : Lib.Permission exec Store.tick} (hinv : ∀ s, perm.Inv s → Linked s)
    (hlater : ∀ s t, perm.Later s t → Later s t)
    (hmay : ∀ principal action, incoming.resolve settings = .ok (principal, action) →
      ∀ o s, Own principal.tenantId o s → perm.May o s) :
    Safe perm.discipline (respond settings incoming) l s fun _ _ _ => True := by
  cases hresolved : incoming.resolve settings with
  | error e =>
    rw [respond_of_error hresolved]
    trivial
  | ok resolved =>
    obtain ⟨principal, action⟩ := resolved
    have hown := hmay principal action hresolved
    rw [respond_of_ok hresolved]
    refine Safe.attempt_bind.mpr (Safe.mono (Q := fun _ _ _ => True) ?_ fun _ _ _ _ => trivial)
    cases action with
    | call work =>
      refine bind_safe (P := fun _ _ _ => True) ?_ fun _ _ _ _ => trivial
      exact (confined_lasting principal.tenantId).permission.safe_of work.program_confined
        (Lib.Prog.performs_all _) hinv hlater fun o s _ hconfined => hown o s (.inl hconfined)
    | search requestId query limit =>
      refine (perm.safe_performs ?_).mono fun _ _ _ _ => trivial
      refine .bind ((search_performs _ _ _ _).mono fun o _ hasks s => ?_) fun _ => .ret _
      exact hown o s (.inr hasks)

theorem serve_foreign (hforeign : ∀ principal, Bears settings.toAuthSettings incoming principal →
      tenantId ≠ principal.tenantId) :
    Safe (concern tenantId s₀).discipline (serve settings incoming) l s fun _ _ _ => True := by
  refine bind_safe (P := fun _ _ _ => True) ?_ fun _ _ _ _ => trivial
  refine respond_safe (fun _ h => h.1) (fun _ _ h => h) ?_
  intro principal action hresolved o s hown
  obtain ⟨e, hrefused, -⟩ | ⟨_, _, hserved, hprincipal, -, -⟩ := resolve_cases settings incoming
  · cases hrefused.symm.trans hresolved
  · cases hserved.symm.trans hresolved
    exact ⟨principal.tenantId, hforeign principal (bears_of_getPrincipal hprincipal), hown⟩

/-- Whatever the requests of a deployment name, in whatever order they are served: a tenant for whom no
token of theirs verifies keeps every row and every file as it was. -/
theorem untouched_without_token {ι : Type} [DecidableEq ι] [Ucd] {settings : Settings}
    {worker : Worker.Settings} {s : Store} {tenantId : Uuid} {requests : ι → Option (Incoming Key)}
    {turns : List (Turn ι)} {c : System ι} (hlinked : Linked s)
    (hforeign : ∀ i incoming, requests i = some incoming →
      ∀ principal, Bears settings.toAuthSettings incoming principal → tenantId ≠ principal.tenantId)
    (hrun : run System.step
      (deployment settings worker s fun i => (requests i).map Member.request) turns = some c) :
    Agree tenantId s c.store := by
  refine ((concern tenantId s).holds_run ⟨⟨hlinked, .refl _ _⟩, fun i l p hi => ?_⟩ hrun).1.2
  obtain ⟨program, hprogram, heq⟩ := Option.map_eq_some_iff.mp hi
  obtain ⟨member, hmember, rfl⟩ := Option.map_eq_some_iff.mp hprogram
  obtain ⟨incoming, hincoming, rfl⟩ := Option.map_eq_some_iff.mp hmember
  cases heq
  exact bind_safe (serve_foreign (hforeign i incoming hincoming)) fun _ _ _ _ => trivial

omit [Platform]

theorem untouched_without_token_upload : ∃ c : System (Fin 2),
    run System.step besideTenant besideTurns = some c ∧
      c.store.documents.map DocumentRow.tenantId = [2, 1] ∧ Agree 2 (uploaded 2) c.store := by
  have hruns : ((run System.step besideTenant besideTurns).map fun c =>
      c.store.documents.map DocumentRow.tenantId) = some [2, 1] := by decide +kernel
  obtain ⟨c, hc, hdocuments⟩ := Option.map_eq_some_iff.mp hruns
  refine ⟨c, hc, hdocuments, @untouched_without_token Unit oneToken Documents.onePdf (Fin 2) _
    Ucd.ascii oneSettings oneWorker (uploaded 2) 2 (fun i => some (twoOrders i)) _ c
    (linked_uploaded 2) ?_ hc⟩
  rintro - incoming - principal ⟨_, _, _, _, _, _, tenant, _, _, _, _, _, _, _, _, _, _, hid, _⟩ htwo
  -- the issuer knows one tenant
  rw [← htwo] at hid
  change (if _ then some 1 else none) = some 2 at hid
  split at hid <;> simp at hid

end Others

end ContractIntel.Api
