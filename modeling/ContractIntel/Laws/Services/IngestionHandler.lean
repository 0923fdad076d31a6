import ContractIntel.Laws.Services.Ingestion
import ContractIntel.Laws.Services.Settling
import ContractIntel.Lib.Fallible

/-!
# What stops the ingestion worker

The `try` of `run_next_ingestion_job` ends before the replacement of text and chunks, and its
`except` branch writes to the database. So an exception leaves the handler when the database fails
anywhere in the run, and when the model answers every batch but with another number of vectors
than it was sent texts; in all other runs the handler returns `True`, and the job is finished or
gone.
-/

namespace ContractIntel.Ingestion

open Documents (onePdf)
open Jobs (JobRow)
open Lib (Blamed Escapes Every Runs replay)
open Lib.Prog (Performs)
open Llm (OpenAiClient UsageSink)
open Repositories

/-! ## Failing runs -/

/-- The model answered every batch, and not with one vector for each text. -/
def Mismatch (trace : List Entry) : Prop :=
  (∀ entry ∈ trace, Embeds entry) ∧ sent trace ≠ received trace

/-- The runs that an exception ends. -/
def Fails (trace : List Entry) : Prop :=
  (∃ entry ∈ trace, DatabaseFailure entry) ∨ Mismatch trace

section Traces

variable {trace more : List Entry}

theorem counts_of_all_silent (h : ∀ entry ∈ trace, Op.silent entry.op) :
    sent trace = 0 ∧ received trace = 0 := by
  induction trace with
  | nil => exact ⟨rfl, rfl⟩
  | cons entry trace ih =>
    obtain ⟨hsent, hreceived⟩ := ih fun e he => h e (List.mem_cons_of_mem _ he)
    obtain ⟨hsentBy, hreceivedBy⟩ := counts_of_silent (h entry List.mem_cons_self)
    simp [hsent, hreceived, hsentBy, hreceivedBy]

/-- Operations without a part in the embedding add no mismatch. -/
theorem mismatch_append_iff (h : ∀ entry ∈ more, Op.silent entry.op) :
    Mismatch (trace ++ more) ↔ Mismatch trace := by
  obtain ⟨hsent, hreceived⟩ := counts_of_all_silent h
  have hembeds : (∀ entry ∈ trace ++ more, Embeds entry) ↔ ∀ entry ∈ trace, Embeds entry := by
    constructor
    · exact fun hall entry hentry => hall entry (List.mem_append_left _ hentry)
    · intro hall entry hentry
      rcases List.mem_append.mp hentry with hentry | hentry
      · exact hall entry hentry
      · exact embeds_of_silent (h entry hentry)
  unfold Mismatch
  rw [hembeds, sent_append, received_append, hsent, hreceived, Nat.add_zero, Nat.add_zero]

theorem mismatch_append_iff_right (h : ∀ entry ∈ trace, Op.silent entry.op) :
    Mismatch (trace ++ more) ↔ Mismatch more := by
  obtain ⟨hsent, hreceived⟩ := counts_of_all_silent h
  have hembeds : (∀ entry ∈ trace ++ more, Embeds entry) ↔ ∀ entry ∈ more, Embeds entry := by
    constructor
    · exact fun hall entry hentry => hall entry (List.mem_append_right _ hentry)
    · intro hall entry hentry
      rcases List.mem_append.mp hentry with hentry | hentry
      · exact embeds_of_silent (h entry hentry)
      · exact hall entry hentry
  unfold Mismatch
  rw [hembeds, sent_append, received_append, hsent, hreceived, Nat.zero_add, Nat.zero_add]

theorem not_mismatch_of_silent (h : ∀ entry ∈ trace, Op.silent entry.op) : ¬ Mismatch trace := by
  obtain ⟨hsent, hreceived⟩ := counts_of_all_silent h
  exact fun hmismatch => hmismatch.2 (hsent.trans hreceived.symm)

/-- After a part in which the database does not fail, what counts is the rest. -/
theorem fails_append_iff (hclean : ¬ ∃ entry ∈ trace, DatabaseFailure entry)
    (hmismatch : Mismatch (trace ++ more) ↔ Mismatch more) :
    Fails (trace ++ more) ↔ Fails more :=
  or_congr (Blamed.exists_append_iff hclean) hmismatch

end Traces

/-! ## Programs that raise in failing runs -/

/-- No handler around the program catches anything. -/
def Uncaught (_ : Exn) (_ : Session) : Prop := False

theorem uncaught_attributes : Attributes Uncaught DatabaseFailure where
  database _ _ := id
  statements _ _ := Iff.rfl

section

variable {env : Store → Store → Prop} {α : Type} {l : Session} {s : Store}

/-- The program raises exactly in the runs that fail. -/
def RaisesIffFails (env : Store → Store → Prop) (p : Service α) (l : Session) (s : Store) : Prop :=
  Every exec env p l s fun trace res l' _ => Escapes Uncaught res l' ↔ Fails trace

theorem raisesIffFails_of_silent {p : Service α}
    (hp : Blamed exec env Uncaught DatabaseFailure p l s)
    (hsilent : p.Performs fun o => Op.silent o = true) : RaisesIffFails env p l s := by
  refine (hp.and (Every.trace_of_performs hsilent)).mono ?_
  rintro trace res l' _ ⟨hiff, hsilent⟩
  exact hiff.trans (or_iff_left (not_mismatch_of_silent hsilent)).symm

theorem raisesIffFails_bind {β : Type} {p : Service α} {f : α → Service β}
    (hp : Blamed exec env Uncaught DatabaseFailure p l s)
    (hsilent : p.Performs fun o => Op.silent o = true)
    (hf : ∀ a l' t, RaisesIffFails env (f a) l' t) : RaisesIffFails env (p.bind f) l s := by
  refine Every.bind.mpr ((hp.and (Every.trace_of_performs hsilent)).mono ?_)
  rintro trace res l' t ⟨hiff, hsilent⟩
  cases res with
  | error e => exact hiff.trans (or_iff_left (not_mismatch_of_silent hsilent)).symm
  | ok a =>
    have hclean : ¬ ∃ entry ∈ trace, DatabaseFailure entry := hiff.not.mp id
    refine (hf a l' t).mono fun more res' l'' _ hmore => ?_
    exact hmore.trans (fails_append_iff hclean (mismatch_append_iff_right hsilent)).symm

/-! ## The `try` block -/

/-- The `except` branch can do its writes: the session is not lost to a database error. -/
def Recovers (e : Exn) (l : Session) : Prop := ¬ (e.isDatabaseError = true ∧ l.failed = true)

theorem recovers_of_other {e : Exn} (h : e.isDatabaseError = false) : Recovers e l :=
  fun hlost => nomatch h.symm.trans hlost.1

theorem recovers_attributes : AttributesCalls Recovers DatabaseFailure where
  database _ he h := h ⟨he, rfl⟩
  statements _ _ := Iff.rfl
  embeddings _ _ _ _ _ := iff_of_false id fun ⟨_, he, h⟩ =>
    h (recovers_of_other (not_isDatabaseError_of_embedded he))

theorem embedBatches_blamed (llm : OpenAiClient) {usageSink : UsageSink}
    (hsink : ∀ usage l s, Blamed exec env Recovers DatabaseFailure (usageSink usage) l s)
    (batches : List (List Str)) :
    Blamed exec env Recovers DatabaseFailure (embedBatches llm usageSink batches) l s := by
  induction batches generalizing l s with
  | nil => exact .ret _
  | cons batch rest ih =>
    refine .bind (recovers_attributes.embed llm batch) fun reply _ _ => ?_
    exact .bind (hsink _ _ _) fun _ _ _ => .bind ih fun _ _ _ => .ret _

variable [Platform]

/-- Of what `_ingest` raises, only a database error keeps the `except` branch from its writes. -/
theorem ingest_blamed (llm : OpenAiClient) (document : DocumentRow) (requestId : Str)
    (tenantId : Uuid) (jobType : UsageJobKind) (jobId : Option Uuid) :
    Blamed exec env Recovers DatabaseFailure
      (ingest llm document (Usage.sink requestId tenantId jobType jobId)) l s := by
  refine .bind (.call fun a s => ?_) fun content _ _ => .bind (.ofResult fun e he => ?_)
    fun parsed _ _ => .bind (embedBatches_blamed llm (fun _ _ _ => ?_) _) fun _ _ _ => .ret _
  · simp only [exec, fileCall, Store.readFile]
    split
    · exact iff_of_false (fun h => h (recovers_of_other rfl)) fun h => by cases h
    · cases s.files document.tenantId document.sha256 with
      | none => exact iff_of_false (fun h => h (recovers_of_other rfl)) fun h => by cases h
      | some content => exact iff_of_false id id
  · obtain ⟨message, -, rfl⟩ := Lib.exists_of_mapError he
    exact recovers_of_other rfl
  · exact recovers_attributes.sink _ _ _ _ _

omit [Platform] in
/-- On a lost session the `except` branch raises at its first write. -/
theorem abandon_raises (job : JobRow) (document : DocumentRow) (e : Exn) (hl : l.failed = true) :
    Every exec env (abandon job document e) l s fun _ res l' _ => Escapes Uncaught res l' := by
  refine Every.bind.mpr (Every.bind.mpr (Every.call.mpr fun moved a _ => ?_))
  simp only [exec, statement, hl, if_true]
  exact id

omit [Platform] in
theorem abandon_blamed (job : JobRow) (document : DocumentRow) (e : Exn) :
    Blamed exec env Uncaught DatabaseFailure (abandon job document e) l s :=
  .bind (uncaught_attributes.markFailed (fun _ => id) _ _ _) fun _ _ _ =>
    .bind (uncaught_attributes.setStatus (fun _ => id) _ _) fun _ _ _ => .ret _

omit [Platform] in
theorem abandon_silent (job : JobRow) (document : DocumentRow) (e : Exn) :
    (abandon job document e).Performs fun o => Op.silent o = true :=
  .bind (markFailed_performs rfl rfl) fun _ => .bind (setStatus_performs rfl rfl) fun _ => .ret _

/-! ## The writes after the `try` -/

omit [Platform] in
/-- With one vector for each chunk the writes fail of the database only. -/
theorem persist_blamed (job : JobRow) (document : DocumentRow) {ingested : Ingested}
    (hlength : ingested.chunks.length = ingested.embeddings.length) :
    Blamed exec env Uncaught DatabaseFailure (persist job document ingested) l s := by
  refine .bind (.call fun a s => ?_) fun _ _ _ =>
    .bind (uncaught_attributes.markCompleted (fun _ => id) _ _ _) fun _ _ _ =>
      .bind (uncaught_attributes.setStatus (fun _ => id) _ _) fun _ _ _ => .ret _
  have hbody : ∀ e, s.replaceTextAndChunks job.tenantId document.id ingested.parsed.text
      ingested.parsed.pageMap ingested.chunks ingested.embeddings a.ids = .error e →
        e.isDatabaseError := by
    intro e he
    by_cases hdocument : (s.document? document.id).isNone
    · simp [Store.replaceTextAndChunks, Store.replaceText, hdocument, bind, Except.bind] at he
      subst he
      rfl
    · simp [Store.replaceTextAndChunks, Store.replaceText, Store.replaceWithEmbeddings, hdocument,
        hlength, bind, Except.bind, pure, Except.pure] at he
  rcases statement_outcome a l s hbody with ⟨e, heq, hdatabase⟩ | ⟨r, t, heq⟩
  · rw [exec, heq]
    exact iff_of_true id hdatabase
  · rw [exec, heq]
    exact iff_of_false id id

omit [Platform] in
/-- With another number of vectors the replacement raises: if not of the database, then of its own
check. -/
theorem persist_raises (job : JobRow) (document : DocumentRow) {ingested : Ingested}
    (hlength : ingested.chunks.length ≠ ingested.embeddings.length) :
    Every exec env (persist job document ingested) l s
      fun _ res l' _ => Escapes Uncaught res l' := by
  refine Every.bind.mpr (Every.call.mpr fun moved a _ => ?_)
  rcases statement_cases (Store.replaceTextAndChunks job.tenantId document.id ingested.parsed.text
      ingested.parsed.pageMap ingested.chunks ingested.embeddings a.ids) a l moved with
    ⟨e, heq, -⟩ | ⟨r, t, -, -, hok, -⟩
  · rw [exec, heq]
    exact id
  · exact absurd (Store.replaceTextAndChunks_eq_ok hok).2.1 hlength

/-! ## The handler -/

theorem runClaimed_found (llm : OpenAiClient) (job : JobRow) (document : DocumentRow) :
    RaisesIffFails env ((ingest llm document
        (Usage.sink [] job.tenantId .ingestion (some job.id))).attempt.bind fun attempt =>
          match attempt with
          | .error e => abandon job document e
          | .ok ingested => persist job document ingested) l s := by
  have hblamed : Blamed exec env Recovers DatabaseFailure (ingest llm document
      (Usage.sink [] job.tenantId .ingestion (some job.id))) l s := ingest_blamed _ _ _ _ _ _
  refine Every.attempt_bind.mpr ((hblamed.and (ingest_counts llm document [] job.tenantId
    (some job.id))).mono ?_)
  rintro trace res l' t ⟨hiff, hcounts⟩
  cases res with
  | error e =>
    by_cases hlost : e.isDatabaseError = true ∧ l'.failed = true
    · -- the database failed inside the `try`, and the session with it
      obtain ⟨entry, hentry, hfailure⟩ := hiff.mp fun h => h hlost
      refine (abandon_raises job document e hlost.2).mono fun more res' l'' _ hraises => ?_
      exact iff_of_true hraises (.inl ⟨entry, List.mem_append_left _ hentry, hfailure⟩)
    · have hclean : ¬ ∃ entry ∈ trace, DatabaseFailure entry := hiff.not.mp fun h => h hlost
      have hmatched : ¬ Mismatch trace := by
        rintro ⟨hembeds, hne⟩
        rcases hcounts with ⟨entry, hentry, hfailed⟩ | heq
        · exact hfailed (hembeds entry hentry)
        · exact hne heq
      refine ((abandon_blamed job document e).and
        (Every.trace_of_performs (abandon_silent job document e))).mono ?_
      rintro more res' l'' _ ⟨hmore, hsilent⟩
      have hnone : ¬ Mismatch (trace ++ more) := (mismatch_append_iff hsilent).not.mpr hmatched
      exact hmore.trans ((Blamed.exists_append_iff hclean).symm.trans (or_iff_left hnone).symm)
  | ok ingested =>
    obtain ⟨-, hembeds, hreceived, hsent⟩ := hcounts
    have hclean : ¬ ∃ entry ∈ trace, DatabaseFailure entry := hiff.not.mp id
    by_cases hlength : ingested.chunks.length = ingested.embeddings.length
    · have hmatched : ¬ Mismatch trace := fun h => h.2 (by omega)
      refine ((persist_blamed job document hlength).and
        (Every.trace_of_performs (persist_silent job document ingested))).mono ?_
      rintro more res' l'' _ ⟨hmore, hsilent⟩
      have hnone : ¬ Mismatch (trace ++ more) := (mismatch_append_iff hsilent).not.mpr hmatched
      exact hmore.trans ((Blamed.exists_append_iff hclean).symm.trans (or_iff_left hnone).symm)
    · have hmismatch : Mismatch trace := ⟨hembeds, by omega⟩
      refine ((persist_raises job document hlength).and
        (Every.trace_of_performs (persist_silent job document ingested))).mono ?_
      rintro more res' l'' _ ⟨hraises, hsilent⟩
      exact iff_of_true hraises (.inr ((mismatch_append_iff hsilent).mpr hmismatch))

theorem runClaimed_raisesIffFails (llm : OpenAiClient) (job : JobRow) :
    RaisesIffFails env (runClaimed llm job) l s := by
  unfold runClaimed
  split
  · refine raisesIffFails_of_silent (.bind (uncaught_attributes.statement rfl) fun found _ _ => ?_)
      (.bind (.call rfl) fun found => ?_)
    · cases found with
      | none => exact .ret _
      | some document =>
        exact .bind (uncaught_attributes.setStatus (fun _ => id) _ _) fun _ _ _ => .ret _
    · cases found with
      | none => exact .ret _
      | some document =>
        exact .bind (setStatus_performs rfl rfl) fun _ => .ret _
  · refine raisesIffFails_bind (uncaught_attributes.statement rfl) (.call rfl) fun found l' t => ?_
    cases found with
    | none =>
      refine raisesIffFails_of_silent ?_ ?_
      · exact .bind (uncaught_attributes.markFailed (fun _ => id) _ _ _) fun _ _ _ => .ret _
      · exact .bind (markFailed_performs rfl rfl) fun _ => .ret _
    | some document => exact runClaimed_found llm job document

/-! ## Settling -/

omit [Platform] in
theorem persist_concludes (job : JobRow) (document : DocumentRow) (ingested : Ingested) :
    Concludes .ingestion job.id (persist job document ingested) l s := by
  refine .after fun _ l s => .bind ((markCompleted_settles job _).mono ?_)
  intro _ res l s hsettled marked hres
  exact .keeping (hsettled marked hres) (setStatus_performs rfl rfl) fun _ _ _ h => .ret h

omit [Platform] in
theorem abandon_concludes (job : JobRow) (document : DocumentRow) (e : Exn) :
    Concludes .ingestion job.id (abandon job document e) l s := by
  refine .bind ((markFailed_settles job _).mono fun _ res l s hsettled marked hres => ?_)
  exact .keeping (hsettled marked hres) (setStatus_performs rfl rfl) fun _ _ _ h => .ret h

/-- A claimed job that comes back failed was capped, and is settled already. -/
theorem runClaimed_concludes (llm : OpenAiClient) (job : JobRow)
    (hcapped : job.terminal → Settled .ingestion job.id s) :
    Concludes .ingestion job.id (runClaimed llm job) l s := by
  unfold runClaimed
  split
  next hfailed =>
    have hsettled : Settled .ingestion job.id s := hcapped (by simp [JobRow.terminal, hfailed])
    refine .keeping hsettled (.call rfl) fun found l s hsettled => ?_
    cases found with
    | none => exact .ret hsettled
    | some document =>
      exact .keeping hsettled (setStatus_performs rfl rfl) fun _ _ _ h => .ret h
  · refine .after fun found l s => ?_
    cases found with
    | none =>
      refine .bind ((markFailed_settles job _).mono fun _ res l s hsettled marked hres => ?_)
      exact .ret (hsettled marked hres)
    | some document =>
      refine .after fun outcome l s => ?_
      cases outcome with
      | error e => exact abandon_concludes job document e
      | ok ingested => exact persist_concludes job document ingested

/-- A run on a claimed ingestion job returns `True` and leaves the job finished or gone exactly
when the database does not fail in it, and the model does not answer every batch with another
number of vectors than texts. -/
theorem run_returns_iff {llm : OpenAiClient} {job : JobRow} {a : Answer} {rest : List Entry}
    {res : Except Exn Bool} {l' : Session} {t : Store}
    (hrun : Runs exec (Spares .ingestion job.id) (runNextIngestionJob llm) l s
      (⟨.claimJob .ingestion, a, .ok (some job)⟩ :: rest) res l' t) :
    (res = .ok true ∧ Settled .ingestion job.id t) ↔
      (∀ entry ∈ rest, ¬ DatabaseFailure entry) ∧ ¬ Mismatch rest := by
  have hraises : Escapes Uncaught res l' ↔ Fails rest := by
    refine of_claimed (runClaimed llm) (Φ := fun trace res l' _ =>
      Escapes Uncaught res l' ↔ Fails trace) (fun l u => ?_) hrun
    exact raisesIffFails_bind (uncaught_attributes.refreshJob (fun _ => id) _ _)
      (refreshJob_performs rfl)
      fun job _ _ => runClaimed_raisesIffFails llm job
  have hconcludes : ∀ b, res = .ok b → b = true ∧ Settled .ingestion job.id t := by
    refine of_claimed (runClaimed llm) (Φ := fun _ res _ t =>
      ∀ b, res = .ok b → b = true ∧ Settled .ingestion job.id t) (fun l u => ?_) hrun
    refine Concludes.bind (refreshJob_found.mono fun _ res l' u hfound refreshed hres => ?_)
    obtain ⟨hid, hsettled⟩ := hfound refreshed hres
    rw [← hid] at hsettled ⊢
    exact runClaimed_concludes llm refreshed hsettled
  have hfails : ¬ Fails rest ↔ (∀ entry ∈ rest, ¬ DatabaseFailure entry) ∧ ¬ Mismatch rest := by
    simp only [Fails, not_or, not_exists, not_and]
  rw [← hfails, ← hraises]
  cases res with
  | ok b => exact iff_of_true ⟨congrArg _ (hconcludes b rfl).1, (hconcludes b rfl).2⟩ id
  | error e => exact iff_of_false (nomatch ·.1) fun h => h id

end

/-- The claimed job of the one-document store. -/
def oneClaimed : JobRow := Jobs.claim 0 (.create 20 1 10 none 0)

/-- A model with a price. -/
def smallEmbeddings : OpenAiClient := ⟨[], "text-embedding-3-small".toList⟩

/-- One vector for the one chunk, and every write goes through. -/
def oneVector : List Answer :=
  [{}, {}, {}, { embed := .replied none 0 [(0, [1])] }, {}, { ids := [30] }, {}, {}, {}, {}]

theorem run_returns_iff_one :
    ∃ rest res l' t, Runs exec (Spares .ingestion oneClaimed.id)
        (@runNextIngestionJob onePdf smallEmbeddings) ⟨false⟩ oneQueued
        (⟨.claimJob .ingestion, {}, .ok (some oneClaimed)⟩ :: rest) res l' t ∧
      (∀ entry ∈ rest, ¬ DatabaseFailure entry) ∧ ¬ Mismatch rest := by
  obtain ⟨rest, res, l', t, hreplay, hrun⟩ := @claimed_of_replay .ingestion {} ⟨false⟩ oneQueued
    (@runNextIngestionJob onePdf smallEmbeddings) _ rfl oneClaimed oneVector rfl (by decide +kernel)
  refine ⟨rest, res, l', t, hrun, (@run_returns_iff _ _ onePdf _ _ _ _ _ _ _ hrun).mp ?_⟩
  have hend : ((replay exec (@runNextIngestionJob onePdf smallEmbeddings) ⟨false⟩ oneQueued
      ({} :: oneVector)).map fun r => (r.2.1.toOption,
        (Jobs.row? 20 (r.2.2.2.jobs .ingestion)).all JobRow.terminal)) = some (some true, true) := by
    decide +kernel
  rw [hreplay, Option.map_some, Option.some.injEq, Prod.mk.injEq] at hend
  cases res with
  | error e => cases hend.1
  | ok b => exact ⟨congrArg _ (Option.some.inj hend.1), settled_iff.mpr hend.2⟩

/-- Two vectors for the one chunk. -/
def twoVectors : List Answer :=
  [{}, {}, {}, { embed := .replied none 0 [(0, [1]), (1, [2])] }, {}, { ids := [30] }]

/-- A reply with a vector too many ends the run in an exception and leaves the job running. -/
theorem long_reply_stops_the_worker :
    ∃ rest e l' t, Runs exec (Spares .ingestion oneClaimed.id)
        (@runNextIngestionJob onePdf smallEmbeddings) ⟨false⟩ oneQueued
        (⟨.claimJob .ingestion, {}, .ok (some oneClaimed)⟩ :: rest) (.error e) l' t ∧
      ¬ Settled .ingestion oneClaimed.id t := by
  obtain ⟨rest, res, l', t, hreplay, hrun⟩ := @claimed_of_replay .ingestion {} ⟨false⟩ oneQueued
    (@runNextIngestionJob onePdf smallEmbeddings) _ rfl oneClaimed twoVectors rfl
      (by decide +kernel)
  have hend : ((replay exec (@runNextIngestionJob onePdf smallEmbeddings) ⟨false⟩ oneQueued
      ({} :: twoVectors)).map fun r => (r.2.1.toOption,
        (Jobs.row? 20 (r.2.2.2.jobs .ingestion)).all JobRow.terminal)) = some (none, false) := by
    decide +kernel
  rw [hreplay, Option.map_some, Option.some.injEq, Prod.mk.injEq] at hend
  cases res with
  | ok b => cases hend.1
  | error e =>
    exact ⟨rest, e, l', t, hrun, fun h => nomatch hend.2.symm.trans (settled_iff.mp h)⟩

end ContractIntel.Ingestion
