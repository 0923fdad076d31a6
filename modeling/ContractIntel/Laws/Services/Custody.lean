import ContractIntel.Laws.Services.Links
import ContractIntel.Lib.Custody

/-!
# Jobs in the hands of workers

A worker holds the job it was handed until its pass ends or it crashes (`Watched`). What it writes
for the job is of the job's own queue (`Op.advances`); the other parties write nothing of the kind.
-/

namespace ContractIntel

open Jobs (JobRow)
open Lib.Prog (Performs)
open Llm (OpenAiClient)
open Repositories

variable {ι : Type} {kind : JobKind} {a : Answer} {l : Session} {s : Store}

/-- The system, and the job of a tracked queue that each party holds. -/
abbrev Watched (ι : Type) := Lib.Watch ι Session Store Op Op.Res Exn Unit JobRow

/-- The job of a tracked queue that a claim hands out. -/
def handedOut (tracked : JobKind → Bool) : (o : Op) → Except Exn o.Res → Option JobRow
  | .claimJob kind, .ok (some job) => if tracked kind then some job else none
  | _, _ => none

/-- Only a claim on a tracked queue hands out a job. -/
theorem exists_of_handedOut {tracked : JobKind → Bool} {job : JobRow} :
    ∀ {o : Op} {r : Except Exn o.Res}, handedOut tracked o r = some job →
      ∃ kind, tracked kind = true ∧ o = .claimJob kind := by
  intro o r h
  unfold handedOut at h
  split at h
  next kind _ =>
    split at h
    next htracked => exact ⟨kind, htracked, rfl⟩
    next => cases h
  next => cases h

def Watched.step [DecidableEq ι] (tracked : JobKind → Bool) :
    Watched ι → Turn ι → Option (Watched ι) :=
  Lib.Watch.step exec Store.tick (handedOut tracked)

/-- The parties before their first step, nobody holding a job. -/
def watch [Ucd] [Platform] (s : Store) (members : ι → Option Party) : Watched ι :=
  ⟨everyone s members, fun _ => none⟩

/-- The row that the claim a party is about to perform on a tracked queue would hand out. -/
def nextJob (tracked : JobKind → Bool) (w : Watched ι) (i : ι) (a : Answer) : Option JobRow :=
  match w.pool.parties i with
  | some (_, .op (.claimJob kind) _) =>
    if tracked kind && a.refusal.isNone then
      Jobs.nextRunnable w.pool.store.now a.locked (w.pool.store.jobs kind)
    else none
  | _ => none

/-- A claim fails, finds nothing to run, or hands out the next runnable job. -/
theorem claimJob_cases (kind : JobKind) (a : Answer) (l : Session) (s : Store) :
    (∃ e, exec (.claimJob kind) a l s = (.error e, ⟨true⟩, s)) ∨
    (l.failed = false ∧ exec (.claimJob kind) a l s = (.ok none, l, s.withJobs kind (s.jobs kind))) ∨
      ∃ job ∈ s.jobs kind, l.failed = false ∧ a.refusal = none ∧
        Jobs.nextRunnable s.now a.locked (s.jobs kind) = some job ∧
        exec (.claimJob kind) a l s = (.ok (some (Jobs.claim s.now job)), l,
          s.withJobs kind (Jobs.updateRow job.id (Jobs.claim s.now) (s.jobs kind))) := by
  rcases statement_cases (Store.claimJob kind a.locked) a l s with
    ⟨e, heq, -⟩ | ⟨r, t, hl, hserved, hok, heq⟩
  · exact .inl ⟨e, heq⟩
  · cases hok
    cases hnext : Jobs.nextRunnable s.now a.locked (s.jobs kind) with
    | none =>
      refine .inr (.inl ⟨hl, ?_⟩)
      rw [exec, heq, Jobs.claimNext, hnext]
    | some job =>
      refine .inr (.inr ⟨job, (Jobs.nextRunnable_mem hnext).1, hl, hserved, rfl, ?_⟩)
      rw [exec, heq, Jobs.claimNext, hnext]

/-- A terminal write fails, or it writes the job's row. -/
theorem completeJob_cases (kind : JobKind) (id : Uuid) (result : Json) (a : Answer) (l : Session)
    (s : Store) :
    (∃ e, exec (.completeJob kind id result) a l s = (.error e, ⟨true⟩, s)) ∨
      l.failed = false ∧ exec (.completeJob kind id result) a l s =
        (.ok (), l, s.withJobs kind (Jobs.updateRow id (Jobs.complete result) (s.jobs kind))) := by
  rcases statement_cases (Store.completeJob kind id result) a l s with
    ⟨e, heq, -⟩ | ⟨r, t, hl, -, hok, heq⟩
  · exact .inl ⟨e, heq⟩
  · unfold Store.completeJob at hok
    split at hok
    · cases hok
    · cases hok
      exact .inr ⟨hl, heq⟩

theorem failJob_cases (kind : JobKind) (id : Uuid) (error : Str) (a : Answer) (l : Session)
    (s : Store) :
    (∃ e, exec (.failJob kind id error) a l s = (.error e, ⟨true⟩, s)) ∨
      l.failed = false ∧ exec (.failJob kind id error) a l s =
        (.ok (), l, s.withJobs kind (Jobs.updateRow id (Jobs.fail error) (s.jobs kind))) := by
  rcases statement_cases (Store.failJob kind id error) a l s with
    ⟨e, heq, -⟩ | ⟨r, t, hl, -, hok, heq⟩
  · exact .inl ⟨e, heq⟩
  · unfold Store.failJob at hok
    split at hok
    · cases hok
    · cases hok
      exact .inr ⟨hl, heq⟩

/-- A status write fails, on a live session for the want of a row; or it leaves the loaded status as
it is, or writes the row. -/
theorem setDocumentStatus_cases (document : DocumentRow) (status : DocumentStatus) (a : Answer)
    (l : Session) (s : Store) :
    (∃ e, exec (.setDocumentStatus document status) a l s = (.error e, ⟨true⟩, s) ∧
      (l.failed = false → a.refusal = none → s.document? document.id = none)) ∨
    (exec (.setDocumentStatus document status) a l s = (.ok (), l, s) ∧ document.status = status) ∨
      exec (.setDocumentStatus document status) a l s = (.ok (), l, { s with
        documents := s.documents.map fun d => if d.id = document.id then { d with status } else d }) := by
  rcases statement_cases (Store.setDocumentStatus document status) a l s with
    ⟨e, heq, -⟩ | ⟨r, t, -, -, hok, heq⟩
  · refine .inl ⟨e, heq, fun hl hserved => ?_⟩
    have hbody := statement_served hl hserved (congrArg Prod.fst heq)
    unfold Store.setDocumentStatus at hbody
    split at hbody
    · cases hbody
    · split at hbody
      next hnone => simpa using hnone
      · cases hbody
  · unfold Store.setDocumentStatus at hok
    split at hok
    next hsame =>
      cases hok
      exact .inr (.inl ⟨heq, hsame⟩)
    · split at hok
      · cases hok
      · cases hok
        exact .inr (.inr heq)

/-- A worker that claims a job of a tracked queue: it disturbs nothing until the claim hands out a
job, and then owes what the rest of its program does. -/
theorem claim_idle {K α : Type} {cust : Lib.Custody exec Store.tick JobRow K}
    {tracked : JobKind → Bool} {f : Option JobRow → Service α}
    (htakes : cust.takes = handedOut tracked) (htracked : tracked kind = true)
    (hnone : cust.Idle (f none))
    (hsome : ∀ (locked : List Uuid) (l : Session) (s t : Store) (job : JobRow), cust.Inv s →
      l.failed = false → Jobs.nextRunnable s.now locked (s.jobs kind) = some job →
      t = s.withJobs kind (Jobs.updateRow job.id (Jobs.claim s.now) (s.jobs kind)) →
      Later s t → cust.Fit (Jobs.claim s.now job) s →
        (∀ k, cust.Concerns (Jobs.claim s.now job) k → cust.Good k s) →
        (∀ k, ¬ cust.Concerns (Jobs.claim s.now job) k → cust.Calm k s t) ∧
          cust.Owes (Jobs.claim s.now job)
            ((refreshJob kind (Jobs.claim s.now job).id).bind fun row => f (some row)) l t) :
    cust.Idle ((claimNextQueued kind).bind f) := by
  intro a l s hinv
  have heffect := exec_effect (.claimJob kind) a l s
  rw [htakes]
  rcases claimJob_cases kind a l s with ⟨e, heq⟩ | ⟨-, heq⟩ | ⟨job, -, hl, -, hnext, heq⟩
  · rw [heq]
    exact ⟨fun k => cust.calm_refl k s, trivial⟩
  · rw [heq, withJobs_self]
    exact ⟨fun k => cust.calm_refl k s, hnone⟩
  · rw [heq] at heffect ⊢
    simp only [handedOut, if_pos htracked]
    intro hfit hgood
    have h := hsome a.locked l s _ job hinv hl hnext rfl heffect.later hfit hgood
    simp only [Lib.Prog.ofResult_ok, Lib.Prog.ret_bind, Lib.Prog.bind_eq, Lib.Prog.pure_eq,
      Lib.Prog.bind_assoc]
    exact h

section Watched

variable {tracked : JobKind → Bool} {w w' : Watched ι} {i : ι} {o : Op}
  {next : Except Exn o.Res → Service Unit}

/-- What an operation of a party takes, its claim was about to hand out. -/
theorem mem_nextJob {job : JobRow} (hi : w.pool.parties i = some (l, .op o next))
    (htakes : handedOut tracked o (exec o a l w.pool.store).1 = some job) :
    ∃ row ∈ nextJob tracked w i a, job = Jobs.claim w.pool.store.now row := by
  cases o with
  | claimJob kind =>
    rcases claimJob_cases kind a l w.pool.store with
      ⟨e, heq⟩ | ⟨-, heq⟩ | ⟨row, -, -, hserved, hnext, heq⟩
    · rw [heq] at htakes
      cases htakes
    · rw [heq] at htakes
      cases htakes
    · rw [heq] at htakes
      simp only [handedOut, Option.ite_none_right_eq_some, Option.some.injEq] at htakes
      obtain ⟨htracked, rfl⟩ := htakes
      refine ⟨row, ?_, rfl⟩
      rw [nextJob, hi]
      simpa [htracked, hserved] using hnext
  | _ => cases htakes

/-- In every run of any parties whose turns are orderly the rows of the store belong together, and
what the parties hold is in custody. -/
theorem custody_of_run [DecidableEq ι] [Ucd] [Platform] {K : Type}
    {cust : Lib.Custody exec Store.tick JobRow K} {members : ι → Option Party}
    {turns : List (Turn ι)} (hinv : cust.Inv = Linked) (htakes : cust.takes = handedOut tracked)
    (hidle : ∀ i party, members i = some party → cust.Idle party.program) (hlinked : Linked s)
    (hgood : ∀ k, cust.Good k s)
    (horderly : Lib.Along (Watched.step tracked) cust.Orderly (watch s members) turns)
    (hrun : Lib.run (Watched.step tracked) (watch s members) turns = some w) :
    Linked w.pool.store ∧ cust.Holds w := by
  have hstart : linkDiscipline.Holds (watch s members).pool ∧ cust.Holds (watch s members) := by
    have hlinks : linkDiscipline.Holds (everyone s members) :=
      holds_of_run hlinked (show Lib.run System.step (everyone s members) [] = some _ from rfl)
    refine ⟨hlinks, .of_unheld (fun _ => rfl) hgood fun i l p hi => ?_⟩
    obtain ⟨program, hprogram, heq⟩ := Option.map_eq_some_iff.mp hi
    obtain ⟨party, hparty, rfl⟩ := Option.map_eq_some_iff.mp hprogram
    cases heq
    exact hidle i party hparty
  have hend := Lib.run_invariant_of_along
    (I := fun w : Watched ι => linkDiscipline.Holds w.pool ∧ cust.Holds w)
    (fun w turn w' hw horderly hstep => ?_) hstart horderly hrun
  · exact ⟨hend.1.1, hend.2⟩
  · have hlinks := hw.1.step (linked_undisturbed _ turn) (Lib.Watch.pool_step hstep)
    refine ⟨hlinks, hw.2.step ?_ ?_ horderly (htakes ▸ hstep)⟩
    · rw [hinv]
      exact hw.1.1
    · rw [hinv]
      exact hlinks.1

end Watched

/-! ## Who writes what -/

/-- What a worker of a queue writes for the job it holds, the row of the job included. -/
def Op.advances (tracked : JobKind → Bool) : Op → Bool
  | .claimJob kind | .completeJob kind .. | .failJob kind .. => tracked kind
  | .setDocumentStatus .. => tracked .ingestion
  | .insertReviewItems _ source .. => tracked source.kind
  | _ => false

/-- The queue a worker serves. -/
def Party.queue : Party → Option JobKind
  | .activity (.ingestionWorker _) => some .ingestion
  | .activity (.extractionWorker ..) => some .extraction
  | .changeReportWorker .. => some .changeReport
  | _ => none

/-- The threshold below which a worker routes what. -/
def Party.reviewThreshold : Party → Option (ReviewItemSource × Rat)
  | .activity (.extractionWorker _ threshold) => some (.extraction, threshold)
  | .changeReportWorker _ threshold => some (.impactMapping, threshold)
  | _ => none

/-- A program that writes for no job of a tracked queue. -/
abbrev Aloof (tracked : JobKind → Bool) {α : Type} (p : Service α) : Prop :=
  p.Performs fun o => o.advances tracked = false

section Aloof

variable {tracked : JobKind → Bool}

theorem TryProgram.aloof {α : Type} {p : Service α} (h : TryProgram p) : Aloof tracked p := by
  refine h.mono fun o _ ho => ?_
  cases o <;> first | rfl | cases ho

theorem RequestProgram.aloof {α : Type} {p : Service α} (h : RequestProgram p) :
    Aloof tracked p := by
  refine h.mono fun o _ ho => ?_
  cases o <;> first | rfl | cases ho

namespace Aloof

theorem require {α : Type} (e : Exn) (found : Option α) : Aloof tracked (require e found) := by
  cases found <;> trivial

theorem refreshJob (id : Uuid) : Aloof tracked (refreshJob kind id) :=
  .bind (.call rfl) fun _ => require _ _

theorem setStatus (h : tracked .ingestion = false) (document : DocumentRow)
    (status : DocumentStatus) : Aloof tracked (setStatus document status) :=
  .bind (.call h) fun _ => .bind (.call rfl) fun _ => require _ _

variable (h : tracked kind = false)

include h

theorem markCompleted (job : JobRow) (result : Json) :
    Aloof tracked (markCompleted kind job result) :=
  .bind (.call h) fun _ => refreshJob _

theorem markFailed (job : JobRow) (error : Str) : Aloof tracked (markFailed kind job error) :=
  .bind (.call h) fun _ => refreshJob _

theorem claimed {α : Type} {f : Option JobRow → Service α} (hf : ∀ found, Aloof tracked (f found)) :
    Aloof tracked (claimNextQueued kind >>= f) := by
  refine .bind (.bind (.call h) fun found => ?_) hf
  cases found with
  | none => exact .ret _
  | some job => exact .bind (refreshJob _) fun _ => .ret _

theorem abandon (job : JobRow) {usageSink : Llm.UsageSink}
    (hsink : ∀ usage, TryProgram (usageSink usage)) (e : Exn) :
    Aloof tracked (Extraction.abandon kind job usageSink e) := by
  unfold Extraction.abandon
  split
  · exact .bind (markFailed h _ _) fun _ =>
      .bind (TryProgram.accountRejectedOutput hsink _).aloof fun _ => .ret _
  · exact .raise _

omit h

theorem routeForReview {source : ReviewItemSource} (h : tracked source.kind = false)
    (tenantId documentId jobId : Uuid) (candidates : List (Str × Json × Rat)) (threshold : Rat) :
    Aloof tracked
      (ReviewQueue.routeForReview tenantId source documentId jobId candidates threshold) := by
  unfold ReviewQueue.routeForReview
  dsimp only
  split
  · exact .ret _
  · exact .bind (.call h) fun _ => .ret _

theorem extractionWorker (h : tracked .extraction = false) (llm : OpenAiClient) (threshold : Rat) :
    Aloof tracked (Extraction.runNextExtractionJob llm threshold) := by
  refine claimed h fun found => ?_
  cases found with
  | none => exact .ret _
  | some job =>
    show Aloof tracked (Extraction.runClaimed llm threshold job)
    unfold Extraction.runClaimed
    split
    · exact .ret _
    · refine .bind (TryProgram.extract llm job (.sink _ _ _ _)).aloof.attempt fun res => ?_
      cases res with
      | error e => exact abandon h _ (.sink _ _ _ _) _
      | ok extraction =>
        exact .bind (markCompleted h _ _) fun _ => .bind (routeForReview h _ _ _ _ _) fun _ => .ret _

variable [Platform]

theorem ingestionWorker (h : tracked .ingestion = false) (llm : OpenAiClient) :
    Aloof tracked (Ingestion.runNextIngestionJob llm) := by
  refine claimed h fun found => ?_
  cases found with
  | none => exact .ret _
  | some job =>
    show Aloof tracked (Ingestion.runClaimed llm job)
    unfold Ingestion.runClaimed
    split
    · refine .bind (.call rfl) fun found => ?_
      cases found with
      | none => exact .ret _
      | some document => exact .bind (setStatus h _ _) fun _ => .ret _
    · refine .bind (.call rfl) fun found => ?_
      cases found with
      | none => exact .bind (markFailed h _ _) fun _ => .ret _
      | some document =>
        refine .bind (TryProgram.ingest llm document (.sink _ _ _ _)).aloof.attempt fun res => ?_
        cases res with
        | error e => exact .bind (markFailed h _ _) fun _ => .bind (setStatus h _ _) fun _ => .ret _
        | ok ingested =>
          exact .bind (.call rfl) fun _ => .bind (markCompleted h _ _) fun _ =>
            .bind (setStatus h _ _) fun _ => .ret _

theorem changeReportWorker [Ucd] (h : tracked .changeReport = false) (llm : OpenAiClient)
    (threshold : Rat) : Aloof tracked (ChangeReport.runNextChangeReportJob llm threshold) := by
  refine claimed h fun found => ?_
  cases found with
  | none => exact .ret _
  | some job =>
    show Aloof tracked (ChangeReport.runClaimed llm threshold job)
    unfold ChangeReport.runClaimed
    split
    · exact .ret _
    · refine .bind (TryProgram.examine llm job (.sink _ _ _ _)).aloof.attempt fun res => ?_
      cases res with
      | error e => exact abandon h _ (.sink _ _ _ _) _
      | ok findings =>
        exact .bind (.ofResult _) fun _ => .bind (markCompleted h _ _) fun _ =>
          .bind (routeForReview h _ _ _ _ _) fun _ => .ret _

/-- A party that serves no tracked queue writes for none of its jobs. -/
theorem party [Ucd] {party : Party} (h : ∀ k, party.queue = some k → tracked k = false) :
    Aloof tracked party.program := by
  cases party with
  | documents request =>
    cases request with
    | upload context request =>
      exact .bind (DocumentProgram.uploadDocument context request).request.aloof fun _ => .ret _
    | delete context tenantId documentId =>
      exact (DocumentProgram.deleteDocument context tenantId documentId).request.aloof
  | activity work =>
    cases work with
    | enqueueIngestion context tenantId documentId =>
      exact .bind (RequestProgram.enqueueIngestion context tenantId documentId).aloof fun _ => .ret _
    | enqueueExtraction context tenantId documentId =>
      exact .bind (RequestProgram.enqueueExtraction context tenantId documentId).aloof fun _ => .ret _
    | ingestionWorker llm => exact .bind (ingestionWorker (h _ rfl) llm) fun _ => .ret _
    | extractionWorker llm threshold =>
      exact .bind (extractionWorker (h _ rfl) llm threshold) fun _ => .ret _
  | enqueueChangeReport context tenantId baseId amendedId =>
    exact .bind (RequestProgram.enqueueChangeReport context tenantId baseId amendedId).aloof
      fun _ => .ret _
  | changeReportWorker llm threshold =>
    exact .bind (changeReportWorker (h _ rfl) llm threshold) fun _ => .ret _
  | resolveReviewItem context tenantId itemId request =>
    refine .bind (.bind (.bind (.call rfl) fun found => require _ _) fun item =>
      .bind (.call rfl) fun resolved => ?_) fun _ => .ret _
    cases resolved with
    | none => exact .raise _
    | some row => exact .bind (.call rfl) fun _ => .ret _

end Aloof

end Aloof

end ContractIntel
