import ContractIntel.Laws.Services.Documents
import ContractIntel.Laws.Services.Workers
import ContractIntel.Laws.Store.Jobs
import ContractIntel.Services.Activity

/-!
# Enqueueing

An enqueue checks for an unfinished job of the document and, finding none, inserts one; check and
insert are two operations, so another enqueue may come between. `one_active_of_run`: while none
does, a document never has two unfinished jobs of a kind, whatever the workers do; and an enqueue
whose check finds an unfinished job always refuses and names it. `second_enqueue_slips_in` has two
enqueues check before either inserts.
-/

namespace ContractIntel.Enqueue

open Documents (onePdf)
open Ingestion (insertUnlessActive)
open Jobs (JobRow)
open Lib (Along Discipline Kept Pool Safe run)
open Lib.Prog (Within)
open Repositories

/-- The tables with the active-job check. -/
def guarded : JobKind → Bool
  | .ingestion | .extraction => true
  | .changeReport => false

/-- At most one ingestion job and at most one extraction job of a document is queued or running. -/
def OneActive (s : Store) : Prop :=
  ∀ kind, guarded kind → ∀ documentId, (activeJobs kind documentId s).length ≤ 1

/-- The conflict an enqueue of a kind raises. -/
def conflictError : JobKind → Uuid → Exn
  | .extraction => .extractionJobConflictError
  | _ => .ingestionJobConflictError

/-! ## Enqueues apart -/

/-- The job a party has checked for and is about to insert. -/
def inserting : Option (Session × Service Unit) → Option (JobKind × Uuid)
  | some (_, .op (.insertJob kind _ documentId _) _) => some (kind, documentId)
  | _ => none

/-- A turn keeps the enqueues apart: a job is inserted while no other enqueue of the same kind and
document stands between its check and its insert. -/
def Apart {ι : Type} (c : System ι) : Turn ι → Prop
  | .act i a => ∀ job ∈ inserting (c.parties i), a.refusal = none →
      ∀ j, j ≠ i → inserting (c.parties j) ≠ some job
  | _ => True

instance {ι : Type} [Fintype ι] [DecidableEq ι] (c : System ι) : (turn : Turn ι) →
    Decidable (Apart c turn)
  | .act i a => inferInstanceAs (Decidable (∀ job ∈ inserting (c.parties i), a.refusal = none →
      ∀ j, j ≠ i → inserting (c.parties j) ≠ some job))
  | .drift _ => .isTrue trivial
  | .crash _ => .isTrue trivial

/-! ## The discipline -/

/-- An insert that is not refused. -/
def Inserts (kind : JobKind) (documentId : Uuid) (o : Op) (a : Answer) : Prop :=
  (∃ tenantId amended, o = .insertJob kind tenantId documentId amended) ∧ a.refusal = none

/-- An enqueue about to insert relies on the document having no unfinished job still; only another
insert gives it one. -/
def enqueueDiscipline : Discipline exec Store.tick where
  Inv s := Keyed s ∧ OneActive s
  Rely o s t := ∀ kind tenantId documentId amended, guarded kind →
    o = .insertJob kind tenantId documentId amended →
      activeJobs kind documentId s = [] → activeJobs kind documentId t = []
  Guar o a s t := ∀ kind documentId, activeJobs kind documentId s = [] →
    activeJobs kind documentId t = [] ∨ Inserts kind documentId o a
  Allowed _ _ _ := True
  Clear o a o' := ∀ kind documentId, Inserts kind documentId o a →
    ∀ tenantId amended, o' ≠ .insertJob kind tenantId documentId amended
  rely_refl _ _ _ _ _ _ _ _ h := h
  rely_trans _ _ _ _ hst htu _ _ _ _ hk ho h := htu _ _ _ _ hk ho (hst _ _ _ _ hk ho h)
  compat o a o' s t _ _ hguar hclear kind tenantId documentId amended hk ho hnone := by
    rcases hguar kind documentId hnone with hnone | hinserts
    · exact hnone
    · exact absurd ho (hclear _ _ hinserts _ _)
  drift_inv _ _ h := h
  drift_rely _ _ _ _ _ _ _ _ _ h := h

theorem undisturbed_of_apart {ι : Type} [DecidableEq ι] {c : System ι} {turn : Turn ι}
    (h : Apart c turn) : enqueueDiscipline.Undisturbed c turn := by
  cases turn with
  | act i a =>
    intro l o next hi
    refine ⟨trivial, ?_⟩
    rintro j hji l' o' next' hj kind documentId ⟨⟨tenantId, amended, rfl⟩, hserved⟩ tenant amended'
      rfl
    simp only [Apart, hi] at h
    apply h _ rfl hserved j hji
    rw [hj]
    rfl
  | drift d => trivial
  | crash i => trivial

section Effects

variable {o : Op} {a : Answer} {s t : Store}

theorem guar_of_effect (hkeyed : Keyed s) (h : Effect o a s t) :
    enqueueDiscipline.Guar o a s t := by
  intro kind documentId hnone
  rcases activeJobs_effect hkeyed h with hle | ⟨hinserts, hserved, -⟩
  · rw [hnone] at hle
    exact .inl (List.length_eq_zero_iff.mp (Nat.le_zero.mp hle))
  · exact .inr ⟨hinserts, hserved⟩

/-- An insert keeps the rule if the document has no unfinished job before it. -/
theorem oneActive_of_effect (hkeyed : Keyed s) (hone : OneActive s) (h : Effect o a s t)
    (hinsert : ∀ kind tenantId documentId amended, guarded kind →
      o = .insertJob kind tenantId documentId amended → activeJobs kind documentId s = []) :
    OneActive t := by
  intro kind hkind documentId
  rcases @activeJobs_effect o a s t kind documentId hkeyed h with
    hle | ⟨⟨tenantId, amended, ho⟩, -, hlength⟩
  · exact Nat.le_trans hle (hone kind hkind documentId)
  · rw [hlength, hinsert _ _ _ _ hkind ho]
    exact Nat.le_refl _

end Effects

/-- An operation that inserts no job keeps the discipline. -/
theorem kept_call {o : Op}
    (ho : ∀ kind tenantId documentId amended, o ≠ .insertJob kind tenantId documentId amended)
    (t : Store) (a : Answer) (l : Session) (hinv : enqueueDiscipline.Inv t) :
    enqueueDiscipline.Inv (exec o a l t).2.2 ∧
      enqueueDiscipline.Guar o a t (exec o a l t).2.2 := by
  obtain ⟨hkeyed, hone⟩ := hinv
  have heffect := exec_effect o a l t
  refine ⟨⟨hkeyed.effect heffect, ?_⟩, guar_of_effect hkeyed heffect⟩
  exact oneActive_of_effect hkeyed hone heffect fun _ _ _ _ _ heq => absurd heq (ho _ _ _ _)

theorem kept_of_ingestion {α : Type} {p : Service α} (h : IngestionProgram p) :
    Kept enqueueDiscipline p := by
  refine Kept.of_performs h fun o t a l ho hinv _ => kept_call ?_ t a l hinv
  rintro kind tenantId documentId amended rfl
  cases ho

/-! ## Enqueues keep the discipline -/

theorem activeJobs_eq_nil {kind : JobKind} {documentId : Uuid} {s : Store}
    (h : Jobs.findActiveForDocument documentId (s.jobs kind) = none) :
    activeJobs kind documentId s = [] := by
  rw [Jobs.findActiveForDocument, List.head?_eq_none_iff] at h
  exact List.perm_nil.mp (h ▸ (List.perm_insertionSort _ _).symm)

/-- Once the check has found nothing, the job may be inserted. -/
theorem createJob_safe {kind : JobKind} (hkind : guarded kind) (tenantId : Uuid)
    {documentId : Uuid} (amended : Option Uuid) (l : Session) {s : Store}
    (hnone : activeJobs kind documentId s = []) :
    Safe enqueueDiscipline (createJob kind tenantId documentId amended) l s fun _ _ _ => True := by
  apply Safe.bind.mpr
  refine Safe.call.mpr fun t a hrely hinv _ => ?_
  obtain ⟨hkeyed, hone⟩ := hinv
  have heffect := exec_effect (.insertJob kind tenantId documentId amended) a l t
  refine ⟨⟨hkeyed.effect heffect, ?_⟩, guar_of_effect hkeyed heffect, ?_⟩
  · apply oneActive_of_effect hkeyed hone heffect
    rintro _ _ _ _ - ⟨⟩
    exact hrely _ _ _ _ hkind rfl hnone
  · split
    · exact kept_of_ingestion (refreshJob_performs rfl) _ _
    · trivial

theorem insertUnlessActive_kept {kind : JobKind} (hkind : guarded kind) (conflict : Uuid → Exn)
    (tenantId documentId : Uuid) :
    Kept enqueueDiscipline (insertUnlessActive kind conflict tenantId documentId) := by
  intro l s
  apply Safe.bind.mpr
  refine Safe.call.mpr fun t a _ hinv _ => ?_
  obtain ⟨hinv', hguar⟩ := kept_call (o := .findActiveJob kind documentId) (by simp) t a l hinv
  refine ⟨hinv', hguar, ?_⟩
  split
  next found hfound =>
    cases found with
    | some active => trivial
    | none =>
      obtain ⟨hread, heq⟩ := query_eq_ok hfound
      refine createJob_safe hkind _ _ _ ?_
      rw [exec, heq]
      exact activeJobs_eq_nil hread
  · trivial

theorem kept_perform {o : Op}
    (ho : ∀ kind tenantId documentId amended, o ≠ .insertJob kind tenantId documentId amended) :
    Kept enqueueDiscipline (perform o) :=
  Kept.call fun t a l hinv _ => kept_call ho t a l hinv

theorem enqueueIngestion_kept (context : RequestContext) (tenantId documentId : Uuid) :
    Kept enqueueDiscipline (Ingestion.enqueueIngestion context tenantId documentId) := by
  apply Kept.bind (kept_perform (by simp))
  intro found
  cases found with
  | none => exact .raise _
  | some document =>
    apply Kept.bind (insertUnlessActive_kept rfl _ _ _)
    intro job
    exact .bind (kept_perform (by simp)) fun _ => .ret _

theorem enqueueExtraction_kept (context : RequestContext) (tenantId documentId : Uuid) :
    Kept enqueueDiscipline (Extraction.enqueueExtraction context tenantId documentId) := by
  apply Kept.bind (kept_perform (by simp))
  intro found
  cases found with
  | none => exact .raise _
  | some document =>
    dsimp only
    split
    · exact .bind (kept_perform (by simp)) fun _ => .raise _
    · apply Kept.bind (insertUnlessActive_kept rfl _ _ _)
      intro job
      exact .bind (kept_perform (by simp)) fun _ => .ret _

theorem program_kept [Platform] (activity : Activity) :
    Kept enqueueDiscipline activity.program := by
  cases activity with
  | enqueueIngestion context tenantId documentId =>
    exact .bind (enqueueIngestion_kept _ _ _) fun _ => .ret _
  | enqueueExtraction context tenantId documentId =>
    exact .bind (enqueueExtraction_kept _ _ _) fun _ => .ret _
  | ingestionWorker llm =>
    exact .bind (kept_of_ingestion (WorkerProgram.runNextIngestionJob llm)) fun _ => .ret _
  | extractionWorker llm threshold =>
    exact .bind (kept_of_ingestion (WorkerProgram.runNextExtractionJob llm threshold).ingestion) fun _ => .ret _

/-! ## The conflict -/

/-- A check that finds an unfinished job is followed by the conflict that names it. -/
def ConflictFollows {α : Type} : (o : Op) → (Except Exn o.Res → Service α) → Prop
  | .findActiveJob kind _, next => ∀ job, next (.ok (some job)) = .raise (conflictError kind job.id)
  | _, _ => True

theorem ConflictFollows.bind {α β : Type} (f : α → Service β) (o : Op)
    (next : Except Exn o.Res → Service α) (h : ConflictFollows o next) :
    ConflictFollows o fun r => (next r).bind f := by
  cases o with
  | findActiveJob kind documentId =>
    intro job
    show (next (.ok (some job))).bind f = _
    rw [h job]
    rfl
  | _ => trivial

theorem conflictFollows_of_ingestion {α : Type} {p : Service α} (h : IngestionProgram p) :
    p.Within ConflictFollows := by
  refine h.mono fun o next ho => ?_
  cases o with
  | findActiveJob kind documentId => cases ho
  | _ => trivial

theorem conflictFollows_bind {α β : Type} {p : Service α} {f : α → Service β}
    (hp : p.Within ConflictFollows) (hf : ∀ a, (f a).Within ConflictFollows) :
    (p.bind f).Within ConflictFollows :=
  hp.bind hf (ConflictFollows.bind f)

theorem conflictFollows_perform {o : Op} (ho : ∀ kind documentId, o ≠ .findActiveJob kind documentId) :
    (perform o).Within ConflictFollows := by
  refine ⟨?_, fun r => .ofResult r⟩
  cases o with
  | findActiveJob kind documentId => exact absurd rfl (ho _ _)
  | _ => trivial

theorem insertUnlessActive_conflict (kind : JobKind) (tenantId documentId : Uuid) :
    (insertUnlessActive kind (conflictError kind) tenantId documentId).Within ConflictFollows := by
  refine ⟨fun job => rfl, fun r => ?_⟩
  cases r with
  | error e => trivial
  | ok found =>
    cases found with
    | some active => trivial
    | none =>
      apply conflictFollows_bind (conflictFollows_perform (by simp))
      intro job
      exact conflictFollows_of_ingestion (refreshJob_performs rfl)

theorem enqueueIngestion_conflict (context : RequestContext) (tenantId documentId : Uuid) :
    (Ingestion.enqueueIngestion context tenantId documentId).Within ConflictFollows := by
  apply conflictFollows_bind (conflictFollows_perform (by simp))
  intro found
  cases found with
  | none => trivial
  | some document =>
    apply conflictFollows_bind (insertUnlessActive_conflict .ingestion _ _)
    intro job
    exact conflictFollows_bind (conflictFollows_perform (by simp)) fun _ => trivial

theorem enqueueExtraction_conflict (context : RequestContext) (tenantId documentId : Uuid) :
    (Extraction.enqueueExtraction context tenantId documentId).Within ConflictFollows := by
  apply conflictFollows_bind (conflictFollows_perform (by simp))
  intro found
  cases found with
  | none => trivial
  | some document =>
    dsimp only
    split
    · exact conflictFollows_bind (conflictFollows_perform (by simp)) fun _ => trivial
    · apply conflictFollows_bind (insertUnlessActive_conflict .extraction _ _)
      intro job
      exact conflictFollows_bind (conflictFollows_perform (by simp)) fun _ => trivial

theorem program_conflict [Platform] (activity : Activity) :
    activity.program.Within ConflictFollows := by
  cases activity with
  | enqueueIngestion context tenantId documentId =>
    exact conflictFollows_bind (enqueueIngestion_conflict _ _ _) fun _ => trivial
  | enqueueExtraction context tenantId documentId =>
    exact conflictFollows_bind (enqueueExtraction_conflict _ _ _) fun _ => trivial
  | ingestionWorker llm =>
    exact conflictFollows_bind (conflictFollows_of_ingestion (WorkerProgram.runNextIngestionJob _))
      fun _ => trivial
  | extractionWorker llm threshold =>
    exact conflictFollows_bind
      (conflictFollows_of_ingestion (WorkerProgram.runNextExtractionJob _ _).ingestion)
      fun _ => trivial

/-- A served check on a document with an unfinished job finds one of them. -/
theorem findActive_served {kind : JobKind} {documentId : Uuid} {s : Store} {a : Answer}
    {l : Session} (hl : l.failed = false) (hserved : a.refusal = none)
    (hactive : activeJobs kind documentId s ≠ []) :
    ∃ job ∈ activeJobs kind documentId s,
      exec (.findActiveJob kind documentId) a l s = (.ok (some job), l, s) := by
  rw [exec, query_served _ hl hserved]
  cases hfound : Jobs.findActiveForDocument documentId (s.jobs kind) with
  | none => exact absurd (activeJobs_eq_nil hfound) hactive
  | some job =>
    refine ⟨job, ?_, rfl⟩
    exact (List.mem_insertionSort _).mp (List.mem_of_mem_head? hfound)

/-! ## Runs -/

/-- While the enqueues stay apart, no document has two unfinished jobs of a kind; and in every run
an enqueue whose check is served while there is one raises the conflict that names it. -/
theorem one_active_of_run [Platform] {ι : Type} [DecidableEq ι] {activities : ι → Option Activity}
    {s : Store} {turns : List (Turn ι)} {c : System ι} (hkeyed : Keyed s) (hone : OneActive s)
    (hrun : run System.step (parties s activities) turns = some c) :
    (Along System.step Apart (parties s activities) turns → OneActive c.store) ∧
      ∀ i l kind documentId next a,
        c.parties i = some (l, .op (.findActiveJob kind documentId) next) →
        l.failed = false → a.refusal = none → activeJobs kind documentId c.store ≠ [] →
          ∃ job ∈ activeJobs kind documentId c.store, ∃ c', System.step c (.act i a) = some c' ∧
            c'.parties i = some (l, .raise (conflictError kind job.id)) := by
  constructor
  · intro hapart
    have hstart : enqueueDiscipline.Holds (parties s activities) := by
      refine ⟨⟨hkeyed, hone⟩, fun i l p hi => ?_⟩
      obtain ⟨program, hprogram, heq⟩ := Option.map_eq_some_iff.mp hi
      obtain ⟨activity, -, rfl⟩ := Option.map_eq_some_iff.mp hprogram
      cases heq
      exact program_kept activity _ _
    exact (hstart.run (hapart.mono fun _ _ h => undisturbed_of_apart h) hrun).1.2
  · intro i l kind documentId next a hi hl hserved hactive
    have hwithin := Pool.within_run (P := ConflictFollows) (fun i l p hi => by
      obtain ⟨program, hprogram, heq⟩ := Option.map_eq_some_iff.mp hi
      obtain ⟨activity, -, rfl⟩ := Option.map_eq_some_iff.mp hprogram
      cases heq
      exact program_conflict activity) hrun i l _ hi
    obtain ⟨job, hjob, hexec⟩ := findActive_served hl hserved hactive
    refine ⟨job, hjob, _, Pool.step_act_eq_some_iff.mpr ⟨l, _, next, hi, rfl⟩, ?_⟩
    dsimp only
    rw [Function.update_self, hexec]
    exact congrArg (fun p => some (l, p)) (hwithin.1 job)

/-- A store with one uploaded document. -/
def oneDocument : Store :=
  { Store.empty 0 with
    documents := [⟨10, 1, "a.txt".toList, Parsing.TEXT_MIME, [], none, .uploaded, 0⟩]
    issued := [10] }

theorem oneDocument_keyed : Keyed oneDocument :=
  fun _ => ⟨List.nodup_nil, fun _ hjob => absurd hjob List.not_mem_nil⟩

theorem oneDocument_oneActive : OneActive oneDocument := fun _ _ _ => Nat.zero_le _

/-- Two requests to ingest the document. -/
def twoRequests : Fin 2 → Option Activity
  | _ => some (.enqueueIngestion ⟨[], none⟩ 1 10)

/-- The second request is checked after the first one's insert. -/
def apartTurns : List (Turn (Fin 2)) :=
  [.act 0 {}, .act 0 {}, .act 1 {}, .act 0 { ids := [20] }, .act 1 {}]

theorem one_active_of_run_apart :
    ∃ c, run System.step (@parties onePdf (Fin 2) oneDocument twoRequests) apartTurns = some c ∧
      OneActive c.store := by
  have hruns : (run System.step (@parties onePdf (Fin 2) oneDocument twoRequests)
      apartTurns).isSome := by decide +kernel
  obtain ⟨c, hc⟩ := Option.isSome_iff_exists.mp hruns
  exact ⟨c, hc, (@one_active_of_run onePdf (Fin 2) _ _ _ _ _ oneDocument_keyed
    oneDocument_oneActive hc).1 (by decide +kernel)⟩

/-- Both requests are checked before either inserts. -/
def overlappingTurns : List (Turn (Fin 2)) :=
  [.act 0 {}, .act 1 {}, .act 0 {}, .act 1 {}, .act 0 { ids := [20] }, .act 1 { ids := [21] }]

/-- Two requests that check before either inserts leave two queued jobs. -/
theorem second_enqueue_slips_in :
    ∃ c, run System.step (@parties onePdf (Fin 2) oneDocument twoRequests) overlappingTurns =
      some c ∧ ¬ OneActive c.store := by
  have hend : ((run System.step (@parties onePdf (Fin 2) oneDocument twoRequests)
      overlappingTurns).map fun c => (activeJobs .ingestion 10 c.store).length) = some 2 := by
    decide +kernel
  obtain ⟨c, hc, hlength⟩ := Option.map_eq_some_iff.mp hend
  refine ⟨c, hc, fun hone => ?_⟩
  have hle := hone .ingestion rfl 10
  rw [hlength] at hle
  exact absurd hle (by decide)

end ContractIntel.Enqueue
