import ContractIntel.Laws.Services.ChangeReport
import ContractIntel.Laws.Services.Links
import ContractIntel.Laws.Store.Keys

/-!
# Review items and the jobs they came from

A review item names its job without a foreign key. Extraction items cannot lose theirs: a job goes
with its document, and the items of the document with it. A report goes with its amendment, and its
items name the base; a delete of the amendment sweeps the items of the reports it sees, and items
routed after that are orphans. `sourced_of_run` says that this is the only way to an orphan, and
`routed_after_delete` that it is one.
-/

namespace ContractIntel.ReviewQueue

open Jobs (JobRow)
open Lib (Along run)

variable {o : Op} {a : Answer} {s t : Store}

/-- The job a review item was routed from is there, with the item's document; and for a report, the
amendment it is about. -/
def Traced (item : ReviewItemRow) (s : Store) : Prop :=
  ∃ job ∈ s.jobs item.source.kind, job.id = item.jobId ∧ job.documentId = item.documentId ∧
    (item.source = .impactMapping → ∃ d ∈ s.documents,
      job.amendedDocumentId = some d.id ∧ d.amendsDocumentId = some item.documentId)

/-- Every review item is traced to its job. -/
def AllTraced (s : Store) : Prop := ∀ item ∈ s.reviewItems, Traced item s

/-- The reports of the review items that came from one are there. -/
def ReportsKept (s : Store) : Prop :=
  ∀ item ∈ s.reviewItems, item.source = .impactMapping →
    ∃ job ∈ s.jobs .changeReport, job.id = item.jobId

/-- With linked rows, the reports are all there is to trace. -/
theorem allTraced_iff (hlinked : Linked s) : AllTraced s ↔ ReportsKept s := by
  constructor
  · intro htraced item hitem hsource
    obtain ⟨job, hjob, hid, -⟩ := htraced item hitem
    rw [hsource] at hjob
    exact ⟨job, hjob, hid⟩
  · intro hkept item hitem
    obtain ⟨hhas, hjobOf⟩ := hlinked.items item hitem
    cases hsource : item.source with
    | extraction =>
      rw [hsource] at hjobOf
      obtain ⟨job, hjob, hid⟩ := hjobOf.kept nofun hhas
      refine ⟨job, hsource ▸ hjob, hid, (hjobOf.rows _ job hjob hid).2.2, fun h => ?_⟩
      rw [hsource] at h
      cases h
    | impactMapping =>
      obtain ⟨job, hjob, hid⟩ := hkept item hitem hsource
      rw [hsource] at hjobOf
      have hdocument := (hjobOf.rows _ job hjob hid).2.2
      refine ⟨job, hsource ▸ hjob, hid, hdocument, fun _ => ?_⟩
      obtain ⟨d, hd, hversion, -, hparent⟩ := hlinked.reports job hjob
      exact ⟨d, hd, hversion, hdocument ▸ hparent⟩

/-! ## The turns that route -/

/-- The report a party is about to route the impacts of, with their base document. -/
def routing {ι : Type} (c : System ι) (i : ι) : Option (Uuid × Uuid) :=
  match c.parties i with
  | some (⟨false⟩, .op (.insertReviewItems _ .impactMapping documentId jobId _) _) =>
    some (documentId, jobId)
  | _ => none

/-- A turn that routes the impacts of a report finds the report there, unless the base document is
gone too or the statement is refused. -/
def RoutesLive {ι : Type} (c : System ι) : Turn ι → Prop
  | .act i a => ∀ entry ∈ routing c i, a.refusal = none → (c.store.document? entry.1).isSome →
      (Jobs.row? entry.2 (c.store.jobs .changeReport)).isSome
  | _ => True

instance {ι : Type} (c : System ι) : (turn : Turn ι) → Decidable (RoutesLive c turn)
  | .act i a => inferInstanceAs (Decidable (∀ entry ∈ routing c i, a.refusal = none →
      (c.store.document? entry.1).isSome →
      (Jobs.row? entry.2 (c.store.jobs .changeReport)).isSome))
  | .drift _ => .isTrue trivial
  | .crash _ => .isTrue trivial

/-! ## Steps -/

/-- Reports go only with the amendment they are about. -/
theorem Effect.report_kept (h : Effect o a s t) {job : JobRow} (hjob : job ∈ s.jobs .changeReport) :
    (∃ job' ∈ t.jobs .changeReport, job'.id = job.id) ∨
      ∃ documentId, o = .deleteSweep documentId ∧ Swept documentId s t ∧
        job.amendedDocumentId = some documentId := by
  by_cases ho : o.writesLinks
  · cases h with
    | nothing => exact .inl ⟨job, hjob, rfl⟩
    | insertDocument => exact .inl ⟨job, hjob, rfl⟩
    | insertJob => exact .inl ⟨job, mem_insertJob hjob, rfl⟩
    | @deleteSweep documentId _ _ _ hok =>
      have hswept := Store.swept_of_deleteSweep hok
      by_cases hamended : job.amendedDocumentId = some documentId
      · exact .inr ⟨documentId, rfl, hswept, hamended⟩
      · refine .inl ⟨job, ?_, rfl⟩
        rw [hswept.reports]
        exact List.mem_filter.mpr ⟨hjob, by simpa using hamended⟩
    | _ => cases ho
  · have hlinks := (h.links (by simpa using ho)).2 .changeReport
    obtain ⟨job', hjob', hlink⟩ := List.mem_map.mp (hlinks.symm ▸ List.mem_map_of_mem hjob)
    exact .inl ⟨job', hjob', (Jobs.JobRow.link_eq_iff.mp hlink).1⟩

theorem reportsKept_of_effect (hkept : ReportsKept s) (h : Effect o a s t)
    (hroutes : ∀ tenantId documentId jobId items,
      o = .insertReviewItems tenantId .impactMapping documentId jobId items →
        t = s ∨ ∃ job ∈ s.jobs .changeReport, job.id = jobId) : ReportsKept t := by
  intro item hitem hsource
  have hreport : ∃ job ∈ s.jobs .changeReport, job.id = item.jobId := by
    cases h.item_origin hitem with
    | kept hmem => exact hkept item hmem hsource
    | @resolved _ _ _ _ old _ hold _ heq =>
      subst heq
      have hreport := hkept old hold hsource
      exact hreport
    | inserted ho =>
      rw [hsource] at ho
      rcases hroutes _ _ _ _ ho with rfl | hreport
      · exact hkept item hitem hsource
      · exact hreport
  obtain ⟨job, hjob, hid⟩ := hreport
  rcases Effect.report_kept h hjob with ⟨job', hjob', hid'⟩ | ⟨documentId, -, hswept, hamended⟩
  · exact ⟨job', hjob', hid'.trans hid⟩
  · -- the sweep took the items of the report with it
    rw [hswept.reviewItems, List.mem_filter] at hitem
    have hgone : item.jobId ∈ s.reportsOfAmendment documentId := by
      rw [← hid, Store.reportsOfAmendment]
      exact List.mem_map_of_mem (List.mem_filter.mpr ⟨hjob, by simpa using hamended⟩)
    simp [hgone] at hitem

section Runs

variable {ι : Type} [DecidableEq ι] {c c' : System ι}

theorem reportsKept_of_step {turn : Turn ι} (hkept : ReportsKept c.store) (hlive : RoutesLive c turn)
    (hstep : System.step c turn = some c') : ReportsKept c'.store := by
  cases turn with
  | act i a =>
    obtain ⟨l, o, next, hi, rfl⟩ := Lib.Pool.step_act_eq_some_iff.mp hstep
    refine reportsKept_of_effect hkept (exec_effect o a l c.store) ?_
    rintro tenantId documentId jobId items rfl
    dsimp only
    rw [exec]
    rcases statement_cases (Store.insertReviewItems tenantId .impactMapping documentId jobId items
      a.ids a.began) a l c.store with ⟨e, heq, -⟩ | ⟨r, t, hl, hserved, hok, heq⟩
    · rw [heq]
      exact .inl rfl
    · obtain ⟨failed⟩ := l
      cases hl
      have hrouting : routing c i = some (documentId, jobId) := by rw [routing, hi]
      have hdocument : (c.store.document? documentId).isSome := by
        simp only [Store.insertReviewItems] at hok
        split at hok
        · cases hok
        next hsome => simpa [Option.isSome_iff_ne_none] using hsome
      obtain ⟨job, hjob⟩ := Option.isSome_iff_exists.mp (hlive _ hrouting hserved hdocument)
      exact .inr ⟨job, Jobs.row?_mem hjob⟩
  | drift elapsed =>
    cases hstep
    exact hkept
  | crash i =>
    cases hstep
    exact hkept

/-- In every run in which the impacts of a report are routed while it is there, every review item
of every state is traced to its job. -/
theorem sourced_of_run [Ucd] [Platform] {members : ι → Option Party} {turns : List (Turn ι)}
    (hlinked : Linked s) (htraced : AllTraced s)
    (hlive : Along System.step RoutesLive (everyone s members) turns)
    (hrun : run System.step (everyone s members) turns = some c) : AllTraced c.store := by
  refine (allTraced_iff (holds_of_run hlinked hrun).1).mpr ?_
  exact Lib.run_invariant_of_along (I := fun c => ReportsKept c.store)
    (fun _ _ _ hkept hlive hstep => reportsKept_of_step hkept hlive hstep)
    ((allTraced_iff hlinked).mp htraced) hlive hrun

end Runs

/-! ## A delete between completion and routing -/

/-- Document 10 and its amendment 11, both parsed, an extracted obligation of document 10, and a
queued report. -/
def reportQueued : Store :=
  { Store.empty 0 with
    documents :=
      [⟨10, 1, "a.txt".toList, Parsing.TEXT_MIME, "a".toList, none, .parsed, 0⟩,
        ⟨11, 1, "b.txt".toList, Parsing.TEXT_MIME, "b".toList, some 10, .parsed, 0⟩]
    texts := [⟨10, 1, "Pay.".toList, []⟩, ⟨11, 1, "Pay now.".toList, []⟩]
    chunks := [⟨40, 1, 10, 0, "Pay.".toList, 0, 4, some []⟩]
    jobs := fun kind => match kind with
      | .ingestion => []
      | .extraction => [{ JobRow.create 20 1 10 none 0 with
          status := .completed, result := some ChangeReport.onePayment.modelDump }]
      | .changeReport => [.create 30 1 10 (some 11) 0]
    issued := [40, 30, 20, 11, 10] }

/-- A worker on the report, and a delete of the amendment. -/
def reportAndDelete : Fin 2 → Option Party
  | 0 => some (.changeReportWorker ⟨"gpt-4o".toList, "text-embedding-3-small".toList⟩ 1)
  | 1 => some (.documents (.delete ⟨[], none⟩ 1 11))

/-- The worker up to the routing of one doubtful impact. -/
def reportTurns : List (Turn (Fin 2)) :=
  [.act 0 {}, .act 0 {}, .act 0 {}, .act 0 {},
    .act 0 { chat := .replied none 0 [some (.changeExplanations [⟨0, [], .low⟩])] },
    .act 0 {}, .act 0 {}, .act 0 { embed := .replied none 0 [(0, [])] }, .act 0 {},
    .act 0 { ranking := [40] }, .act 0 {},
    .act 0 { chat := .replied none 0 [some (.impactMapping [⟨0, 1 / 2⟩])] },
    .act 0 {}, .act 0 {}, .act 0 {}]

/-- The delete up to its commit. -/
def deleteTurns : List (Turn (Fin 2)) := [.act 1 {}, .act 1 {}, .act 1 {}]

theorem reportQueued_linked : Linked reportQueued := by
  have hten : reportQueued.Has 1 10 := ⟨_, List.mem_cons_self, rfl, rfl⟩
  have heleven : reportQueued.Has 1 11 := ⟨_, List.mem_cons_of_mem _ List.mem_cons_self, rfl, rfl⟩
  refine ⟨by decide, by decide, fun d hd parent hparent => ?_, fun row hrow => ?_, fun row hrow => ?_,
    fun k => ?_, fun k job hjob k' job' hjob' hid => ?_, fun k job hjob => ?_, fun job hjob => ?_, nofun⟩
  · simp only [reportQueued, List.mem_cons, List.not_mem_nil, or_false] at hd
    rcases hd with rfl | rfl
    · cases hparent
    · cases hparent
      exact hten
  · simp only [reportQueued, List.mem_cons, List.not_mem_nil, or_false] at hrow
    rcases hrow with rfl | rfl
    · exact hten
    · exact heleven
  · simp only [reportQueued, List.mem_singleton] at hrow
    exact hrow ▸ hten
  · cases k <;> decide
  · cases k <;> cases k' <;> simp_all [reportQueued, JobRow.create]
  · cases k with
    | ingestion => cases hjob
    | extraction =>
      simp only [reportQueued, List.mem_singleton] at hjob
      exact hjob ▸ hten
    | changeReport =>
      simp only [reportQueued, List.mem_singleton] at hjob
      exact hjob ▸ hten
  · simp only [reportQueued, List.mem_singleton] at hjob
    exact ⟨_, List.mem_cons_of_mem _ List.mem_cons_self, by rw [hjob]; rfl, by rw [hjob]; rfl,
      by rw [hjob]; rfl⟩

theorem reportQueued_allTraced : AllTraced reportQueued := nofun

/-- Routed before the delete, the item goes with the report. -/
theorem sourced_of_run_report :
    ∃ c, run System.step (@everyone Ucd.ascii ChangeReport.onePaymentPlatform (Fin 2) reportQueued
        reportAndDelete) (reportTurns ++ [.act 0 { ids := [50] }] ++ deleteTurns) = some c ∧
      AllTraced c.store := by
  have hruns : (run System.step (@everyone Ucd.ascii ChangeReport.onePaymentPlatform (Fin 2)
      reportQueued reportAndDelete)
      (reportTurns ++ [.act 0 { ids := [50] }] ++ deleteTurns)).isSome := by decide +kernel
  obtain ⟨c, hc⟩ := Option.isSome_iff_exists.mp hruns
  exact ⟨c, hc, @sourced_of_run reportQueued (Fin 2) _ c Ucd.ascii ChangeReport.onePaymentPlatform
    _ _ reportQueued_linked reportQueued_allTraced (by decide +kernel) hc⟩

/-- Routed after the delete of the amendment, the item is left without its report. -/
theorem routed_after_delete :
    Linked reportQueued ∧ AllTraced reportQueued ∧
    ∃ c, run System.step (@everyone Ucd.ascii ChangeReport.onePaymentPlatform (Fin 2) reportQueued
        reportAndDelete) (reportTurns ++ deleteTurns ++ [.act 0 { ids := [50] }]) = some c ∧
      ¬ AllTraced c.store := by
  refine ⟨reportQueued_linked, reportQueued_allTraced, ?_⟩
  have hend : ((run System.step (@everyone Ucd.ascii ChangeReport.onePaymentPlatform (Fin 2)
      reportQueued reportAndDelete) (reportTurns ++ deleteTurns ++ [.act 0 { ids := [50] }])).map
        fun c => (c.store.reviewItems.map ReviewItemRow.source,
          (c.store.jobs .changeReport).map JobRow.id)) = some ([.impactMapping], []) := by
    decide +kernel
  obtain ⟨c, hc, hstore⟩ := Option.map_eq_some_iff.mp hend
  refine ⟨c, hc, fun htraced => ?_⟩
  obtain ⟨hsources, hjobs⟩ := Prod.mk.inj hstore
  obtain ⟨item, hitem, hsource⟩ := List.mem_map.mp (hsources ▸ List.mem_singleton_self _)
  obtain ⟨job, hjob, -⟩ := htraced item hitem
  rw [hsource] at hjob
  have hmem := List.mem_map_of_mem (f := JobRow.id) hjob
  rw [show ReviewItemSource.impactMapping.kind = .changeReport from rfl, hjobs] at hmem
  cases hmem

end ContractIntel.ReviewQueue
