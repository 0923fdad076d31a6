import ContractIntel.Laws.Services.Documents
import ContractIntel.Laws.Services.Links

/-!
# What a delete takes along

On a store that whole operations led to, a delete that returns has removed the document with
everything that refers to it, and nothing else. A delete that raises has changed nothing, unless the
database or the file system refused a step after the commit (`delete_is_whole`). The constraint on a
report's base cannot fire: a report's pair is a live amendment, which the delete checks for.
-/

namespace ContractIntel.Documents

open Jobs (JobRow)
open Lib (Every every_iff_runs replay runs_of_replay)

variable {env : Store → Store → Prop} {tenantId documentId : Uuid} {s t : Store}

/-! ## Reached stores -/

theorem linked_of_whole [Ucd] [Platform] (h : Whole s) : Linked s := by
  induction h with
  | empty now => exact .empty now
  | tick _ elapsed ih => exact ih.tick elapsed
  | step _ party hruns ih =>
    refine ((every_iff_runs _ _ _ _).mp ((party.program_linked ⟨false⟩ _).every ih ?_ ?_)
      _ _ _ _ hruns).1
    · exact fun s t heq h => heq ▸ ⟨h, fun _ => .refl _⟩
    · exact fun _ _ _ => trivial

/-- A report whose base is the document has an amendment of the document. -/
theorem hasAmendments_of_report (h : Linked s) {job : JobRow} (hjob : job ∈ s.jobs .changeReport)
    (hbase : job.documentId = documentId) : s.hasAmendments documentId = true := by
  obtain ⟨d, hd, -, -, hparent⟩ := h.reports job hjob
  exact List.any_eq_true.mpr ⟨d, hd, by simpa [hbase] using hparent⟩

/-! ## What is left -/

/-- No row refers to the document, and no review item to a report that went with it. -/
structure Unreferenced (documentId : Uuid) (s t : Store) : Prop where
  documents : ∀ d ∈ t.documents, d.id ≠ documentId ∧ d.amendsDocumentId ≠ some documentId
  texts : ∀ row ∈ t.texts, row.documentId ≠ documentId
  chunks : ∀ row ∈ t.chunks, row.documentId ≠ documentId
  jobs : ∀ kind, ∀ job ∈ t.jobs kind, job.documentId ≠ documentId
  reports : ∀ job ∈ t.jobs .changeReport, job.amendedDocumentId ≠ some documentId
  items : ∀ item ∈ t.reviewItems, item.documentId ≠ documentId ∧
    ∀ job ∈ s.jobs .changeReport, job.amendedDocumentId = some documentId → item.jobId ≠ job.id

theorem Swept.unreferenced (h : Swept documentId s t) : Unreferenced documentId s t := by
  refine ⟨fun d hd => ?_, fun row hrow => ?_, fun row hrow => ?_, fun kind job hjob =>
    (h.mem_jobs hjob).2, fun job hjob => ?_, fun item hitem => ?_⟩
  · rw [h.documents, List.mem_filter] at hd
    exact ⟨by simpa using hd.2, h.spared d hd.1⟩
  · rw [h.texts, List.mem_filter] at hrow
    simpa using hrow.2
  · rw [h.chunks, List.mem_filter] at hrow
    simpa using hrow.2
  · rw [h.reports, List.mem_filter] at hjob
    simpa using hjob.2
  · rw [h.reviewItems, List.mem_filter] at hitem
    simp only [Bool.and_eq_true, decide_eq_true_eq] at hitem
    refine ⟨hitem.2.2, fun job hjob hamended heq => hitem.2.1 ?_⟩
    rw [heq, Store.reportsOfAmendment]
    exact List.mem_map_of_mem (List.mem_filter.mpr ⟨hjob, by simpa using hamended⟩)

/-- The store after a delete of a document: the sweep, the unlinked file, the audit row. -/
structure Erased (d : DocumentRow) (s t : Store) : Prop where
  rows : ∃ swept row, Swept d.id s swept ∧ t =
    { swept.setFile d.tenantId d.sha256 none with audit := s.audit ++ [row] }
  file : t.files d.tenantId d.sha256 = none
  unreferenced : Unreferenced d.id s t

theorem Erased.of_swept {d : DocumentRow} {swept : Store} (h : Swept d.id s swept) (row : AuditRow)
    (ht : t = { swept.setFile d.tenantId d.sha256 none with audit := swept.audit ++ [row] }) :
    Erased d s t := by
  have haudit : swept.audit = s.audit := by rw [h.rest]
  subst ht
  refine ⟨⟨swept, row, h, by rw [haudit]⟩, if_pos ⟨rfl, rfl⟩, ?_⟩
  exact ⟨(Swept.unreferenced h).documents, (Swept.unreferenced h).texts,
    (Swept.unreferenced h).chunks, (Swept.unreferenced h).jobs, (Swept.unreferenced h).reports,
    (Swept.unreferenced h).items⟩

/-! ## Steps -/

/-- The world refuses a step. -/
def Refused (e : Exn) : Prop := ∃ reason, e = .osError reason ∨ e = .databaseError reason

/-- On a live session a statement that raises is refused, or its transaction fails. -/
theorem statement_live {α : Type} (body : Store → Except Exn (α × Store)) (a : Answer)
    {l : Session} (hl : l.failed = false) (s : Store) :
    (∃ e, statement body a l s = (.error e, ⟨true⟩, s) ∧ (Refused e ∨ body s = .error e)) ∨
      ∃ r t, body s = .ok (r, t) ∧ statement body a l s = (.ok r, l, t) := by
  simp only [statement, hl, Bool.false_eq_true, if_false]
  split
  next reason _ => exact .inl ⟨_, rfl, .inl ⟨reason, .inr rfl⟩⟩
  next =>
    split
    next r t hbody => exact .inr ⟨r, t, hbody, rfl⟩
    next e hbody => exact .inl ⟨e, rfl, .inr hbody⟩

theorem query_live {α : Type} (read : Store → α) (a : Answer) {l : Session} (hl : l.failed = false)
    (s : Store) : (∃ e, query read a l s = (.error e, ⟨true⟩, s) ∧ Refused e) ∨
      query read a l s = (.ok (read s), l, s) := by
  rcases statement_live (fun s => .ok (read s, s)) a hl s with
    ⟨e, heq, hrefused | hbody⟩ | ⟨r, t, hok, heq⟩
  · exact .inl ⟨e, heq, hrefused⟩
  · cases hbody
  · cases hok
    exact .inr heq

theorem fileCall_live {α : Type} (body : Store → Except Exn (α × Store)) (a : Answer) (l : Session)
    (s : Store) :
    (∃ e, fileCall body a l s = (.error e, l, s) ∧ (Refused e ∨ body s = .error e)) ∨
      ∃ r t, body s = .ok (r, t) ∧ fileCall body a l s = (.ok r, l, t) := by
  unfold fileCall
  split
  next reason _ => exact .inl ⟨_, rfl, .inl ⟨reason, .inl rfl⟩⟩
  next =>
    split
    next r t hbody => exact .inr ⟨r, t, hbody, rfl⟩
    next e hbody => exact .inl ⟨e, rfl, .inr hbody⟩

/-- What a delete does after its commit. -/
def unlinkAndRecord (context : RequestContext) (tenantId : Uuid) (document : DocumentRow) :
    Service Unit := do
  let _removed ← perform (.unlinkFile tenantId document.sha256)
  perform (.insertAudit tenantId context.actor context.requestId "document.delete".toList
    "document".toList (some document.id)
    (some (.obj [("filename".toList, .str document.filename),
      ("sha256".toList, .str document.sha256)])))

theorem unlinkAndRecord_run (context : RequestContext) (document : DocumentRow) {l : Session}
    (hl : l.failed = false) :
    Every exec env (unlinkAndRecord context tenantId document) l s fun _ res _ t =>
      (∀ e, res = .error e → Refused e) ∧ (res = .ok () → ∃ u v row, env s u ∧
        env (u.setFile tenantId document.sha256 none) v ∧ t = { v with audit := v.audit ++ [row] }) := by
  refine Every.bind.mpr (Every.call.mpr fun u a hu => ?_)
  rcases fileCall_live (fun s => .ok ((s.files tenantId document.sha256).isSome,
    s.setFile tenantId document.sha256 none)) a l u with
    ⟨e, heq, hrefused | hbody⟩ | ⟨r, w, hok, heq⟩
  · rw [exec, heq]
    refine ⟨?_, fun h => by cases h⟩
    rintro _ ⟨⟩
    exact hrefused
  · cases hbody
  · rw [exec, heq]
    cases hok
    refine Every.call.mpr fun v b hv => ?_
    rw [exec, insert]
    rcases statement_live _ b hl v with ⟨e, heq, hrefused | hbody⟩ | ⟨_, _, hok, heq⟩
    · rw [heq]
      refine ⟨?_, fun h => by cases h⟩
      rintro _ ⟨⟩
      exact hrefused
    · cases hbody
    · rw [heq]
      cases hok
      exact ⟨(fun _ h => by cases h), fun _ => ⟨u, v, _, hu, hv, rfl⟩⟩

/-! ## A delete that raises -/

section Raises

theorem getDocument_unchanged {l : Session} (hl : l.failed = false) :
    Every exec env (getDocument tenantId documentId) l s fun _ res l' t =>
      env s t ∧ (∀ d, res = .ok d → l'.failed = false) := by
  refine Every.bind.mpr (Every.call.mpr fun moved a hmoved => ?_)
  rcases query_live (Store.findDocument tenantId documentId) a hl moved with ⟨e, heq, -⟩ | heq
  · rw [exec, heq]
    exact ⟨hmoved, fun _ h => by cases h⟩
  · rw [exec, heq]
    dsimp only
    cases Store.findDocument tenantId documentId moved with
    | none => exact ⟨hmoved, fun _ h => by cases h⟩
    | some d => exact ⟨hmoved, fun _ _ => hl⟩

variable (trans : ∀ s t u, env s t → env t u → env s u)

include trans

theorem sweep_raises {l : Session} (hl : l.failed = false) :
    Every exec env (sweep documentId) l s fun _ res l' t =>
      (∀ e, res = .error e → env s t) ∧ (res = .ok () → l'.failed = false) := by
  refine Every.tryCatch.mpr (Every.call.mpr fun moved a hmoved => ?_)
  rcases statement_live (Store.deleteSweep documentId) a hl moved with
    ⟨e, heq, -⟩ | ⟨r, t, -, heq⟩
  · rw [exec, heq]
    dsimp only
    split
    · refine Every.bind.mpr (Every.call.mpr fun moved' a' hmoved' => ?_)
      refine Every.bind.mpr (Every.call.mpr fun moved'' a'' hmoved'' => ?_)
      have hsame : env s moved'' := trans _ _ _ (trans _ _ _ hmoved hmoved') hmoved''
      rcases query_live (Store.hasAmendments documentId) a'' (l := ⟨false⟩) rfl moved'' with
        ⟨e, heq, -⟩ | heq
      · rw [exec, exec, heq]
        exact ⟨fun _ _ => hsame, fun h => by cases h⟩
      · rw [exec, exec, heq]
        dsimp only
        split <;> exact ⟨fun _ _ => hsame, fun h => by cases h⟩
    · exact ⟨fun _ _ => hmoved, fun h => by cases h⟩
  · rw [exec, heq]
    exact ⟨(fun _ h => by cases h), fun _ => hl⟩

/-- A delete that raises leaves the store to the environment, unless the world refused a step. -/
theorem deleteDocument_raises (context : RequestContext) :
    Every exec env (deleteDocument context tenantId documentId) ⟨false⟩ s fun _ res _ t =>
      ∀ e, res = .error e → env s t ∨ Refused e := by
  unfold deleteDocument
  refine Every.bind.mpr ((getDocument_unchanged rfl).mono ?_)
  rintro _ res l t ⟨hsame, hlive⟩
  cases res with
  | error e => exact fun _ _ => .inl hsame
  | ok document =>
    have hl := hlive document rfl
    refine Every.bind.mpr (Every.call.mpr fun moved a hmoved => ?_)
    have hsame' : env s moved := trans _ _ _ hsame hmoved
    rcases query_live (Store.hasAmendments documentId) a hl moved with ⟨e, heq, -⟩ | heq
    · rw [exec, heq]
      exact fun _ _ => .inl hsame'
    · rw [exec, heq]
      dsimp only
      split
      · exact fun _ _ => .inl hsame'
      · refine Every.bind.mpr ((sweep_raises trans hl).mono ?_)
        rintro _ res l' u ⟨hkept, hlive'⟩
        cases res with
        | error e => exact fun _ _ => .inl (trans _ _ _ hsame' (hkept e rfl))
        | ok _ =>
          refine (unlinkAndRecord_run context document (hlive' rfl)).mono ?_
          exact fun _ _ _ _ hrest e he => .inr (hrest.1 e he)

end Raises

/-! ## A delete that returns -/

/-- The sweep of a live document without amendments goes through unless it is refused. -/
theorem sweep_alone (hlinked : Linked s) (hfree : s.hasAmendments documentId = false) {l : Session}
    (hl : l.failed = false) :
    Every exec Eq (sweep documentId) l s fun _ res l' t =>
      (∀ e, res = .error e → Refused e) ∧
        (res = .ok () → l'.failed = false ∧ Swept documentId s t) := by
  refine Every.tryCatch.mpr (Every.call.mpr ?_)
  rintro moved a rfl
  rcases statement_live (Store.deleteSweep documentId) a hl s with
    ⟨e, heq, hrefused | hbody⟩ | ⟨r, t, hok, heq⟩
  · rw [exec, heq]
    obtain ⟨reason, rfl | rfl⟩ := hrefused
    · exact ⟨fun _ h => by cases h; exact ⟨reason, .inl rfl⟩, fun h => by cases h⟩
    · exact ⟨fun _ h => by cases h; exact ⟨reason, .inr rfl⟩, fun h => by cases h⟩
  · -- what the constraints protect is an amendment, and there is none
    rcases s.deleteSweep_cases documentId with
      ⟨t, hok, -⟩ | ⟨-, ⟨d, hd, hparent⟩ | ⟨job, hjob, -, hbase⟩⟩
    · rw [hok] at hbody
      cases hbody
    · have hamended : s.hasAmendments documentId = true :=
        List.any_eq_true.mpr ⟨d, hd, by simpa using hparent⟩
      rw [hamended] at hfree
      cases hfree
    · rw [hasAmendments_of_report hlinked hjob hbase] at hfree
      cases hfree
  · rw [exec, heq]
    exact ⟨(fun _ h => by cases h), fun _ => ⟨hl, Store.swept_of_deleteSweep hok⟩⟩

/-- What the world refuses erases nothing, and is no violated constraint. -/
theorem outcome_of_refused {P : Prop} {e : Exn} (h : Refused e) :
    ((.error e : Except Exn Unit) = .ok () → P) ∧
      (.error e : Except Exn Unit) ≠ .error .integrityError := by
  obtain ⟨reason, rfl | rfl⟩ := h
  · exact ⟨nofun, nofun⟩
  · exact ⟨nofun, nofun⟩

theorem deleteDocument_alone (hlinked : Linked s) (context : RequestContext) :
    Every exec Eq (deleteDocument context tenantId documentId) ⟨false⟩ s fun _ res _ t =>
      (res = .ok () → ∃ d ∈ s.documents, d.id = documentId ∧ d.tenantId = tenantId ∧ Erased d s t) ∧
        res ≠ .error .integrityError := by
  unfold deleteDocument getDocument
  refine Every.bind.mpr (Every.bind.mpr (Every.call.mpr ?_))
  rintro moved a rfl
  rcases query_live (Store.findDocument tenantId documentId) a (l := ⟨false⟩) rfl s with
    ⟨e, heq, hrefused⟩ | heq
  · rw [exec, heq]
    exact outcome_of_refused hrefused
  · rw [exec, heq]
    dsimp only
    cases hfind : Store.findDocument tenantId documentId s with
    | none => exact ⟨(fun h => by cases h), fun h => by cases h⟩
    | some d =>
      obtain ⟨hd, hid, htenant⟩ := has_of_findDocument hfind
      refine Every.bind.mpr (Every.call.mpr ?_)
      rintro moved a' rfl
      rcases query_live (Store.hasAmendments documentId) a' (l := ⟨false⟩) rfl s with
        ⟨e, heq, hrefused⟩ | heq
      · rw [exec, heq]
        exact outcome_of_refused hrefused
      · rw [exec, heq]
        dsimp only
        split
        · exact ⟨(fun h => by cases h), fun h => by cases h⟩
        next hfree =>
          rw [Bool.not_eq_true, ← hid] at hfree
          refine Every.bind.mpr ((sweep_alone hlinked hfree rfl).mono ?_)
          rintro _ res l u ⟨hraised, hswept⟩
          cases res with
          | error e => exact outcome_of_refused (hraised e rfl)
          | ok _ =>
            obtain ⟨hl, hswept⟩ := hswept rfl
            refine (unlinkAndRecord_run context d hl).mono ?_
            rintro _ res _ t ⟨hraised, hrest⟩
            refine ⟨fun hres => ?_, fun hres => (outcome_of_refused (P := False) (hraised _ hres)).2 rfl⟩
            obtain ⟨_, _, row, rfl, rfl, ht⟩ := hrest hres
            exact ⟨d, hd, hid, htenant, .of_swept hswept row (htenant ▸ ht)⟩

/-- On a store that whole operations led to, a delete that returns has erased the document and all
that referred to it and left every other row; the reports never stand in its way. A delete that
raises, whatever others do meanwhile, has changed nothing itself, unless the world refused a step. -/
theorem delete_is_whole [Ucd] [Platform] (hreached : Whole s) (context : RequestContext)
    (tenantId documentId : Uuid) :
    Every exec Eq (deleteDocument context tenantId documentId) ⟨false⟩ s (fun _ res _ t =>
      (res = .ok () → ∃ d ∈ s.documents, d.id = documentId ∧ d.tenantId = tenantId ∧ Erased d s t) ∧
        res ≠ .error .integrityError) ∧
    ∀ env : Store → Store → Prop, (∀ s t u, env s t → env t u → env s u) →
      Every exec env (deleteDocument context tenantId documentId) ⟨false⟩ s fun _ res _ t =>
        ∀ e, res = .error e → env s t ∨ Refused e :=
  ⟨deleteDocument_alone (linked_of_whole hreached) context, fun _ trans =>
    deleteDocument_raises trans context⟩

/-- An upload of the five bytes, alone, and then a delete of its document. -/
def uploadThenDelete : Option (Except Exn Unit × Store × Store) :=
  (replay exec (@Request.program onePdf (.upload ⟨[], none⟩ pdfUpload)) ⟨false⟩ (.empty 0)
    [{}, {}, { ids := [10] }, {}, {}]).bind fun uploaded =>
      (replay exec (deleteDocument ⟨[], none⟩ 1 10) ⟨false⟩ uploaded.2.2.2
        [{}, {}, {}, {}, {}]).map fun deleted =>
          (deleted.2.1, uploaded.2.2.2, deleted.2.2.2)

theorem delete_is_whole_upload : ∃ s t, @Whole Ucd.ascii onePdf s ∧
    ∃ d ∈ s.documents, d.id = 10 ∧ d.tenantId = 1 ∧ Erased d s t := by
  have hruns : (uploadThenDelete.map fun r => r.1.isOk) = some true := by decide +kernel
  obtain ⟨out, hr, hok⟩ := Option.map_eq_some_iff.mp hruns
  unfold uploadThenDelete at hr
  obtain ⟨⟨_, _, _, s⟩, hupload, hrest⟩ := Option.bind_eq_some_iff.mp hr
  obtain ⟨⟨_, res, _, t⟩, hdelete, heq⟩ := Option.map_eq_some_iff.mp hrest
  cases heq
  let := Ucd.ascii
  let := onePdf
  have hreached : Whole s := .step (.empty 0) (.documents (.upload ⟨[], none⟩ pdfUpload))
    (runs_of_replay (fun _ => rfl) hupload)
  have hdeleted := (every_iff_runs _ _ _ _).mp (delete_is_whole hreached ⟨[], none⟩ 1 10).1
    _ _ _ _ (runs_of_replay (fun _ => rfl) hdelete)
  cases res with
  | error e => cases hok
  | ok _ => exact ⟨s, t, hreached, hdeleted.1 rfl⟩

end ContractIntel.Documents
