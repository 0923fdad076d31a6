import ContractIntel.Laws.Store.Ops
import ContractIntel.Services.Documents
import Mathlib.Data.Fintype.Basic

/-!
# Rows and their files

Uploads and deletes of any number of clients, interleaved step by step and crashing anywhere. An
upload saves its file before it inserts the row, so a row that appears finds its file; what can
take the file away again is a delete whose row is gone already. `backed_of_run` says that this is
the only way to a row without its file, and `reupload_loses_file` that it is one.
-/

namespace ContractIntel.Documents

open Lib (Along Discipline Kept Pool Safe run)
open Repositories

variable [Platform]

/-- The bytes of a content address are in place. -/
def Stored (tenantId : Uuid) (sha256 : Str) (s : Store) : Prop :=
  ∃ content, s.files tenantId sha256 = some content ∧ Platform.sha256 content = sha256

/-- No row without its file. -/
def Backed (s : Store) : Prop := ∀ d ∈ s.documents, Stored d.tenantId d.sha256 s

/-! ## Files in use -/

/-- The file a client is about to unlink. -/
def unlinking : Option (Session × Service Unit) → Option (Uuid × Str)
  | some (_, .op (.unlinkFile tenantId sha256) _) => some (tenantId, sha256)
  | _ => none

/-- The bytes a client has saved and is about to insert a row for. -/
def inserting : Option (Session × Service Unit) → Option (Uuid × Str)
  | some (_, .op (.insertDocument tenantId _ _ sha256 _) _) => some (tenantId, sha256)
  | _ => none

/-- A turn spares the files in use: an unlink that goes through finds neither a committed row with
these bytes nor an upload that saved them and is about to insert its row. -/
def Spares {ι : Type} (c : System ι) : Turn ι → Prop
  | .act i a => ∀ file ∈ unlinking (c.parties i), a.refusal = none →
      (∀ d ∈ c.store.documents, (d.tenantId, d.sha256) ≠ file) ∧
        ∀ j, inserting (c.parties j) ≠ some file
  | _ => True

instance {ι : Type} [Fintype ι] (c : System ι) : (turn : Turn ι) →
    Decidable (Spares c turn)
  | .act i a => inferInstanceAs (Decidable (∀ file ∈ unlinking (c.parties i), a.refusal = none →
      (∀ d ∈ c.store.documents, (d.tenantId, d.sha256) ≠ file) ∧
        ∀ j, inserting (c.parties j) ≠ some file))
  | .drift _ => .isTrue trivial
  | .crash _ => .isTrue trivial

/-! ## Effects -/

section Effects

variable {o : Op} {a : Answer} {s t : Store}

/-- The bytes an operation saves are those of the address it saves them at. -/
def SavesAtAddress (o : Op) : Prop :=
  ∀ tenantId sha256 content, o = .saveFile tenantId sha256 content →
    Platform.sha256 content = sha256

/-- An unlink that goes through. -/
def Unlinks (tenantId : Uuid) (sha256 : Str) (o : Op) (a : Answer) : Prop :=
  o = .unlinkFile tenantId sha256 ∧ a.refusal = none

/-- Stored bytes stay until they are unlinked. -/
theorem stored_of_effect (h : Effect o a s t) (hsave : SavesAtAddress o) {tenantId : Uuid}
    {sha256 : Str} (hstored : Stored tenantId sha256 s) :
    Stored tenantId sha256 t ∨ Unlinks tenantId sha256 o a := by
  by_cases hfiles : o.writesFiles
  · cases h with
    | nothing => exact .inl hstored
    | @saveFile tenant sha content =>
      by_cases hsame : tenantId = tenant ∧ sha256 = sha
      · obtain ⟨rfl, rfl⟩ := hsame
        exact .inl ⟨content, if_pos ⟨rfl, rfl⟩, hsave _ _ _ rfl⟩
      · obtain ⟨old, hold, hsha⟩ := hstored
        exact .inl ⟨old, (if_neg hsame).trans hold, hsha⟩
    | @unlinkFile tenant sha _ _ hserved =>
      by_cases hsame : tenantId = tenant ∧ sha256 = sha
      · obtain ⟨rfl, rfl⟩ := hsame
        exact .inr ⟨rfl, hserved⟩
      · obtain ⟨old, hold, hsha⟩ := hstored
        exact .inl ⟨old, (if_neg hsame).trans hold, hsha⟩
    | _ => cases hfiles
  · obtain ⟨content, hcontent, hsha⟩ := hstored
    exact .inl ⟨content, (congrFun₂ (h.files (by simpa using hfiles)) _ _).trans hcontent, hsha⟩

omit [Platform] in
/-- A row comes from an earlier row with the same address, or it has just been inserted. -/
theorem mem_documents_of_effect (h : Effect o a s t) {d : DocumentRow} (hd : d ∈ t.documents) :
    (∃ old ∈ s.documents, old.tenantId = d.tenantId ∧ old.sha256 = d.sha256) ∨
      ∃ filename mimeType amends,
        o = .insertDocument d.tenantId filename mimeType d.sha256 amends := by
  by_cases hdocuments : o.writesDocuments
  · cases h with
    | nothing => exact .inl ⟨d, hd, rfl, rfl⟩
    | insertDocument =>
      rcases List.mem_append.mp hd with hd | hd
      · exact .inl ⟨d, hd, rfl, rfl⟩
      · cases List.mem_singleton.mp hd
        exact .inr ⟨_, _, _, rfl⟩
    | setDocumentStatus =>
      obtain ⟨old, hold, rfl⟩ := List.mem_map.mp hd
      refine .inl ⟨old, hold, ?_⟩
      split <;> exact ⟨rfl, rfl⟩
    | deleteSweep hswept =>
      rw [(Store.deleteSweep_eq_ok hswept).1] at hd
      exact .inl ⟨d, List.mem_of_mem_filter hd, rfl, rfl⟩
    | _ => cases hdocuments
  · rw [h.documents (by simpa using hdocuments)] at hd
    exact .inl ⟨d, hd, rfl, rfl⟩

theorem backed_of_effect (h : Effect o a s t) (hbacked : Backed s) (hsave : SavesAtAddress o)
    (hinsert : ∀ tenantId filename mimeType sha256 amends,
      o = .insertDocument tenantId filename mimeType sha256 amends → Stored tenantId sha256 s)
    (hunlink : ∀ tenantId sha256, Unlinks tenantId sha256 o a →
      ∀ d ∈ s.documents, (d.tenantId, d.sha256) ≠ (tenantId, sha256)) : Backed t := by
  intro d hd
  rcases mem_documents_of_effect h hd with ⟨old, hold, htenant, hsha⟩ | ⟨_, _, _, rfl⟩
  · have hstored := hbacked old hold
    rw [htenant, hsha] at hstored
    rcases stored_of_effect h hsave hstored with hstored | hunlinks
    · exact hstored
    · exact absurd (Prod.ext htenant hsha) (hunlink _ _ hunlinks old hold)
  · rcases stored_of_effect h hsave (hinsert _ _ _ _ _ rfl) with hstored | ⟨hunlinks, -⟩
    · exact hstored
    · cases hunlinks

end Effects

/-! ## The discipline -/

/-- A request about to insert a row relies on its file; only an unlink takes files away, and it is
performed when nobody relies on the file. -/
def fileDiscipline : Discipline exec Store.tick where
  Inv := Backed
  Rely o s t := ∀ tenantId filename mimeType sha256 amends,
    o = .insertDocument tenantId filename mimeType sha256 amends →
      Stored tenantId sha256 s → Stored tenantId sha256 t
  Guar o a s t := ∀ tenantId sha256, Stored tenantId sha256 s →
    Stored tenantId sha256 t ∨ Unlinks tenantId sha256 o a
  Allowed o a s := ∀ tenantId sha256, Unlinks tenantId sha256 o a →
    ∀ d ∈ s.documents, (d.tenantId, d.sha256) ≠ (tenantId, sha256)
  Clear o a o' := ∀ tenantId sha256, Unlinks tenantId sha256 o a →
    ∀ filename mimeType amends, o' ≠ .insertDocument tenantId filename mimeType sha256 amends
  rely_refl _ _ _ _ _ _ _ _ h := h
  rely_trans _ _ _ _ hst htu _ _ _ _ _ ho h := htu _ _ _ _ _ ho (hst _ _ _ _ _ ho h)
  compat o a o' s t _ _ hguar hclear tenantId filename mimeType sha256 amends ho hstored := by
    rcases hguar tenantId sha256 hstored with hstored | hunlinks
    · exact hstored
    · exact absurd ho (hclear _ _ hunlinks _ _ _)
  drift_inv _ _ h := h
  drift_rely _ _ _ _ _ _ _ _ _ h := h

theorem undisturbed_of_spares {ι : Type} [DecidableEq ι] {c : System ι}
    {turn : Turn ι} (h : Spares c turn) : fileDiscipline.Undisturbed c turn := by
  cases turn with
  | act i a =>
    intro l o next hi
    simp only [Spares, hi] at h
    refine ⟨?_, ?_⟩
    · rintro tenantId sha256 ⟨rfl, hserved⟩
      exact (h _ rfl hserved).1
    · rintro j - l' o' next' hj tenantId sha256 ⟨rfl, hserved⟩ filename mimeType amends rfl
      apply (h _ rfl hserved).2 j
      rw [hj]
      rfl
  | drift d => trivial
  | crash i => trivial

/-- An operation that neither saves a file nor inserts a row keeps the discipline. -/
theorem kept_call {o : Op} (hsave : ∀ tenantId sha256 content, o ≠ .saveFile tenantId sha256 content)
    (hinsert : ∀ tenantId filename mimeType sha256 amends,
      o ≠ .insertDocument tenantId filename mimeType sha256 amends) :
    Kept fileDiscipline (perform o) := by
  apply Kept.call
  intro t a l hbacked hallowed
  have hsave' : SavesAtAddress o := fun _ _ _ ho => absurd ho (hsave _ _ _)
  refine ⟨?_, fun _ _ => stored_of_effect (exec_effect o a l t) hsave'⟩
  exact backed_of_effect (exec_effect o a l t) hbacked hsave'
    (fun _ _ _ _ _ ho => absurd ho (hinsert _ _ _ _ _)) hallowed

/-! ## The checks of an upload -/

section Checks

variable {request : UploadRequest} {content : Parsing.Bytes} {e : Exn}

omit [Platform] in
theorem readChunks_error {maxBytes : Nat} {stream : List Parsing.Bytes}
    (h : readChunks maxBytes stream content = .error e) : e = .uploadTooLargeError maxBytes := by
  fun_induction readChunks maxBytes stream content with
  | case1 => cases h
  | case2 => cases h
  | case3 =>
    cases h
    rfl
  | case4 _ _ _ _ _ ih => exact ih h

/-- `ZipFile` raises on an archive, and not a `BadZipFile`. -/
def ZipRaises (content : Parsing.Bytes) (e : Exn) : Prop :=
  ZIP_MAGIC.isPrefixOf content ∧ ∃ error message,
    Platform.zipNames content = .error (.other error message) ∧ e = .otherError error message

theorem sniffMime_of_zip (h : ZIP_MAGIC.isPrefixOf content) :
    sniffMime content = sniffZip content := by
  have hne : content ≠ [] := by
    rintro rfl
    cases h
  have hpdf : ¬ PDF_MAGIC.isPrefixOf content := by
    cases content with
    | nil => exact absurd rfl hne
    | cons b rest =>
      simp only [ZIP_MAGIC, List.isPrefixOf_cons_cons, Bool.and_eq_true, beq_iff_eq] at h
      simp [PDF_MAGIC, ← h.1]
  rw [sniffMime, if_neg hne, if_neg hpdf, if_pos h]

/-- Sniffing raises exactly what `ZipFile` raises beside `BadZipFile`. -/
theorem sniffMime_eq_error_iff : sniffMime content = .error e ↔ ZipRaises content e := by
  by_cases hzip : ZIP_MAGIC.isPrefixOf content
  · rw [sniffMime_of_zip hzip, sniffZip]
    constructor
    · intro h
      refine ⟨hzip, ?_⟩
      split at h
      · cases h
      next error message hnames =>
        cases h
        exact ⟨error, message, hnames, rfl⟩
      · split at h <;> cases h
    · rintro ⟨-, error, message, hnames, rfl⟩
      rw [hnames]
  · refine iff_of_false (fun h => ?_) fun h => hzip h.1
    rw [sniffMime, if_neg hzip] at h
    repeat' split at h
    all_goals cases h

/-- How the checks of an upload end. -/
inductive UploadCheck (request : UploadRequest) : Except Exn (Str × Parsing.Bytes) → Prop
  | notAllowed (sniffed : Option Str) :
    UploadCheck request (.error (.mimeNotAllowedError request.contentType sniffed))
  | tooLarge : UploadCheck request (.error (.uploadTooLargeError request.maxBytes))
  | unlistable {content : Parsing.Bytes} {e : Exn}
    (hallowed : request.contentType.any (· ∈ ALLOWED_MIME_TYPES))
    (hread : readChunks request.maxBytes request.stream [] = .ok content)
    (hraises : ZipRaises content e) : UploadCheck request (.error e)
  | accepted (content : Parsing.Bytes) :
    UploadCheck request (.ok (Platform.sha256 content, content))

theorem checkUpload_ends (request : UploadRequest) : UploadCheck request (checkUpload request) := by
  by_cases hallowed : request.contentType.any (· ∈ ALLOWED_MIME_TYPES)
  · cases hread : readChunks request.maxBytes request.stream [] with
    | error e =>
      obtain rfl := readChunks_error hread
      simpa [checkUpload, hallowed, readUpload, hread, bind, Except.bind] using .tooLarge
    | ok content =>
      cases hsniffed : sniffMime content with
      | error e =>
        have hends := UploadCheck.unlistable hallowed hread (sniffMime_eq_error_iff.mp hsniffed)
        simpa [checkUpload, hallowed, readUpload, hread, hsniffed, bind, Except.bind, pure,
          Except.pure] using hends
      | ok sniffed =>
        by_cases hsame : sniffed = request.contentType
        · simpa [checkUpload, hallowed, readUpload, hread, hsniffed, hsame, bind, Except.bind, pure,
            Except.pure] using .accepted content
        · simpa [checkUpload, hallowed, readUpload, hread, hsniffed, hsame, bind, Except.bind, pure,
            Except.pure, throw, throwThe, MonadExceptOf.throw] using .notAllowed sniffed
  · simpa [checkUpload, hallowed, bind, Except.bind, throw, throwThe, MonadExceptOf.throw] using
      .notAllowed none

/-- The digest of an upload is that of its content. -/
theorem checkUpload_sha256 {sha256 : Str} (h : checkUpload request = .ok (sha256, content)) :
    Platform.sha256 content = sha256 := by
  have hends := h ▸ checkUpload_ends request
  cases hends
  rfl

end Checks

/-! ## Requests keep the discipline -/

theorem checkParent_kept (request : UploadRequest) : Kept fileDiscipline (checkParent request) := by
  unfold checkParent
  cases request.amendsDocumentId with
  | none => exact .ret _
  | some parent =>
    apply Kept.bind (kept_call (by simp) (by simp))
    intro found
    cases found with
    | none => exact .raise _
    | some document => exact .ret _

/-- A save that went through leaves the bytes in place. -/
theorem stored_of_saveFile {tenantId : Uuid} {content : Parsing.Bytes} {a : Answer} {l : Session}
    {s : Store} {r : Unit}
    (h : (exec (.saveFile tenantId (Platform.sha256 content) content) a l s).1 = .ok r) :
    Stored tenantId (Platform.sha256 content)
      (exec (.saveFile tenantId (Platform.sha256 content) content) a l s).2.2 := by
  rcases fileCall_cases
    (fun s => .ok ((), s.setFile tenantId (Platform.sha256 content) (some content))) a l s with
    ⟨e, heq⟩ | ⟨r, t, -, hok, heq⟩
  · rw [exec, heq] at h
    cases h
  · cases hok
    rw [exec, heq]
    exact ⟨content, if_pos ⟨rfl, rfl⟩, rfl⟩

theorem refreshDocument_kept (documentId : Uuid) :
    Kept fileDiscipline (refreshDocument documentId) := by
  apply Kept.bind (kept_call (by simp) (by simp))
  intro found
  cases found with
  | none => exact .raise _
  | some document => exact .ret _

/-- Once the bytes are stored, the row may be inserted. -/
theorem createDocument_safe {tenantId : Uuid} (filename mimeType : Str) {sha256 : Str}
    (amends : Option Uuid) (l : Session) {s : Store} (hstored : Stored tenantId sha256 s) :
    Safe fileDiscipline (createDocument tenantId filename mimeType sha256 amends) l s
      fun _ _ _ => True := by
  apply Safe.bind.mpr
  refine Safe.call.mpr fun t a hrely hbacked hallowed => ?_
  have heffect := exec_effect (.insertDocument tenantId filename mimeType sha256 amends) a l t
  have hsave : SavesAtAddress (.insertDocument tenantId filename mimeType sha256 amends) :=
    fun _ _ _ ho => by cases ho
  refine ⟨?_, fun _ _ => stored_of_effect heffect hsave, ?_⟩
  · refine backed_of_effect heffect hbacked hsave ?_ hallowed
    intro tenant name mime sha parent ho
    cases ho
    exact hrely _ _ _ _ _ rfl hstored
  · split
    · exact refreshDocument_kept _ _ _
    · trivial

theorem insertUploaded_safe (request : UploadRequest) {sha256 : Str} (l : Session) {s : Store}
    (hstored : Stored request.tenantId sha256 s) :
    Safe fileDiscipline (insertUploaded request sha256) l s fun _ _ _ => True := by
  apply Safe.tryCatch.mpr
  refine (createDocument_safe _ _ _ l hstored).mono fun res l' t _ => ?_
  cases res with
  | ok document => trivial
  | error e =>
    dsimp only
    split
    · refine Kept.bind (kept_call (by simp) (by simp)) (fun _ => ?_) l' t
      exact .bind (kept_call (by simp) (by simp)) fun _ => .raise _
    · trivial

theorem store_kept (request : UploadRequest) (content : Parsing.Bytes) :
    Kept fileDiscipline (store request (Platform.sha256 content) content) := by
  intro l s
  apply Safe.bind.mpr
  refine Safe.call.mpr fun t a _ hbacked hallowed => ?_
  have heffect :=
    exec_effect (.saveFile request.tenantId (Platform.sha256 content) content) a l t
  have hsave : SavesAtAddress (.saveFile request.tenantId (Platform.sha256 content) content) := by
    rintro _ _ _ ⟨⟩
    rfl
  refine ⟨?_, fun _ _ => stored_of_effect heffect hsave, ?_⟩
  · exact backed_of_effect heffect hbacked hsave (fun _ _ _ _ _ ho => by cases ho) hallowed
  · split
    next hok => exact insertUploaded_safe request _ (stored_of_saveFile hok)
    · trivial

theorem uploadDocument_kept (context : RequestContext) (request : UploadRequest) :
    Kept fileDiscipline (uploadDocument context request) := by
  unfold uploadDocument
  cases hcheck : checkUpload request with
  | error e => exact .raise _
  | ok checked =>
    obtain ⟨sha256, content⟩ := checked
    cases checkUpload_sha256 hcheck
    apply Kept.bind (checkParent_kept request)
    intro _
    apply Kept.bind (kept_call (by simp) (by simp))
    intro existing
    cases existing with
    | some document => exact .raise _
    | none =>
      apply Kept.bind (store_kept request content)
      intro document
      exact .bind (kept_call (by simp) (by simp)) fun _ => .ret _

theorem sweep_kept (documentId : Uuid) : Kept fileDiscipline (sweep documentId) := by
  apply Kept.tryCatch (kept_call (by simp) (by simp))
  intro e
  split
  · apply Kept.bind (kept_call (by simp) (by simp))
    intro _
    apply Kept.bind (kept_call (by simp) (by simp))
    intro amended
    cases amended <;> exact .raise _
  · exact .raise _

theorem deleteDocument_kept (context : RequestContext) (tenantId documentId : Uuid) :
    Kept fileDiscipline (deleteDocument context tenantId documentId) := by
  refine Kept.bind (.bind (kept_call (by simp) (by simp)) fun found => ?_) fun document => ?_
  · cases found with
    | none => exact .raise _
    | some document => exact .ret _
  · apply Kept.bind (kept_call (by simp) (by simp))
    intro amended
    cases amended with
    | true => exact .raise _
    | false =>
      apply Kept.bind (sweep_kept document.id)
      intro _
      apply Kept.bind (kept_call (by simp) (by simp))
      intro _
      exact kept_call (by simp) (by simp)

theorem Request.program_kept (request : Request) : Kept fileDiscipline request.program := by
  cases request with
  | upload context request => exact .bind (uploadDocument_kept context request) fun _ => .ret _
  | delete context tenantId documentId => exact deleteDocument_kept context tenantId documentId

/-! ## Runs -/

/-- In every run in which the unlinks spare the files in use, no state has a row without its
file. -/
theorem backed_of_run {ι : Type} [DecidableEq ι] {requests : ι → Option Request} {s : Store}
    {turns : List (Turn ι)} {c : System ι} (hbacked : Backed s)
    (hspares : Along System.step Spares (clients s requests) turns)
    (hrun : run System.step (clients s requests) turns = some c) : Backed c.store := by
  have hstart : fileDiscipline.Holds (clients s requests) := by
    refine ⟨hbacked, fun i l p hi => ?_⟩
    obtain ⟨program, hprogram, heq⟩ := Option.map_eq_some_iff.mp hi
    obtain ⟨request, -, rfl⟩ := Option.map_eq_some_iff.mp hprogram
    cases heq
    exact request.program_kept _ _
  exact (hstart.run (hspares.mono fun _ _ h => undisturbed_of_spares h) hrun).1

omit [Platform]

/-- A platform on which one file is ever hashed. -/
@[reducible] def onePdf : Platform where
  pdfPages _ := .ok []
  docxParagraphs _ := .ok []
  decodeMessage _ := []
  sha256 content :=
    if content = PDF_MAGIC then
      "38523c087796e5d5dd1cf9bad1fb026781a838dd9dd2cf8af58b9f6502a46778".toList
    else []
  zipNames _ := .error .badZipFile
  validateExtraction _ := none

/-- An upload of the five bytes by tenant 1. -/
def pdfUpload : UploadRequest :=
  ⟨1, some "a.pdf".toList, some Parsing.PDF_MIME, [PDF_MAGIC], 100, none⟩

/-- An upload, and a delete of its document. -/
def deleteRequests : Fin 2 → Option Request
  | 0 => some (.upload ⟨[], none⟩ pdfUpload)
  | 1 => some (.delete ⟨[], none⟩ 1 10)

/-- The upload crashes after its row; the delete runs to the end of the unlink. -/
def deleteTurns : List (Turn (Fin 2)) :=
  [.act 0 {}, .act 0 {}, .act 0 { ids := [10] }, .crash 0, .drift 5, .act 1 {}, .act 1 {},
    .act 1 {}, .act 1 {}]

theorem backed_of_run_delete :
    ∃ c, run System.step (@clients onePdf (Fin 2) (.empty 0) deleteRequests) deleteTurns = some c ∧
      @Backed onePdf c.store := by
  have hruns : (run System.step (@clients onePdf (Fin 2) (.empty 0) deleteRequests)
      deleteTurns).isSome := by decide +kernel
  obtain ⟨c, hc⟩ := Option.isSome_iff_exists.mp hruns
  have hempty : @Backed onePdf (.empty 0) := fun _ hd => absurd hd List.not_mem_nil
  exact ⟨c, hc, @backed_of_run onePdf (Fin 2) _ _ _ _ _ hempty (by decide +kernel) hc⟩

/-- Two uploads of the same bytes, and between them a delete of the first one's document. -/
def reuploadRequests : Nat → Option Request
  | 0 => some (.upload ⟨[], none⟩ pdfUpload)
  | 1 => some (.delete ⟨[], none⟩ 1 10)
  | 2 => some (.upload ⟨[], none⟩ pdfUpload)
  | _ => none

/-- The first upload runs up to its row. The delete commits the row's removal; before it unlinks
the file, the second upload runs up to its row. -/
def reuploadTurns : List (Turn Nat) :=
  [.act 0 {}, .act 0 {}, .act 0 { ids := [10] }, .act 1 {}, .act 1 {}, .act 1 {}, .act 2 {},
    .act 2 {}, .act 2 { ids := [11] }, .act 1 {}]

/-- The unlink of a delete takes the file of a row that was committed after the delete's own. -/
theorem reupload_loses_file :
    ∃ c, run System.step (@clients onePdf Nat (.empty 0) reuploadRequests) reuploadTurns =
      some c ∧ ¬ @Backed onePdf c.store := by
  have hend : ((run System.step (@clients onePdf Nat (.empty 0) reuploadRequests)
      reuploadTurns).map fun c => c.store.documents.map fun d =>
        c.store.files d.tenantId d.sha256) = some [none] := by decide +kernel
  obtain ⟨c, hc, hfiles⟩ := Option.map_eq_some_iff.mp hend
  refine ⟨c, hc, fun hbacked => ?_⟩
  obtain ⟨d, hd, hnone⟩ := List.mem_map.mp (hfiles ▸ List.mem_singleton_self none)
  obtain ⟨content, hcontent, -⟩ := hbacked d hd
  rw [hnone] at hcontent
  cases hcontent

end ContractIntel.Documents
