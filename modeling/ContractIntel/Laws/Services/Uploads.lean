import ContractIntel.Laws.Services.Documents
import ContractIntel.Laws.Services.Outcomes
import ContractIntel.Laws.Services.Party
import ContractIntel.Lib.Watch

/-!
# What an upload says of its failure

The table of documents has two constraints, and an upload takes the violation of either for a lost
race against an upload of the same bytes. When its parent is deleted between the parent check and the
insert, and no row has the digest, it is the foreign key that is violated, and the caller is told that
the document exists already. In all other interleavings the upload tells the truth
(`upload_errors_true_iff`).
-/

namespace ContractIntel.Documents

open Lib (Every Pool run watched)
open Lib.Prog (Performs)
open Repositories

/-- An operation of a party, with the store it found. -/
abbrev Moment := Lib.Moment Op Op.Res Exn Answer Store

/-- A session that remembers its operations. -/
abbrev WatchedSession := Session × List Moment

def Op.inserts : Op → Bool
  | .insertDocument .. => true
  | _ => false

variable [Platform]

/-- A row of the tenant has the digest of the upload's bytes. -/
def Duplicated (request : UploadRequest) (s : Store) : Prop :=
  ∃ checked, checkUpload request = .ok checked ∧
    (s.findDocumentBySha256 request.tenantId checked.1).isSome

omit [Platform] in
/-- The check or insert an upload fails at: the insert if it comes to that, else the last thing it
does. -/
def failing (log : List Moment) : Option Moment :=
  (log.find? fun m => Op.inserts m.op).or log.getLast?

/-- The insert reaches the database when the named parent is gone and no row has the digest: of the
two constraints only the foreign key is violated. -/
structure LosesParent (request : UploadRequest) (m : Moment) : Prop where
  inserts : Op.inserts m.op
  served : m.answer.refusal = none
  gone : ∃ parent, request.amendsDocumentId = some parent ∧ m.store.document? parent = none
  unique : ¬ Duplicated request m.store

/-- The error of an upload is true: it is said to exist only if it did at the check or insert that
failed, and an insert that failed for its parent says so. -/
structure Truthful {α : Type} (request : UploadRequest) (log : List Moment) (res : Except Exn α) :
    Prop where
  existing : ∀ id, res = .error (.documentAlreadyExistsError id) →
    ∃ m, failing log = some m ∧ Duplicated request m.store
  parent : ∀ m ∈ log, LosesParent request m →
    ∃ parent, request.amendsDocumentId = some parent ∧ res = .error (.documentNotFoundError parent)

section Logs

variable {α : Type} {request : UploadRequest} {log before after : List Moment} {m : Moment}
  {res : Except Exn α}

/-- The log is true exactly if no insert loses its parent. -/
abbrev TrueIff (request : UploadRequest) (log : List Moment) (res : Except Exn α) : Prop :=
  Truthful request log res ↔ ∀ m ∈ log, ¬ LosesParent request m

theorem trueIff_ok (a : α) : TrueIff request log (.ok a) := by
  constructor
  · intro h m hm hloses
    obtain ⟨parent, -, hres⟩ := h.parent m hm hloses
    cases hres
  · exact fun h => ⟨fun id hres => (by cases hres), fun m hm hloses => absurd hloses (h m hm)⟩

/-- What a caller is told does not depend on what it would have been given. -/
theorem truthful_error_iff {β : Type} (e : Exn) :
    Truthful request log (.error e : Except Exn α) ↔ Truthful request log (.error e : Except Exn β) := by
  constructor
  all_goals
    intro h
    refine ⟨fun id heq => h.existing id ?_, fun m hm hloses => ?_⟩
    · cases heq
      rfl
    · obtain ⟨parent, hparent, heq⟩ := h.parent m hm hloses
      cases heq
      exact ⟨parent, hparent, rfl⟩

omit [Platform] in
/-- Operations that insert no document. -/
def Uneventful (log : List Moment) : Prop := ∀ m ∈ log, Op.inserts m.op = false

omit [Platform] in
theorem Uneventful.append (h : Uneventful before) (h' : Uneventful after) :
    Uneventful (before ++ after) := fun m hm =>
  (List.mem_append.mp hm).elim (h m) (h' m)

theorem not_losesParent_of_uneventful (h : Uneventful log) : ∀ m ∈ log, ¬ LosesParent request m :=
  fun m hm hloses => by cases (h m hm).symm.trans hloses.inserts

omit [Platform] in
theorem failing_of_uneventful (h : Uneventful log) : failing log = log.getLast? := by
  have hnone : (log.find? fun m => Op.inserts m.op) = none :=
    List.find?_eq_none.mpr fun m hm => by rw [h m hm]; exact Bool.false_ne_true
  rw [failing, hnone, Option.none_or]

omit [Platform] in
theorem failing_insert (h : Uneventful before) (hm : Op.inserts m.op) :
    failing (before ++ m :: after) = some m := by
  have hnone : (before.find? fun m => Op.inserts m.op) = none :=
    List.find?_eq_none.mpr fun m hm => by rw [h m hm]; exact Bool.false_ne_true
  have hsome : ((m :: after).find? fun m => Op.inserts m.op) = some m := List.find?_cons_of_pos hm
  rw [failing, List.find?_append, hnone, Option.none_or, hsome, Option.some_or]

/-- An upload that fails before its insert. -/
theorem trueIff_of_uneventful (h : Uneventful log)
    (hexisting : ∀ id, res = .error (.documentAlreadyExistsError id) →
      ∃ m, log.getLast? = some m ∧ Duplicated request m.store) : TrueIff request log res := by
  have hnone : ∀ m ∈ log, ¬ LosesParent request m := not_losesParent_of_uneventful h
  refine iff_of_true ⟨?_, fun m hm hloses => absurd hloses (hnone m hm)⟩ hnone
  rwa [failing_of_uneventful h]

/-- An upload that comes to its insert never blames the parent, so it tells the truth when what it
takes for a duplicate is one. -/
theorem trueIff_of_insert (hbefore : Uneventful before) (hm : Op.inserts m.op)
    (hres : ∀ parent, res ≠ .error (.documentNotFoundError parent))
    (hexisting : ∀ id, res = .error (.documentAlreadyExistsError id) → m.answer.refusal = none ∧
      (Duplicated request m.store ∨
        ∃ parent, request.amendsDocumentId = some parent ∧ m.store.document? parent = none)) :
    TrueIff request (before ++ m :: after) res := by
  have hmem : m ∈ before ++ m :: after := by simp
  constructor
  · intro h other hother hloses
    obtain ⟨parent, -, heq⟩ := h.parent other hother hloses
    exact hres parent heq
  · intro h
    refine ⟨fun id heq => ⟨m, failing_insert hbefore hm, ?_⟩,
      fun other hother hloses => absurd hloses (h other hother)⟩
    obtain ⟨hserved, hviolated⟩ := hexisting id heq
    by_contra hnot
    exact h m hmem ⟨hm, hserved, hviolated.resolve_left hnot, hnot⟩

end Logs

/-! ## The program -/

section Program

/-- Whatever the others do between the operations. -/
abbrev anything (_ _ : Store) : Prop := True

variable {l : Session} {s : Store} {log before : List Moment} {request : UploadRequest}

omit [Platform] in
theorem not_error_of_isDatabaseError {e : Exn} (h : e.isDatabaseError) :
    (∀ parent, e ≠ .documentNotFoundError parent) ∧ ∀ id, e ≠ .documentAlreadyExistsError id := by
  constructor <;> rintro _ rfl <;> cases h

/-- Past the insert, whose row is there, only the database fails. -/
theorem trueIff_past_insert {α : Type} {m : Moment} {after : List Moment} {e : Exn}
    (hbefore : Uneventful before) (hm : Op.inserts m.op)
    (he : e.isDatabaseError) :
    TrueIff request (before ++ m :: after) (.error e : Except Exn α) := by
  have hplain := not_error_of_isDatabaseError he
  refine trueIff_of_insert hbefore hm (fun parent heq => ?_) fun id heq => ?_
  · exact hplain.1 parent (Except.error.inj heq)
  · exact absurd (Except.error.inj heq) (hplain.2 id)

omit [Platform] in
/-- On an open session an insert fails of the database, or of one of the two constraints. -/
theorem insertDocument_cases (tenantId : Uuid) (filename mimeType sha256 : Str)
    (parent : Option Uuid) (a : Answer) {l : Session} (s : Store) (hopen : l.failed = false) :
    (∃ row t, exec (.insertDocument tenantId filename mimeType sha256 parent) a l s =
        (.ok row, l, t)) ∨
      (∃ e t, exec (.insertDocument tenantId filename mimeType sha256 parent) a l s =
        (.error e, ⟨true⟩, t) ∧ e.isDatabaseError ∧ e ≠ .integrityError) ∨
      (∃ t, exec (.insertDocument tenantId filename mimeType sha256 parent) a l s =
        (.error .integrityError, ⟨true⟩, t)) ∧ a.refusal = none ∧
          ((s.findDocumentBySha256 tenantId sha256).isSome ∨
            ∃ id, parent = some id ∧ s.document? id = none) := by
  rw [exec]
  cases hserved : a.refusal with
  | some reason =>
    refine .inr (.inl ⟨.databaseError reason, s, ?_, rfl, fun h => by cases h⟩)
    simp [statement, hopen, hserved]
  | none =>
    by_cases hsame : (s.findDocumentBySha256 tenantId sha256).isSome
    · refine .inr (.inr ⟨⟨s, ?_⟩, rfl, .inl hsame⟩)
      simp [statement, hopen, hserved, Store.insertDocument, hsame]
    · cases hparent : parent.any fun parent => (s.document? parent).isNone with
      | true =>
        refine .inr (.inr ⟨⟨s, ?_⟩, rfl, .inr ?_⟩)
        · simp [statement, hopen, hserved, Store.insertDocument, hsame, hparent]
        · cases parent with
          | none => cases hparent
          | some id => exact ⟨id, rfl, Option.isNone_iff_eq_none.mp hparent⟩
      | false =>
        refine .inl ?_
        simp [statement, hopen, hserved, Store.insertDocument, hsame, hparent]

omit [Platform] in
/-- A statement of a watched session. -/
theorem watched_statement {o : Op} (ho : o.isStatement)
    {Φ : Except Exn o.Res → WatchedSession → Store → Prop}
    (herror : ∀ a t e, e.isDatabaseError →
      Φ (.error e) (⟨true⟩, log ++ [⟨⟨o, a, .error e⟩, t⟩]) t)
    (hok : ∀ a t r u, exec o a l t = (.ok r, l, u) →
      Φ (.ok r) (l, log ++ [⟨⟨o, a, .ok r⟩, t⟩]) u) :
    Every (watched exec) anything (perform o) (l, log) s fun _ res l' t => Φ res l' t := by
  refine Every.call.mpr fun moved a _ => ?_
  simp only [watched]
  rcases exec_statement ho a l moved with ⟨e, heq, he⟩ | ⟨r, t, heq⟩
  · rw [heq]
    exact herror a moved e he
  · have hres := hok a moved r t heq
    rw [heq]
    exact hres

omit [Platform] in
theorem refreshDocument_fails (documentId : Uuid) :
    Every exec anything (refreshDocument documentId) l s fun _ res _ _ =>
      ∀ e, res = .error e → e.isDatabaseError ∧ e ≠ .integrityError := by
  refine Every.bind.mpr (Every.call.mpr fun moved a _ => ?_)
  cases hread : (exec (.readDocument documentId) a l moved).1 with
  | error e =>
    intro _ h
    cases h
    obtain ⟨hdatabase, hother, -⟩ := query_fails hread
    exact ⟨hdatabase, hother⟩
  | ok found =>
    cases found with
    | none =>
      intro _ h
      cases h
      exact ⟨rfl, fun h => by cases h⟩
    | some row => exact fun _ h => by cases h

/-- The insert and what the upload makes of its failure. -/
theorem insertUploaded_trueIff {content : Parsing.Bytes} {sha256 : Str}
    (hchecked : checkUpload request = .ok (sha256, content)) (hopen : l.failed = false)
    (hbefore : Uneventful before) :
    Every (watched exec) anything (insertUploaded request sha256) (l, before) s fun _ res l' _ =>
      TrueIff request l'.2 res ∧
        ∃ m after, l'.2 = before ++ m :: after ∧ Op.inserts m.op := by
  refine Every.tryCatch.mpr (Every.bind.mpr (Every.call.mpr fun moved a _ => ?_))
  simp only [watched]
  rcases insertDocument_cases request.tenantId (orDefault request.filename "untitled")
      (orDefault request.contentType "application/octet-stream") sha256 request.amendsDocumentId a
      moved hopen with ⟨row, t, heq⟩ | ⟨e, t, heq, he, hne⟩ | ⟨⟨t, heq⟩, hserved, hviolated⟩
  · -- the row is there; only its refresh can fail
    rw [heq]
    refine (((refreshDocument_fails row.id).watched_of _).and
      (Every.watched_of_performs (refreshDocument_performs (P := fun o => Op.inserts o = false) rfl)
        _ _ _)).mono ?_
    rintro trace res ⟨l', log⟩ u ⟨hfails, after, hlog, -⟩
    rw [List.append_assoc] at hlog
    dsimp only at hlog
    subst hlog
    cases res with
    | ok document => exact ⟨trueIff_ok document, _, after, rfl, rfl⟩
    | error e =>
      obtain ⟨he, hne⟩ := hfails e rfl
      dsimp only
      split
      · exact absurd rfl hne
      · exact ⟨trueIff_past_insert hbefore rfl he, _, after, rfl, rfl⟩
  · rw [heq]
    dsimp only
    split
    · exact absurd rfl hne
    · exact ⟨trueIff_past_insert hbefore rfl he, _, [], rfl, rfl⟩
  · -- one of the two constraints, and the upload does not ask which
    rw [heq]
    refine Every.bind.mpr (Every.call.mpr fun _ b _ => Every.bind.mpr (watched_statement rfl ?_ ?_))
    · intro c u e he
      rw [List.append_assoc, List.append_assoc]
      exact ⟨trueIff_past_insert hbefore rfl he, _, _, rfl, rfl⟩
    · intro c u raced v _
      rw [List.append_assoc, List.append_assoc]
      refine ⟨trueIff_of_insert hbefore rfl (fun parent h => by cases h) fun id _ => ⟨hserved, ?_⟩,
        _, _, rfl, rfl⟩
      exact hviolated.imp_left fun hsame => ⟨_, hchecked, hsame⟩

/-- What is checked before the store is read knows no duplicates. -/
theorem checkUpload_error {e : Exn} (h : checkUpload request = .error e) (id : Option Uuid) :
    e ≠ .documentAlreadyExistsError id := by
  rintro rfl
  have hends := h ▸ checkUpload_ends request
  cases hends with
  | unlistable _ _ hraises =>
    obtain ⟨-, _, _, -, he⟩ := hraises
    cases he

omit [Platform] in
/-- The parent check inserts nothing and knows no duplicates. -/
theorem checkParent_spec : Every (watched exec) anything (checkParent request) (l, before) s
    fun _ res l' _ => (∃ more, l'.2 = before ++ more ∧ Uneventful more) ∧
      match res with
      | .ok _ => l'.1 = l
      | .error e => ∀ id, e ≠ .documentAlreadyExistsError id := by
  unfold checkParent
  cases request.amendsDocumentId with
  | none => exact ⟨⟨[], (List.append_nil _).symm, fun _ h => by cases h⟩, rfl⟩
  | some parent =>
    have hlog : ∀ (a : Answer) (r : Except Exn (Option DocumentRow)) (t : Store), ∃ more,
        before ++ [⟨⟨.findDocument request.tenantId parent, a, r⟩, t⟩] = before ++ more ∧
          Uneventful more := by
      refine fun a r t => ⟨_, rfl, fun m hm => ?_⟩
      cases List.mem_singleton.mp hm
      rfl
    refine Every.bind.mpr (watched_statement rfl (fun a t e he => ?_) fun a t found u _ => ?_)
    · exact ⟨hlog a _ t, (not_error_of_isDatabaseError he).2⟩
    · cases found with
      | none => exact ⟨hlog a _ t, fun id h => by cases h⟩
      | some row => exact ⟨hlog a _ t, rfl⟩

/-- Saving the bytes fails of the file system only. -/
theorem store_trueIff {content : Parsing.Bytes} {sha256 : Str}
    (hchecked : checkUpload request = .ok (sha256, content)) (hopen : l.failed = false)
    (hbefore : Uneventful before) :
    Every (watched exec) anything (store request sha256 content) (l, before) s fun _ res l' _ =>
      TrueIff request l'.2 res ∧ ∀ document, res = .ok document →
        ∃ before m after, l'.2 = before ++ m :: after ∧ Uneventful before ∧ Op.inserts m.op := by
  refine Every.bind.mpr (Every.call.mpr fun moved a _ => ?_)
  simp only [watched]
  have huneventful : ∀ r, Uneventful (before ++
      [⟨⟨.saveFile request.tenantId sha256 content, a, r⟩, moved⟩]) := by
    intro r
    refine hbefore.append fun m hm => ?_
    cases List.mem_singleton.mp hm
    rfl
  cases hrefused : a.refusal with
  | some reason =>
    have heq : exec (.saveFile request.tenantId sha256 content) a l moved =
        (.error (.osError reason), l, moved) := by simp [exec, fileCall, hrefused]
    rw [heq]
    refine ⟨trueIff_of_uneventful (huneventful _) fun id h => ?_, fun document h => ?_⟩
    · cases h
    · cases h
  | none =>
    have heq : exec (.saveFile request.tenantId sha256 content) a l moved =
        (.ok (), l, moved.setFile request.tenantId sha256 (some content)) := by
      simp [exec, fileCall, hrefused]
    rw [heq]
    refine (insertUploaded_trueIff hchecked hopen (huneventful _)).mono ?_
    rintro trace res ⟨l', log⟩ t ⟨htrue, m, after, hlog, hm⟩
    exact ⟨htrue, fun _ _ => ⟨_, m, after, hlog, huneventful _, hm⟩⟩

theorem uploadDocument_trueIff (context : RequestContext) (request : UploadRequest) :
    Every (watched exec) anything (uploadDocument context request) (⟨false⟩, []) s fun _ res l' _ =>
      TrueIff request l'.2 res := by
  refine Every.bind.mpr (Every.ofResult.mpr ?_)
  cases hchecked : checkUpload request with
  | error e =>
    refine trueIff_of_uneventful (fun _ h => absurd h List.not_mem_nil) fun id h => ?_
    exact absurd (Except.error.inj h) (checkUpload_error hchecked id)
  | ok checked =>
    obtain ⟨sha256, content⟩ := checked
    refine Every.bind.mpr (checkParent_spec.mono ?_)
    rintro _ res ⟨l, log⟩ t ⟨⟨more, hlog, hmore⟩, hparent⟩
    dsimp only at hlog hparent
    rw [List.nil_append] at hlog
    subst hlog
    cases res with
    | error e =>
      exact trueIff_of_uneventful hmore fun id h => absurd (Except.error.inj h) (hparent id)
    | ok _ =>
      subst hparent
      have hfound : ∀ (a : Answer) (r : Except Exn (Option DocumentRow)) (t : Store), Uneventful
          (log ++ [⟨⟨.findDocumentBySha256 request.tenantId sha256, a, r⟩, t⟩]) := by
        intro a r t
        refine hmore.append fun m hm => ?_
        cases List.mem_singleton.mp hm
        rfl
      refine Every.bind.mpr (watched_statement rfl (fun a t e he => ?_) fun a t found u heq => ?_)
      · refine trueIff_of_uneventful (hfound a _ t) fun id h => ?_
        exact absurd (Except.error.inj h) ((not_error_of_isDatabaseError he).2 id)
      · cases found with
        | some existing =>
          -- the row was there when the check read
          refine trueIff_of_uneventful (hfound a _ t) fun id _ => ⟨_, List.getLast?_concat, ?_⟩
          have hread := (query_eq_ok (congrArg Prod.fst heq)).1
          exact ⟨_, hchecked, Option.isSome_iff_exists.mpr ⟨existing, hread⟩⟩
        | none =>
          refine Every.bind.mpr ((store_trueIff hchecked rfl (hfound a _ t)).mono ?_)
          rintro _ res ⟨l, log⟩ v ⟨htrue, hinserted⟩
          cases res with
          | error e => exact htrue
          | ok document =>
            obtain ⟨before, m, after, rfl, hbefore, hm⟩ := hinserted document rfl
            refine Every.bind.mpr (watched_statement rfl (fun b w e he => ?_) fun b w _ x _ => ?_)
            · rw [List.append_assoc, List.cons_append]
              exact trueIff_past_insert hbefore hm he
            · exact trueIff_ok document

end Program

/-- In every run of any parties, an upload that is over tells the truth exactly if its insert did not
reach the database when the named parent was gone and no row had the digest. -/
theorem upload_errors_true_iff {ι : Type} [DecidableEq ι] (s : Store)
    (programs : ι → Option (Service Unit)) (turns : List (Turn ι)) (c : System ι)
    (hrun : run System.step (System.start s programs) turns = some c) :
    ∃ w, run (Pool.step (watched exec) Store.tick) (Pool.watch (System.start s programs)) turns =
        some w ∧ w.forget = c ∧
      ∀ i context request, programs i = some (Request.upload context request).program →
        ∀ l log p res, w.parties i = some ((l, log), p) → p.outcome = some res →
          (Truthful request log res ↔ ∀ m ∈ log, ¬ LosesParent request m) := by
  have hforget : (run (Pool.step (watched exec) Store.tick) (Pool.watch (System.start s programs))
      turns).map Pool.forget = run (Pool.step exec Store.tick)
        (Pool.forget (Pool.watch (System.start s programs))) turns := Pool.run_forget _ _
  rw [Pool.forget_watch] at hforget
  obtain ⟨w, hw, hc⟩ := Option.map_eq_some_iff.mp (hforget.trans hrun)
  refine ⟨w, hw, hc, fun i context request hi l log p res hend hover => ?_⟩
  have hupload : Every (watched exec) anything (Request.upload context request).program
      (⟨false⟩, []) s fun _ res l' _ => TrueIff request l'.2 res := by
    refine Every.bind.mpr ((uploadDocument_trueIff context request).mono ?_)
    rintro _ res l' t htrue
    cases res with
    | ok document => exact trueIff_ok ()
    | error e => exact (truthful_error_iff _).trans htrue
  have hstart : (Pool.watch (System.start s programs) :
      Pool ι WatchedSession Store Op Op.Res Exn Unit).parties i =
        some ((⟨false⟩, []), (Request.upload context request).program) := by
    simp [Pool.watch, System.start, hi]
  exact Pool.ends_run hupload hw hstart hend hover

omit [Platform]

/-- A platform on which two files are ever hashed. -/
@[reducible] def twoPdfs : Platform where
  pdfPages _ := .ok []
  docxParagraphs _ := .ok []
  decodeMessage _ := []
  sha256 content :=
    if content = PDF_MAGIC then
      "38523c087796e5d5dd1cf9bad1fb026781a838dd9dd2cf8af58b9f6502a46778".toList
    else if content = PDF_MAGIC ++ [0x31] then
      "21af8e71c8703196df7fe1ff901869a88fe64c07bbaa83d838efb45a52b4f303".toList
    else []
  zipNames _ := .error .badZipFile
  validateExtraction _ := none

/-- An upload of other bytes, as an amendment of document 10. -/
def amendment : UploadRequest :=
  ⟨1, some "b.pdf".toList, some Parsing.PDF_MIME, [PDF_MAGIC ++ [0x31]], 100, some 10⟩

/-- An upload, an upload of an amendment, and a delete of the first one's document. -/
def amendmentRequests : Nat → Option Request
  | 0 => some (.upload ⟨[], none⟩ pdfUpload)
  | 1 => some (.upload ⟨[], none⟩ amendment)
  | 2 => some (.delete ⟨[], none⟩ 1 10)
  | _ => none

/-- The amendment's checks pass and its bytes are saved; then the delete commits, and then the insert
runs. -/
def amendmentTurns : List (Turn Nat) :=
  [.act 0 {}, .act 0 {}, .act 0 { ids := [10] }, .act 0 {}, .act 0 {}, .act 1 {}, .act 1 {},
    .act 1 {}, .act 2 {}, .act 2 {}, .act 2 {}, .act 1 { ids := [11] }, .act 1 {}, .act 1 {}]

/-- A client is told that its document exists already, under no id. -/
def saysExisting {α : Type} : Option (Except Exn α) → Bool
  | some (.error (.documentAlreadyExistsError none)) => true
  | _ => false

theorem eq_of_saysExisting {α : Type} {outcome : Option (Except Exn α)}
    (h : saysExisting outcome = true) :
    outcome = some (.error (.documentAlreadyExistsError none)) := by
  unfold saysExisting at h
  split at h
  next => rfl
  next => cases h

/-- How the amendment's upload ends in that run, and the documents there are when it fails. -/
theorem amendment_run :
    ∃ w l log p, run (Pool.step (watched exec) Store.tick)
        (Pool.watch (@clients twoPdfs Nat (.empty 0) amendmentRequests)) amendmentTurns = some w ∧
      w.parties 1 = some ((l, log), p) ∧
        p.outcome = some (.error (.documentAlreadyExistsError none)) ∧
          ∀ m, failing log = some m → m.store.documents = [] := by
  have hend : ((run (Pool.step (watched exec) Store.tick)
      (Pool.watch (@clients twoPdfs Nat (.empty 0) amendmentRequests)) amendmentTurns).bind
        fun w => (w.parties 1).map fun party =>
          (saysExisting party.2.outcome,
            (failing party.1.2).map fun m => m.store.documents.isEmpty)) =
              some (true, some true) := by
    decide +kernel
  obtain ⟨w, hw, hparty⟩ := Option.bind_eq_some_iff.mp hend
  obtain ⟨⟨⟨l, log⟩, p⟩, hp, heq⟩ := Option.map_eq_some_iff.mp hparty
  obtain ⟨hover, hstore⟩ := Prod.mk.inj heq
  refine ⟨w, l, log, p, hw, hp, eq_of_saysExisting hover, fun m hm => ?_⟩
  rw [hm] at hstore
  exact List.isEmpty_iff.mp (Option.some.inj hstore)

/-- The caller is told that its document exists already, and there is no document at all. -/
theorem orphaned_upload_exists_already :
    ¬ ∀ (turns : List (Turn Nat)) w, run (Pool.step (watched exec) Store.tick)
        (Pool.watch (@clients twoPdfs Nat (.empty 0) amendmentRequests)) turns = some w →
      ∀ l log p res, w.parties 1 = some ((l, log), p) → p.outcome = some res →
        @Truthful twoPdfs Unit amendment log res := by
  intro htrue
  obtain ⟨w, l, log, p, hw, hp, hover, hnone⟩ := amendment_run
  have hclaimed := htrue amendmentTurns w hw l log p _ hp hover
  obtain ⟨m, hm, checked, -, hstored⟩ := @Truthful.existing twoPdfs _ _ _ _ hclaimed none rfl
  rw [Store.findDocumentBySha256, hnone m hm] at hstored
  cases hstored

theorem upload_errors_true_iff_amendment :
    ∃ w l log p res, run (Pool.step (watched exec) Store.tick)
        (Pool.watch (@clients twoPdfs Nat (.empty 0) amendmentRequests)) amendmentTurns = some w ∧
      w.parties 1 = some ((l, log), p) ∧ p.outcome = some res ∧
        (@Truthful twoPdfs Unit amendment log res ↔ ∀ m ∈ log, ¬ @LosesParent twoPdfs amendment m) := by
  obtain ⟨w, l, log, p, hw, hp, hover, -⟩ := amendment_run
  let := twoPdfs
  have hforget : (run (Pool.step (watched exec) Store.tick)
      (Pool.watch (clients (.empty 0) amendmentRequests)) amendmentTurns).map Pool.forget =
        run (Pool.step exec Store.tick)
          (Pool.forget (Pool.watch (clients (.empty 0) amendmentRequests))) amendmentTurns :=
    Pool.run_forget _ _
  rw [Pool.forget_watch, hw, Option.map_some] at hforget
  obtain ⟨w', hw', -, htrue⟩ := upload_errors_true_iff (.empty 0)
    (fun i => (amendmentRequests i).map Request.program) amendmentTurns _ hforget.symm
  cases hw.symm.trans hw'
  exact ⟨w, l, log, p, _, hw, hp, hover, htrue 1 ⟨[], none⟩ amendment rfl l log p _ hp hover⟩

end ContractIntel.Documents
