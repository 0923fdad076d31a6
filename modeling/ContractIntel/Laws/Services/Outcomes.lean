import ContractIntel.Laws.Llm.Client
import ContractIntel.Lib.Blame
import ContractIntel.Laws.Store.Ops
import ContractIntel.Services.Usage

/-!
# What can go wrong in a service

A database statement fails, a refreshed row is gone, a model call answers under a model without a
price: these are the operations an exception is to be blamed on. Shown here for the repository
functions and the model client, under whatever handler lets database errors through.
-/

namespace ContractIntel

open Jobs (JobRow)
open Lib (Blamed Escapes Every)
open Llm (OpenAiClient UsageSink)
open Repositories

/-- A database statement fails, or the row to refresh is gone. -/
def DatabaseFailure : Entry → Prop
  | ⟨.readJob .., _, result⟩ => ∀ row, result ≠ .ok (some row)
  | ⟨.readDocument .., _, result⟩ => ∀ row, result ≠ .ok (some row)
  | ⟨.parseChat .., _, _⟩ | ⟨.createEmbeddings .., _, _⟩ => False
  | ⟨_, _, .error e⟩ => e.isDatabaseError
  | _ => False

/-- Queries, and transactions that fail of database errors only. -/
def Op.isStatement : Op → Bool
  | .readJob .. | .readDocument .. | .replaceTextAndChunks .. | .rollback | .saveFile ..
  | .unlinkFile .. | .readFile .. | .isFile .. | .parseChat .. | .createEmbeddings .. => false
  | _ => true

def Op.callsModel : Op → Bool
  | .parseChat .. | .createEmbeddings .. => true
  | _ => false

/-! ## Statements -/

section Statements

variable {o : Op} {α : Type} {body : Store → Except Exn (α × Store)}

theorem statement_outcome (a : Answer) (l : Session) (s : Store)
    (hbody : ∀ e, body s = .error e → e.isDatabaseError) :
    (∃ e, statement body a l s = (.error e, ⟨true⟩, s) ∧ e.isDatabaseError) ∨
      ∃ r t, statement body a l s = (.ok r, l, t) := by
  rcases statement_cases body a l s with ⟨e, heq, hdatabase | herror⟩ | ⟨r, t, -, -, -, heq⟩
  · exact .inl ⟨e, heq, hdatabase⟩
  · exact .inl ⟨e, heq, hbody e herror⟩
  · exact .inr ⟨r, t, heq⟩

theorem query_outcome (read : Store → α) (a : Answer) (l : Session) (s : Store) :
    (∃ e, query read a l s = (.error e, ⟨true⟩, s) ∧ e.isDatabaseError) ∨
      ∃ r t, query read a l s = (.ok r, l, t) := by
  refine statement_outcome a l s fun e h => ?_
  cases h

/-- A query that fails violates no constraint, and leaves a session that failed. -/
theorem query_fails {read : Store → α} {a : Answer} {l : Session} {s : Store} {e : Exn}
    (h : (query read a l s).1 = .error e) :
    e.isDatabaseError ∧ e ≠ .integrityError ∧ (query read a l s).2.1 = ⟨true⟩ := by
  have hsession : (query read a l s).2.1 = ⟨true⟩ := by
    rcases query_cases read a l s with ⟨e', heq⟩ | heq
    · rw [heq]
    · rw [heq] at h
      cases h
  unfold query statement at h
  split at h
  · cases h
    exact ⟨rfl, (fun h => by cases h), hsession⟩
  · split at h
    · cases h
      exact ⟨rfl, (fun h => by cases h), hsession⟩
    · cases h

/-- A statement raises a database error and poisons the session, or it returns. -/
theorem exec_statement (ho : o.isStatement) (a : Answer) (l : Session) (s : Store) :
    (∃ e, exec o a l s = (.error e, ⟨true⟩, s) ∧ e.isDatabaseError) ∨
      ∃ r t, exec o a l s = (.ok r, l, t) := by
  cases o with
  | readJob => cases ho
  | readDocument => cases ho
  | replaceTextAndChunks => cases ho
  | rollback => cases ho
  | saveFile => cases ho
  | unlinkFile => cases ho
  | readFile => cases ho
  | isFile => cases ho
  | parseChat => cases ho
  | createEmbeddings => cases ho
  | insertDocument =>
    refine statement_outcome a l s fun e h => ?_
    simp only [Store.insertDocument] at h
    split at h
    · cases h
      rfl
    · split at h <;> cases h
      rfl
  | setDocumentStatus =>
    refine statement_outcome a l s fun e h => ?_
    simp only [Store.setDocumentStatus] at h
    split at h
    · cases h
    · split at h <;> cases h
      rfl
  | deleteSweep =>
    refine statement_outcome a l s fun e h => ?_
    simp only [Store.deleteSweep] at h
    split at h <;> cases h
    rfl
  | insertJob =>
    refine statement_outcome a l s fun e h => ?_
    simp only [Store.insertJob] at h
    split at h
    · cases h
      rfl
    · split at h <;> cases h
      rfl
  | completeJob =>
    refine statement_outcome a l s fun e h => ?_
    simp only [Store.completeJob] at h
    split at h <;> cases h
    rfl
  | failJob =>
    refine statement_outcome a l s fun e h => ?_
    simp only [Store.failJob] at h
    split at h <;> cases h
    rfl
  | insertReviewItems =>
    refine statement_outcome a l s fun e h => ?_
    simp only [Store.insertReviewItems] at h
    split at h <;> cases h
    rfl
  | claimJob =>
    rw [exec]
    refine statement_outcome a l s fun e h => ?_
    cases h
  | resolveReviewItem =>
    rw [exec]
    refine statement_outcome a l s fun e h => ?_
    cases h
  | insertUsage =>
    rw [exec]
    refine statement_outcome a l s fun e h => ?_
    cases h
  | insertAudit =>
    rw [exec]
    refine statement_outcome a l s fun e h => ?_
    cases h
  | _ => exact query_outcome _ a l s

theorem databaseFailure_error_iff (ho : o.isStatement) (a : Answer) (e : Exn) :
    DatabaseFailure ⟨o, a, .error e⟩ ↔ e.isDatabaseError := by
  cases o <;> first | exact Iff.rfl | cases ho

theorem not_databaseFailure_ok (ho : o.isStatement) (a : Answer) (r : o.Res) :
    ¬ DatabaseFailure ⟨o, a, .ok r⟩ := by
  cases o <;> first | exact id | cases ho

end Statements

/-! ## Programs -/

/-- A handler lets database errors through, and of the operations that call no model, what goes
wrong is what fails in the database. -/
structure Attributes (caught : Exn → Session → Prop) (wrong : Entry → Prop) : Prop where
  database : ∀ e, e.isDatabaseError → ¬ caught e ⟨true⟩
  statements : ∀ entry : Entry, entry.op.callsModel = false →
    (wrong entry ↔ DatabaseFailure entry)

/-- An embeddings call goes wrong when what its caller sees of it is not caught. -/
structure AttributesCalls (caught : Exn → Session → Prop) (wrong : Entry → Prop) : Prop extends
    Attributes caught wrong where
  embeddings : ∀ model texts a outcome l,
    wrong ⟨.createEmbeddings model texts, a, embedReply outcome⟩ ↔
      ∃ e, Llm.embedded model (embedReply outcome) = .error e ∧ ¬ caught e l

namespace Attributes

variable {env : Store → Store → Prop} {caught : Exn → Session → Prop} {wrong : Entry → Prop}
  {l : Session} {s : Store}

theorem statement (h : Attributes caught wrong) {o : Op} (ho : o.isStatement) :
    Blamed exec env caught wrong (perform o) l s := by
  refine Blamed.call fun a s => ?_
  have hmodel : o.callsModel = false := by
    cases o <;> first | rfl | cases ho
  rw [h.statements _ hmodel]
  rcases exec_statement ho a l s with ⟨e, heq, hdatabase⟩ | ⟨r, t, heq⟩
  · rw [heq]
    exact iff_of_true (h.database e hdatabase)
      ((databaseFailure_error_iff ho a e).mpr hdatabase)
  · rw [heq]
    exact iff_of_false id (not_databaseFailure_ok ho a r)

/-- A query whose answer is required to be there. -/
theorem call_require {α : Type} {o : Op} {e : Exn} (found : o.Res → Option α)
    (hgone : ∀ l, ¬ caught e l)
    (herror : ∀ a s e', (exec o a l s).1 = .error e' →
      ¬ caught e' (exec o a l s).2.1 ∧ wrong ⟨o, a, .error e'⟩)
    (hok : ∀ a r, wrong ⟨o, a, .ok r⟩ ↔ found r = none) :
    Blamed exec env caught wrong ((perform o).bind fun r => require e (found r)) l s := by
  refine Every.bind.mpr (Every.call.mpr fun moved a _ => ?_)
  cases hres : (exec o a l moved).1 with
  | error e' =>
    obtain ⟨huncaught, hwrong⟩ := herror a moved e' hres
    exact iff_of_true huncaught ⟨_, List.mem_singleton_self _, hwrong⟩
  | ok r =>
    dsimp only
    cases hfound : found r with
    | none =>
      exact iff_of_true (hgone _) ⟨_, List.mem_singleton_self _, (hok a r).mpr hfound⟩
    | some value =>
      refine iff_of_false id ?_
      rintro ⟨entry, hentry, hwrong⟩
      cases List.mem_singleton.mp hentry
      rw [hok, hfound] at hwrong
      cases hwrong

theorem refreshJob (h : Attributes caught wrong) (hgone : ∀ l, ¬ caught .invalidRequestError l)
    (kind : JobKind) (id : Uuid) :
    Blamed exec env caught wrong (Repositories.refreshJob kind id) l s := by
  refine call_require (o := .readJob kind id) (fun found => found) hgone ?_ ?_
  · intro a s e' herror
    obtain ⟨hdatabase, -, hl⟩ := query_fails herror
    exact ⟨hl ▸ h.database _ hdatabase, (h.statements _ rfl).mpr fun row hrow => by cases hrow⟩
  · intro a r
    rw [h.statements _ rfl]
    cases r with
    | none => exact iff_of_true (fun row hrow => by cases hrow) rfl
    | some job => exact iff_of_false (fun hfailed => hfailed job rfl) fun h => by cases h

theorem refreshDocument (h : Attributes caught wrong)
    (hgone : ∀ l, ¬ caught .invalidRequestError l) (id : Uuid) :
    Blamed exec env caught wrong (Repositories.refreshDocument id) l s := by
  refine call_require (o := .readDocument id) (fun found => found) hgone ?_ ?_
  · intro a s e' herror
    obtain ⟨hdatabase, -, hl⟩ := query_fails herror
    exact ⟨hl ▸ h.database _ hdatabase, (h.statements _ rfl).mpr fun row hrow => by cases hrow⟩
  · intro a r
    rw [h.statements _ rfl]
    cases r with
    | none => exact iff_of_true (fun row hrow => by cases hrow) rfl
    | some document => exact iff_of_false (fun hfailed => hfailed document rfl) fun h => by cases h

theorem setStatus (h : Attributes caught wrong) (hgone : ∀ l, ¬ caught .invalidRequestError l)
    (document : DocumentRow) (status : DocumentStatus) :
    Blamed exec env caught wrong (Repositories.setStatus document status) l s :=
  .bind (h.statement rfl) fun _ _ _ => h.refreshDocument hgone _

theorem markCompleted (h : Attributes caught wrong)
    (hgone : ∀ l, ¬ caught .invalidRequestError l) (kind : JobKind) (job : JobRow) (result : Json) :
    Blamed exec env caught wrong (Repositories.markCompleted kind job result) l s :=
  .bind (h.statement rfl) fun _ _ _ => h.refreshJob hgone _ _

theorem markFailed (h : Attributes caught wrong) (hgone : ∀ l, ¬ caught .invalidRequestError l)
    (kind : JobKind) (job : JobRow) (error : Str) :
    Blamed exec env caught wrong (Repositories.markFailed kind job error) l s :=
  .bind (h.statement rfl) fun _ _ _ => h.refreshJob hgone _ _

theorem sink (h : Attributes caught wrong) (requestId : Str) (tenantId : Uuid)
    (jobType : UsageJobKind) (jobId : Option Uuid) (usage : LlmUsage) :
    Blamed exec env caught wrong (Usage.sink requestId tenantId jobType jobId usage) l s :=
  h.statement rfl

theorem routeForReview (h : Attributes caught wrong) (tenantId : Uuid) (source : ReviewItemSource)
    (documentId jobId : Uuid) (candidates : List (Str × Json × Rat)) (threshold : Rat) :
    Blamed exec env caught wrong
      (ReviewQueue.routeForReview tenantId source documentId jobId candidates threshold) l s := by
  unfold ReviewQueue.routeForReview
  dsimp only
  split
  · exact .ret _
  · exact .bind (h.statement rfl) fun _ _ _ => .ret _

end Attributes

/-! ## Embeddings -/

/-- What the caller of an embeddings call sees is no database error. -/
theorem not_isDatabaseError_of_embedded {model : Str} {outcome : EmbedOutcome} {e : Exn}
    (h : Llm.embedded model (embedReply outcome) = .error e) : e.isDatabaseError = false := by
  cases hreply : embedReply outcome with
  | error sdk =>
    have hsdk := (Llm.embedReply_error hreply).1
    rw [hreply, Llm.embedded] at h
    obtain rfl := Except.error.inj h
    cases sdk <;> first | rfl | cases hsdk
  | ok response =>
    rw [hreply, Llm.embedded] at h
    by_cases hrecorded : Llm.Recordable model response.promptTokens (some 0)
    · obtain ⟨reply, hread, -⟩ := Llm.readEmbeddings_of_recordable hrecorded
      cases hread.symm.trans h
    · obtain ⟨e', hread, he⟩ := Llm.readEmbeddings_of_not_recordable hrecorded
      obtain rfl := Except.error.inj (hread.symm.trans h)
      rcases he with rfl | ⟨_, _, rfl⟩ <;> rfl

/-- An embeddings call is to be blamed on the answer to its one operation. -/
theorem AttributesCalls.embed {env : Store → Store → Prop} {caught : Exn → Session → Prop}
    {wrong : Entry → Prop} {l : Session} {s : Store} (h : AttributesCalls caught wrong)
    (llm : OpenAiClient) (texts : List Str) :
    Blamed exec env caught wrong (Llm.embed llm texts) l s := by
  refine (Llm.embed_answers llm texts).mono ?_
  rintro trace res l' - ⟨a, rfl, rfl, -⟩
  have hwrong := h.embeddings llm.embeddingModel texts a a.embed l'
  cases hembedded : Llm.embedded llm.embeddingModel (embedReply a.embed) with
  | ok reply =>
    refine iff_of_false id ?_
    rintro ⟨entry, hentry, hentryWrong⟩
    rw [List.mem_singleton.mp hentry] at hentryWrong
    obtain ⟨e, he, -⟩ := hwrong.mp hentryWrong
    cases hembedded.symm.trans he
  | error e =>
    constructor
    · exact fun hescapes =>
        ⟨_, List.mem_singleton_self _, hwrong.mpr ⟨e, hembedded, hescapes⟩⟩
    · rintro ⟨entry, hentry, hentryWrong⟩
      rw [List.mem_singleton.mp hentry] at hentryWrong
      obtain ⟨e', he', huncaught⟩ := hwrong.mp hentryWrong
      cases hembedded.symm.trans he'
      exact huncaught

end ContractIntel
