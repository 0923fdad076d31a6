import ContractIntel.Lib.Interleave
import ContractIntel.Store.Reads

/-!
# Operations

The steps the services are made of: one query, one committed transaction, one file system call or
one model call each. Between two operations of a party any other party may act; within one
operation nothing happens.

A statement the database refuses, or one that violates a constraint, fails the session: every
later statement raises until the session is rolled back. What a statement can be refused for (a
lost connection, a text the column cannot hold, a vector of the wrong dimension) is left to the
world's answer.
-/

namespace ContractIntel

open Jobs (JobRow)
open Parsing (Bytes PageSpan)
open Chunking (Chunk)

/-- The validated reply of a structured chat call. -/
structure ChatReply (schema : Schema) where
  usage : Option UsageReport
  latencyMs : Nat
  choices : List (Option schema.Data)

/-- `usage.prompt_tokens if usage else 0`. -/
def ChatReply.promptTokens {schema : Schema} (reply : ChatReply schema) : Option Nat :=
  reply.usage.elim (some 0) UsageReport.promptTokens

/-- `usage.completion_tokens if usage else 0`. -/
def ChatReply.completionTokens {schema : Schema} (reply : ChatReply schema) : Option Nat :=
  reply.usage.elim (some 0) UsageReport.completionTokens

/-- The reply of an embeddings call; of its usage only the prompt's tokens are read. -/
structure EmbedReply where
  usage : Option (Option Nat)
  latencyMs : Nat
  items : List (Int × Embedding)

/-- `response.usage.prompt_tokens if response.usage else 0`. -/
def EmbedReply.promptTokens (reply : EmbedReply) : Option Nat := reply.usage.getD (some 0)

inductive Op where
  | findDocument (tenantId documentId : Uuid)
  | findDocumentBySha256 (tenantId : Uuid) (sha256 : Str)
  | readDocument (documentId : Uuid)
  | hasAmendments (documentId : Uuid)
  | insertDocument (tenantId : Uuid) (filename mimeType sha256 : Str)
      (amendsDocumentId : Option Uuid)
  | setDocumentStatus (document : DocumentRow) (status : DocumentStatus)
  | deleteSweep (documentId : Uuid)
  | readJob (kind : JobKind) (id : Uuid)
  | findActiveJob (kind : JobKind) (documentId : Uuid)
  | findLatestJob (kind : JobKind) (documentId : Uuid)
  | insertJob (kind : JobKind) (tenantId documentId : Uuid) (amendedDocumentId : Option Uuid)
  | claimJob (kind : JobKind)
  | completeJob (kind : JobKind) (id : Uuid) (result : Json)
  | failJob (kind : JobKind) (id : Uuid) (error : Str)
  | findText (documentId : Uuid)
  | replaceTextAndChunks (tenantId documentId : Uuid) (text : Str) (pageMap : List PageSpan)
      (chunks : List Chunk) (embeddings : List Embedding)
  | rankBySimilarity (tenantId : Uuid) (documentId : Option Uuid) (embedding : Embedding)
      (limit : Nat)
  | rankByFullText (tenantId : Uuid) (documentId : Option Uuid) (query : Str) (limit : Nat)
  | insertUsage (tenantId : Uuid) (jobType : UsageJobKind) (jobId : Option Uuid)
      (usage : LlmUsage) (requestId : Str)
  | insertAudit (tenantId : Uuid) (actor : Option Str) (requestId action resourceType : Str)
      (resourceId : Option Uuid) (detail : Option Json)
  | insertReviewItems (tenantId : Uuid) (source : ReviewItemSource) (documentId jobId : Uuid)
      (items : List (Str × Json × Rat))
  | listDocuments (tenantId : Uuid) (limit offset : Nat)
  | countDocuments (tenantId : Uuid)
  | findJob (kind : JobKind) (tenantId id : Uuid)
  | listReports (tenantId baseDocumentId : Uuid)
  | findReviewItem (tenantId itemId : Uuid)
  | listReviewItems (tenantId : Uuid) (status : Option ReviewItemStatus)
  | resolveReviewItem (tenantId itemId : Uuid) (status : ReviewItemStatus)
      (correctedValues : Option Json)
  | spendByJobType (tenantId : Uuid)
  | spendByJob (tenantId : Uuid)
  | spendTotal (tenantId : Uuid)
  | rollback
  | saveFile (tenantId : Uuid) (sha256 : Str) (content : Bytes)
  | unlinkFile (tenantId : Uuid) (sha256 : Str)
  | readFile (tenantId : Uuid) (sha256 : Str)
  | isFile (tenantId : Uuid) (sha256 : Str)
  | parseChat (schema : Schema) (model user : Str)
  | createEmbeddings (model : Str) (texts : List Str)

/-- What an operation answers when it does not raise. -/
abbrev Op.Res : Op → Type
  | .findDocument .. | .findDocumentBySha256 .. | .readDocument .. => Option DocumentRow
  | .hasAmendments .. | .unlinkFile .. | .isFile .. => Bool
  | .insertDocument .. => DocumentRow
  | .readJob .. | .findActiveJob .. | .findLatestJob .. | .claimJob .. | .findJob .. =>
    Option JobRow
  | .insertJob .. => JobRow
  | .findText .. => Option TextRow
  | .rankBySimilarity .. | .rankByFullText .. => List (ChunkRow × DocumentRow)
  | .insertReviewItems .. | .listReviewItems .. => List ReviewItemRow
  | .findReviewItem .. | .resolveReviewItem .. => Option ReviewItemRow
  | .listDocuments .. => List DocumentRow
  | .countDocuments .. => Nat
  | .listReports .. => List JobRow
  | .spendByJobType .. | .spendByJob .. => List SpendRow
  | .spendTotal .. => SpendRow
  | .readFile .. => Bytes
  | .parseChat schema .. => ChatReply schema
  | .createEmbeddings .. => EmbedReply
  | _ => Unit

/-- A party's database session. -/
structure Session where
  /-- A statement failed and the transaction was not rolled back. -/
  failed : Bool
  deriving DecidableEq

/-- The outcome of an operation: result, session, store. -/
abbrev Outcome (α : Type) := Except Exn α × Session × Store

/-- A statement, or a transaction, of the session. -/
def statement {α : Type} (body : Store → Except Exn (α × Store)) (a : Answer) (session : Session)
    (s : Store) : Outcome α :=
  if session.failed then (.error .pendingRollbackError, session, s)
  else
    match a.refusal with
    | some reason => (.error (.databaseError reason), ⟨true⟩, s)
    | none =>
      match body s with
      | .ok (r, t) => (.ok r, session, t)
      | .error e => (.error e, ⟨true⟩, s)

/-- A statement that reads. -/
def query {α : Type} (read : Store → α) : Answer → Session → Store → Outcome α :=
  statement fun s => .ok (read s, s)

/-- A statement that always succeeds unless it is refused. -/
def insert (write : Store → Store) : Answer → Session → Store → Outcome Unit :=
  statement fun s => .ok ((), write s)

/-- A file system call. -/
def fileCall {α : Type} (body : Store → Except Exn (α × Store)) (a : Answer) (session : Session)
    (s : Store) : Outcome α :=
  match a.refusal with
  | some reason => (.error (.osError reason), session, s)
  | none =>
    match body s with
    | .ok (r, t) => (.ok r, session, t)
    | .error e => (.error e, session, s)

/-- What the SDK raises on a strange body, outside its own classes. -/
def StrangeBody.exn : StrangeBody → Exn
  | .undecodable message => .valueError message
  | .misshapen error message => .otherError error message

/-- The SDK's `parse`: every choice with content is validated against the schema. -/
def chatReply (schema : Schema) : ChatOutcome → Except Exn (ChatReply schema)
  | .unusable => .error .unusableReply
  | .failed cause => .error (.openAiError cause)
  | .strange body => .error body.exn
  | .replied usage latencyMs choices =>
    let validated := choices.mapM fun choice =>
      match choice with
      | none => some none
      | some content => (content.validate schema).map some
    match validated with
    | some choices => .ok ⟨usage, latencyMs, choices⟩
    | none => .error .unusableReply

/-- The SDK's `create`: a reply without items is refused. -/
def embedReply : EmbedOutcome → Except Exn EmbedReply
  | .failed cause => .error (.openAiError cause)
  | .strange body => .error body.exn
  | .replied _ _ [] => .error (.valueError "No embedding data received".toList)
  | .replied usage latencyMs (item :: items) => .ok ⟨usage, latencyMs, item :: items⟩

/-- What an operation does. -/
def exec : Lib.Exec Op Op.Res Exn Answer Session Store
  | .findDocument tenantId documentId, a, session, s =>
    query (Store.findDocument tenantId documentId) a session s
  | .findDocumentBySha256 tenantId sha256, a, session, s =>
    query (Store.findDocumentBySha256 tenantId sha256) a session s
  | .readDocument documentId, a, session, s => query (Store.document? documentId) a session s
  | .hasAmendments documentId, a, session, s => query (Store.hasAmendments documentId) a session s
  | .insertDocument tenantId filename mimeType sha256 amendsDocumentId, a, session, s =>
    statement (Store.insertDocument tenantId filename mimeType sha256 amendsDocumentId
      (a.ids.headD 0) a.began) a session s
  | .setDocumentStatus document status, a, session, s =>
    statement (Store.setDocumentStatus document status) a session s
  | .deleteSweep documentId, a, session, s =>
    statement (Store.deleteSweep documentId) a session s
  | .readJob kind id, a, session, s => query (fun s => Jobs.row? id (s.jobs kind)) a session s
  | .findActiveJob kind documentId, a, session, s =>
    query (fun s => Jobs.findActiveForDocument documentId (s.jobs kind)) a session s
  | .findLatestJob kind documentId, a, session, s =>
    query (fun s => Jobs.findLatestForDocument documentId (s.jobs kind)) a session s
  | .insertJob kind tenantId documentId amendedDocumentId, a, session, s =>
    statement (Store.insertJob kind tenantId documentId amendedDocumentId (a.ids.headD 0) a.began)
      a session s
  | .claimJob kind, a, session, s => statement (Store.claimJob kind a.locked) a session s
  | .completeJob kind id result, a, session, s =>
    statement (Store.completeJob kind id result) a session s
  | .failJob kind id error, a, session, s => statement (Store.failJob kind id error) a session s
  | .findText documentId, a, session, s => query (Store.findText documentId) a session s
  | .replaceTextAndChunks tenantId documentId text pageMap chunks embeddings, a, session, s =>
    statement (Store.replaceTextAndChunks tenantId documentId text pageMap chunks embeddings a.ids)
      a session s
  | .rankBySimilarity tenantId documentId _ limit, a, session, s =>
    query (Store.rankedRows tenantId documentId limit a.ranking) a session s
  | .rankByFullText tenantId documentId _ limit, a, session, s =>
    query (Store.rankedRows tenantId documentId limit a.ranking) a session s
  | .insertUsage tenantId jobType jobId usage requestId, a, session, s =>
    insert (Store.insertUsage tenantId jobType jobId usage requestId a.began) a session s
  | .insertAudit tenantId actor requestId action resourceType resourceId detail, a, session, s =>
    insert (Store.insertAudit tenantId actor requestId action resourceType resourceId detail
      a.began) a session s
  | .insertReviewItems tenantId source documentId jobId items, a, session, s =>
    statement (Store.insertReviewItems tenantId source documentId jobId items a.ids a.began)
      a session s
  | .listDocuments tenantId limit offset, a, session, s =>
    query (Store.listDocuments tenantId limit offset) a session s
  | .countDocuments tenantId, a, session, s => query (Store.countDocuments tenantId) a session s
  | .findJob kind tenantId id, a, session, s =>
    query (fun s => Jobs.findById tenantId id (s.jobs kind)) a session s
  | .listReports tenantId baseDocumentId, a, session, s =>
    query (Store.listReports tenantId baseDocumentId) a session s
  | .findReviewItem tenantId itemId, a, session, s =>
    query (Store.findReviewItem tenantId itemId) a session s
  | .listReviewItems tenantId status, a, session, s =>
    query (Store.listReviewItems tenantId status) a session s
  | .resolveReviewItem tenantId itemId status correctedValues, a, session, s =>
    statement (Store.resolveReviewItem tenantId itemId status correctedValues) a session s
  | .spendByJobType tenantId, a, session, s => query (Store.spendByJobType tenantId) a session s
  | .spendByJob tenantId, a, session, s => query (Store.spendByJob tenantId) a session s
  | .spendTotal tenantId, a, session, s => query (Store.spendTotal tenantId) a session s
  | .rollback, _, _, s => (.ok (), ⟨false⟩, s)
  | .saveFile tenantId sha256 content, a, session, s =>
    fileCall (fun s => .ok ((), s.setFile tenantId sha256 (some content))) a session s
  | .unlinkFile tenantId sha256, a, session, s =>
    fileCall (fun s => .ok ((s.files tenantId sha256).isSome, s.setFile tenantId sha256 none))
      a session s
  | .readFile tenantId sha256, a, session, s =>
    fileCall (Store.readFile tenantId sha256) a session s
  | .isFile tenantId sha256, _, session, s => (.ok (s.files tenantId sha256).isSome, session, s)
  | .parseChat schema _ _, a, session, s => (chatReply schema a.chat, session, s)
  | .createEmbeddings _ _, a, session, s => (embedReply a.embed, session, s)

/-- A service: a program over the operations. -/
abbrev Service := Lib.Prog Op Op.Res Exn

/-- One operation of a service. -/
abbrev perform (o : Op) : Service o.Res := Lib.Prog.call o

/-- What a request carries for the audit trail. -/
structure RequestContext where
  requestId : Str
  actor : Option Str

/-- The value, or an exception where there is none. -/
def require {α : Type} (e : Exn) : Option α → Service α
  | some a => .ret a
  | none => .raise e

/-- A pure computation that may raise. -/
def lift {α : Type} : Except Exn α → Service α := Lib.Prog.ofResult

end ContractIntel
