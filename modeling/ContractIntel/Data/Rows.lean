import ContractIntel.Jobs.Rows
import ContractIntel.Text.Parsing

/-!
# Rows (`app/models`)

The columns the services read or write. Left out are `updated_at`, the generated `tsv` column and
the ids of usage and audit rows, which nothing reads.
-/

namespace ContractIntel

open Parsing (Bytes PageSpan)

/-- A vector of the embedding model. -/
abbrev Embedding := List Rat

inductive DocumentStatus | uploaded | parsed | failed
  deriving DecidableEq, Repr

structure DocumentRow where
  id : Uuid
  tenantId : Uuid
  filename : Str
  mimeType : Str
  sha256 : Str
  amendsDocumentId : Option Uuid
  status : DocumentStatus
  createdAt : Time
  deriving DecidableEq

/-- The parsed text of a document, keyed by the document. -/
structure TextRow where
  documentId : Uuid
  tenantId : Uuid
  text : Str
  pageMap : List PageSpan
  deriving DecidableEq

structure ChunkRow where
  id : Uuid
  tenantId : Uuid
  documentId : Uuid
  ordinal : Nat
  text : Str
  charStart : Nat
  charEnd : Nat
  embedding : Option Embedding
  deriving DecidableEq

/-- The three job tables. -/
inductive JobKind | ingestion | extraction | changeReport
  deriving DecidableEq, Repr

inductive ReviewItemSource | extraction | impactMapping
  deriving DecidableEq, Repr

inductive ReviewItemStatus | pending | approved | edited | rejected
  deriving DecidableEq, Repr

/-- A review item. `jobId` points into the table its source names, without a foreign key. -/
structure ReviewItemRow where
  id : Uuid
  tenantId : Uuid
  source : ReviewItemSource
  itemType : Str
  documentId : Uuid
  jobId : Uuid
  payload : Json
  confidence : Rat
  status : ReviewItemStatus
  correctedValues : Option Json
  resolvedAt : Option Time
  createdAt : Time

inductive UsageJobKind | ingestion | extraction | changeReport | search
  deriving DecidableEq, Repr

/-- The usage facts of one completed call. -/
structure LlmUsage where
  model : Str
  promptTokens : Nat
  completionTokens : Nat
  costUsd : Rat
  latencyMs : Nat
  deriving DecidableEq

structure UsageRow where
  tenantId : Uuid
  jobType : UsageJobKind
  jobId : Option Uuid
  usage : LlmUsage
  requestId : Str
  createdAt : Time
  deriving DecidableEq

structure AuditRow where
  tenantId : Uuid
  actor : Option Str
  requestId : Str
  action : Str
  resourceType : Str
  resourceId : Option Uuid
  detail : Option Json
  createdAt : Time

end ContractIntel
