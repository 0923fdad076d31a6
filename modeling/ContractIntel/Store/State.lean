import ContractIntel.Llm.Schemas
import ContractIntel.Text.Chunking

/-!
# The store and what the world answers

The store is everything the parties share: the database tables, the files under the data
directory, the clock. Identifiers are drawn by `uuid4`; `issued` keeps the ones in use, so that a
drawn identifier is new.

An `Answer` is what the world contributes to one operation: whether the database refuses the
statement, when its transaction began, the identifiers drawn, the rows other transactions hold, the
ranking a query comes back with, the reply of a model. Each operation reads the parts it has a use
for.
-/

namespace ContractIntel

open Jobs (JobRow)
open Parsing (Bytes)

/-- The shared state of all parties. -/
structure Store where
  documents : List DocumentRow
  texts : List TextRow
  chunks : List ChunkRow
  jobs : JobKind → List JobRow
  reviewItems : List ReviewItemRow
  usage : List UsageRow
  audit : List AuditRow
  /-- `{data_dir}/{tenant_id}/{sha256}`. -/
  files : Uuid → Str → Option Bytes
  issued : List Uuid
  now : Time

namespace Store

def empty (now : Time) : Store where
  documents := []
  texts := []
  chunks := []
  jobs := fun _ => []
  reviewItems := []
  usage := []
  audit := []
  files := fun _ _ => none
  issued := []
  now := now

/-- Time passes. -/
def tick (elapsed : Time) (s : Store) : Store := { s with now := s.now + elapsed }

end Store

/-- The usage of a reply as the wire has it: `none` for a count that is missing or no number. -/
structure UsageReport where
  promptTokens : Option Nat
  completionTokens : Option Nat
  deriving DecidableEq

/-- A body that is not the reply the SDK was promised. -/
inductive StrangeBody where
  /-- It is no JSON, or its numbers are too long to be read. -/
  | undecodable (message : Str)
  /-- It is JSON of another shape, on which a field is missing that is read: no object, a choice
  without a message, choices or usage of another type. -/
  | misshapen (error message : Str)

/-- What becomes of a structured chat call. A choice without parsed content is a refusal. -/
inductive ChatOutcome where
  | unusable
  | failed (cause : Str)
  | strange (body : StrangeBody)
  | replied (usage : Option UsageReport) (latencyMs : Nat) (choices : List (Option Content))

/-- What becomes of an embeddings call: the items in the order of the wire, with their indices. -/
inductive EmbedOutcome where
  | failed (cause : Str)
  | strange (body : StrangeBody)
  | replied (usage : Option (Option Nat)) (latencyMs : Nat) (items : List (Int × Embedding))

structure Answer where
  /-- The database, or the file system, refuses. -/
  refusal : Option Str := none
  /-- How long ago the statement's transaction began; `now()` is its start. -/
  began : Time := 0
  /-- The identifiers `uuid4` draws. -/
  ids : List Uuid := []
  /-- The job rows that transactions in flight hold. -/
  locked : List Uuid := []
  /-- Chunk ids, best first. -/
  ranking : List Uuid := []
  chat : ChatOutcome := .unusable
  embed : EmbedOutcome := .failed []

/-- What `ZipFile` raises on bytes it cannot open. -/
inductive ZipError where
  | badZipFile
  /-- An unsupported version, a member's name that does not decode. -/
  | other (error message : Str)

/-- Third-party code: hashing, archive listing, pydantic's validation of stored results. -/
class Platform extends Parsing.Libraries where
  /-- `hashlib.sha256(content).hexdigest()`. -/
  sha256 : Bytes → Str
  /-- `ZipFile(content).namelist()`. -/
  zipNames : Bytes → Except ZipError (List Str)
  /-- `ObligationExtraction.model_validate` of stored JSON, `none` for a `ValidationError`. -/
  validateExtraction : Json → Option ObligationExtraction

end ContractIntel
