import ContractIntel.Services.Usage

/-!
# Hybrid search (`app/services/search.py`)

Two rankings of chunk rows are fused by reciprocal rank; scores are exact rationals. The
dictionaries of `rrf_fuse` and `_hybrid_hits` are kept in insertion order, which is the order
Python iterates them in.
-/

namespace ContractIntel.Search

open Llm (OpenAiClient UsageSink)

def RRF_K : Nat := 60

def CANDIDATE_DEPTH_FACTOR : Nat := 2

section Fusion

variable {κ : Type} [DecidableEq κ]

/-- `scores[item] = scores.get(item, 0.0) + share`. -/
def addScore (item : κ) (share : Rat) : List (κ × Rat) → List (κ × Rat)
  | [] => [(item, share)]
  | (other, score) :: rest =>
    if other = item then (other, score + share) :: rest else (other, score) :: addScore item share rest

/-- The score dictionary after one ranking, ranks counting from one. -/
def scoreRanking (k : Nat) (scores : List (κ × Rat)) (ranking : List κ) : List (κ × Rat) :=
  (ranking.zipIdx 1).foldl (fun scores entry => addScore entry.1 (1 / (k + entry.2 : Rat)) scores)
    scores

/-- `rrf_fuse`: best first, equal scores in the order of first appearance. The dictionary is in
that order already, and the sort is stable. -/
def rrfFuse (rankings : List (List κ)) (k : Nat) : List (κ × Rat) :=
  (rankings.foldl (scoreRanking k) []).insertionSort fun a b => b.2 ≤ a.2

end Fusion

structure SearchHit where
  documentId : Uuid
  documentSha256 : Str
  filename : Str
  chunkId : Uuid
  ordinal : Nat
  text : Str
  charStart : Nat
  charEnd : Nat
  score : Rat

/-- `by_id[chunk_id]`: of two rows with one id the later one is kept. -/
def lookup (rows : List (ChunkRow × DocumentRow)) (chunkId : Uuid) :
    Except Exn (ChunkRow × DocumentRow) :=
  match rows.reverse.find? (·.1.id = chunkId) with
  | some row => .ok row
  | none => .error (.keyError (Uuid.str chunkId))

def toHit (rows : List (ChunkRow × DocumentRow)) (entry : Uuid × Rat) : Except Exn SearchHit := do
  let (chunk, document) ← lookup rows entry.1
  return ⟨document.id, document.sha256, document.filename, chunk.id, chunk.ordinal, chunk.text,
    chunk.charStart, chunk.charEnd, entry.2⟩

/-- The hits of two rankings. -/
def fuseRows (vectorRanked ftsRanked : List (ChunkRow × DocumentRow)) (limit : Nat) :
    Except Exn (List SearchHit) :=
  ((rrfFuse [vectorRanked.map (·.1.id), ftsRanked.map (·.1.id)] RRF_K).take limit).mapM
    (toHit (vectorRanked ++ ftsRanked))

/-- `(query_embedding,) = vectors`. -/
def unpackOne : List Embedding → Except Exn Embedding
  | [] => .error (.valueError "not enough values to unpack (expected 1, got 0)".toList)
  | [embedding] => .ok embedding
  | _ => .error (.valueError "too many values to unpack (expected 1)".toList)

def hybridHits (llm : OpenAiClient) (tenantId : Uuid) (documentId : Option Uuid) (query : Str)
    (limit : Nat) (usageSink : UsageSink) : Service (List SearchHit) := do
  let reply ← Llm.embed llm [query]
  usageSink reply.usage
  let queryEmbedding ← lift (unpackOne reply.vectors)
  let depth := limit * CANDIDATE_DEPTH_FACTOR
  let vectorRanked ← perform (.rankBySimilarity tenantId documentId queryEmbedding depth)
  let ftsRanked ← perform (.rankByFullText tenantId documentId query depth)
  lift (fuseRows vectorRanked ftsRanked limit)

/-- Hybrid search restricted to one document's chunks. -/
def searchDocument (llm : OpenAiClient) (tenantId documentId : Uuid) (query : Str) (limit : Nat)
    (usageSink : UsageSink) : Service (List SearchHit) :=
  hybridHits llm tenantId (some documentId) query limit usageSink

/-- Hybrid search over the tenant's whole corpus. The call is accounted under the search surface,
without a job. -/
def search (requestId : Str) (llm : OpenAiClient) (tenantId : Uuid) (query : Str) (limit : Nat) :
    Service (List SearchHit) :=
  hybridHits llm tenantId none query limit (Usage.sink requestId tenantId .search none)

end ContractIntel.Search
