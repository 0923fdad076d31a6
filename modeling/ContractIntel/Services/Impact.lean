import ContractIntel.Services.Extraction
import ContractIntel.Services.Search
import ContractIntel.Text.Diffing

/-!
# Impact mapping (`app/services/impact.py`)

Candidates are the obligations whose citation overlaps a retrieved chunk, in the order of the
chunks; one call per change maps the change onto candidate indices.
-/

namespace ContractIntel.Impact

open Diffing (Change ChangeKind Span)
open Llm (OpenAiClient UsageSink)
open Search (SearchHit)

def CANDIDATE_LIMIT : Nat := 20

def EXCERPT_LIMIT : Nat := 1500

/-- End-exclusive spans that share a character. -/
def overlaps (o : Obligation) (chunk : SearchHit) : Bool :=
  o.citation.charStart < chunk.charEnd && (chunk.charStart : Int) < o.citation.charEnd

/-- The accumulators of `select_candidates`: obligations selected and indices picked. -/
structure Selection where
  selected : List Obligation
  picked : List Nat

/-- The inner loop over the obligations. The loops end when the limit is reached, which no later
round changes. -/
def pickFrom (chunk : SearchHit) (limit : Nat) (state : Selection) (entry : Obligation × Nat) :
    Selection :=
  if state.selected.length = limit ∧ state.selected ≠ [] ∨ entry.2 ∈ state.picked ∨
      ¬ overlaps entry.1 chunk then state
  else ⟨state.selected ++ [entry.1], entry.2 :: state.picked⟩

def selectCandidates (obligations : List Obligation) (chunks : List SearchHit) (limit : Nat) :
    List Obligation :=
  (chunks.foldl (fun state chunk => obligations.zipIdx.foldl (pickFrom chunk limit) state)
    ⟨[], []⟩).selected

def excerpt (text : Str) (span : Span) : Str :=
  (Str.slice text span.charStart span.charEnd).take EXCERPT_LIMIT

def kindValue : ChangeKind → Str
  | .added => "added".toList
  | .removed => "removed".toList
  | .modified => "modified".toList

/-- The clause a change is about, in a prompt. -/
def clauseLabel (change : Change) : Str := change.clauseRef.getD "preamble".toList

def excerptLines (change : Change) (baseText amendedText : Str) : List Str :=
  (change.baseSpan.map fun span => "BEFORE: ".toList ++ excerpt baseText span).toList ++
    (change.amendedSpan.map fun span => "AFTER: ".toList ++ excerpt amendedText span).toList

def mappingPrompt (change : Change) (candidates : List Obligation) (baseText amendedText : Str) :
    Str :=
  Str.join ['\n'] <|
    ["Change (".toList ++ kindValue change.kind ++ ", clause ".toList ++ clauseLabel change ++
      "):".toList] ++
    excerptLines change baseText amendedText ++
    ["Candidate obligations from the base agreement:".toList] ++
    candidates.zipIdx.map fun entry =>
      "Obligation ".toList ++ Str.ofNat entry.2 ++ ": [".toList ++ entry.1.clauseRef ++
        "] ".toList ++ entry.1.description ++
        match entry.1.owner with
        | some owner => " (owner: ".toList ++ owner ++ ")".toList
        | none => []

/-- The loop over the mapped impacts: an index outside the candidates rejects the reply, a
repeated one is skipped. -/
def readMapping (candidates : List Obligation) :
    List MappedImpact → List Int → Except Exn (List (Obligation × Rat))
  | [], _ => .ok []
  | mapped :: rest, seen =>
    match if mapped.index < 0 then none else candidates[mapped.index.toNat]? with
    | none => .error (.llmOutputError ("model output failed impact-index validation: index ".toList
        ++ Extraction.intStr mapped.index ++ " is outside the ".toList ++
        Str.ofNat candidates.length ++ " candidate obligations".toList) none)
    | some obligation =>
      if mapped.index ∈ seen then readMapping candidates rest seen
      else (readMapping candidates rest (mapped.index :: seen)).map
        ((obligation, mapped.confidence) :: ·)

def mapChangeImpacts (llm : OpenAiClient) (change : Change) (candidates : List Obligation)
    (baseText amendedText : Str) (usageSink : UsageSink) : Service (List (Obligation × Rat)) := do
  if candidates = [] then return []
  let reply ← Llm.completeStructured llm .impactMapping
    (mappingPrompt change candidates baseText amendedText)
  usageSink reply.usage
  lift (readMapping candidates reply.data [])

end ContractIntel.Impact
