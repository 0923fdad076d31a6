import ContractIntel.Evals.Metrics
import ContractIntel.Lib.Dict
import ContractIntel.Services.ChangeReport

/-!
# The impact eval (`run_impact` of `evals/harness.py`)

A golden record's texts run through parse and diff, every detected change makes one mapping call
against the record's obligations, and the mappings are graded change by change. The scores of a
record are gathered in a dictionary under a rendered key and averaged over its values.

Loading the records and writing the report are left out, and of a record what the task does not read
(its tags, the hash of its document).
-/

namespace ContractIntel.Evals

open ChangeReport (textError)
open Diffing (Change detectChanges)
open Impact (CANDIDATE_LIMIT kindValue mapChangeImpacts)
open Lib (Dict.get? Dict.ofPairs Dict.set)
open Llm (OpenAiClient UsageSink)
open Parsing (Bytes)

structure GoldenObligation where
  clauseRef : Str
  description : Str
  owner : Option Str
  citation : Citation

/-- An expected change, with what it affects. -/
structure GoldenChange where
  kind : Str
  clauseRef : Option Str
  affected : List Affected

structure GoldenRecord where
  id : Str
  baseText : Str
  amendedText : Str
  obligations : List GoldenObligation
  changes : List GoldenChange

/-- `_aggregate` of precision and recall; no scores at all are a `ZeroDivisionError`. -/
def aggregate (scores : List (Str × Scores)) : Option Scores :=
  if scores = [] then none
  else some
    { precision := (scores.map (·.2.precision)).sum / scores.length
      recalled := (scores.map (·.2.recalled)).sum / scores.length }

/-- `_change_key`. -/
def changeKey (change : Change) : Str :=
  kindValue change.kind ++ ":".toList ++ change.clauseRef.getD "None".toList

/-- `_candidates`. -/
def candidatesOf (obligations : List GoldenObligation) : List Obligation :=
  (obligations.take CANDIDATE_LIMIT).map fun o => ⟨o.clauseRef, o.description, o.owner, o.citation, 1⟩

/-- `expected_by_key`. -/
def expectedByKey (changes : List GoldenChange) : List ((Str × Option Str) × List Affected) :=
  Dict.ofPairs (changes.map fun change => ((change.kind, change.clauseRef), change.affected))

/-- `text.encode()`. -/
def encode (text : Str) : Bytes := (String.ofList text).toUTF8.data.toList

section Run

variable [Ucd] [Platform]

/-- `parse("text/plain", text.encode()).text`. -/
def parsedText (text : Str) : Service Str := do
  let parsed ← lift ((Parsing.parse Parsing.TEXT_MIME (encode text)).mapError .parserError)
  return parsed.text

omit [Platform] in
/-- What the loop over the changes of a record stores for one of them. Without candidates there is
no call, and a mapping that fails its output gate scores zero. -/
def scoreChange (llm : OpenAiClient) (expected : List ((Str × Option Str) × List Affected))
    (candidates : List Obligation) (baseText amendedText : Str) (change : Change) :
    Service Scores := do
  let expected := (Dict.get? expected (kindValue change.kind, change.clauseRef)).getD []
  if candidates = [] then return impactPrecisionRecall expected []
  match ← (mapChangeImpacts llm change candidates baseText amendedText UsageSink.none).attempt with
  | .error (.llmOutputError _ _) => return ⟨0, 0⟩
  | .error e => throw e
  | .ok mapped =>
    return impactPrecisionRecall expected (mapped.map fun entry => (entry.1.clauseRef, entry.1.owner))

omit [Platform] in
/-- The loop over the changes, with `per_change` so far. -/
def scoreChanges (llm : OpenAiClient) (expected : List ((Str × Option Str) × List Affected))
    (candidates : List Obligation) (baseText amendedText : Str) :
    List Change → List (Str × Scores) → Service (List (Str × Scores))
  | [], perChange => return perChange
  | change :: rest, perChange => do
    let scores ← scoreChange llm expected candidates baseText amendedText change
    scoreChanges llm expected candidates baseText amendedText rest
      (Dict.set (changeKey change) scores perChange)

/-- What the loop over the records stores for one of them: a record without changes is perfect. -/
def scoreRecord (llm : OpenAiClient) (record : GoldenRecord) : Service Scores := do
  let baseText ← parsedText record.baseText
  let amendedText ← parsedText record.amendedText
  let changes ← lift ((detectChanges baseText amendedText).mapError textError)
  let perChange ← scoreChanges llm (expectedByKey record.changes) (candidatesOf record.obligations)
    baseText amendedText changes []
  return (aggregate perChange).getD ⟨1, 1⟩

/-- The loop over the records, with `per_record` so far. -/
def scoreRecords (llm : OpenAiClient) :
    List GoldenRecord → List (Str × Scores) → Service (List (Str × Scores))
  | [], perRecord => return perRecord
  | record :: rest, perRecord => do
    let scores ← scoreRecord llm record
    scoreRecords llm rest (Dict.set record.id scores perRecord)

structure Report where
  task : Str
  records : Nat
  metrics : Scores
  perRecord : List (Str × Scores)

/-- `run_impact`, `none` for the `ZeroDivisionError` of an empty list of records. -/
def runImpact (llm : OpenAiClient) (records : List GoldenRecord) : Service (Option Report) := do
  let perRecord ← scoreRecords llm records []
  return (aggregate perRecord).map fun metrics =>
    ⟨"impact_map".toList, perRecord.length, metrics, perRecord⟩

end Run

end ContractIntel.Evals
