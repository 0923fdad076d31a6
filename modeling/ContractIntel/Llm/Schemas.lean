import ContractIntel.Data.Exn
import Mathlib.Algebra.Order.Ring.Unbundled.Rat

/-!
# What the model replies with

The pydantic models of `app/services/extraction.py`, `change_report.py` and `impact.py`. A reply
that reaches the services has been validated against one of three schemas, with every confidence
clamped into the unit interval; offsets and indices are any integers.
-/

namespace ContractIntel

/-- Character span into the document's parsed text (end exclusive). -/
structure Citation where
  charStart : Int
  charEnd : Int
  deriving DecidableEq

structure Obligation where
  clauseRef : Str
  description : Str
  owner : Option Str
  citation : Citation
  confidence : Rat
  deriving DecidableEq

structure DefinedTerm where
  term : Str
  definition : Str
  citation : Citation
  confidence : Rat
  deriving DecidableEq

structure ObligationExtraction where
  obligations : List Obligation
  definedTerms : List DefinedTerm
  deriving DecidableEq

inductive Severity | low | medium | high
  deriving DecidableEq, Repr

/-- The model's explanation of one detected change, keyed by its input index. -/
structure ChangeExplanation where
  index : Int
  description : Str
  severity : Severity
  deriving DecidableEq

/-- One model-reported mapping: candidate index and confidence. -/
structure MappedImpact where
  index : Int
  confidence : Rat
  deriving DecidableEq

/-- The schemas of the structured calls. -/
inductive Schema | obligationExtraction | changeExplanations | impactMapping
  deriving DecidableEq, Repr

/-- The data of a schema. -/
abbrev Schema.Data : Schema → Type
  | .obligationExtraction => ObligationExtraction
  | .changeExplanations => List ChangeExplanation
  | .impactMapping => List MappedImpact

/-- A parsed message content, of one schema or another. -/
inductive Content where
  | obligationExtraction (data : ObligationExtraction)
  | changeExplanations (data : List ChangeExplanation)
  | impactMapping (data : List MappedImpact)

/-- `_clamp_confidence`. -/
def clampConfidence (value : Rat) : Rat := min 1 (max 0 value)

/-- Validation against a schema: `none` is a `ValidationError`. -/
def Content.validate : (schema : Schema) → Content → Option schema.Data
  | .obligationExtraction, .obligationExtraction data =>
    some ⟨data.obligations.map fun o => { o with confidence := clampConfidence o.confidence },
      data.definedTerms.map fun t => { t with confidence := clampConfidence t.confidence }⟩
  | .changeExplanations, .changeExplanations data => some data
  | .impactMapping, .impactMapping data =>
    some (data.map fun m => { m with confidence := clampConfidence m.confidence })
  | _, _ => none

/-! ## `model_dump(mode="json")` -/

/-- A JSON string, `null` for `None`. -/
def Json.ofOption : Option Str → Json
  | none => .null
  | some text => .str text

def Citation.modelDump (c : Citation) : Json :=
  .obj [("char_start".toList, .num c.charStart), ("char_end".toList, .num c.charEnd)]

def Obligation.modelDump (o : Obligation) : Json :=
  .obj [("clause_ref".toList, .str o.clauseRef), ("description".toList, .str o.description),
    ("owner".toList, .ofOption o.owner), ("citation".toList, o.citation.modelDump),
    ("confidence".toList, .num o.confidence)]

def DefinedTerm.modelDump (t : DefinedTerm) : Json :=
  .obj [("term".toList, .str t.term), ("definition".toList, .str t.definition),
    ("citation".toList, t.citation.modelDump), ("confidence".toList, .num t.confidence)]

def ObligationExtraction.modelDump (e : ObligationExtraction) : Json :=
  .obj [("obligations".toList, .arr (e.obligations.map Obligation.modelDump)),
    ("defined_terms".toList, .arr (e.definedTerms.map DefinedTerm.modelDump))]

def Severity.value : Severity → Str
  | .low => "low".toList
  | .medium => "medium".toList
  | .high => "high".toList

end ContractIntel
