import ContractIntel.Web.Js

/-!
# The change report as a memo (`web/src/lib/report-markdown.ts`)

`reportToMarkdown` pushes pieces on a list of lines and joins them with line feeds. A piece is a text
of the memo's own or a quoted excerpt, which keeps apart where the text of the memo comes from. The
arithmetic of doubles is a parameter: it only makes the digits of a percentage.
-/

namespace ContractIntel.Web

open JsString

/-- The arithmetic of doubles the memo uses. -/
class Doubles where
  /-- `Math.round(value * 100)`. -/
  roundPercent : Rat → Int

/-- Arithmetic without rounding errors. -/
@[reducible] def Doubles.exact : Doubles where
  roundPercent value := (value * 100 + 1 / 2).floor

inductive ChangeKind | added | removed | modified
  deriving DecidableEq

inductive Severity | low | medium | high
  deriving DecidableEq

structure ChangeImpact where
  clauseRef : JsString
  description : JsString
  owner : Option JsString
  confidence : Rat

/-- A change of a report; an excerpt may be `null` or missing, alike. -/
structure Change where
  kind : ChangeKind
  clauseRef : Option JsString
  baseExcerpt : Option JsString
  amendedExcerpt : Option JsString
  description : JsString
  severity : Severity
  impacts : List ChangeImpact

/-- A change report job, as far as the memo reads it. -/
structure ChangeReportJobRead where
  /-- `result?.changes`. -/
  changes : Option (List Change)
  updatedAt : JsString

/-- The names of the compared documents, when they are known. -/
structure Documents where
  base : Option JsString
  amended : Option JsString

def ChangeKind.text : ChangeKind → JsString
  | .added => js "added"
  | .removed => js "removed"
  | .modified => js "modified"

def Severity.text : Severity → JsString
  | .low => js "low"
  | .medium => js "medium"
  | .high => js "high"

def SEVERITIES : List Severity := [.high, .medium, .low]

/-- What is left of an optional string where an empty one counts as missing. -/
def truthy (text : Option JsString) : Option JsString := text.filter (· ≠ [])

/-- `capitalize`, for ASCII texts. -/
def capitalize : JsString → JsString
  | [] => []
  | c :: rest => (if 0x61 ≤ c ∧ c ≤ 0x7a then c - 0x20 else c) :: rest

def quoteLine (line : JsString) : JsString :=
  if line.isEmpty then js ">" else js "> " ++ line

/-- `quote`. -/
def quote (text : JsString) : JsString := [LF].intercalate ((text.splitOn LF).map quoteLine)

/-- What is pushed on `lines`. -/
inductive Piece where
  /-- A text of the memo's own. -/
  | own (text : JsString)
  /-- `quote(excerpt)`. -/
  | quoted (excerpt : JsString)

def Piece.text : Piece → JsString
  | .own text => text
  | .quoted excerpt => quote excerpt

section Pieces

/-- A section with an excerpt, when there is one. -/
def excerptPieces (title : JsString) (excerpt : Option JsString) : List Piece :=
  match truthy excerpt with
  | some excerpt => [.own title, .own [], .quoted excerpt, .own []]
  | none => []

variable [Doubles]

def impactText (impact : ChangeImpact) : JsString :=
  let owner := match truthy impact.owner with
    | some owner => js " · " ++ owner
    | none => []
  let confidence := js (toString (Doubles.roundPercent impact.confidence))
  js "- " ++ impact.clauseRef ++ owner ++ js " (" ++ confidence ++ js "% confidence): " ++
    impact.description

def impactPieces (impacts : List ChangeImpact) : List Piece :=
  if impacts.isEmpty then []
  else [.own (js "**Affected obligations**"), .own []] ++
    impacts.map (fun impact => .own (impactText impact)) ++ [.own []]

def changePieces (change : Change) : List Piece :=
  [.own (js "### " ++ change.clauseRef.getD (js "Preamble") ++ js " (" ++ change.kind.text ++
      js ")"), .own [], .own change.description, .own []] ++
    excerptPieces (js "**Before**") change.baseExcerpt ++
    excerptPieces (js "**After**") change.amendedExcerpt ++
    impactPieces change.impacts

def severityPieces (changes : List Change) (severity : Severity) : List Piece :=
  let group := changes.filter (·.severity = severity)
  if group.isEmpty then []
  else [.own [], .own (js "## " ++ capitalize severity.text ++ js " severity"), .own []] ++
    group.flatMap changePieces

/-- The pieces of the memo, in order. -/
def memo (job : ChangeReportJobRead) (documents : Documents) : List Piece :=
  let changes := job.changes.getD []
  [.own (js "# Change report"), .own []] ++
    (truthy documents.base).toList.map (fun name => .own (js "- Agreement: " ++ name)) ++
    (truthy documents.amended).toList.map (fun name => .own (js "- Amendment: " ++ name)) ++
    [.own (js "- Generated: " ++ job.updatedAt),
      .own (js "- Changes: " ++ js (toString changes.length))] ++
    SEVERITIES.flatMap (severityPieces changes)

def reportToMarkdown (job : ChangeReportJobRead) (documents : Documents) : JsString :=
  trimEnd ([LF].intercalate ((memo job documents).map Piece.text)) ++ [LF]

end Pieces

end ContractIntel.Web
