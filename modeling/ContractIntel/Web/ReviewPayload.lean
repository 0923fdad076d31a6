import ContractIntel.Web.Js

/-!
# The fields of a review item's payload (`web/src/lib/review-payload.ts`)

A payload is arbitrary JSON: rows from before the change block, and shapes nobody recognises, are
among it.
-/

namespace ContractIntel.Web

structure ReviewObligation where
  clauseRef : JsString
  description : JsString
  owner : Option JsString

/-- The change an impact comes from, as the queue renders it. -/
structure ReviewChange where
  kind : JsString
  clauseRef : Option JsString
  severity : JsString
  description : JsString

inductive ReviewPayloadFields where
  | impact (obligation : ReviewObligation) (change : Option ReviewChange)
  | obligation (fields : ReviewObligation)
  | definedTerm (term definition : JsString)
  | unknown (raw : JsValue)

def asString : Option JsValue → Option JsString
  | some (.string value) => some value
  | _ => none

def isRecord : JsValue → Bool
  | .object _ => true
  | _ => false

/-- The change block of an impact, `null` unless its kind and severity are strings. -/
def readChange (rawChange : Option JsValue) : Option ReviewChange := do
  let rawChange ← rawChange
  guard (isRecord rawChange)
  let kind ← asString (rawChange.get? (js "kind"))
  let severity ← asString (rawChange.get? (js "severity"))
  return {
    kind
    clauseRef := asString (rawChange.get? (js "clause_ref"))
    severity
    description := (asString (rawChange.get? (js "description"))).getD [] }

def reviewPayloadFields (itemType : JsString) (payload : JsValue) : ReviewPayloadFields :=
  if itemType = js "impact" then
    match isRecord payload, asString (payload.get? (js "clause_ref")) with
    | true, some clauseRef =>
      .impact
        { clauseRef
          description := (asString (payload.get? (js "description"))).getD []
          owner := asString (payload.get? (js "owner")) }
        (readChange (payload.get? (js "change")))
    | _, _ => .unknown payload
  else if itemType = js "obligation" then
    match isRecord payload, asString (payload.get? (js "clause_ref")),
        asString (payload.get? (js "description")) with
    | true, some clauseRef, some description =>
      .obligation { clauseRef, description, owner := asString (payload.get? (js "owner")) }
    | _, _, _ => .unknown payload
  else if itemType = js "defined_term" then
    match isRecord payload, asString (payload.get? (js "term")),
        asString (payload.get? (js "definition")) with
    | true, some term, some definition => .definedTerm term definition
    | _, _, _ => .unknown payload
  else .unknown payload

end ContractIntel.Web
