import ContractIntel.Web.ReviewPayload

/-!
# Correcting a review item (`web/src/lib/review-edit.ts`)

The reviewer edits a draft of the fields they can judge. The draft is seeded from the payload, and
written back over it.
-/

namespace ContractIntel.Web

structure ReviewDraft where
  clauseRef : JsString
  owner : JsString
  description : JsString
  term : JsString
  definition : JsString

def EMPTY_DRAFT : ReviewDraft := ⟨[], [], [], [], []⟩

def initialDraft (itemType : JsString) (payload : JsValue) : ReviewDraft :=
  match reviewPayloadFields itemType payload with
  | .impact fields _ | .obligation fields =>
    { EMPTY_DRAFT with
      clauseRef := fields.clauseRef
      owner := fields.owner.getD []
      description := fields.description }
  | .definedTerm term definition => { EMPTY_DRAFT with term, definition }
  | .unknown _ => EMPTY_DRAFT

def buildCorrectedValues (itemType : JsString) (payload : JsValue) (draft : ReviewDraft) :
    JsValue :=
  let owner := draft.owner.trim
  match reviewPayloadFields itemType payload with
  | .impact .. | .obligation _ =>
    payload.spread
      [(js "clause_ref", .string draft.clauseRef.trim),
        (js "description", .string draft.description.trim),
        (js "owner", if owner.isEmpty then .null else .string owner)]
  | .definedTerm .. =>
    payload.spread
      [(js "term", .string draft.term.trim), (js "definition", .string draft.definition.trim)]
  -- unknown payload shapes are edited as raw JSON, never through the draft
  | .unknown _ => payload

end ContractIntel.Web
