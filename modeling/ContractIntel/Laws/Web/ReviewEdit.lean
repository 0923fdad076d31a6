import ContractIntel.Web.ReviewEdit

/-!
# A correction reads back

What is written over a payload is read back by the reader that seeded the draft, and nothing else
of the payload is touched.
-/

namespace ContractIntel.Web

open Lib (Dict.get?)

/-- The kinds of payload the queue recognises. -/
inductive ReviewKind | impact | obligation | definedTerm
  deriving DecidableEq

def ReviewPayloadFields.kind : ReviewPayloadFields → Option ReviewKind
  | .impact .. => some .impact
  | .obligation _ => some .obligation
  | .definedTerm .. => some .definedTerm
  | .unknown _ => none

/-- The change block as rendered. -/
def ReviewPayloadFields.change : ReviewPayloadFields → Option ReviewChange
  | .impact _ change => change
  | _ => none

namespace ReviewKind

/-- The keys a reviewer edits. -/
def editable : ReviewKind → List JsString
  | .impact | .obligation => [js "clause_ref", js "description", js "owner"]
  | .definedTerm => [js "term", js "definition"]

/-- The draft with the fields of the kind trimmed and the others empty. -/
def keep : ReviewKind → ReviewDraft → ReviewDraft
  | .impact, draft | .obligation, draft =>
    { EMPTY_DRAFT with
      clauseRef := draft.clauseRef.trim
      owner := draft.owner.trim
      description := draft.description.trim }
  | .definedTerm, draft =>
    { EMPTY_DRAFT with term := draft.term.trim, definition := draft.definition.trim }

/-- What a draft writes over a payload of the kind. -/
def written : ReviewKind → ReviewDraft → List (JsString × JsValue)
  | .impact, draft | .obligation, draft =>
    [(js "clause_ref", .string draft.clauseRef.trim),
      (js "description", .string draft.description.trim),
      (js "owner", if draft.owner.trim.isEmpty then .null else .string draft.owner.trim)]
  | .definedTerm, draft =>
    [(js "term", .string draft.term.trim), (js "definition", .string draft.definition.trim)]

theorem keys_written (kind : ReviewKind) (draft : ReviewDraft) :
    (kind.written draft).map Prod.fst = kind.editable := by
  cases kind <;> rfl

theorem nodup_editable (kind : ReviewKind) : kind.editable.Nodup := by
  cases kind <;> decide

/-- A draft that is trimmed already writes the same again. -/
theorem written_keep (kind : ReviewKind) (draft : ReviewDraft) :
    kind.written (kind.keep draft) = kind.written draft := by
  cases kind <;> simp [written, keep]

end ReviewKind

/-- What the correction `c` of a payload of the kind is. -/
structure Corrected (kind : ReviewKind) (itemType : JsString) (payload : JsValue)
    (draft : ReviewDraft) (c : JsValue) : Prop where
  kind_eq : (reviewPayloadFields itemType c).kind = some kind
  untouched : ∀ key, key ∉ kind.editable → c.get? key = payload.get? key
  change_eq : (reviewPayloadFields itemType c).change =
    (reviewPayloadFields itemType payload).change
  draft_eq : initialDraft itemType c = kind.keep draft
  again : buildCorrectedValues itemType c (initialDraft itemType c) = c

section Spread

variable {payload : JsValue} {kind : ReviewKind} {draft : ReviewDraft} {key : JsString}

theorem get?_spread_written :
    (payload.spread (kind.written draft)).get? key =
      (Dict.get? (kind.written draft) key).or (payload.get? key) :=
  Lib.Dict.get?_setAll (kind.keys_written draft ▸ kind.nodup_editable)

/-- A key that is not edited is as it was. -/
theorem get?_spread_of_not_mem (h : key ∉ kind.editable) :
    (payload.spread (kind.written draft)).get? key = payload.get? key := by
  rw [get?_spread_written, Lib.Dict.get?_eq_none (kind.keys_written draft ▸ h)]
  rfl

theorem get?_spread_of_mem {binding : JsString × JsValue} (h : binding ∈ kind.written draft) :
    (payload.spread (kind.written draft)).get? binding.1 = some binding.2 := by
  rw [get?_spread_written,
    Lib.Dict.get?_of_mem (kind.keys_written draft ▸ kind.nodup_editable) h]
  rfl

/-- Writing the same again changes nothing. -/
theorem spread_spread_written :
    (payload.spread (kind.written draft)).spread (kind.written draft) =
      payload.spread (kind.written draft) :=
  congrArg JsValue.object (Lib.Dict.setAll_of_get? fun _ hmem => get?_spread_of_mem hmem)

end Spread

/-! ## Reading -/

section Reading

variable {itemType : JsString} {payload : JsValue} {kind : ReviewKind} {draft : ReviewDraft}

/-- What a payload is recognised as depends on the type of its item; an impact alone has a change
block, the one under its `change` key. -/
theorem reviewPayloadFields_cases (itemType : JsString) (payload : JsValue) :
    reviewPayloadFields itemType payload = .unknown payload ∨
      (itemType = js "impact" ∧ ∃ obligation, reviewPayloadFields itemType payload =
        .impact obligation (readChange (payload.get? (js "change")))) ∨
      (itemType = js "obligation" ∧ ∃ obligation, reviewPayloadFields itemType payload =
        .obligation obligation) ∨
      (itemType = js "defined_term" ∧ ∃ term definition, reviewPayloadFields itemType payload =
        .definedTerm term definition) := by
  unfold reviewPayloadFields
  split
  next htype =>
    split
    · exact .inr (.inl ⟨htype, _, rfl⟩)
    · exact .inl rfl
  next =>
    split
    next htype =>
      split
      · exact .inr (.inr (.inl ⟨htype, _, rfl⟩))
      · exact .inl rfl
    next =>
      split
      next htype =>
        split
        · exact .inr (.inr (.inr ⟨htype, _, _, rfl⟩))
        · exact .inl rfl
      next => exact .inl rfl

/-- The owner is read as it was written: an empty one as none. -/
theorem asString_owner (owner : JsString) :
    asString (some (if owner.isEmpty then .null else .string owner)) =
      if owner.isEmpty then none else some owner := by
  split <;> rfl

/-- What is written over an impact or an obligation is found under its key. -/
theorem obligation_written (payload : JsValue) (draft : ReviewDraft) (hkind : kind ≠ .definedTerm) :
    (payload.spread (kind.written draft)).get? (js "clause_ref") =
        some (.string draft.clauseRef.trim) ∧
      (payload.spread (kind.written draft)).get? (js "description") =
        some (.string draft.description.trim) ∧
      (payload.spread (kind.written draft)).get? (js "owner") =
        some (if draft.owner.trim.isEmpty then .null else .string draft.owner.trim) := by
  refine ⟨get?_spread_written.trans ?_, get?_spread_written.trans ?_,
    get?_spread_written.trans ?_⟩ <;> cases kind
  all_goals first
    | rfl
    | exact absurd rfl hkind

/-- The obligation that is read back. -/
def ReviewDraft.obligation (draft : ReviewDraft) : ReviewObligation where
  clauseRef := draft.clauseRef.trim
  description := draft.description.trim
  owner := if draft.owner.trim.isEmpty then none else some draft.owner.trim

theorem impact_readBack :
    reviewPayloadFields (js "impact") (payload.spread (ReviewKind.impact.written draft)) =
      .impact draft.obligation (readChange (payload.get? (js "change"))) := by
  obtain ⟨hclause, hdescription, howner⟩ :=
    obligation_written payload draft (show ReviewKind.impact ≠ .definedTerm from nofun)
  have hchange : (payload.spread (ReviewKind.impact.written draft)).get? (js "change") =
      payload.get? (js "change") := get?_spread_of_not_mem (by decide)
  rw [reviewPayloadFields, if_pos rfl, hclause, hdescription, howner, hchange, asString_owner]
  rfl

theorem obligation_readBack :
    reviewPayloadFields (js "obligation") (payload.spread (ReviewKind.obligation.written draft)) =
      .obligation draft.obligation := by
  obtain ⟨hclause, hdescription, howner⟩ :=
    obligation_written payload draft (show ReviewKind.obligation ≠ .definedTerm from nofun)
  rw [reviewPayloadFields, if_neg (by decide), if_pos rfl, hclause, hdescription, howner,
    asString_owner]
  rfl

theorem definedTerm_readBack :
    reviewPayloadFields (js "defined_term")
      (payload.spread (ReviewKind.definedTerm.written draft)) =
        .definedTerm draft.term.trim draft.definition.trim := by
  have hterm : (payload.spread (ReviewKind.definedTerm.written draft)).get? (js "term") =
      some (.string draft.term.trim) := get?_spread_written.trans rfl
  have hdefinition : (payload.spread (ReviewKind.definedTerm.written draft)).get?
      (js "definition") = some (.string draft.definition.trim) := get?_spread_written.trans rfl
  rw [reviewPayloadFields, if_neg (by decide), if_neg (by decide), if_pos rfl, hterm, hdefinition]
  rfl

end Reading

/-! ## Corrections -/

section Corrections

variable {itemType : JsString} {payload : JsValue} {kind : ReviewKind} {draft : ReviewDraft}

/-- What is written over a payload that is recognised. -/
theorem buildCorrectedValues_of_kind (h : (reviewPayloadFields itemType payload).kind = some kind)
    (draft : ReviewDraft) :
    buildCorrectedValues itemType payload draft = payload.spread (kind.written draft) := by
  unfold buildCorrectedValues
  cases hfields : reviewPayloadFields itemType payload <;> rw [hfields] at h <;> cases h <;> rfl

/-- A correction that is read back as one of its kind, with the change there was and the draft that
was written, is written over by that draft to no effect. -/
theorem corrected_of_readBack {itemType : JsString} {fields : ReviewPayloadFields}
    (hpayload : (reviewPayloadFields itemType payload).kind = some kind)
    (hread : reviewPayloadFields itemType (payload.spread (kind.written draft)) = fields)
    (hkind : fields.kind = some kind)
    (hchange : fields.change = (reviewPayloadFields itemType payload).change)
    (hdraft : initialDraft itemType (payload.spread (kind.written draft)) = kind.keep draft) :
    Corrected kind itemType payload draft (buildCorrectedValues itemType payload draft) := by
  rw [buildCorrectedValues_of_kind hpayload]
  refine ⟨hread ▸ hkind, fun _ hkey => get?_spread_of_not_mem hkey, hread ▸ hchange, hdraft, ?_⟩
  rw [hdraft, buildCorrectedValues_of_kind (hread ▸ hkind), kind.written_keep,
    spread_spread_written]

/-- The draft that is seeded from an obligation that was written. -/
theorem seed_obligation (draft : ReviewDraft) :
    { EMPTY_DRAFT with
      clauseRef := draft.obligation.clauseRef
      owner := draft.obligation.owner.getD []
      description := draft.obligation.description } = ReviewKind.obligation.keep draft := by
  have howner : draft.obligation.owner.getD [] = draft.owner.trim := by
    rw [ReviewDraft.obligation]
    cases draft.owner.trim <;> rfl
  rw [howner]
  rfl

/-- For every item type, payload and draft: the correction of a payload that is recognised is
recognised as the same kind, differs from the payload in the keys of the kind only, is rendered with
the same change, seeds the draft it was written from and is written again unchanged; a payload that
is not recognised is returned itself. -/
theorem correction_reads_back (itemType : JsString) (payload : JsValue) (draft : ReviewDraft) :
    match (reviewPayloadFields itemType payload).kind with
    | some kind =>
      Corrected kind itemType payload draft (buildCorrectedValues itemType payload draft)
    | none => buildCorrectedValues itemType payload draft = payload := by
  rcases reviewPayloadFields_cases itemType payload with
    hfields | ⟨rfl, _, hfields⟩ | ⟨rfl, _, hfields⟩ | ⟨rfl, _, _, hfields⟩
  · rw [buildCorrectedValues, hfields]
    rfl
  · have hkind : (reviewPayloadFields (js "impact") payload).kind = some .impact := by
      rw [hfields]
      rfl
    rw [hkind]
    refine corrected_of_readBack hkind impact_readBack rfl ?_ ?_
    · rw [hfields]
      rfl
    · rw [initialDraft, impact_readBack]
      exact seed_obligation draft
  · have hkind : (reviewPayloadFields (js "obligation") payload).kind = some .obligation := by
      rw [hfields]
      rfl
    rw [hkind]
    refine corrected_of_readBack hkind obligation_readBack rfl ?_ ?_
    · rw [hfields]
      rfl
    · rw [initialDraft, obligation_readBack]
      exact seed_obligation draft
  · have hkind : (reviewPayloadFields (js "defined_term") payload).kind = some .definedTerm := by
      rw [hfields]
      rfl
    rw [hkind]
    refine corrected_of_readBack hkind definedTerm_readBack rfl ?_ ?_
    · rw [hfields]
      rfl
    · rw [initialDraft, definedTerm_readBack]
      rfl

end Corrections

end ContractIntel.Web
