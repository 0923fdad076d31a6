import ContractIntel.Laws.Services.Party
import ContractIntel.Laws.Store.Keys

/-!
# What the review queue holds

Routing inserts the candidates strictly below the threshold, in their order, as pending items of the
job (`routeForReview_created`).
-/

namespace ContractIntel.ReviewQueue

open Lib (Every run)

variable {env : Store → Store → Prop} {l : Session} {s t : Store}

/-! ## Routing -/

/-- The review items that a run inserted. -/
def created (trace : List Entry) : List ReviewItemRow :=
  trace.flatMap fun entry => match entry with
    | ⟨.insertReviewItems .., _, .ok rows⟩ => rows
    | _ => []

/-- The operation that inserts review items. -/
def routes : Op → Bool
  | .insertReviewItems .. => true
  | _ => false

theorem created_eq_nil {trace : List Entry} (h : ∀ entry ∈ trace, routes entry.op = false) :
    created trace = [] := by
  refine List.flatMap_eq_nil_iff.mpr fun entry hentry => ?_
  obtain ⟨o, a, result⟩ := entry
  have ho := h _ hentry
  cases o <;> first | rfl | cases ho

@[simp] theorem created_nil : created [] = [] := rfl

@[simp] theorem created_append (trace more : List Entry) :
    created (trace ++ more) = created trace ++ created more :=
  List.flatMap_append

/-- What a reviewer is shown of an item. -/
def content (item : ReviewItemRow) : Str × Json × Rat := (item.itemType, item.payload, item.confidence)

/-- Pending items of one job with the given contents, in order. -/
structure Routed (tenantId : Uuid) (source : ReviewItemSource) (documentId jobId : Uuid)
    (contents : List (Str × Json × Rat)) (items : List ReviewItemRow) : Prop where
  contents : items.map content = contents
  pending : ∀ item ∈ items, item.status = .pending ∧ item.correctedValues = none ∧
    item.resolvedAt = none
  labels : ∀ item ∈ items, item.tenantId = tenantId ∧ item.source = source ∧
    item.documentId = documentId ∧ item.jobId = jobId

theorem routed_insertReviewItems {tenantId : Uuid} {source : ReviewItemSource}
    {documentId jobId : Uuid} {items : List (Str × Json × Rat)} {drawn : List Uuid}
    {began : Time} {rows : List ReviewItemRow}
    (h : s.insertReviewItems tenantId source documentId jobId items drawn began = .ok (rows, t)) :
    Routed tenantId source documentId jobId items rows := by
  simp only [Store.insertReviewItems] at h
  split at h
  · cases h
  · cases h
    refine ⟨?_, fun item hitem => ?_, fun item hitem => ?_⟩
    · rw [List.map_map]
      have hlength : items.length ≤ (drawMany items.length s.issued drawn).length := by
        rw [length_drawMany]
      exact List.map_fst_zip hlength
    · obtain ⟨entry, -, rfl⟩ := List.mem_map.mp hitem
      exact ⟨rfl, rfl, rfl⟩
    · obtain ⟨entry, -, rfl⟩ := List.mem_map.mp hitem
      exact ⟨rfl, rfl, rfl, rfl⟩

theorem routeForReview_created (tenantId : Uuid) (source : ReviewItemSource)
    (documentId jobId : Uuid) (candidates : List (Str × Json × Rat)) (threshold : Rat) :
    Every exec env (routeForReview tenantId source documentId jobId candidates threshold) l s
      fun trace res _ _ => ∀ n, res = .ok n → Routed tenantId source documentId jobId
        (candidates.filter fun c => belowThreshold c.2.2 threshold) (created trace) := by
  unfold routeForReview
  dsimp only
  split
  next hnone =>
    intro n _
    rw [hnone]
    exact ⟨rfl, fun _ h => absurd h List.not_mem_nil, fun _ h => absurd h List.not_mem_nil⟩
  next =>
    refine Every.bind.mpr (Every.call.mpr fun moved a _ => ?_)
    split
    next rows hrows =>
      intro n _
      rw [created_append, hrows]
      show Routed _ _ _ _ _ ((rows ++ []) ++ [])
      rw [List.append_nil, List.append_nil]
      rcases statement_cases (Store.insertReviewItems tenantId source documentId jobId
        (candidates.filter fun c => belowThreshold c.2.2 threshold) a.ids a.began) a l moved with
        ⟨e, heq, -⟩ | ⟨r, t, -, -, hok, heq⟩
      · rw [exec, heq] at hrows
        cases hrows
      · rw [exec, heq] at hrows
        cases hrows
        exact routed_insertReviewItems hok
    next => exact fun _ h => by cases h

/-! ## Columns -/

/-- The columns of a row agree: pending rows are the unresolved ones, edited rows the corrected. -/
structure Columns (item : ReviewItemRow) : Prop where
  pending_iff : item.status = .pending ↔ item.resolvedAt = none
  edited_iff : item.correctedValues.isSome ↔ item.status = .edited

/-- Item ids are keys, and in every row the columns agree. -/
structure ItemsSound (s : Store) : Prop where
  nodup : (s.reviewItems.map ReviewItemRow.id).Nodup
  issued : ∀ item ∈ s.reviewItems, item.id ∈ s.issued
  columns : ∀ item ∈ s.reviewItems, Columns item

/-- A resolution, if the operation is one, has a disposition paired with its values. -/
def Paired : Op → Prop
  | .resolveReviewItem _ _ status values => status ≠ .pending ∧ (values.isSome ↔ status = .edited)
  | _ => True

/-- The later row, if there is still one, of an item resolved before is the same row. -/
structure Persists (s t : Store) : Prop where
  issued : ∀ id ∈ s.issued, id ∈ t.issued
  rows : ∀ item' ∈ t.reviewItems, item'.id ∈ s.issued → ∃ item ∈ s.reviewItems,
    item.id = item'.id ∧ (item.status ≠ .pending → item' = item)

theorem Persists.of_eq (hitems : t.reviewItems = s.reviewItems)
    (hissued : ∀ id ∈ s.issued, id ∈ t.issued) : Persists s t :=
  ⟨hissued, fun item' hitem' _ => ⟨item', hitems ▸ hitem', rfl, fun _ => rfl⟩⟩

theorem Persists.trans {u : Store} (hst : Persists s t) (htu : Persists t u) : Persists s u := by
  refine ⟨fun id hid => htu.issued id (hst.issued id hid), fun item'' hitem'' hid => ?_⟩
  obtain ⟨item', hitem', hid', hkept'⟩ := htu.rows item'' hitem'' (hst.issued _ hid)
  obtain ⟨item, hitem, hid'', hkept⟩ := hst.rows item' hitem' (hid' ▸ hid)
  refine ⟨item, hitem, hid''.trans hid', fun hresolved => ?_⟩
  obtain rfl := hkept hresolved
  exact hkept' hresolved

theorem ItemsSound.of_eq (h : ItemsSound s) (hitems : t.reviewItems = s.reviewItems)
    (hissued : ∀ id ∈ s.issued, id ∈ t.issued) : ItemsSound t := by
  refine ⟨hitems ▸ h.nodup, fun item hitem => ?_, hitems ▸ h.columns⟩
  exact hissued _ (h.issued item (hitems ▸ hitem))

theorem ItemsSound.eq_of_id_eq (h : ItemsSound s) {item item' : ReviewItemRow}
    (hitem : item ∈ s.reviewItems) (hitem' : item' ∈ s.reviewItems) (hid : item.id = item'.id) :
    item = item' :=
  List.inj_on_of_nodup_map h.nodup hitem hitem' hid

theorem columns_resolved {status : ReviewItemStatus} {values : Option Json} {now : Time}
    {item : ReviewItemRow} (h : status ≠ .pending ∧ (values.isSome ↔ status = .edited)) :
    Columns (Store.resolved status values now item) :=
  ⟨iff_of_false h.1 nofun, h.2⟩

/-- An operation keeps the columns in agreement and leaves resolved items as they are. -/
theorem itemsSound_effect {o : Op} {a : Answer} (hpaired : Paired o) (h : Effect o a s t)
    (hsound : ItemsSound s) : ItemsSound t ∧ Persists s t := by
  obtain ⟨hnodup, hissued⟩ := ItemKeys.effect ⟨hsound.nodup, hsound.issued⟩ h
  refine ⟨⟨hnodup, hissued, fun item hitem => ?_⟩, ⟨h.issued, fun item hitem hid => ?_⟩⟩
  · cases h.item_origin hitem with
    | kept hmem => exact hsound.columns item hmem
    | resolved ho _ _ heq =>
      subst ho heq
      exact columns_resolved hpaired
    | inserted _ _ hpending hresolvedAt hvalues =>
      refine ⟨iff_of_true hpending hresolvedAt, ?_⟩
      rw [hvalues, hpending]
      decide
  · cases h.item_origin hitem with
    | kept hmem => exact ⟨item, hmem, rfl, fun _ => rfl⟩
    | resolved _ hold hpending heq =>
      exact ⟨_, hold, heq ▸ rfl, fun hresolved => absurd hpending hresolved⟩
    | inserted _ hfresh => exact absurd hid hfresh

theorem paired_of_does {party : Party} {o : Op} (h : party.Does o) : Paired o := by
  cases h with
  | request ho => cases o with
    | resolveReviewItem => cases ho
    | _ => trivial
  | worker ho => cases o with
    | resolveReviewItem => cases ho
    | _ => trivial
  | fetch => trivial
  | resolve context tenantId itemId request =>
    obtain ⟨disposition, values, hpair⟩ := request
    cases disposition <;> simpa [Paired, Disposition.status] using hpair

/-- In every run of any parties the columns agree, and a resolved item never changes again. -/
theorem itemsSound_of_run [Ucd] [Platform] {ι : Type} [DecidableEq ι] {members : ι → Option Party}
    {turns more : List (Turn ι)} {c c' : System ι} (hsound : ItemsSound s)
    (hrun : run System.step (everyone s members) turns = some c)
    (hmore : run System.step c more = some c') :
    ItemsSound c.store ∧ ItemsSound c'.store ∧ Persists c.store c'.store := by
  have hparties : ∀ i l p, (everyone s members).parties i = some (l, p) → p.Performs Paired := by
    intro i l p hi
    obtain ⟨program, hprogram, heq⟩ := Option.map_eq_some_iff.mp hi
    obtain ⟨party, -, rfl⟩ := Option.map_eq_some_iff.mp hprogram
    cases heq
    exact party.program_performs.mono fun _ _ => paired_of_does
  have hrel : ∀ {d d' : System ι} {ts : List (Turn ι)},
      (∀ i l p, d.parties i = some (l, p) → p.Performs Paired) →
      run System.step d ts = some d' →
        (ItemsSound d.store → ItemsSound d'.store ∧ Persists d.store d'.store) := by
    intro d d' ts hd hr
    refine Lib.Pool.store_run (R := fun s t => ItemsSound s → ItemsSound t ∧ Persists s t)
      (fun s h => ⟨h, .of_eq rfl fun _ hid => hid⟩) ?_ ?_ ?_ hd hr
    · intro s t u hst htu h
      obtain ⟨ht, hpersists⟩ := hst h
      obtain ⟨hu, hpersists'⟩ := htu ht
      exact ⟨hu, hpersists.trans hpersists'⟩
    · exact fun d s h => ⟨h.of_eq rfl fun _ hid => hid, .of_eq rfl fun _ hid => hid⟩
    · exact fun o a l s ho h => itemsSound_effect ho (exec_effect o a l s) h
  have hfirst := hrel hparties hrun hsound
  exact ⟨hfirst.1, hrel (Lib.Pool.within_run hparties hrun) hmore hfirst.1⟩

end ContractIntel.ReviewQueue
