import ContractIntel.Laws.Store.Jobs

/-!
# Keys of documents and review items

Document ids and review item ids are keys, and so is the address of a document's file.
-/

namespace ContractIntel

variable {o : Op} {a : Answer} {s t : Store}

/-- Review item ids are distinct and in use. -/
structure ItemKeys (s : Store) : Prop where
  nodup : (s.reviewItems.map ReviewItemRow.id).Nodup
  issued : ∀ item ∈ s.reviewItems, item.id ∈ s.issued

/-- Document ids are distinct and in use. -/
structure DocumentKeys (s : Store) : Prop where
  nodup : (s.documents.map DocumentRow.id).Nodup
  issued : ∀ d ∈ s.documents, d.id ∈ s.issued

/-- The unique `(tenant_id, sha256)`. -/
def Addressed (s : Store) : Prop := (s.documents.map fun d => (d.tenantId, d.sha256)).Nodup

/-- Where a review item that stands after an operation comes from. -/
inductive ItemOrigin (o : Op) (s : Store) (item : ReviewItemRow) : Prop where
  | kept (hmem : item ∈ s.reviewItems)
  | resolved {tenantId itemId : Uuid} {status : ReviewItemStatus} {values : Option Json}
      {old : ReviewItemRow} (ho : o = .resolveReviewItem tenantId itemId status values)
      (hold : old ∈ s.reviewItems) (hpending : old.status = .pending)
      (heq : item = Store.resolved status values s.now old)
  | inserted {items : List (Str × Json × Rat)}
      (ho : o = .insertReviewItems item.tenantId item.source item.documentId item.jobId items)
      (hfresh : item.id ∉ s.issued) (hpending : item.status = .pending)
      (hresolvedAt : item.resolvedAt = none) (hvalues : item.correctedValues = none)

theorem Effect.item_origin (h : Effect o a s t) {item : ReviewItemRow}
    (hitem : item ∈ t.reviewItems) : ItemOrigin o s item := by
  cases h with
  | deleteSweep hswept =>
    exact .kept ((Store.deleteSweep_reviewItems hswept).subset hitem)
  | @insertReviewItems tenantId source documentId jobId items _ _ rows ids _ hids hrows =>
    rcases List.mem_append.mp hitem with hitem | hitem
    · exact .kept hitem
    · obtain ⟨-, hfresh⟩ := drawMany_fresh items.length s.issued a.ids
      rw [hrows] at hitem
      obtain ⟨entry, hentry, rfl⟩ := List.mem_map.mp hitem
      exact .inserted rfl (hfresh _ (hids ▸ (List.of_mem_zip hentry).2)) rfl rfl rfl
  | @resolveReviewItem tenantId itemId status values =>
    obtain ⟨old, hold, rfl⟩ := List.mem_map.mp hitem
    split
    next hguard =>
      simp only [Store.resolvable, Bool.and_eq_true, decide_eq_true_eq] at hguard
      exact .resolved rfl hold hguard.2 rfl
    next => exact .kept hold
  | _ => exact .kept hitem

theorem ItemKeys.effect (hkeys : ItemKeys s) (h : Effect o a s t) : ItemKeys t := by
  have hissued := h.issued
  cases h with
  | deleteSweep hswept =>
    have hsub := Store.deleteSweep_reviewItems hswept
    exact ⟨hkeys.nodup.sublist (hsub.map _), fun item hitem =>
      hissued _ (hkeys.issued item (hsub.subset hitem))⟩
  | @insertReviewItems tenantId source documentId jobId items _ _ rows ids _ hids hrows =>
    obtain ⟨hnodup, hfresh⟩ := drawMany_fresh items.length s.issued a.ids
    have hlength : items.length = ids.length := by rw [hids, length_drawMany]
    have hrowIds : rows.map ReviewItemRow.id = ids := by
      rw [hrows, List.map_map]
      exact List.map_snd_zip (Nat.le_of_eq hlength.symm)
    rw [← hids] at hnodup hfresh
    refine ⟨?_, fun item hitem => ?_⟩
    · rw [List.map_append, hrowIds]
      refine List.nodup_append.mpr ⟨hkeys.nodup, hnodup, ?_⟩
      rintro _ hold id hid rfl
      obtain ⟨item, hitem, heq⟩ := List.mem_map.mp hold
      exact hfresh _ hid (heq ▸ hkeys.issued item hitem)
    · rcases List.mem_append.mp hitem with hitem | hitem
      · exact hissued _ (hkeys.issued item hitem)
      · exact List.mem_append_left _ (hrowIds ▸ List.mem_map_of_mem hitem)
  | @resolveReviewItem tenantId itemId status values =>
    have hkept : ∀ item, (if Store.resolvable tenantId itemId item then
        Store.resolved status values s.now item else item).id = item.id := by
      intro item
      split <;> rfl
    refine ⟨?_, fun item hitem => ?_⟩
    · rw [List.map_map]
      exact (List.map_congr_left fun item _ => hkept item) ▸ hkeys.nodup
    · obtain ⟨old, hold, rfl⟩ := List.mem_map.mp hitem
      rw [hkept]
      exact hkeys.issued old hold
  | _ => exact ⟨hkeys.nodup, fun item hitem => hissued _ (hkeys.issued item hitem)⟩

theorem DocumentKeys.effect (hkeys : DocumentKeys s) (h : Effect o a s t) : DocumentKeys t := by
  have hissued := h.issued
  cases h with
  | @insertDocument tenantId filename mimeType sha256 amends _ _ id hnew =>
    have hfresh : id ∉ s.issued := hnew ▸ draw_not_mem _ _
    refine ⟨?_, fun d hd => ?_⟩
    · rw [List.map_append]
      refine List.nodup_append.mpr ⟨hkeys.nodup, List.nodup_singleton _, ?_⟩
      rintro _ hold _ hrow rfl
      obtain ⟨d, hd, heq⟩ := List.mem_map.mp hold
      have hsame : d.id = id := heq.trans (List.mem_singleton.mp hrow)
      exact hfresh (hsame ▸ hkeys.issued d hd)
    · rcases List.mem_append.mp hd with hd | hd
      · exact hissued _ (hkeys.issued d hd)
      · rw [List.mem_singleton.mp hd]
        exact List.mem_cons_self
  | @setDocumentStatus document status =>
    have hkept : ∀ d : DocumentRow, (if d.id = document.id then { d with status } else d).id = d.id := by
      intro d
      split <;> rfl
    refine ⟨?_, fun d hd => ?_⟩
    · rw [List.map_map]
      exact (List.map_congr_left fun d _ => hkept d) ▸ hkeys.nodup
    · obtain ⟨old, hold, rfl⟩ := List.mem_map.mp hd
      rw [hkept]
      exact hkeys.issued old hold
  | deleteSweep hswept =>
    have hsub : t.documents.Sublist s.documents := by
      rw [(Store.deleteSweep_eq_ok hswept).1]
      exact List.filter_sublist
    exact ⟨hkeys.nodup.sublist (hsub.map _), fun d hd => hissued _ (hkeys.issued d (hsub.subset hd))⟩
  | _ => exact ⟨hkeys.nodup, fun d hd => hissued _ (hkeys.issued d hd)⟩

theorem Addressed.effect (haddressed : Addressed s) (h : Effect o a s t) : Addressed t := by
  cases h with
  | @insertDocument tenantId filename mimeType sha256 amends _ _ id _ hfree =>
    unfold Addressed
    rw [List.map_append]
    refine List.nodup_append.mpr ⟨haddressed, List.nodup_singleton _, ?_⟩
    rintro _ hold _ hnew rfl
    obtain ⟨d, hd, heq⟩ := List.mem_map.mp hold
    obtain ⟨htenant, hsha⟩ := Prod.mk.inj (heq.trans (List.mem_singleton.mp hnew))
    exact List.find?_eq_none.mp hfree d hd (by simp [htenant, hsha])
  | setDocumentStatus =>
    unfold Addressed
    rw [List.map_map]
    refine (List.map_congr_left fun d _ => ?_) ▸ haddressed
    rw [Function.comp_apply]
    split <;> rfl
  | deleteSweep hswept =>
    unfold Addressed
    rw [(Store.deleteSweep_eq_ok hswept).1]
    exact List.Nodup.sublist (List.filter_sublist.map _) haddressed
  | _ => exact haddressed

end ContractIntel
