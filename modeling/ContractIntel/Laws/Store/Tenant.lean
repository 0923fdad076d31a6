import ContractIntel.Laws.Store.Agreement

/-!
# The store of one tenant

What a store holds of a tenant is a store of its own: no row refers to another tenant's. A ranking that a
search reads is the same in both, since chunk ids are keys.
-/

namespace ContractIntel

open Chunking (Chunk)
open Jobs (JobRow)

variable {owner tenantId documentId : Uuid} {o : Op} {a : Answer} {s s₁ s₂ t : Store}

/-! ## Chunk ids -/

/-- Chunk ids are distinct and in use. -/
structure ChunkKeys (s : Store) : Prop where
  nodup : (s.chunks.map ChunkRow.id).Nodup
  issued : ∀ row ∈ s.chunks, row.id ∈ s.issued

theorem ids_of_chunkRows {chunks : List Chunk} {embeddings : List Embedding} {ids : List Uuid}
    (hlength : chunks.length = embeddings.length) (hids : ids.length = chunks.length) :
    (Store.chunkRows tenantId documentId chunks embeddings ids).map ChunkRow.id = ids := by
  have hzip : ids.length ≤ (chunks.zip embeddings).length := by
    simp [List.length_zip, ← hlength, hids]
  calc (Store.chunkRows tenantId documentId chunks embeddings ids).map ChunkRow.id
      = ((((chunks.zip embeddings).zip ids).zipIdx).map Prod.fst).map Prod.snd := by
        rw [Store.chunkRows, List.map_map, List.map_map]
        rfl
    _ = ids := by rw [List.zipIdx_map_fst, List.map_snd_zip hzip]

theorem ChunkKeys.effect (hkeys : ChunkKeys s) (h : Effect o a s t) : ChunkKeys t := by
  have hissued := h.issued
  cases h with
  | deleteSweep hswept =>
    have hchunks := (Store.swept_of_deleteSweep hswept).chunks
    have hsub : t.chunks.Sublist s.chunks := by
      rw [hchunks]
      exact List.filter_sublist
    exact ⟨hkeys.nodup.sublist (hsub.map _), fun row hrow =>
      hissued _ (hkeys.issued row (hsub.subset hrow))⟩
  | @replaceTextAndChunks tenantId documentId _ _ chunks embeddings _ _ ids _ hlength hids =>
    obtain ⟨hnodup, hfresh⟩ := drawMany_fresh chunks.length s.issued a.ids
    rw [← hids] at hnodup hfresh
    have hrows : (Store.chunkRows tenantId documentId chunks embeddings ids).map ChunkRow.id = ids :=
      ids_of_chunkRows hlength (by rw [hids, length_drawMany])
    have hsub := List.filter_sublist (p := fun row : ChunkRow => row.documentId ≠ documentId)
      (l := s.chunks)
    refine ⟨?_, fun row hrow => ?_⟩
    · rw [List.map_append, hrows]
      refine List.nodup_append.mpr ⟨hkeys.nodup.sublist (hsub.map _), hnodup, ?_⟩
      rintro _ hold id hid rfl
      obtain ⟨row, hrow, heq⟩ := List.mem_map.mp hold
      exact hfresh _ hid (heq ▸ hkeys.issued row (hsub.subset hrow))
    · rcases List.mem_append.mp hrow with hrow | hrow
      · exact hissued _ (hkeys.issued row (hsub.subset hrow))
      · exact List.mem_append_left _ (hrows ▸ List.mem_map_of_mem hrow)
  | _ => exact ⟨hkeys.nodup, fun row hrow => hissued _ (hkeys.issued row hrow)⟩

/-! ## Rankings -/

theorem rankedRows_agree (h₁ : Sound s₁) (h₂ : Sound s₂) (hkeys : ChunkKeys s₁)
    (hagree : Agree owner s₁ s₂) (document : Option Uuid) (limit : Nat) (ranking : List Uuid) :
    s₁.rankedRows owner document limit ranking = s₂.rankedRows owner document limit ranking := by
  unfold Store.rankedRows
  congr 1
  refine List.filterMap_congr fun id _ => ?_
  have hfound : (s₁.chunks.find? fun c => c.id = id && c.tenantId = owner &&
        document.all (c.documentId = ·)) =
      s₂.chunks.find? fun c => c.id = id && c.tenantId = owner &&
        document.all (c.documentId = ·) := by
    refine Lib.find?_agree hagree.chunks (fun c _ hc => ?_) (fun c _ hc => ?_)
      fun c hc c' hc' hp hp' => ?_
    · simp only [Bool.and_eq_true] at hc
      exact hc.1.2
    · simp only [Bool.and_eq_true] at hc
      exact hc.1.2
    · simp only [Bool.and_eq_true, decide_eq_true_eq] at hp hp'
      exact List.inj_on_of_nodup_map hkeys.nodup hc hc' (hp.1.1.trans hp'.1.1.symm)
  rw [← hfound]
  cases hchunk : s₁.chunks.find? fun c => c.id = id && c.tenantId = owner &&
      document.all (c.documentId = ·) with
  | none => rfl
  | some chunk =>
    -- the chunk is the tenant's, and so is its document
    have howner : chunk.tenantId = owner := by
      have hp := List.find?_some hchunk
      simp only [Bool.and_eq_true, decide_eq_true_eq] at hp
      exact hp.1.2
    have howned₁ := h₁.linked.owned (h₁.linked.chunks chunk (List.mem_of_find?_eq_some hchunk))
    have howned₂ := h₂.linked.owned
      (h₂.linked.chunks chunk (List.mem_of_find?_eq_some (hfound.symm.trans hchunk)))
    rw [howner] at howned₁ howned₂
    simp only [Option.bind_eq_bind, Option.bind_some, document?_agree h₁ hagree howned₁ howned₂]

/-! ## What a store holds of a tenant -/

theorem Agree.symm (h : Agree owner s t) : Agree owner t s :=
  ⟨h.documents.symm, h.texts.symm, h.chunks.symm, fun kind => (h.jobs kind).symm, h.reviewItems.symm,
    h.usage.symm, h.audit.symm, fun sha256 => (h.files sha256).symm⟩

/-- The rows and the files of the tenant, and nobody else's. -/
def Store.only (tenantId : Uuid) (s : Store) : Store where
  documents := s.documents.filter (·.tenantId = tenantId)
  texts := s.texts.filter (·.tenantId = tenantId)
  chunks := s.chunks.filter (·.tenantId = tenantId)
  jobs kind := (s.jobs kind).filter (·.tenantId = tenantId)
  reviewItems := s.reviewItems.filter (·.tenantId = tenantId)
  usage := s.usage.filter (·.tenantId = tenantId)
  audit := s.audit.filter (·.tenantId = tenantId)
  files tenant sha256 := if tenant = tenantId then s.files tenant sha256 else none
  issued := s.issued
  now := s.now

theorem agree_only (tenantId : Uuid) (s : Store) : Agree tenantId s (s.only tenantId) := by
  have hrows : ∀ {α : Type} (p : α → Bool) (rows : List α),
      (rows.filter p).Perm ((rows.filter p).filter p) := by
    intro α p rows
    rw [List.filter_filter]
    simp
  exact ⟨hrows _ _, hrows _ _, hrows _ _, fun kind => hrows _ _, hrows _ _, hrows _ _, hrows _ _,
    fun sha256 => by simp [Store.only]⟩

theorem has_only {tenantId documentId : Uuid} (h : s.Has tenantId documentId) :
    (s.only tenantId).Has tenantId documentId := by
  obtain ⟨d, hd, hid, htenant⟩ := h
  exact ⟨d, List.mem_filter.mpr ⟨hd, decide_eq_true htenant⟩, hid, htenant⟩

theorem linked_only (h : Linked s) (tenantId : Uuid) : Linked (s.only tenantId) := by
  have hmine : ∀ {α : Type} {f : α → Uuid} {rows : List α} {row : α},
      row ∈ rows.filter (fun row => f row = tenantId) → row ∈ rows ∧ f row = tenantId := by
    intro α f rows row hrow
    obtain ⟨hrow, htenant⟩ := List.mem_filter.mp hrow
    exact ⟨hrow, of_decide_eq_true htenant⟩
  refine ⟨h.keys.sublist (List.filter_sublist.map _), fun d hd => h.issued d (hmine hd).1,
    fun d hd parent hparent => ?_, fun row hrow => ?_, fun row hrow => ?_, fun kind => ?_,
    fun k job hjob k' job' hjob' => h.jobKinds k job (hmine hjob).1 k' job' (hmine hjob').1,
    fun kind job hjob => ?_, fun job hjob => ?_, fun item hitem => ?_⟩
  · obtain ⟨hmem, rfl⟩ := hmine hd
    exact has_only (h.parents d hmem parent hparent)
  · obtain ⟨hmem, rfl⟩ := hmine hrow
    exact has_only (h.texts row hmem)
  · obtain ⟨hmem, rfl⟩ := hmine hrow
    exact has_only (h.chunks row hmem)
  · exact ⟨(h.jobKeys kind).1.sublist (List.filter_sublist.map _), fun job hjob =>
      (h.jobKeys kind).2 job (hmine hjob).1⟩
  · obtain ⟨hmem, rfl⟩ := hmine hjob
    exact has_only (h.jobs kind job hmem)
  · obtain ⟨hmem, rfl⟩ := hmine hjob
    obtain ⟨d, hd, hamended, htenant, hamends⟩ := h.reports job hmem
    exact ⟨d, List.mem_filter.mpr ⟨hd, decide_eq_true htenant⟩, hamended, htenant, hamends⟩
  · obtain ⟨hmem, rfl⟩ := hmine hitem
    obtain ⟨hhas, hjobOf⟩ := h.items item hmem
    refine ⟨has_only hhas, hjobOf.issued, hjobOf.document, fun k job hjob => ?_, fun hkind _ => ?_⟩
    · exact hjobOf.rows k job (hmine hjob).1
    · obtain ⟨job, hjob, hid⟩ := hjobOf.kept hkind hhas
      have htenant := (hjobOf.rows _ job hjob hid).2.1
      exact ⟨job, List.mem_filter.mpr ⟨hjob, decide_eq_true htenant⟩, hid⟩

theorem sound_only (h : Sound s) (tenantId : Uuid) : Sound (s.only tenantId) := by
  refine ⟨linked_only h.linked tenantId, ⟨?_, fun item hitem => ?_⟩, ?_⟩
  · exact h.items.nodup.sublist (List.filter_sublist.map _)
  · exact h.items.issued item (List.mem_of_mem_filter hitem)
  · exact List.Nodup.sublist (List.filter_sublist.map _) h.addressed

theorem chunkKeys_only (h : ChunkKeys s) (tenantId : Uuid) : ChunkKeys (s.only tenantId) :=
  ⟨h.nodup.sublist (List.filter_sublist.map _), fun row hrow =>
    h.issued row (List.mem_of_mem_filter hrow)⟩

end ContractIntel
