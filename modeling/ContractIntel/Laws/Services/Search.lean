import ContractIntel.Lib.Fallible
import ContractIntel.Services.Search
import Mathlib.Data.List.Sort

/-!
# What a search looks up

Fusion scores only what was ranked, so every fused chunk is found among the ranked rows
(`fuseRows_isOk`).
-/

namespace ContractIntel.Search

section Fusion

variable {κ : Type} [DecidableEq κ]

theorem keys_addScore {item : κ} {share : Rat} {scores : List (κ × Rat)} :
    ∀ entry ∈ addScore item share scores, entry.1 = item ∨ ∃ old ∈ scores, old.1 = entry.1 := by
  induction scores with
  | nil =>
    intro entry hentry
    cases List.mem_singleton.mp hentry
    exact .inl rfl
  | cons first rest ih =>
    intro entry hentry
    unfold addScore at hentry
    split at hentry
    next heq =>
      rcases List.mem_cons.mp hentry with rfl | hentry
      · exact .inl heq
      · exact .inr ⟨entry, List.mem_cons_of_mem _ hentry, rfl⟩
    next =>
      rcases List.mem_cons.mp hentry with rfl | hentry
      · exact .inr ⟨_, List.mem_cons_self, rfl⟩
      · rcases ih entry hentry with heq | ⟨old, hold, heq⟩
        · exact .inl heq
        · exact .inr ⟨old, List.mem_cons_of_mem _ hold, heq⟩

/-- Every scored item was ranked. -/
theorem keys_rrfFuse {rankings : List (List κ)} {k : Nat} :
    ∀ entry ∈ rrfFuse rankings k, ∃ ranking ∈ rankings, entry.1 ∈ ranking := by
  let Ranked : List (κ × Rat) → Prop := fun scores =>
    ∀ entry ∈ scores, ∃ ranking ∈ rankings, entry.1 ∈ ranking
  have hfold : Ranked (rankings.foldl (scoreRanking k) []) := by
    refine List.foldlRecOn rankings _ (fun _ h => absurd h List.not_mem_nil) ?_
    intro scores hscores ranking hranking
    refine List.foldlRecOn (ranking.zipIdx 1) _ hscores ?_
    intro scores hscores ranked hranked entry hentry
    rcases keys_addScore entry hentry with heq | ⟨old, hold, heq⟩
    · exact ⟨ranking, hranking, heq ▸ List.fst_mem_of_mem_zipIdx hranked⟩
    · exact heq ▸ hscores old hold
  exact fun entry hentry => hfold entry ((List.mem_insertionSort _).mp hentry)

end Fusion

theorem lookup_isOk {rows : List (ChunkRow × DocumentRow)} {id : Uuid}
    (h : id ∈ rows.map (·.1.id)) : ∃ row, lookup rows id = .ok row := by
  obtain ⟨row, hrow, heq⟩ := List.mem_map.mp h
  have hsome : (rows.reverse.find? (·.1.id = id)).isSome :=
    List.find?_isSome.mpr ⟨row, List.mem_reverse.mpr hrow, decide_eq_true heq⟩
  obtain ⟨found, hfound⟩ := Option.isSome_iff_exists.mp hsome
  exact ⟨found, by simp [lookup, hfound]⟩

theorem fuseRows_isOk (vectorRanked ftsRanked : List (ChunkRow × DocumentRow)) (limit : Nat) :
    ∃ hits, fuseRows vectorRanked ftsRanked limit = .ok hits := by
  refine Lib.exists_mapM_eq_ok fun entry hentry => ?_
  obtain ⟨ranking, hranking, hmem⟩ := keys_rrfFuse entry (List.mem_of_mem_take hentry)
  have hid : entry.1 ∈ (vectorRanked ++ ftsRanked).map (·.1.id) := by
    rw [List.map_append, List.mem_append]
    rcases List.mem_pair.mp hranking with rfl | rfl
    · exact .inl hmem
    · exact .inr hmem
  obtain ⟨row, hrow⟩ := lookup_isOk hid
  exact ⟨_, by rw [toHit, hrow]; rfl⟩

/-- A vector that is not one is a `ValueError`. -/
theorem unpackOne_error {vectors : List Embedding} {e : Exn} (h : unpackOne vectors = .error e) :
    ∃ message, e = .valueError message := by
  unfold unpackOne at h
  split at h <;> cases h <;> exact ⟨_, rfl⟩

end ContractIntel.Search
