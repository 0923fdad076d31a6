import ContractIntel.Laws.Services.Impact
import ContractIntel.Lib.Gather
import Mathlib.Data.List.Sort

/-!
# The order of the candidates

Two nested loops with a shared set of picked positions, left in the middle of the inner one when the
limit is reached. They compute the first positions of a list that is easy to say: the positions whose
citation shares a character with some chunk, sorted by the rank of the first such chunk and then by
position (`selection_is_ranked`).
-/

namespace ContractIntel.Impact

open Lib (firstMet gather gatherAll gatherStep)
open Search (SearchHit)

variable {obligations : List Obligation} {hits : List SearchHit} {limit : Nat}

/-! ## The list of positions -/

instance (c : Citation) (hit : SearchHit) : Decidable (ShareCharacter c hit) :=
  decidable_of_iff (c.charStart < c.charEnd ∧ hit.charStart < hit.charEnd ∧
      c.charStart < hit.charEnd ∧ (hit.charStart : Int) < c.charEnd)
    ⟨fun h => ⟨max c.charStart.toNat hit.charStart, by omega⟩, fun ⟨k, _, _⟩ => by omega⟩

/-- The citation of the obligation at a position shares a character with a chunk. -/
def sharesAt (obligations : List Obligation) (position : Nat) (hit : SearchHit) : Bool :=
  obligations[position]?.any fun o => ShareCharacter o.citation hit

/-- Sorted by the rank of the first chunk shared with, then by position. -/
def Before (obligations : List Obligation) (hits : List SearchHit) (i j : Nat) : Prop :=
  firstMet (sharesAt obligations) hits i < firstMet (sharesAt obligations) hits j ∨
    firstMet (sharesAt obligations) hits i = firstMet (sharesAt obligations) hits j ∧ i ≤ j

instance : DecidableRel (Before obligations hits) := fun _ _ => inferInstanceAs (Decidable (_ ∨ _))

instance : Std.Total (Before obligations hits) := ⟨fun i j => by unfold Before; omega⟩

instance : IsTrans Nat (Before obligations hits) :=
  ⟨fun i j k hij hjk => by unfold Before at *; omega⟩

instance : Std.Antisymm (Before obligations hits) :=
  ⟨fun i j hij hji => by unfold Before at *; omega⟩

/-- The positions whose citation shares a character with some chunk, in that order. -/
def candidateOrder (obligations : List Obligation) (hits : List SearchHit) : List Nat :=
  ((List.range obligations.length).filter fun i => hits.any (sharesAt obligations i)).insertionSort
    (Before obligations hits)

/-- It is what the chunks gather one after the other. -/
theorem candidateOrder_eq : candidateOrder obligations hits =
    gatherAll (sharesAt obligations) (List.range obligations.length) hits := by
  have hnodup : (gatherAll (sharesAt obligations) (List.range obligations.length) hits).Nodup :=
    Lib.gatherAll_nodup List.nodup_range
  have hsorted : (gatherAll (sharesAt obligations) (List.range obligations.length) hits).Pairwise
      (Before obligations hits) := Lib.gatherAll_pairwise List.pairwise_le_range
  refine List.Perm.eq_of_pairwise' (r := Before obligations hits) (List.pairwise_insertionSort _ _)
    hsorted ((List.perm_insertionSort _ _).trans ?_)
  refine (List.perm_ext_iff_of_nodup (List.nodup_range.filter _) hnodup).mpr fun i => ?_
  rw [Lib.mem_gatherAll, List.mem_filter, List.any_eq_true]

theorem candidateOrder_nodup : (candidateOrder obligations hits).Nodup := by
  rw [candidateOrder_eq]
  exact Lib.gatherAll_nodup List.nodup_range

/-! ## The loops -/

/-- A selection that has gone through the same rounds as `positions`, cut at the limit. -/
structure Cut (obligations : List Obligation) (limit : Nat) (state : Selection)
    (positions : List Nat) : Prop where
  picked : state.picked = (positions.take limit).reverse
  selected : state.selected.map some = (positions.take limit).map fun i => obligations[i]?

theorem Cut.length {state : Selection} {positions : List Nat}
    (h : Cut obligations limit state positions) :
    state.selected.length = min limit positions.length := by
  have := congrArg List.length h.selected
  rwa [List.length_map, List.length_map, List.length_take] at this

/-- One look of the inner loop. -/
theorem Cut.step {state : Selection} {positions : List Nat} {hit : SearchHit}
    {entry : Obligation × Nat} (h : Cut obligations limit state positions) (hlimit : 0 < limit)
    (hentry : obligations[entry.2]? = some entry.1)
    (hshares : overlaps entry.1 hit = sharesAt obligations entry.2 hit) :
    Cut obligations limit (pickFrom hit limit state entry)
      (gatherStep (sharesAt obligations) hit positions entry.2) := by
  have hlength := h.length
  unfold pickFrom
  rw [hshares]
  by_cases hfull : limit ≤ positions.length
  · -- the limit is reached: what is gathered from now on is cut off
    have hstop : state.selected.length = limit ∧ state.selected ≠ [] := by
      refine ⟨by omega, fun hnone => ?_⟩
      rw [hnone, List.length_nil] at hlength
      omega
    rw [if_pos (.inl hstop)]
    have hsame : (gatherStep (sharesAt obligations) hit positions entry.2).take limit =
        positions.take limit := by
      unfold gatherStep
      split
      · rfl
      · exact List.take_append_of_le_length hfull
    exact ⟨hsame ▸ h.picked, hsame ▸ h.selected⟩
  · have hall : positions.take limit = positions := List.take_of_length_le (by omega)
    have hmem : entry.2 ∈ state.picked ↔ entry.2 ∈ positions := by
      rw [h.picked, hall, List.mem_reverse]
    have hgoes : ¬ (state.selected.length = limit ∧ state.selected ≠ []) := fun hstop => by omega
    unfold gatherStep
    by_cases hskip : entry.2 ∈ positions ∨ sharesAt obligations entry.2 hit = false
    · rw [if_pos hskip, if_pos (.inr (hskip.imp hmem.mpr (by simp)))]
      exact h
    · obtain ⟨hfresh, hmeets⟩ := not_or.mp hskip
      rw [if_neg hskip, if_neg]
      · have hfits : (positions ++ [entry.2]).take limit = positions ++ [entry.2] :=
          List.take_of_length_le (by simp only [List.length_append, List.length_singleton]; omega)
        refine ⟨?_, ?_⟩
        · rw [hfits, List.reverse_concat, h.picked, hall]
        · rw [hfits, List.map_append, List.map_append, h.selected, hall, List.map_singleton,
            List.map_singleton, hentry]
      · rintro (hstop | hmem' | hmiss)
        · exact hgoes hstop
        · exact hfresh (hmem.mp hmem')
        · exact hmeets (by simpa using hmiss)

/-- The loops gather, cut at the limit. -/
theorem selectCandidates_cut (hlimit : 0 < limit)
    (hshares : ∀ o ∈ obligations, ∀ hit ∈ hits, overlaps o hit ↔ ShareCharacter o.citation hit) :
    (selectCandidates obligations hits limit).map some =
      ((candidateOrder obligations hits).take limit).map fun i => obligations[i]? := by
  rw [candidateOrder_eq]
  refine Cut.selected (List.foldl_rel (r := Cut obligations limit) ⟨?_, ?_⟩
    fun hit hhit state positions h => ?_)
  · rw [List.take_nil, List.reverse_nil]
  · rw [List.take_nil, List.map_nil, List.map_nil]
  · have hpositions : obligations.zipIdx.map Prod.snd = List.range obligations.length := by
      rw [List.zipIdx_map_snd, List.range_eq_range']
    rw [← Lib.foldl_gatherStep List.nodup_range, ← hpositions, List.foldl_map]
    refine List.foldl_rel (r := Cut obligations limit) h fun entry hentry state positions h => ?_
    have hat : obligations[entry.2]? = some entry.1 := List.mem_zipIdx_iff_getElem?.mp hentry
    refine h.step hlimit hat ?_
    rw [Bool.eq_iff_iff, hshares entry.1 (List.mem_of_getElem? hat) hit hhit, sharesAt, hat]
    simp

/-- What a list of positions names, off the equation with the positions. -/
theorem eq_filterMap {l : List Obligation} {positions : List Nat}
    (h : l.map some = positions.map fun i => obligations[i]?) :
    l = positions.filterMap fun i => obligations[i]? := by
  have := congrArg (List.filterMap id) h
  simpa [List.filterMap_map, Function.comp_def] using this

/-- The candidates are the first obligations, up to the limit, of those whose citation shares a
character with some chunk, sorted by the rank of the first such chunk and then by position, no
position twice. So a smaller limit selects a prefix, and so do fewer chunks. -/
theorem selection_is_ranked (hlimit : 0 < limit)
    (hcited : ∀ o ∈ obligations, o.citation.charStart < o.citation.charEnd)
    (hhits : ∀ hit ∈ hits, hit.charStart < hit.charEnd) :
    (selectCandidates obligations hits limit).map some =
        ((candidateOrder obligations hits).take limit).map (fun i => obligations[i]?) ∧
      (candidateOrder obligations hits).Nodup ∧
      (∀ larger, limit ≤ larger →
        selectCandidates obligations hits limit <+: selectCandidates obligations hits larger) ∧
      ∀ k, selectCandidates obligations (hits.take k) limit <+:
        selectCandidates obligations hits limit := by
  have hshares : ∀ o ∈ obligations, ∀ hit ∈ hits,
      overlaps o hit ↔ ShareCharacter o.citation hit :=
    fun o ho hit hhit => overlaps_iff (hcited o ho) (hhits hit hhit)
  have hcut := selectCandidates_cut hlimit hshares
  refine ⟨hcut, candidateOrder_nodup, fun larger hle => ?_, fun k => ?_⟩
  · have hlarger := selectCandidates_cut (Nat.lt_of_lt_of_le hlimit hle) hshares
    rw [eq_filterMap hcut, eq_filterMap hlarger]
    exact (List.take_prefix_take_left hle).filterMap _
  · have hfewer := @selectCandidates_cut obligations (hits.take k) limit hlimit
      fun o ho hit hhit => hshares o ho hit (List.mem_of_mem_take hhit)
    have hgathered := @Lib.gatherAll_isPrefix _ _ (sharesAt obligations) _
      (List.range obligations.length) (hits.take k) (hits.drop k)
    rw [List.take_append_drop] at hgathered
    rw [eq_filterMap hfewer, eq_filterMap hcut, candidateOrder_eq, candidateOrder_eq]
    exact (hgathered.take limit).filterMap _

/-- Two equal obligations and a third one, under two chunks with the third one's first. -/
theorem selection_is_ranked_twins :
    let twin : Obligation := ⟨[], [], none, ⟨10, 40⟩, 1⟩
    let obligations : List Obligation := [twin, twin, ⟨[], [], none, ⟨100, 120⟩, 1⟩]
    let hits : List SearchHit := [⟨10, [], [], 30, 0, [], 90, 110, 1⟩, ⟨10, [], [], 31, 1, [], 0, 50, 1⟩]
    candidateOrder obligations hits = [2, 0, 1] ∧
      (selectCandidates obligations hits 2).map some =
        ((candidateOrder obligations hits).take 2).map (fun i => obligations[i]?) := by
  refine ⟨by decide +kernel, ?_⟩
  exact (selection_is_ranked (by decide) (by decide) (by decide)).1

end ContractIntel.Impact
