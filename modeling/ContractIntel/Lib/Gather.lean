import Mathlib.Data.List.Basic
import Mathlib.Data.List.Infix
import Mathlib.Data.List.Nodup

/-!
# Gathering items along a ranked list of probes

Every probe picks the items it meets that no probe before it met, in the order of the items. What is
gathered is every item that meets some probe, once, in the order of the first probe it meets and of
the items.

## What is proved

- `mem_gatherAll`, `gatherAll_nodup`: the items that meet a probe, each once.
- `gatherAll_pairwise`: ordered by the first probe met, then as the items are.
- `gatherAll_isPrefix`: fewer probes gather a prefix.
- `foldl_gatherStep`: the loop that looks at the items one by one.
-/

namespace Lib

variable {α β : Type*} (meets : α → β → Bool)

/-- The rank of the first probe that an item meets. -/
def firstMet (probes : List β) (i : α) : Nat := probes.findIdx (meets i)

section FirstMet

variable {meets} {probes : List β} {probe : β} {i : α}

/-- A probe behind does not change the first one met. -/
theorem firstMet_concat_of_met (h : ∃ probe ∈ probes, meets i probe = true) :
    firstMet meets (probes ++ [probe]) i = firstMet meets probes i := by
  rw [firstMet, List.findIdx_append, if_pos (List.findIdx_lt_length.mpr h)]
  rfl

theorem firstMet_concat_of_not_met (h : ¬ ∃ probe ∈ probes, meets i probe = true)
    (hprobe : meets i probe = true) : firstMet meets (probes ++ [probe]) i = probes.length := by
  rw [firstMet, List.findIdx_append, if_neg fun hlt => h (List.findIdx_lt_length.mp hlt),
    List.findIdx_singleton, if_pos hprobe, Nat.zero_add]

end FirstMet

variable [DecidableEq α]

/-- What one probe adds. -/
def gather (items picked : List α) (probe : β) : List α :=
  picked ++ items.filter fun i => i ∉ picked ∧ meets i probe

/-- What all the probes gather. -/
def gatherAll (items : List α) (probes : List β) : List α := probes.foldl (gather meets items) []

/-- The loop's look at one item. -/
def gatherStep (probe : β) (picked : List α) (i : α) : List α :=
  if i ∈ picked ∨ meets i probe = false then picked else picked ++ [i]

variable {meets} {items picked : List α} {probe : β} {probes : List β} {i : α}

/-- Looking at the items one by one adds what the probe adds. -/
theorem foldl_gatherStep (h : items.Nodup) :
    items.foldl (gatherStep meets probe) picked = gather meets items picked probe := by
  induction items generalizing picked with
  | nil => simp [gather]
  | cons i rest ih =>
    obtain ⟨hi, hrest⟩ := List.nodup_cons.mp h
    rw [List.foldl_cons, ih hrest, gather, gather, gatherStep]
    by_cases hskip : i ∈ picked ∨ meets i probe = false
    · rw [if_pos hskip, List.filter_cons_of_neg]
      rcases hskip with hmem | hmiss
      · simp [hmem]
      · simp [hmiss]
    · rw [if_neg hskip, List.filter_cons_of_pos, List.append_assoc, List.singleton_append]
      · congr 2
        -- the items behind are other ones
        refine List.filter_congr fun j hj => ?_
        have hne : j ≠ i := fun heq => hi (heq ▸ hj)
        simp [hne]
      · simpa [not_or] using hskip

theorem gatherAll_concat :
    gatherAll meets items (probes ++ [probe]) = gather meets items (gatherAll meets items probes) probe :=
  List.foldl_concat ..

theorem mem_gather :
    i ∈ gather meets items picked probe ↔ i ∈ picked ∨ i ∈ items ∧ i ∉ picked ∧ meets i probe = true := by
  rw [gather, List.mem_append, List.mem_filter, decide_eq_true_eq]

theorem mem_gatherAll :
    i ∈ gatherAll meets items probes ↔ i ∈ items ∧ ∃ probe ∈ probes, meets i probe = true := by
  induction probes using List.reverseRecOn with
  | nil => simp [gatherAll]
  | append_singleton probes probe ih =>
    rw [gatherAll_concat, mem_gather, ih]
    simp only [List.mem_append, List.mem_singleton]
    constructor
    · rintro (⟨hi, p, hp, hmeets⟩ | ⟨hi, -, hmeets⟩)
      · exact ⟨hi, p, .inl hp, hmeets⟩
      · exact ⟨hi, probe, .inr rfl, hmeets⟩
    · rintro ⟨hi, p, hp | rfl, hmeets⟩
      · exact .inl ⟨hi, p, hp, hmeets⟩
      · by_cases hearlier : i ∈ items ∧ ∃ p ∈ probes, meets i p = true
        · exact .inl hearlier
        · exact .inr ⟨hi, hearlier, hmeets⟩

/-- The items a probe adds met none before. -/
theorem not_met_of_fresh (hi : i ∈ items) (hfresh : i ∉ gatherAll meets items probes) :
    ¬ ∃ probe ∈ probes, meets i probe = true :=
  fun h => hfresh (mem_gatherAll.mpr ⟨hi, h⟩)

theorem gatherAll_nodup (h : items.Nodup) : (gatherAll meets items probes).Nodup := by
  induction probes using List.reverseRecOn with
  | nil => exact List.nodup_nil
  | append_singleton probes probe ih =>
    rw [gatherAll_concat, gather]
    refine ih.append (h.filter _) fun i hi hi' => ?_
    exact (of_decide_eq_true (List.mem_filter.mp hi').2).1 hi

/-- Fewer probes gather a prefix. -/
theorem gatherAll_isPrefix (probes more : List β) :
    gatherAll meets items probes <+: gatherAll meets items (probes ++ more) := by
  induction more using List.reverseRecOn with
  | nil => rw [List.append_nil]
  | append_singleton more probe ih =>
    rw [← List.append_assoc, gatherAll_concat]
    exact ih.trans (List.prefix_append _ _)

/-- What is gathered is ordered by the first probe met, and then as the items are. -/
theorem gatherAll_pairwise {r : α → α → Prop} (h : items.Pairwise r) :
    (gatherAll meets items probes).Pairwise fun i j =>
      firstMet meets probes i < firstMet meets probes j ∨
        firstMet meets probes i = firstMet meets probes j ∧ r i j := by
  induction probes using List.reverseRecOn with
  | nil => exact List.Pairwise.nil
  | append_singleton probes probe ih =>
    have hold : ∀ i ∈ gatherAll meets items probes,
        firstMet meets (probes ++ [probe]) i = firstMet meets probes i ∧
          firstMet meets probes i < probes.length := by
      intro i hi
      have hmet := (mem_gatherAll.mp hi).2
      exact ⟨firstMet_concat_of_met hmet, List.findIdx_lt_length.mpr hmet⟩
    have hnew : ∀ i ∈ items.filter fun i => i ∉ gatherAll meets items probes ∧ meets i probe,
        firstMet meets (probes ++ [probe]) i = probes.length := by
      intro i hi
      obtain ⟨hmem, hi⟩ := List.mem_filter.mp hi
      obtain ⟨hfresh, hmeets⟩ := of_decide_eq_true hi
      exact firstMet_concat_of_not_met (not_met_of_fresh hmem hfresh) hmeets
    rw [gatherAll_concat, gather, List.pairwise_append]
    refine ⟨ih.imp_of_mem fun hi hj hij => ?_, (h.filter _).imp_of_mem fun hi hj hij => ?_,
      fun i hi j hj => ?_⟩
    · rwa [(hold _ hi).1, (hold _ hj).1]
    · exact .inr ⟨by rw [hnew _ hi, hnew _ hj], hij⟩
    · rw [(hold i hi).1, hnew j hj]
      exact .inl (hold i hi).2

end Lib
