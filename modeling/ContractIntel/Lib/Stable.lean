import Mathlib.Data.List.Sort

/-!
# What a stable sort keeps

Of two elements of a sorted list the first is below the second; of two that are below each other the
first came first. A cut of the list keeps whatever stands before what it keeps.

## What is proved

- `insertionSort_pairwise_stable`: order, and first come first among ties.
- `ahead_insertionSort`: what is strictly below stands before.
- `ahead_take`: a cut keeps what stands before.
-/

namespace Lib

variable {α : Type*}

/-- The one stands before the other in the list. -/
def Ahead (l : List α) (a b : α) : Prop := [a, b].Sublist l

section Ahead

variable {l : List α} {a b : α}

theorem Ahead.mem_left (h : Ahead l a b) : a ∈ l := h.subset List.mem_cons_self

theorem Ahead.mem_right (h : Ahead l a b) : b ∈ l :=
  h.subset (List.mem_cons_of_mem _ (List.mem_singleton_self _))

theorem ahead_cons {c : α} : Ahead (c :: l) a b ↔ Ahead l a b ∨ a = c ∧ b ∈ l := by
  unfold Ahead
  rw [List.sublist_cons_iff]
  refine or_congr_right ⟨?_, ?_⟩
  · rintro ⟨rest, heq, hrest⟩
    obtain ⟨rfl, rfl⟩ := List.cons.inj heq
    exact ⟨rfl, List.singleton_sublist.mp hrest⟩
  · rintro ⟨rfl, hb⟩
    exact ⟨[b], rfl, List.singleton_sublist.mpr hb⟩

theorem pairwise_iff_ahead {R : α → α → Prop} :
    l.Pairwise R ↔ ∀ a b, Ahead l a b → R a b :=
  List.pairwise_iff_forall_sublist.trans ⟨fun h _ _ hab => h hab, fun h _ _ hab => h _ _ hab⟩

/-- Of two elements one stands before the other. -/
theorem ahead_or (ha : a ∈ l) (hb : b ∈ l) (hne : a ≠ b) : Ahead l a b ∨ Ahead l b a := by
  induction l with
  | nil => cases ha
  | cons c l ih =>
    rw [ahead_cons, ahead_cons]
    rcases List.mem_cons.mp ha with rfl | hrest
    · exact .inl (.inr ⟨rfl, (List.mem_cons.mp hb).resolve_left hne.symm⟩)
    · rcases List.mem_cons.mp hb with rfl | hb
      · exact .inr (.inr ⟨rfl, hrest⟩)
      · exact (ih hrest hb).imp .inl .inl

/-- And not both, in a list without repetition. -/
theorem Ahead.asymm (hnodup : l.Nodup) (h : Ahead l a b) : ¬ Ahead l b a := by
  induction l with
  | nil => cases h
  | cons c l ih =>
    obtain ⟨hc, hrest⟩ := List.nodup_cons.mp hnodup
    rw [ahead_cons] at h ⊢
    rintro (hba | ⟨rfl, ha⟩)
    · rcases h with h | ⟨rfl, -⟩
      · exact ih hrest h hba
      · exact hc hba.mem_right
    · rcases h with h | ⟨rfl, hb⟩
      · exact hc h.mem_right
      · exact hc ha

/-- A cut keeps what stands before what it keeps. -/
theorem ahead_take (hnodup : l.Nodup) (h : Ahead l a b) {n : Nat} (hb : b ∈ l.take n) :
    Ahead (l.take n) a b := by
  induction l generalizing n with
  | nil => cases h
  | cons c l ih =>
    obtain ⟨hc, hrest⟩ := List.nodup_cons.mp hnodup
    cases n with
    | zero => cases hb
    | succ n =>
      rw [List.take_succ_cons] at hb ⊢
      rw [ahead_cons] at h ⊢
      rcases h with h | ⟨rfl, hlater⟩
      · refine .inl (ih hrest h ((List.mem_cons.mp hb).resolve_left ?_))
        rintro rfl
        exact hc h.mem_right
      · refine .inr ⟨rfl, (List.mem_cons.mp hb).resolve_left ?_⟩
        rintro rfl
        exact hc hlater

theorem Ahead.map {β : Type*} (f : α → β) (h : Ahead l a b) : Ahead (l.map f) (f a) (f b) :=
  List.Sublist.map f h

end Ahead

section Sorting

variable {r : α → α → Prop} [DecidableRel r] {l : List α} {a b : α}

/-- Sorting keeps ties in their order. -/
theorem insertionSort_pairwise_stable [Std.Total r] [IsTrans α r] (hnodup : l.Nodup) :
    (l.insertionSort r).Pairwise fun a b => r a b ∧ (r b a → Ahead l a b) := by
  have hsorted := pairwise_iff_ahead.mp (List.pairwise_insertionSort r l)
  have hsame := (List.perm_insertionSort r l).nodup_iff.mpr hnodup
  refine pairwise_iff_ahead.mpr fun a b hab => ⟨hsorted a b hab, fun htie => ?_⟩
  have hne : a ≠ b := by
    rintro rfl
    exact hab.asymm hsame hab
  have ha := (List.mem_insertionSort r).mp hab.mem_left
  have hb := (List.mem_insertionSort r).mp hab.mem_right
  refine (ahead_or ha hb hne).resolve_right fun hba => ?_
  exact hab.asymm hsame (List.pair_sublist_insertionSort htie hba)

/-- What is strictly below stands before. -/
theorem ahead_insertionSort [Std.Total r] [IsTrans α r] (ha : a ∈ l) (hb : b ∈ l)
    (hlt : ¬ r b a) : Ahead (l.insertionSort r) a b := by
  have hne : a ≠ b := by
    rintro rfl
    exact hlt ((Std.Total.total (r := r) a a).elim id id)
  refine (ahead_or ((List.mem_insertionSort r).mpr ha) ((List.mem_insertionSort r).mpr hb)
    hne).resolve_right fun hba => hlt ?_
  exact pairwise_iff_ahead.mp (List.pairwise_insertionSort r l) b a hba

end Sorting

end Lib
