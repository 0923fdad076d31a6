import Mathlib.Data.List.Sort

/-!
# Queries over reordered tables

A table is a list of rows whose order means nothing. What a query answers must then be the same on
every reordering of the rows it looks at: a lookup by a key, and a sort by an order that the rows
cannot tie in. A query that selects the rows of an owner looks at those alone.

## What is proved

- `find?_perm`: a lookup that at most one row meets.
- `insertionSort_perm`: a sort by an order antisymmetric on the rows.
- `find?_agree`, `filter_agree`: a query that only rows of one owner meet, on two tables that agree on
  the rows of that owner.
-/

namespace Lib

variable {α : Type} {p q : α → Bool} {l l₁ l₂ : List α}

theorem find?_perm (h : l₁.Perm l₂) (hunique : ∀ a ∈ l₁, ∀ b ∈ l₁, p a → p b → a = b) :
    l₁.find? p = l₂.find? p := by
  cases hfound : l₁.find? p with
  | none =>
    symm
    exact List.find?_eq_none.mpr fun a ha => List.find?_eq_none.mp hfound a (h.mem_iff.mpr ha)
  | some a =>
    have ha := List.mem_of_find?_eq_some hfound
    have hpa := List.find?_some hfound
    have hsome : (l₂.find? p).isSome := List.find?_isSome.mpr ⟨a, h.mem_iff.mp ha, hpa⟩
    obtain ⟨b, hb⟩ := Option.isSome_iff_exists.mp hsome
    rw [hb, hunique a ha b (h.mem_iff.mpr (List.mem_of_find?_eq_some hb)) hpa (List.find?_some hb)]

theorem insertionSort_perm {r : α → α → Prop} [DecidableRel r] [Std.Total r] [IsTrans α r]
    (h : l₁.Perm l₂) (hanti : ∀ a ∈ l₁, ∀ b ∈ l₁, r a b → r b a → a = b) :
    l₁.insertionSort r = l₂.insertionSort r := by
  refine List.Perm.eq_of_pairwise (fun a b ha hb => ?_) (List.pairwise_insertionSort r l₁)
    (List.pairwise_insertionSort r l₂)
    (((List.perm_insertionSort r l₁).trans h).trans (List.perm_insertionSort r l₂).symm)
  rw [List.mem_insertionSort] at ha hb
  exact hanti a ha b (h.mem_iff.mpr hb)

theorem find?_of_owned (h : ∀ a ∈ l, p a → q a) : l.find? p = (l.filter q).find? p := by
  induction l with
  | nil => rfl
  | cons a l ih =>
    have ih := ih fun b hb => h b (List.mem_cons_of_mem _ hb)
    by_cases hp : p a
    · rw [List.filter_cons_of_pos (h a List.mem_cons_self hp), List.find?_cons_of_pos hp,
        List.find?_cons_of_pos hp]
    · rw [List.find?_cons_of_neg hp, ih]
      by_cases hq : q a
      · rw [List.filter_cons_of_pos hq, List.find?_cons_of_neg hp]
      · rw [List.filter_cons_of_neg hq]

theorem filter_of_owned (h : ∀ a ∈ l, p a → q a) : l.filter p = (l.filter q).filter p := by
  rw [List.filter_filter]
  refine List.filter_congr fun a ha => ?_
  by_cases hp : p a
  · simp [hp, h a ha hp]
  · simp [hp]

theorem filter_comm (p q : α → Bool) (l : List α) : (l.filter p).filter q = (l.filter q).filter p := by
  rw [List.filter_filter, List.filter_filter]
  exact List.filter_congr fun a _ => Bool.and_comm _ _

theorem find?_agree (h : (l₁.filter q).Perm (l₂.filter q)) (h₁ : ∀ a ∈ l₁, p a → q a)
    (h₂ : ∀ a ∈ l₂, p a → q a) (hunique : ∀ a ∈ l₁, ∀ b ∈ l₁, p a → p b → a = b) :
    l₁.find? p = l₂.find? p := by
  rw [find?_of_owned h₁, find?_of_owned h₂]
  exact find?_perm h fun a ha b hb =>
    hunique a (List.mem_of_mem_filter ha) b (List.mem_of_mem_filter hb)

theorem filter_agree (h : (l₁.filter q).Perm (l₂.filter q)) (h₁ : ∀ a ∈ l₁, p a → q a)
    (h₂ : ∀ a ∈ l₂, p a → q a) : (l₁.filter p).Perm (l₂.filter p) := by
  rw [filter_of_owned h₁, filter_of_owned h₂]
  exact h.filter p

theorem any_agree (h : (l₁.filter q).Perm (l₂.filter q)) (h₁ : ∀ a ∈ l₁, p a → q a)
    (h₂ : ∀ a ∈ l₂, p a → q a) : l₁.any p = l₂.any p := by
  have hmem : ∀ a, p a → (a ∈ l₁ ↔ a ∈ l₂) := by
    intro a ha
    constructor
    · intro hleft
      exact List.mem_of_mem_filter (h.mem_iff.mp (List.mem_filter.mpr ⟨hleft, h₁ a hleft ha⟩))
    · intro hright
      exact List.mem_of_mem_filter (h.mem_iff.mpr (List.mem_filter.mpr ⟨hright, h₂ a hright ha⟩))
  rw [Bool.eq_iff_iff, List.any_eq_true, List.any_eq_true]
  constructor
  · rintro ⟨a, hleft, ha⟩
    exact ⟨a, (hmem a ha).mp hleft, ha⟩
  · rintro ⟨a, hright, ha⟩
    exact ⟨a, (hmem a ha).mpr hright, ha⟩

/-- The same rows appended to both. -/
theorem append_agree (h : (l₁.filter q).Perm (l₂.filter q)) (rows : List α) :
    ((l₁ ++ rows).filter q).Perm ((l₂ ++ rows).filter q) := by
  rw [List.filter_append, List.filter_append]
  exact h.append_right _

/-- The same rows taken from both, as far as the owner's go. -/
theorem filter_filter_agree {p₁ p₂ : α → Bool} (h : (l₁.filter q).Perm (l₂.filter q))
    (hp : ∀ a, q a → p₁ a = p₂ a) : ((l₁.filter p₁).filter q).Perm ((l₂.filter p₂).filter q) := by
  have hsame : (l₁.filter p₁).filter q = (l₁.filter p₂).filter q := by
    rw [List.filter_filter, List.filter_filter]
    refine List.filter_congr fun a _ => ?_
    by_cases ha : q a
    · rw [hp a ha]
    · simp [ha]
  rw [hsame, filter_comm p₂, filter_comm p₂]
  exact h.filter p₂

/-- The same update of both. -/
theorem map_agree {f : α → α} (h : (l₁.filter q).Perm (l₂.filter q)) (hf : ∀ a, q (f a) = q a) :
    ((l₁.map f).filter q).Perm ((l₂.map f).filter q) := by
  have hcomm : ∀ l : List α, (l.map f).filter q = (l.filter q).map f := fun l => by
    rw [List.filter_map]
    exact congrArg _ (List.filter_congr fun a _ => hf a)
  rw [hcomm, hcomm]
  exact h.map f

/-- Rows of others, updated. -/
theorem filter_map_foreign {f : α → α} (hq : ∀ a, q (f a) = q a) (h : ∀ a ∈ l, q a → f a = a) :
    (l.map f).filter q = l.filter q := by
  have hcomm : l.filter (q ∘ f) = l.filter q := List.filter_congr fun a _ => hq a
  rw [List.filter_map, hcomm]
  refine (List.map_congr_left fun a ha => ?_).trans (List.map_id _)
  exact h a (List.mem_of_mem_filter ha) (List.mem_filter.mp ha).2

/-- Rows of others, appended. -/
theorem filter_append_foreign {rows : List α} (h : ∀ a ∈ rows, ¬ q a) :
    (l ++ rows).filter q = l.filter q := by
  rw [List.filter_append, List.filter_eq_nil_iff.mpr h, List.append_nil]

/-- Rows of others, taken away. -/
theorem filter_filter_foreign (h : ∀ a ∈ l, q a → p a) : (l.filter p).filter q = l.filter q := by
  rw [filter_comm]
  refine List.filter_eq_self.mpr fun a ha => ?_
  obtain ⟨ha, hq⟩ := List.mem_filter.mp ha
  exact h a ha hq

end Lib
