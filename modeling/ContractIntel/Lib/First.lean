import Mathlib.Data.List.Sort

/-!
# The first element of a sorted list

A query that orders its rows and takes the first one picks a least element, the earliest in the
list among equals.

## What is proved

- `first_cons`: the first of a longer list, from the first of its tail.
- `first_le`: the first is below every element.
- `first_filter`: a first that a filter keeps is the first of what the filter keeps.
- `first_of_subset`: a first without ties is the first of any part of the list it is in.
- `first_map`: an update that keeps the order keeps the first.
-/

namespace Lib

variable {α : Type} (r : α → α → Prop) [DecidableRel r]

/-- The first element in the order, the earliest among equals. -/
def first (l : List α) : Option α := (l.insertionSort r).head?

variable {r} {l : List α} {a b : α}

@[simp] theorem first_nil : first r [] = none := rfl

theorem first_cons (a : α) (l : List α) :
    first r (a :: l) = some (match first r l with
      | none => a
      | some b => if r a b then a else b) := by
  unfold first
  rw [List.insertionSort_cons]
  cases l.insertionSort r with
  | nil => rfl
  | cons b rest =>
    show (if r a b then a :: b :: rest else b :: List.orderedInsert r a rest).head? = _
    split <;> simp_all

theorem mem_of_first (h : first r l = some a) : a ∈ l :=
  (List.mem_insertionSort r).mp (List.mem_of_mem_head? h)

theorem first_eq_none_iff : first r l = none ↔ l = [] := by
  cases l with
  | nil => exact iff_of_true rfl rfl
  | cons a l => simp [first_cons]

theorem first_le [Std.Total r] [IsTrans α r] (h : first r l = some a) : ∀ b ∈ l, r a b := by
  induction l generalizing a with
  | nil => cases h
  | cons c l ih =>
    have hrefl : ∀ x, r x x := fun x => (Std.Total.total (r := r) x x).elim id id
    rw [first_cons] at h
    cases hl : first r l with
    | none =>
      obtain rfl := first_eq_none_iff.mp hl
      rw [hl] at h
      cases h
      intro b hb
      cases List.mem_singleton.mp hb
      exact hrefl c
    | some d =>
      rw [hl] at h
      dsimp only at h
      intro b hb
      split at h
      next hcd =>
        cases h
        rcases List.mem_cons.mp hb with rfl | hb
        · exact hrefl b
        · exact IsTrans.trans _ _ _ hcd (ih hl b hb)
      next hcd =>
        cases h
        rcases List.mem_cons.mp hb with rfl | hb
        · exact (Std.Total.total (r := r) _ _).resolve_left hcd
        · exact ih hl b hb

theorem first_filter [Std.Total r] [IsTrans α r] {p : α → Bool} (h : first r l = some a)
    (hp : p a) : first r (l.filter p) = some a := by
  induction l generalizing a with
  | nil => cases h
  | cons c l ih =>
    have hle := first_le h
    rw [first_cons] at h
    cases hl : first r l with
    | none =>
      obtain rfl := first_eq_none_iff.mp hl
      rw [hl] at h
      cases h
      simp [hp, first_cons]
    | some d =>
      rw [hl] at h
      dsimp only at h
      split at h
      next hcd =>
        -- the head is first, and stays before what the filter keeps of the tail
        cases h
        rw [List.filter_cons_of_pos hp, first_cons]
        cases hkept : first r (l.filter p) with
        | none => rfl
        | some e =>
          have he : e ∈ l := (List.mem_filter.mp (mem_of_first hkept)).1
          simp only [if_pos (hle e (List.mem_cons_of_mem _ he))]
      next hcd =>
        cases h
        by_cases hc : p c
        · rw [List.filter_cons_of_pos hc, first_cons, ih hl hp]
          simp only [if_neg hcd]
        · rw [List.filter_cons_of_neg hc]
          exact ih hl hp

theorem first_of_subset [Std.Total r] [IsTrans α r] {l' : List α} (h : first r l = some a)
    (ha : a ∈ l') (hsub : ∀ b ∈ l', b ∈ l) (hanti : ∀ b ∈ l, r a b → r b a → a = b) :
    first r l' = some a := by
  cases hfirst : first r l' with
  | none =>
    rw [first_eq_none_iff.mp hfirst] at ha
    cases ha
  | some b =>
    have hb := hsub b (mem_of_first hfirst)
    rw [hanti b hb (first_le h b hb) (first_le hfirst a ha)]

theorem first_map {f : α → α} (hf : ∀ a b, r (f a) (f b) ↔ r a b) :
    first r (l.map f) = (first r l).map f := by
  induction l with
  | nil => rfl
  | cons a l ih =>
    rw [List.map_cons, first_cons, first_cons, ih]
    cases first r l with
    | none => rfl
    | some b =>
      simp only [Option.map_some, hf]
      split <;> rfl

end Lib
