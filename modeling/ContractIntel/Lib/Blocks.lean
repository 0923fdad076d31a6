import Mathlib.Algebra.GroupWithZero.Nat
import Mathlib.Data.List.Sort

/-!
# Lists in blocks

A list is cut into blocks of one size, the last of which may be shorter. What is known of the sizes
of the blocks says where an element is: the element `i` of the whole is element `i % k` of block
`i / k`. The sizes alone are asked for, so that two lists cut alike have their elements at the same
places.

## What is proved

- `Blocks.length_eq`: the number of blocks.
- `Blocks.getElem?_flatten`: the place of an element.
- `map_insertionSort_of_perm`: sorting by keys that are a rearrangement of a sorted list gives that
  list of keys.
-/

namespace Lib

variable {α β : Type*} {k : Nat}

/-- The sizes of blocks of size `k`: all are full, but the last one may be shorter. -/
inductive Blocks (k : Nat) : List Nat → Prop
  | nil : Blocks k []
  | last {n : Nat} (hpos : 0 < n) (hle : n ≤ k) : Blocks k [n]
  | full {rest : List Nat} (hrest : Blocks k rest) : Blocks k (k :: rest)

/-- There are as many blocks as it takes. -/
theorem Blocks.length_eq (hk : 0 < k) {sizes : List Nat} (h : Blocks k sizes) :
    sizes.length = (sizes.sum + k - 1) / k := by
  induction h with
  | nil =>
    rw [List.sum_nil, Nat.zero_add]
    exact (Nat.div_eq_of_lt (by omega)).symm
  | @last n hpos hle =>
    have hsum : n + k - 1 = (n - 1) + k := by omega
    rw [List.sum_cons, List.sum_nil, Nat.add_zero, hsum, Nat.add_div_right _ hk, Nat.div_eq_of_lt (by omega)]
    rfl
  | @full rest hrest ih =>
    have hsum : k + rest.sum + k - 1 = (rest.sum + k - 1) + k := by omega
    rw [List.length_cons, List.sum_cons, hsum, Nat.add_div_right _ hk, ih]

/-- Where the elements of the whole are. -/
theorem Blocks.getElem?_flatten (hk : 0 < k) {blocks : List (List α)}
    (h : Blocks k (blocks.map List.length)) (i : Nat) :
    blocks.flatten[i]? = blocks[i / k]?.bind (·[i % k]?) := by
  induction blocks generalizing i with
  | nil => rfl
  | cons block rest ih =>
    rw [List.flatten_cons]
    by_cases hi : i < k
    · -- in the first block, or past the end of it when it is the last one
      rw [Nat.div_eq_of_lt hi, Nat.mod_eq_of_lt hi, List.getElem?_cons_zero, Option.bind_some]
      rw [List.map_cons] at h
      generalize hsizes : rest.map List.length = sizes at h
      generalize hsize : block.length = size at h
      cases h with
      | last _ hle =>
        rw [List.map_eq_nil_iff.mp hsizes, List.flatten_nil, List.append_nil]
      | full hrest => rw [List.getElem?_append_left (by omega)]
    · rw [Nat.div_eq_sub_div hk (by omega), Nat.mod_eq_sub_mod (by omega), List.getElem?_cons_succ]
      rw [List.map_cons] at h
      generalize hsizes : rest.map List.length = sizes at h
      generalize hsize : block.length = size at h
      cases h with
      | last _ hle =>
        rw [List.map_eq_nil_iff.mp hsizes, List.flatten_nil, List.append_nil, List.getElem?_nil,
          List.getElem?_eq_none (by omega), Option.bind_none]
      | full hrest =>
        rw [List.getElem?_append_right (by omega), hsize]
        exact ih (hsizes ▸ hrest) (i - k)

/-- Sorting by keys that are a rearrangement of a sorted list. -/
theorem map_insertionSort_of_perm [LinearOrder β] {f : α → β} {l : List α} {keys : List β}
    (hsorted : keys.Pairwise (· ≤ ·)) (h : (l.map f).Perm keys) :
    (l.insertionSort fun a b => f a ≤ f b).map f = keys := by
  have htotal : Std.Total fun a b => f a ≤ f b := ⟨fun a b => le_total (f a) (f b)⟩
  have htrans : IsTrans α fun a b => f a ≤ f b := ⟨fun _ _ _ => le_trans⟩
  refine List.Perm.eq_of_pairwise (fun a b _ _ => le_antisymm) ?_ hsorted
    (((List.perm_insertionSort _ l).map f).trans h)
  exact List.pairwise_map.mpr (List.pairwise_insertionSort (fun a b => f a ≤ f b) l)

end Lib
