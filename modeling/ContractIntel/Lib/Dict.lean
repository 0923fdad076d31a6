import Mathlib.Algebra.Order.BigOperators.Group.List
import Mathlib.Data.List.Induction
import Mathlib.Data.List.Nodup

/-!
# Dictionaries in insertion order

A dictionary is the list of its bindings in the order in which their keys first came. Setting a key
that is there changes its value in place, any other goes to the end. So a dictionary that a loop
fills from a list of bindings keeps, of the bindings of one key, the last.

## What is proved

- `get?_set`, `get?_setAll`: what a lookup finds after a key, or several, are set.
- `setAll_of_get?`: setting keys to the values they have changes nothing.
- `ofPairs_subperm`: a filled dictionary holds some of the bindings, none of them twice.
- `ofPairs_of_nodup`, `nodup_of_length_ofPairs`: it holds all of them exactly when no key repeats.
- `sum_ofPairs_le`: a sum over the dictionary is at most the sum over the bindings.
-/

namespace Lib.Dict

variable {κ ν : Type*} [DecidableEq κ]

/-- `d[key] = value`. -/
def set (key : κ) (value : ν) : List (κ × ν) → List (κ × ν)
  | [] => [(key, value)]
  | binding :: rest =>
    if binding.1 = key then (key, value) :: rest else binding :: set key value rest

/-- `d.get(key)`. -/
def get? (d : List (κ × ν)) (key : κ) : Option ν :=
  (d.find? (·.1 = key)).map Prod.snd

/-- A dictionary filled binding by binding, as a comprehension or a loop fills it. -/
def ofPairs (bindings : List (κ × ν)) : List (κ × ν) :=
  bindings.foldl (fun d binding => set binding.1 binding.2 d) []

variable {d bindings : List (κ × ν)} {key k : κ} {value v : ν}

@[simp] theorem ofPairs_nil : ofPairs ([] : List (κ × ν)) = [] := rfl

@[simp] theorem ofPairs_concat (bindings : List (κ × ν)) (binding : κ × ν) :
    ofPairs (bindings ++ [binding]) = set binding.1 binding.2 (ofPairs bindings) := by
  rw [ofPairs, List.foldl_append]
  rfl

theorem set_ne_nil (key : κ) (value : ν) (d : List (κ × ν)) : set key value d ≠ [] := by
  cases d with
  | nil => exact List.cons_ne_nil _ _
  | cons binding rest =>
    rw [set]
    split <;> exact List.cons_ne_nil _ _

theorem get?_cons (binding : κ × ν) :
    get? (binding :: d) k = if binding.1 = k then some binding.2 else get? d k := by
  by_cases hk : binding.1 = k <;> simp [get?, hk]

/-- A lookup finds the value that was set, and every other key as before. -/
theorem get?_set : get? (set key value d) k = if key = k then some value else get? d k := by
  induction d with
  | nil => exact get?_cons (key, value)
  | cons binding rest ih =>
    rw [set, get?_cons binding]
    split
    next hb =>
      rw [get?_cons]
      by_cases hk : key = k
      · rw [if_pos hk, if_pos hk]
      · rw [if_neg hk, if_neg hk, if_neg fun h => hk (hb.symm.trans h)]
    next hb =>
      rw [get?_cons, ih]
      by_cases hbk : binding.1 = k
      · rw [if_pos hbk, if_pos hbk, if_neg fun h => hb (hbk.trans h.symm)]
      · rw [if_neg hbk, if_neg hbk]

/-- Setting a key to the value it has changes nothing. -/
theorem set_of_get? (h : get? d key = some value) : set key value d = d := by
  induction d with
  | nil => cases h
  | cons binding rest ih =>
    rw [get?_cons] at h
    rw [set]
    split at h
    next hb =>
      cases h
      rw [if_pos hb, ← hb]
    next hb => rw [if_neg hb, ih h]

/-- Setting several keys to the values they have changes nothing. -/
theorem setAll_of_get? (h : ∀ binding ∈ bindings, get? d binding.1 = some binding.2) :
    bindings.foldl (fun d binding => set binding.1 binding.2 d) d = d := by
  induction bindings with
  | nil => rfl
  | cons binding rest ih =>
    rw [List.foldl_cons, set_of_get? (h binding List.mem_cons_self)]
    exact ih fun binding hmem => h binding (List.mem_cons_of_mem _ hmem)

theorem get?_eq_none (h : k ∉ d.map Prod.fst) : get? d k = none := by
  rw [get?, Option.map_eq_none_iff, List.find?_eq_none]
  exact fun binding hmem hk => h (List.mem_map.mpr ⟨binding, hmem, by simpa using hk⟩)

/-- A lookup finds a binding whose key does not repeat. -/
theorem get?_of_mem {binding : κ × ν} (h : (d.map Prod.fst).Nodup) (hmem : binding ∈ d) :
    get? d binding.1 = some binding.2 := by
  induction d with
  | nil => cases hmem
  | cons first rest ih =>
    obtain ⟨hfresh, hrest⟩ := List.nodup_cons.mp h
    rw [get?_cons]
    rcases List.mem_cons.mp hmem with rfl | hmem
    · rw [if_pos rfl]
    · rw [if_neg fun heq => hfresh (List.mem_map.mpr ⟨binding, hmem, heq.symm⟩), ih hrest hmem]

/-- After several different keys are set, a lookup finds what they were set to, and every other key
as before. -/
theorem get?_setAll (h : (bindings.map Prod.fst).Nodup) :
    get? (bindings.foldl (fun d binding => set binding.1 binding.2 d) d) k =
      (get? bindings k).or (get? d k) := by
  induction bindings generalizing d with
  | nil => rfl
  | cons binding rest ih =>
    obtain ⟨hfresh, hrest⟩ := List.nodup_cons.mp h
    rw [List.foldl_cons, ih hrest, get?_set, get?_cons]
    by_cases hk : binding.1 = k
    · rw [if_pos hk, if_pos hk, get?_eq_none (hk ▸ hfresh)]
      rfl
    · rw [if_neg hk, if_neg hk]

/-- Of the keys of a dictionary none repeats, and setting one adds it at the end if it is new. -/
theorem keys_set : (set key value d).map Prod.fst =
    if key ∈ d.map Prod.fst then d.map Prod.fst else d.map Prod.fst ++ [key] := by
  induction d with
  | nil => rfl
  | cons binding rest ih =>
    rw [set]
    by_cases hb : binding.1 = key
    · simp [hb]
    · rw [if_neg hb, List.map_cons, List.map_cons, ih]
      have hkey : key ≠ binding.1 := fun h => hb h.symm
      by_cases hmem : key ∈ rest.map Prod.fst
      · rw [if_pos hmem, if_pos (List.mem_cons_of_mem _ hmem)]
      · rw [if_neg hmem, if_neg fun h => hmem ((List.mem_cons.mp h).resolve_left hkey)]
        rfl

theorem nodup_keys_set (h : (d.map Prod.fst).Nodup) : ((set key value d).map Prod.fst).Nodup := by
  rw [keys_set]
  split
  · exact h
  next hnot => exact List.concat_eq_append ▸ h.concat hnot

theorem set_subset : set key value d ⊆ (key, value) :: d := by
  induction d with
  | nil => exact fun _ h => h
  | cons binding rest ih =>
    rw [set]
    split
    · exact List.cons_subset_cons _ (List.subset_cons_self _ _)
    · refine List.cons_subset.mpr ⟨List.mem_cons_of_mem _ List.mem_cons_self, ?_⟩
      exact List.Subset.trans ih (List.cons_subset_cons _ (List.subset_cons_self _ _))

/-- A key that is not there goes to the end. -/
theorem set_of_not_mem (h : key ∉ d.map Prod.fst) : set key value d = d ++ [(key, value)] := by
  induction d with
  | nil => rfl
  | cons binding rest ih =>
    rw [List.map_cons, List.mem_cons] at h
    obtain ⟨hb, hrest⟩ := not_or.mp h
    rw [set, if_neg fun heq => hb heq.symm, ih hrest]
    rfl

theorem nodup_keys_ofPairs (bindings : List (κ × ν)) :
    ((ofPairs bindings).map Prod.fst).Nodup := by
  induction bindings using List.reverseRecOn with
  | nil => exact List.nodup_nil
  | append_singleton bindings binding ih =>
    rw [ofPairs_concat]
    exact nodup_keys_set ih

theorem ofPairs_subset (bindings : List (κ × ν)) : ofPairs bindings ⊆ bindings := by
  induction bindings using List.reverseRecOn with
  | nil => exact fun _ h => h
  | append_singleton bindings binding ih =>
    rw [ofPairs_concat]
    refine List.Subset.trans set_subset (List.cons_subset.mpr ⟨?_, ?_⟩)
    · exact List.mem_append_right _ (List.mem_singleton_self _)
    · exact List.Subset.trans ih (List.subset_append_left _ _)

theorem ofPairs_subperm (bindings : List (κ × ν)) : (ofPairs bindings).Subperm bindings :=
  List.subperm_of_subset (nodup_keys_ofPairs bindings).of_map (ofPairs_subset bindings)

/-- Without a repetition the dictionary is the list. -/
theorem ofPairs_of_nodup (h : (bindings.map Prod.fst).Nodup) : ofPairs bindings = bindings := by
  induction bindings using List.reverseRecOn with
  | nil => rfl
  | append_singleton bindings binding ih =>
    rw [List.map_append, List.map_singleton, List.nodup_append] at h
    obtain ⟨hnodup, -, hdisjoint⟩ := h
    rw [ofPairs_concat, ih hnodup, set_of_not_mem]
    exact fun hmem => hdisjoint _ hmem _ (List.mem_singleton_self _) rfl

/-- A dictionary as long as the list has no key to overwrite. -/
theorem nodup_of_length_ofPairs (h : bindings.length ≤ (ofPairs bindings).length) :
    (bindings.map Prod.fst).Nodup :=
  (((ofPairs_subperm bindings).perm_of_length_le h).map Prod.fst).nodup_iff.mp
    (nodup_keys_ofPairs bindings)

theorem ofPairs_eq_nil_iff : ofPairs bindings = [] ↔ bindings = [] := by
  cases bindings using List.reverseRecOn with
  | nil => exact iff_of_true rfl rfl
  | append_singleton bindings binding =>
    rw [ofPairs_concat]
    exact iff_of_false (set_ne_nil _ _ _) (by simp)

theorem set_map {μ : Type*} (f : ν → μ) : set key (f value) (d.map (Prod.map id f)) =
    (set key value d).map (Prod.map id f) := by
  induction d with
  | nil => rfl
  | cons binding rest ih =>
    rw [List.map_cons, set, set, ih]
    simp only [Prod.map_fst, id_eq]
    split <;> rfl

/-- The values may be read through a function before or after. -/
theorem ofPairs_map {μ : Type*} (f : ν → μ) (bindings : List (κ × ν)) :
    ofPairs (bindings.map (Prod.map id f)) = (ofPairs bindings).map (Prod.map id f) := by
  induction bindings using List.reverseRecOn with
  | nil => rfl
  | append_singleton bindings binding ih =>
    rw [List.map_append, List.map_singleton, ofPairs_concat, ofPairs_concat, ih]
    exact set_map f

/-- What overwritten bindings would add is lost. -/
theorem sum_ofPairs_le {M : Type*} [AddCommMonoid M] [PartialOrder M] [IsOrderedAddMonoid M]
    {f : κ × ν → M} (h : ∀ binding ∈ bindings, 0 ≤ f binding) :
    ((ofPairs bindings).map f).sum ≤ (bindings.map f).sum := by
  obtain ⟨kept, hperm, hsub⟩ := ofPairs_subperm bindings
  rw [← (hperm.map f).sum_eq]
  refine (hsub.map f).sum_le_sum fun x hx => ?_
  obtain ⟨binding, hmem, rfl⟩ := List.mem_map.mp hx
  exact h binding hmem

end Lib.Dict
