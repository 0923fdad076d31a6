import Mathlib.Data.List.SplitBy

/-!
# Groups of consecutive elements

A list is cut in front of every element that opens a group; what stands ahead of the first such
element is a group too. When the elements are separate ranges in order, so are the hulls of the
groups, from the start of a group's first range to the stop of its last.

## What is proved

- `groups_append`, `groups_concat_opens`, `groups_concat_joins`: one more element, or one more list,
  at the end.
- `groups_refine`: cutting at more elements cuts every group of its own.
- `opens_head_of_mem_tail`: only the first group can start without an opening element.
- `Separate.hulls_bounds`, `Separate.hulls_pairwise`, `Separate.hulls_cover`: the hulls are
  non-empty, apart and hold every range.
- `Separate.hulls_refine`: the hulls of finer groups lie in the hulls of coarser ones.
-/

namespace Lib

variable {α β : Type*}

/-- The groups of a list: an element that opens one, with the elements up to the next such. -/
def groups (opens : α → Bool) (l : List α) : List (List α) := l.splitBy fun _ b => !opens b

section Groups

variable {opens : α → Bool} {l m : List α}

@[simp] theorem groups_nil : groups opens [] = [] := rfl

@[simp] theorem groups_singleton (a : α) : groups opens [a] = [[a]] := rfl

@[simp] theorem flatten_groups (opens : α → Bool) (l : List α) : (groups opens l).flatten = l :=
  List.flatten_splitBy _ l

theorem ne_nil_of_mem_groups {g : List α} (h : g ∈ groups opens l) : g ≠ [] :=
  List.ne_nil_of_mem_splitBy h

theorem mem_of_mem_groups {g : List α} (h : g ∈ groups opens l) {a : α} (ha : a ∈ g) : a ∈ l := by
  rw [← flatten_groups opens l]
  exact List.mem_flatten_of_mem h ha

/-- At an opening element the groups of a concatenation are those of its parts. -/
theorem groups_append (h : ∀ a ∈ m.head?, opens a = true) :
    groups opens (l ++ m) = groups opens l ++ groups opens m :=
  List.splitBy_append fun _ _ a ha => by simp [h a ha]

theorem groups_concat_opens {a : α} (h : opens a = true) :
    groups opens (l ++ [a]) = groups opens l ++ [[a]] :=
  groups_append (m := [a]) (by simpa using h)

/-- Any other element joins the last group. -/
theorem groups_concat_joins {before : List (List α)} {g : List α} {a : α} (h : opens a = false)
    (hl : groups opens l = before ++ [g]) : groups opens (l ++ [a]) = before ++ [g ++ [a]] := by
  obtain ⟨hflat, hne, hin, hbetween⟩ := List.splitBy_eq_iff.mp hl
  refine List.splitBy_eq_iff.mpr ⟨?_, ?_, fun x hx => ?_, ?_⟩
  · simp [hflat]
  · simpa using fun hx => hne (List.mem_append_left _ hx)
  · rcases List.mem_append.mp hx with hx | hx
    · exact hin x (List.mem_append_left _ hx)
    · obtain rfl := List.mem_singleton.mp hx
      rw [List.isChain_append]
      refine ⟨hin g (by simp), List.isChain_singleton a, fun _ _ b hb => ?_⟩
      obtain rfl := Option.mem_some_iff.mp hb
      simp [h]
  · rw [List.isChain_append] at hbetween ⊢
    obtain ⟨hbefore, -, hlast⟩ := hbetween
    refine ⟨hbefore, List.isChain_singleton _, fun x hx y hy => ?_⟩
    obtain rfl := Option.mem_some_iff.mp hy
    obtain ⟨hx', hg, hopens⟩ := hlast x hx g rfl
    exact ⟨hx', List.append_ne_nil_of_left_ne_nil hg _, by rw [List.head_append_of_ne_nil]; exact hopens⟩

theorem groups_map {f : β → α} {l : List β} :
    groups opens (l.map f) = (groups (opens ∘ f) l).map (List.map f) := by
  obtain ⟨hflat, hne, hin, hbetween⟩ :=
    List.splitBy_eq_iff.mp (rfl : groups (opens ∘ f) l = groups (opens ∘ f) l)
  refine List.splitBy_eq_iff.mpr ⟨?_, ?_, fun x hx => ?_, ?_⟩
  · rw [← List.map_flatten, ← hflat]
  · simpa using hne
  · obtain ⟨g, hg, rfl⟩ := List.mem_map.mp hx
    exact (List.isChain_map f).mpr (hin g hg)
  · refine (List.isChain_map _).mpr (hbetween.imp fun x y => ?_)
    rintro ⟨hx, hy, hopens⟩
    exact ⟨by simpa using hx, by simpa using hy, by simpa using hopens⟩

/-- A group that is not the first starts with an opening element. -/
theorem opens_head_of_mem_tail {g : List α} (h : g ∈ (groups opens l).tail) :
    ∀ a ∈ g.head?, opens a = true := by
  have hbetween := List.isChain_getLast_head_splitBy (fun _ b => !opens b) l
  change (groups opens l).IsChain _ at hbetween
  generalize groups opens l = gs at h hbetween
  induction gs with
  | nil => cases h
  | cons x gs ih =>
    cases gs with
    | nil => cases h
    | cons y gs =>
      obtain ⟨⟨-, hy, hopens⟩, hrest⟩ := List.isChain_cons_cons.mp hbetween
      rcases List.mem_cons.mp h with rfl | h
      · intro a ha
        rw [List.head_of_mem_head? ha] at hopens
        simpa using hopens
      · exact ih h hrest

/-- Groups that are cut at more elements are groups of the coarser groups. -/
theorem groups_refine {fine coarse : α → Bool} (h : ∀ a ∈ l, coarse a = true → fine a = true) :
    groups fine l = (groups coarse l).flatMap (groups fine) := by
  have hcut : ∀ gs : List (List α), (∀ g ∈ gs.tail, ∀ a ∈ g.head?, fine a = true) → [] ∉ gs →
      groups fine gs.flatten = gs.flatMap (groups fine) := by
    intro gs
    induction gs with
    | nil => exact fun _ _ => rfl
    | cons g gs ih =>
      intro htail hne
      rw [List.flatten_cons, List.flatMap_cons, groups_append, ih]
      · exact fun x hx => htail x (List.mem_of_mem_tail hx)
      · exact fun hmem => hne (List.mem_cons_of_mem _ hmem)
      · intro a ha
        cases gs with
        | nil => cases ha
        | cons x gs =>
          refine htail x List.mem_cons_self a ?_
          cases x with
          | nil => exact absurd (by simp) hne
          | cons b x => exact ha
  conv_lhs => rw [← flatten_groups coarse l]
  refine hcut _ (fun g hg a ha => h a ?_ (opens_head_of_mem_tail hg a ha))
    (List.nil_notMem_splitBy _ l)
  exact mem_of_mem_groups (List.mem_of_mem_tail hg) (List.mem_of_mem_head? ha)

end Groups

/-! ## Hulls -/

/-- The range of a group, from its first start to its last stop. -/
def hull (start stop : α → Nat) (g : List α) : Option (Nat × Nat) :=
  g.head?.bind fun a => g.getLast?.map fun b => (start a, stop b)

def hulls (start stop : α → Nat) (opens : α → Bool) (l : List α) : List (Nat × Nat) :=
  (groups opens l).filterMap (hull start stop)

/-- Non-empty ranges in order, with a gap between neighbours. -/
structure Separate (start stop : α → Nat) (l : List α) : Prop where
  nonempty : ∀ a ∈ l, start a < stop a
  apart : l.Pairwise fun a b => stop a < start b

section Hulls

variable {start stop : α → Nat} {opens : α → Bool} {l g : List α} {r : Nat × Nat}

theorem hull_eq_some_iff :
    hull start stop g = some r ↔
      ∃ a b, g.head? = some a ∧ g.getLast? = some b ∧ r = (start a, stop b) := by
  simp only [hull, Option.bind_eq_some_iff, Option.map_eq_some_iff]
  constructor
  · rintro ⟨a, ha, b, hb, rfl⟩
    exact ⟨a, b, ha, hb, rfl⟩
  · rintro ⟨a, b, ha, hb, rfl⟩
    exact ⟨a, ha, b, hb, rfl⟩

theorem exists_hull (start stop : α → Nat) (h : g ≠ []) : ∃ r, hull start stop g = some r :=
  ⟨_, hull_eq_some_iff.mpr
    ⟨g.head h, g.getLast h, List.head?_eq_some_head h, List.getLast?_eq_some_getLast h, rfl⟩⟩

theorem mem_hulls_iff :
    r ∈ hulls start stop opens l ↔ ∃ g ∈ groups opens l, hull start stop g = some r :=
  List.mem_filterMap

theorem Separate.of_mem_groups (h : Separate start stop l) (hg : g ∈ groups opens l) :
    Separate start stop g := by
  refine ⟨fun a ha => h.nonempty a (mem_of_mem_groups hg ha), ?_⟩
  have hflat := h.apart
  rw [← flatten_groups opens l, List.pairwise_flatten] at hflat
  exact hflat.1 g hg

theorem hulls_map {f : β → α} {l : List β} :
    hulls start stop opens (l.map f) = hulls (start ∘ f) (stop ∘ f) (opens ∘ f) l := by
  unfold hulls
  rw [groups_map, List.filterMap_map]
  refine List.filterMap_congr fun g _ => ?_
  simp only [Function.comp_apply, hull, List.head?_map, List.getLast?_map]
  cases g.head? <;> cases g.getLast? <;> rfl

/-- Every range lies in the hull. -/
theorem Separate.within_hull (h : Separate start stop g) (hr : hull start stop g = some r) {a : α}
    (ha : a ∈ g) : r.1 ≤ start a ∧ stop a ≤ r.2 := by
  obtain ⟨first, last, hfirst, hlast, rfl⟩ := hull_eq_some_iff.mp hr
  constructor
  · obtain ⟨rest, rfl⟩ := List.head?_eq_some_iff.mp hfirst
    rcases List.mem_cons.mp ha with rfl | ha
    · exact Nat.le_refl _
    · have := h.nonempty first List.mem_cons_self
      have := (List.pairwise_cons.mp h.apart).1 a ha
      show start first ≤ start a
      omega
  · obtain ⟨before, rfl⟩ := List.getLast?_eq_some_iff.mp hlast
    rcases List.mem_append.mp ha with ha | ha
    · have := h.nonempty last (by simp)
      have := (List.pairwise_append.mp h.apart).2.2 a ha last (by simp)
      show stop a ≤ stop last
      omega
    · obtain rfl := List.mem_singleton.mp ha
      exact Nat.le_refl _

theorem Separate.hull_lt (h : Separate start stop g) (hr : hull start stop g = some r) :
    r.1 < r.2 := by
  obtain ⟨first, _, hfirst, -⟩ := hull_eq_some_iff.mp hr
  have hmem := List.mem_of_mem_head? (Option.mem_def.mpr hfirst)
  have := h.within_hull hr hmem
  have := h.nonempty first hmem
  omega

/-- A hull is not empty, and runs from the start of a range to the stop of a range. -/
theorem Separate.hulls_bounds (h : Separate start stop l) :
    ∀ r ∈ hulls start stop opens l,
      r.1 < r.2 ∧ (∃ a ∈ l, r.1 = start a) ∧ ∃ b ∈ l, r.2 = stop b := by
  intro r hr
  obtain ⟨g, hg, hr⟩ := mem_hulls_iff.mp hr
  obtain ⟨first, last, hfirst, hlast, heq⟩ := hull_eq_some_iff.mp hr
  refine ⟨(h.of_mem_groups hg).hull_lt hr, ⟨first, ?_, by rw [heq]⟩, last, ?_, by rw [heq]⟩
  · exact mem_of_mem_groups hg (List.mem_of_mem_head? hfirst)
  · exact mem_of_mem_groups hg (List.mem_of_mem_getLast? hlast)

theorem Separate.hulls_pairwise (h : Separate start stop l) (opens : α → Bool) :
    (hulls start stop opens l).Pairwise fun r s => r.2 < s.1 := by
  have hflat := h.apart
  rw [← flatten_groups opens l, List.pairwise_flatten] at hflat
  refine List.pairwise_filterMap.mpr (hflat.2.imp fun {g k} hgk r hr s hs => ?_)
  obtain ⟨_, last, -, hlast, rfl⟩ := hull_eq_some_iff.mp hr
  obtain ⟨first, _, hfirst, -, rfl⟩ := hull_eq_some_iff.mp hs
  exact hgk last (List.mem_of_mem_getLast? hlast) first (List.mem_of_mem_head? hfirst)

theorem Separate.hulls_cover (h : Separate start stop l) (opens : α → Bool) {a : α} (ha : a ∈ l) :
    ∃ r ∈ hulls start stop opens l, r.1 ≤ start a ∧ stop a ≤ r.2 := by
  rw [← flatten_groups opens l] at ha
  obtain ⟨g, hg, ha⟩ := List.mem_flatten.mp ha
  obtain ⟨r, hr⟩ := exists_hull start stop (ne_nil_of_mem_groups hg)
  exact ⟨r, mem_hulls_iff.mpr ⟨g, hg, hr⟩, (h.of_mem_groups hg).within_hull hr ha⟩

/-- The hulls of finer groups lie in the hulls of coarser ones. -/
theorem Separate.hulls_refine {fine coarse : α → Bool} (h : Separate start stop l)
    (hopens : ∀ a ∈ l, coarse a = true → fine a = true) :
    ∀ r ∈ hulls start stop fine l, ∃ s ∈ hulls start stop coarse l, s.1 ≤ r.1 ∧ r.2 ≤ s.2 := by
  intro r hr
  obtain ⟨g, hg, hr⟩ := mem_hulls_iff.mp hr
  rw [groups_refine hopens] at hg
  obtain ⟨k, hk, hg⟩ := List.mem_flatMap.mp hg
  obtain ⟨s, hs⟩ := exists_hull start stop (ne_nil_of_mem_groups hk)
  obtain ⟨first, last, hfirst, hlast, rfl⟩ := hull_eq_some_iff.mp hr
  have hin := fun a (ha : a ∈ k) => (h.of_mem_groups hk).within_hull hs ha
  refine ⟨s, mem_hulls_iff.mpr ⟨k, hk, hs⟩, (hin first ?_).1, (hin last ?_).2⟩
  · exact mem_of_mem_groups hg (List.mem_of_mem_head? hfirst)
  · exact mem_of_mem_groups hg (List.mem_of_mem_getLast? hlast)

/-- Of ranges that are apart only one can hold a given range. -/
theorem eq_of_within (h : l.Pairwise fun a b => stop a < start b) {a b : α} (ha : a ∈ l)
    (hb : b ∈ l) {lo hi : Nat} (hlt : lo < hi) (hain : start a ≤ lo ∧ hi ≤ stop a)
    (hbin : start b ≤ lo ∧ hi ≤ stop b) : a = b := by
  by_contra hne
  have hapart : l.Pairwise fun a b => stop a < start b ∨ stop b < start a := h.imp Or.inl
  have : Std.Symm fun a b : α => stop a < start b ∨ stop b < start a := ⟨fun _ _ => Or.symm⟩
  have := hapart.forall ha hb hne
  omega

end Hulls

end Lib
