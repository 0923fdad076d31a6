import Mathlib.Data.List.Basic
import Mathlib.Data.List.Count
import Mathlib.Data.List.Nodup
import Mathlib.Data.Prod.Basic

/-!
# Pairing two keyed lists occurrence by occurrence

Two lists carry keys, with repetitions. The j-th occurrence of a key in one list is paired with
the j-th occurrence of that key in the other, and an occurrence beyond the other list's count is
unpaired. `counterpart` is that partial pairing, read from the left list to the right one.

A greedy scan computes it: walk the left list, and give each element the first position of its
key in the right list that no earlier element took. `Consumed` is the scan's invariant (of the
positions of each key, exactly the first ones are taken, as many as the key occurred so far), and
`Consumed.pick` says the greedy choice is the counterpart.

## What is proved

- `counterpart_eq_some_iff`, `counterpart_comm`: two positions are paired exactly when they carry
  one key at one rank, so the pairing is symmetric and injective both ways.
- `Consumed.pick`, `Consumed.snoc_some`, `Consumed.snoc_none`: the greedy scan.
- `paired_swap_perm`: the paired elements are the same pairs read from either side.
- `filterMap_pairing_perm`: a scan that reports unpaired elements and pairs reports just those.
- `paired_values_iff`: every element is paired and carries its counterpart's value exactly when,
  key by key, the two lists carry the same list of values.
-/

namespace Lib

variable {κ : Type*} [DecidableEq κ]

/-- How often a key occurs. -/
def occurrences (k : κ) (keys : List κ) : Nat := keys.count k

@[simp] theorem occurrences_nil (k : κ) : occurrences k [] = 0 := rfl

theorem occurrences_snoc (k x : κ) (keys : List κ) :
    occurrences k (keys ++ [x]) = occurrences k keys + if x = k then 1 else 0 := by
  by_cases hx : x = k <;> simp [occurrences, hx]

/-- The positions of a key in a list of keys, in order. -/
def positions (k : κ) : List κ → List Nat
  | [] => []
  | x :: keys => (if x = k then [0] else []) ++ (positions k keys).map (· + 1)

/-- The j-th position of a key is the position of that key with `j` earlier occurrences. -/
theorem positions_getElem?_eq_some_iff {k : κ} {keys : List κ} {j m : Nat} :
    (positions k keys)[j]? = some m ↔ keys[m]? = some k ∧ occurrences k (keys.take m) = j := by
  unfold occurrences
  induction keys generalizing j m with
  | nil => simp [positions]
  | cons x keys ih =>
    by_cases hx : x = k
    · subst hx
      cases m with
      | zero => cases j <;> simp [positions]
      | succ m => cases j <;> simp [positions, ih]
    · cases m with
      | zero => simp [positions, hx]
      | succ m => simp [positions, hx, ih]

theorem length_positions (k : κ) (keys : List κ) : (positions k keys).length = occurrences k keys := by
  unfold occurrences
  induction keys with
  | nil => rfl
  | cons x keys ih =>
    by_cases hx : x = k <;> simp [positions, hx, ih]

/-- Selecting a key's elements and selecting its positions is the same selection. -/
theorem filter_key_getElem? {α : Type*} (key : α → κ) (k : κ) (xs : List α) (j : Nat) :
    (xs.filter (key · = k))[j]? = (positions k (xs.map key))[j]?.bind fun i => xs[i]? := by
  induction xs generalizing j with
  | nil => simp [positions]
  | cons x xs ih =>
    have hshift (o : Option Nat) :
        (o.map (· + 1)).bind (fun i => (x :: xs)[i]?) = o.bind fun i => xs[i]? := by
      cases o <;> rfl
    by_cases hx : key x = k
    · cases j with
      | zero => simp [positions, hx]
      | succ j => simp [positions, hx, ih, hshift]
    · simp [positions, hx, ih, hshift]

/-! ## The pairing -/

/-- The position in `ys` paired with position `i` of `xs`: the occurrence of the same key at the
same rank. -/
def counterpart (xs ys : List κ) (i : Nat) : Option Nat :=
  xs[i]?.bind fun k => (positions k ys)[occurrences k (xs.take i)]?

theorem counterpart_eq_some_iff {xs ys : List κ} {i m : Nat} :
    counterpart xs ys i = some m ↔
      ∃ k, xs[i]? = some k ∧ ys[m]? = some k ∧ occurrences k (ys.take m) = occurrences k (xs.take i) := by
  simp only [counterpart, Option.bind_eq_some_iff, positions_getElem?_eq_some_iff]

/-- The pairing reads the same from either side. -/
theorem counterpart_comm {xs ys : List κ} {i m : Nat} :
    counterpart xs ys i = some m ↔ counterpart ys xs m = some i := by
  simp only [counterpart_eq_some_iff]
  exact ⟨fun ⟨k, hx, hy, hr⟩ => ⟨k, hy, hx, hr.symm⟩, fun ⟨k, hy, hx, hr⟩ => ⟨k, hx, hy, hr.symm⟩⟩

/-- An occurrence is paired when the other list has enough occurrences of its key. -/
theorem counterpart_isSome_iff {xs ys : List κ} {i : Nat} {k : κ} (h : xs[i]? = some k) :
    (counterpart xs ys i).isSome ↔ occurrences k (xs.take i) < occurrences k ys := by
  simp [counterpart, h, length_positions]

/-- Only the prefix up to a position decides its counterpart. -/
theorem counterpart_append_cons (done rest ys : List κ) (k : κ) :
    counterpart (done ++ k :: rest) ys done.length = (positions k ys)[occurrences k done]? := by
  simp [counterpart]

/-! ## The greedy scan -/

/-- Of the positions of every key in `ys`, exactly the first ones are consumed, as many as `done`
has occurrences of the key. -/
def Consumed (ys done : List κ) (consumed : List Nat) : Prop :=
  ∀ k j m, (positions k ys)[j]? = some m → (m ∈ consumed ↔ j < occurrences k done)

theorem Consumed.nil (ys : List κ) : Consumed ys [] [] := by
  intro k j m _
  simp

/-- A list whose elements fail a test up to an index and pass it from there on. -/
theorem find?_eq_getElem? {α : Type*} {l : List α} {p : α → Bool} {n : Nat}
    (h : ∀ j x, l[j]? = some x → (p x = true ↔ n ≤ j)) : l.find? p = l[n]? := by
  induction l generalizing n with
  | nil => rfl
  | cons a l ih =>
    cases n with
    | zero =>
      have ha : p a = true := (h 0 a rfl).mpr (Nat.le_refl 0)
      simp [ha]
    | succ n =>
      have ha : ¬ p a = true := fun hp => absurd ((h 0 a rfl).mp hp) (by omega)
      rw [List.find?_cons_of_neg ha, List.getElem?_cons_succ]
      exact ih fun j x hx => (h (j + 1) x hx).trans (by omega)

/-- The greedy choice is the counterpart: the first unconsumed position of a key is its position
at the rank reached so far. -/
theorem Consumed.pick {ys done : List κ} {consumed : List Nat} (h : Consumed ys done consumed)
    (k : κ) : ((positions k ys).find? fun i => i ∉ consumed) = (positions k ys)[occurrences k done]? := by
  apply find?_eq_getElem?
  intro j m hm
  simp only [decide_eq_true_eq, h k j m hm, Nat.not_lt]

theorem Consumed.snoc_none {ys done : List κ} {consumed : List Nat} {k : κ}
    (h : Consumed ys done consumed) (hk : (positions k ys)[occurrences k done]? = none) :
    Consumed ys (done ++ [k]) consumed := by
  intro k' j m hm
  rw [h k' j m hm, occurrences_snoc]
  by_cases hkk : k = k'
  · subst hkk
    have hj := (List.getElem?_eq_some_iff.mp hm).1
    have hlen := List.getElem?_eq_none_iff.mp hk
    simp only [if_true]
    omega
  · simp [hkk]

theorem Consumed.snoc_some {ys done : List κ} {consumed : List Nat} {k : κ} {i : Nat}
    (h : Consumed ys done consumed) (hk : (positions k ys)[occurrences k done]? = some i) :
    Consumed ys (done ++ [k]) (i :: consumed) := by
  intro k' j m hm
  obtain ⟨hki, hri⟩ := positions_getElem?_eq_some_iff.mp hk
  obtain ⟨hkm, hrm⟩ := positions_getElem?_eq_some_iff.mp hm
  rw [List.mem_cons, h k' j m hm, occurrences_snoc]
  by_cases hkk : k = k'
  · subst hkk
    have heq : m = i ↔ j = occurrences k done := by
      constructor
      · rintro rfl
        omega
      · rintro rfl
        rw [hk] at hm
        exact (Option.some.inj hm).symm
    simp only [heq, if_true]
    omega
  · have hne : m ≠ i := by
      rintro rfl
      rw [hki] at hkm
      exact hkk (Option.some.inj hkm)
    simp [hkk, hne]

/-! ## Paired and unpaired elements -/

section Elements

variable {α : Type*} (key : α → κ)

/-- The elements without a counterpart. -/
def unpaired (xs ys : List α) : List α :=
  xs.zipIdx.filterMap fun e =>
    if (counterpart (xs.map key) (ys.map key) e.2).isSome then none else some e.1

/-- The elements with their counterparts, each with its position. -/
def pairedAt (xs ys : List α) : List ((α × Nat) × (α × Nat)) :=
  xs.zipIdx.filterMap fun e =>
    (counterpart (xs.map key) (ys.map key) e.2).bind fun m => ys[m]?.map fun y => (e, (y, m))

def paired (xs ys : List α) : List (α × α) :=
  (pairedAt key xs ys).map fun p => (p.1.1, p.2.1)

variable {key} {xs ys : List α}

theorem mem_pairedAt_iff {x y : α} {i m : Nat} :
    ((x, i), (y, m)) ∈ pairedAt key xs ys ↔
      xs[i]? = some x ∧ ys[m]? = some y ∧ counterpart (xs.map key) (ys.map key) i = some m := by
  simp only [pairedAt, List.mem_filterMap, Option.bind_eq_some_iff, Option.map_eq_some_iff,
    Prod.exists, List.mem_zipIdx_iff_getElem?, Prod.mk.injEq]
  constructor
  · rintro ⟨_, _, hx, _, hm, _, hy, ⟨rfl, rfl⟩, rfl, rfl⟩
    exact ⟨hx, hy, hm⟩
  · rintro ⟨hx, hy, hm⟩
    exact ⟨x, i, hx, m, hm, y, hy, ⟨rfl, rfl⟩, rfl, rfl⟩

theorem nodup_pairedAt (xs ys : List α) : (pairedAt key xs ys).Nodup := by
  have hidx : xs.zipIdx.Nodup := by
    refine List.Nodup.of_map Prod.snd ?_
    rw [List.zipIdx_map_snd]
    exact List.nodup_range'
  refine List.Nodup.filterMap (fun e e' p he he' => ?_) hidx
  obtain ⟨_, -, hp⟩ := Option.bind_eq_some_iff.mp (Option.mem_def.mp he)
  obtain ⟨_, -, hp'⟩ := Option.bind_eq_some_iff.mp (Option.mem_def.mp he')
  obtain ⟨_, -, rfl⟩ := Option.map_eq_some_iff.mp hp
  obtain ⟨_, -, heq⟩ := Option.map_eq_some_iff.mp hp'
  exact (Prod.mk.inj heq).1.symm

/-- The paired elements are the same pairs read from either side. -/
theorem paired_swap_perm (xs ys : List α) :
    (paired key ys xs).Perm ((paired key xs ys).map Prod.swap) := by
  have hswap : (pairedAt key ys xs).Perm ((pairedAt key xs ys).map Prod.swap) := by
    refine (List.perm_ext_iff_of_nodup (nodup_pairedAt ys xs)
      ((nodup_pairedAt xs ys).map Prod.swap_injective)).mpr fun ⟨⟨y, m⟩, ⟨x, i⟩⟩ => ?_
    rw [mem_pairedAt_iff, counterpart_comm, List.mem_map]
    constructor
    · exact fun ⟨hy, hx, hm⟩ => ⟨((x, i), (y, m)), mem_pairedAt_iff.mpr ⟨hx, hy, hm⟩, rfl⟩
    · rintro ⟨⟨⟨_, _⟩, ⟨_, _⟩⟩, h, heq⟩
      cases heq
      obtain ⟨hx, hy, hm⟩ := mem_pairedAt_iff.mp h
      exact ⟨hy, hx, hm⟩
  have := hswap.map fun p => (p.1.1, p.2.1)
  rw [List.map_map] at this
  unfold paired
  rwa [List.map_map]

theorem mem_paired_iff {x y : α} : (x, y) ∈ paired key xs ys ↔ ∃ i m, xs[i]? = some x ∧
    ys[m]? = some y ∧ counterpart (xs.map key) (ys.map key) i = some m := by
  simp only [paired, List.mem_map, Prod.exists, Prod.mk.injEq, mem_pairedAt_iff]
  constructor
  · rintro ⟨_, i, _, m, h, rfl, rfl⟩
    exact ⟨i, m, h⟩
  · rintro ⟨i, m, h⟩
    exact ⟨x, i, y, m, h, rfl, rfl⟩

/-- Paired elements carry one key. -/
theorem mem_paired {x y : α} (h : (x, y) ∈ paired key xs ys) : x ∈ xs ∧ y ∈ ys ∧ key x = key y := by
  obtain ⟨i, m, hx, hy, hm⟩ := mem_paired_iff.mp h
  obtain ⟨k, hkx, hky, -⟩ := counterpart_eq_some_iff.mp hm
  rw [List.getElem?_map, hx] at hkx
  rw [List.getElem?_map, hy] at hky
  exact ⟨List.mem_of_getElem? hx, List.mem_of_getElem? hy,
    (Option.some.inj hkx).trans (Option.some.inj hky).symm⟩

/-- An element is unpaired or has a counterpart. -/
theorem mem_unpaired_or_paired (key : α → κ) (ys : List α) {x : α} (h : x ∈ xs) :
    x ∈ unpaired key xs ys ∨ ∃ y, (x, y) ∈ paired key xs ys := by
  obtain ⟨i, hi⟩ := List.mem_iff_getElem?.mp h
  cases hm : counterpart (xs.map key) (ys.map key) i with
  | none =>
    refine .inl (List.mem_filterMap.mpr ⟨(x, i), List.mem_zipIdx_iff_getElem?.mpr hi, ?_⟩)
    rw [hm]
    rfl
  | some m =>
    obtain ⟨k, -, hy, -⟩ := counterpart_eq_some_iff.mp hm
    obtain ⟨y, hy, -⟩ := Option.map_eq_some_iff.mp (List.getElem?_map .. ▸ hy)
    exact .inr ⟨y, mem_paired_iff.mpr ⟨i, m, hi, hy, hm⟩⟩

theorem mem_of_mem_unpaired {x : α} (h : x ∈ unpaired key xs ys) : x ∈ xs := by
  obtain ⟨e, he, hx⟩ := List.mem_filterMap.mp h
  split at hx
  · cases hx
  · cases hx
    exact List.fst_mem_of_mem_zipIdx he

/-- A list that one of two reports answers for, element by element. -/
theorem filterMap_perm_append {α β : Type*} {f g h : α → Option β} {l : List α}
    (hsplit : ∀ a ∈ l, (g a = none ∧ f a = h a) ∨ (h a = none ∧ f a = g a)) :
    (l.filterMap f).Perm (l.filterMap g ++ l.filterMap h) := by
  induction l with
  | nil => exact .nil
  | cons a l ih =>
    obtain ⟨ha, hrest⟩ := List.forall_mem_cons.mp hsplit
    simp only [List.filterMap_cons]
    rcases ha with ⟨hg, hf⟩ | ⟨hh, hf⟩
    · rw [hg, hf]
      cases h a with
      | none => exact ih hrest
      | some b => exact ((ih hrest).cons b).trans List.perm_middle.symm
    · rw [hh, hf]
      cases g a with
      | none => exact ih hrest
      | some b => exact (ih hrest).cons b

/-- A scan that reports every unpaired element by `lone` and every pair by `both` reports just
those. -/
theorem filterMap_pairing_perm {β : Type*} (lone : α → β) (both : α → α → Option β)
    (xs ys : List α) :
    (xs.zipIdx.filterMap fun e =>
      match counterpart (xs.map key) (ys.map key) e.2 with
      | none => some (lone e.1)
      | some m => ys[m]?.bind fun y => both e.1 y).Perm
      ((unpaired key xs ys).map lone ++ (paired key xs ys).filterMap fun p => both p.1 p.2) := by
  have hlone : (unpaired key xs ys).map lone = xs.zipIdx.filterMap fun e =>
      if (counterpart (xs.map key) (ys.map key) e.2).isSome then none else some (lone e.1) := by
    rw [unpaired, List.map_filterMap]
    refine List.filterMap_congr fun e _ => ?_
    split <;> rfl
  have hboth : (paired key xs ys).filterMap (fun p => both p.1 p.2) = xs.zipIdx.filterMap fun e =>
      (counterpart (xs.map key) (ys.map key) e.2).bind fun m => ys[m]?.bind fun y => both e.1 y := by
    rw [paired, pairedAt, List.filterMap_map, List.filterMap_filterMap]
    refine List.filterMap_congr fun e _ => ?_
    cases counterpart (xs.map key) (ys.map key) e.2 with
    | none => rfl
    | some m => cases hy : ys[m]? <;> simp [hy]
  rw [hlone, hboth]
  refine filterMap_perm_append fun e _ => ?_
  cases counterpart (xs.map key) (ys.map key) e.2 with
  | none => exact .inr ⟨rfl, rfl⟩
  | some m => exact .inl ⟨rfl, rfl⟩

/-- When no pair is reported, the scan reports the unpaired elements in order. -/
theorem filterMap_pairing_of_silent {β : Type*} (lone : α → β) (both : α → α → Option β)
    (h : ∀ x y, (x, y) ∈ paired key xs ys → both x y = none) :
    (xs.zipIdx.filterMap fun e =>
      match counterpart (xs.map key) (ys.map key) e.2 with
      | none => some (lone e.1)
      | some m => ys[m]?.bind fun y => both e.1 y) = (unpaired key xs ys).map lone := by
  rw [unpaired, List.map_filterMap]
  refine List.filterMap_congr fun ⟨x, i⟩ he => ?_
  cases hm : counterpart (xs.map key) (ys.map key) i with
  | none => rfl
  | some m =>
    cases hy : ys[m]? with
    | none => simp [hy]
    | some y =>
      have hx := List.mem_zipIdx_iff_getElem?.mp he
      have hp : (x, y) ∈ paired key xs ys := mem_paired_iff.mpr ⟨i, m, hx, hy, hm⟩
      simp [hy, h x y hp]

end Elements

/-! ## Inserting elements of other keys -/

section Insert

variable {xs zs ys : List κ}

/-- Elements of other keys, inserted, leave every counterpart what it was. -/
theorem counterpart_insert (h : ∀ k ∈ zs, k ∉ xs ++ ys) {i : Nat} (hi : i < (xs ++ ys).length) :
    counterpart (xs ++ ys) (xs ++ zs ++ ys) i =
      some (if i < xs.length then i else i + zs.length) := by
  have hk := List.getElem?_eq_getElem hi
  generalize (xs ++ ys)[i] = k at hk
  refine counterpart_eq_some_iff.mpr ⟨k, hk, ?_⟩
  have hz : occurrences k zs = 0 := List.count_eq_zero.mpr fun hmem =>
    h k hmem (List.mem_of_getElem? hk)
  split
  case isTrue hlt =>
    rw [List.append_assoc, List.getElem?_append_left hlt, List.take_append_of_le_length (by omega),
      List.take_append_of_le_length (by omega)]
    rw [List.getElem?_append_left hlt] at hk
    exact ⟨hk, rfl⟩
  case isFalse hge =>
    have hlen : i + zs.length - (xs ++ zs).length = i - xs.length := by
      rw [List.length_append]
      omega
    rw [List.getElem?_append_right (by omega)] at hk
    rw [List.getElem?_append_right (by rw [List.length_append]; omega), hlen]
    refine ⟨hk, ?_⟩
    have hxs : xs.take i = xs := List.take_of_length_le (by omega)
    have hxz : (xs ++ zs).take (i + zs.length) = xs ++ zs :=
      List.take_of_length_le (by rw [List.length_append]; omega)
    unfold occurrences at hz ⊢
    rw [List.take_append, hxz, hlen, List.take_append, hxs]
    simp only [List.count_append, hz, Nat.add_zero]

/-- The inserted elements have none. -/
theorem counterpart_inserted (h : ∀ k ∈ zs, k ∉ xs ++ ys) {m : Nat} (hm : m < zs.length) :
    counterpart (xs ++ zs ++ ys) (xs ++ ys) (xs.length + m) = none := by
  by_contra hsome
  obtain ⟨i, hi⟩ := Option.ne_none_iff_exists'.mp hsome
  obtain ⟨k, hz, hk, -⟩ := counterpart_eq_some_iff.mp hi
  rw [List.append_assoc, List.getElem?_append_right (by omega), List.getElem?_append_left (by omega)]
    at hz
  exact h k (List.mem_of_getElem? hz) (List.mem_of_getElem? hk)

/-- The kept elements are paired with themselves, read from the longer list. -/
theorem counterpart_kept (h : ∀ k ∈ zs, k ∉ xs ++ ys) {i : Nat} (hi : i < (xs ++ ys).length) :
    counterpart (xs ++ zs ++ ys) (xs ++ ys) (if i < xs.length then i else i + zs.length) = some i :=
  counterpart_comm.mp (counterpart_insert h hi)

end Insert

section InsertElements

variable {α : Type*} {key : α → κ} {xs zs ys ys' : List α}

/-- Nothing kept is unpaired. -/
theorem unpaired_kept (hkeys : ys'.map key = ys.map key)
    (h : ∀ k ∈ zs.map key, k ∉ (xs ++ ys).map key) :
    unpaired key (xs ++ ys) (xs ++ zs ++ ys') = [] := by
  refine List.filterMap_eq_nil_iff.mpr fun e he => ?_
  have hlt := List.snd_lt_of_mem_zipIdx he
  simp only [List.map_append, hkeys] at h ⊢
  rw [counterpart_insert h (by simpa using hlt)]
  rfl

/-- The inserted elements are the unpaired ones. -/
theorem unpaired_inserted (hkeys : ys'.map key = ys.map key)
    (h : ∀ k ∈ zs.map key, k ∉ (xs ++ ys).map key) :
    unpaired key (xs ++ zs ++ ys') (xs ++ ys) = zs := by
  have hys : ys'.length = ys.length := by
    have := congrArg List.length hkeys
    rwa [List.length_map, List.length_map] at this
  unfold unpaired
  simp only [List.map_append, hkeys] at h ⊢
  have hkept := fun i (hi : i < (xs.map key ++ ys.map key).length) => counterpart_kept h hi
  have hgone := fun m (hm : m < (zs.map key).length) => counterpart_inserted h hm
  simp only [List.length_append, List.length_map] at hkept hgone
  rw [List.zipIdx_append, List.zipIdx_append, List.filterMap_append, List.filterMap_append]
  have hfirst : ∀ e ∈ xs.zipIdx, (counterpart (xs.map key ++ zs.map key ++ ys.map key)
      (xs.map key ++ ys.map key) e.2).isSome := by
    intro e he
    have hlt := List.snd_lt_of_mem_zipIdx he
    have := hkept e.2 (by omega)
    rw [if_pos (by omega)] at this
    rw [this]
    rfl
  have hlast : ∀ e ∈ ys'.zipIdx (0 + (xs ++ zs).length), (counterpart
      (xs.map key ++ zs.map key ++ ys.map key) (xs.map key ++ ys.map key) e.2).isSome := by
    intro e he
    have hle := List.le_snd_of_mem_zipIdx he
    have hlt := List.snd_lt_of_mem_zipIdx he
    rw [List.length_append] at hle hlt
    have := hkept (e.2 - zs.length) (by omega)
    rw [if_neg (by omega), Nat.sub_add_cancel (by omega)] at this
    rw [this]
    rfl
  have hmiddle : ∀ e ∈ zs.zipIdx (0 + xs.length), counterpart
      (xs.map key ++ zs.map key ++ ys.map key) (xs.map key ++ ys.map key) e.2 = none := by
    intro e he
    have hle := List.le_snd_of_mem_zipIdx he
    have hlt := List.snd_lt_of_mem_zipIdx he
    have := hgone (e.2 - xs.length) (by omega)
    rwa [Nat.add_sub_cancel' (by omega)] at this
  rw [List.filterMap_eq_nil_iff.mpr fun e he => if_pos (hfirst e he),
    List.filterMap_eq_nil_iff.mpr fun e he => if_pos (hlast e he), List.nil_append,
    List.append_nil]
  calc (zs.zipIdx (0 + xs.length)).filterMap _
      = (zs.zipIdx (0 + xs.length)).filterMap (some ∘ Prod.fst) :=
        List.filterMap_congr fun e he => by rw [hmiddle e he]; rfl
    _ = (zs.zipIdx (0 + xs.length)).map Prod.fst := by rw [List.filterMap_eq_map]
    _ = zs := List.zipIdx_map_fst _ zs

/-- A kept element is paired with the one in its place. -/
theorem mem_paired_kept (hkeys : ys'.map key = ys.map key)
    (h : ∀ k ∈ zs.map key, k ∉ (xs ++ ys).map key) {x y : α}
    (hp : (x, y) ∈ paired key (xs ++ ys) (xs ++ zs ++ ys')) :
    (x ∈ xs ∧ y = x) ∨ ∃ j : Nat, ys[j]? = some x ∧ ys'[j]? = some y := by
  obtain ⟨i, m, hx, hy, hm⟩ := mem_paired_iff.mp hp
  have hi := (List.getElem?_eq_some_iff.mp hx).1
  simp only [List.map_append, hkeys] at h hm
  rw [counterpart_insert h (by simpa using hi), Option.some.injEq, List.length_map,
    List.length_map] at hm
  subst hm
  split at hy
  case isTrue hlt =>
    rw [List.getElem?_append_left hlt] at hx
    rw [List.append_assoc, List.getElem?_append_left hlt, hx, Option.some.injEq] at hy
    exact .inl ⟨List.mem_of_getElem? hx, hy.symm⟩
  case isFalse hge =>
    rw [List.getElem?_append_right (by omega)] at hx
    rw [List.getElem?_append_right (by rw [List.length_append]; omega), List.length_append] at hy
    refine .inr ⟨i - xs.length, hx, ?_⟩
    rwa [show i + zs.length - (xs.length + zs.length) = i - xs.length by omega] at hy

end InsertElements

/-! ## Values along the pairing -/

/-- Everything is paired with an equal value exactly when, key by key, both lists carry the same
list of values. -/
theorem paired_values_iff {α α' β : Type*} {keyX : α → κ} {keyY : α' → κ} {valX : α → β}
    {valY : α' → β} {xs : List α} {ys : List α'} :
    ((∀ i x, xs[i]? = some x → ∃ m y, counterpart (xs.map keyX) (ys.map keyY) i = some m ∧
        ys[m]? = some y ∧ valX x = valY y) ∧
      ∀ m y, ys[m]? = some y → (counterpart (ys.map keyY) (xs.map keyX) m).isSome) ↔
      ∀ k, (xs.filter (keyX · = k)).map valX = (ys.filter (keyY · = k)).map valY := by
  constructor
  · rintro ⟨hx, hy⟩ k
    refine List.ext_getElem? fun j => ?_
    rw [List.getElem?_map, List.getElem?_map, filter_key_getElem?, filter_key_getElem?]
    cases hi : (positions k (xs.map keyX))[j]? with
    | some i =>
      obtain ⟨hki, hri⟩ := positions_getElem?_eq_some_iff.mp hi
      obtain ⟨x, hxi, -⟩ := List.getElem?_map .. ▸ hki |> Option.map_eq_some_iff.mp
      obtain ⟨m, y, hm, hym, hval⟩ := hx i x hxi
      obtain ⟨k', hk', hkm, hrm⟩ := counterpart_eq_some_iff.mp hm
      obtain rfl : k = k' := Option.some.inj (hki.symm.trans hk')
      have hmj := positions_getElem?_eq_some_iff.mpr ⟨hkm, hrm.trans hri⟩
      simp [hmj, hxi, hym, hval]
    | none =>
      cases hm : (positions k (ys.map keyY))[j]? with
      | none => rfl
      | some m =>
        obtain ⟨hkm, hrm⟩ := positions_getElem?_eq_some_iff.mp hm
        obtain ⟨y, hym, -⟩ := List.getElem?_map .. ▸ hkm |> Option.map_eq_some_iff.mp
        obtain ⟨i, hmi⟩ := Option.isSome_iff_exists.mp (hy m y hym)
        obtain ⟨k', hk', hki, hri⟩ := counterpart_eq_some_iff.mp hmi
        obtain rfl : k = k' := Option.some.inj (hkm.symm.trans hk')
        have := positions_getElem?_eq_some_iff.mpr ⟨hki, hri.trans hrm⟩
        rw [hi] at this
        cases this
  · intro h
    refine ⟨fun i x hxi => ?_, fun m y hym => ?_⟩
    · have hki : (xs.map keyX)[i]? = some (keyX x) := by rw [List.getElem?_map, hxi]; rfl
      have hi := positions_getElem?_eq_some_iff.mpr ⟨hki, rfl⟩
      have hval := congrArg (·[occurrences (keyX x) ((xs.map keyX).take i)]?) (h (keyX x))
      simp only [List.getElem?_map, filter_key_getElem?, hi, Option.bind_some, hxi,
        Option.map_some] at hval
      obtain ⟨y, hy, hxy⟩ := Option.map_eq_some_iff.mp hval.symm
      obtain ⟨m, hm, hym⟩ := Option.bind_eq_some_iff.mp hy
      obtain ⟨hkm, hrm⟩ := positions_getElem?_eq_some_iff.mp hm
      exact ⟨m, y, counterpart_eq_some_iff.mpr ⟨keyX x, hki, hkm, hrm⟩, hym, hxy.symm⟩
    · have hkm : (ys.map keyY)[m]? = some (keyY y) := by rw [List.getElem?_map, hym]; rfl
      have hm := positions_getElem?_eq_some_iff.mpr ⟨hkm, rfl⟩
      have hval := congrArg (·[occurrences (keyY y) ((ys.map keyY).take m)]?) (h (keyY y))
      simp only [List.getElem?_map, filter_key_getElem?, hm, Option.bind_some, hym,
        Option.map_some] at hval
      obtain ⟨x, hx, -⟩ := Option.map_eq_some_iff.mp hval
      obtain ⟨i, hi, -⟩ := Option.bind_eq_some_iff.mp hx
      obtain ⟨hki, hri⟩ := positions_getElem?_eq_some_iff.mp hi
      exact Option.isSome_iff_exists.mpr
        ⟨i, counterpart_eq_some_iff.mpr ⟨keyY y, hkm, hki, hri⟩⟩

end Lib
