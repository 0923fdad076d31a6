import Mathlib.Data.List.Forall2

/-!
# Fallible maps over a list

A `mapM` in `Except` goes from left to right and stops at the first error.

## What is proved

- `mapM_eq_ok_iff`: it succeeds with the results of its elements, in their order.
- `exists_of_mem_mapM`, `map_of_mapM`: where a result comes from.
- `mapM_error`: its error is the error of one of its elements.
- `exists_mapM_eq_ok`: it succeeds when every element does.
- `exists_of_mapError`: where a translated error comes from.
-/

namespace Lib

variable {ε α β : Type} {f : α → Except ε β} {l : List α}

theorem exists_of_mapError {ε' : Type} {translate : ε → ε'} {r : Except ε α} {e : ε'}
    (h : r.mapError translate = .error e) : ∃ reason, r = .error reason ∧ translate reason = e := by
  cases r with
  | ok a => cases h
  | error reason => exact ⟨reason, rfl, Except.error.inj h⟩

theorem mapM_eq_ok_iff {bs : List β} :
    l.mapM f = .ok bs ↔ List.Forall₂ (fun a b => f a = .ok b) l bs := by
  induction l generalizing bs with
  | nil =>
    rw [List.mapM_nil, List.forall₂_nil_left_iff]
    exact ⟨fun h => (Except.ok.inj h).symm, fun h => by rw [h]; rfl⟩
  | cons a l ih =>
    rw [List.mapM_cons, List.forall₂_cons_left_iff]
    constructor
    · intro h
      cases ha : f a with
      | error e =>
        rw [ha] at h
        cases h
      | ok b =>
        rw [ha] at h
        cases hl : l.mapM f with
        | error e =>
          rw [hl] at h
          cases h
        | ok rest =>
          rw [hl] at h
          cases h
          exact ⟨b, rest, rfl, ih.mp hl, rfl⟩
    · rintro ⟨b, rest, ha, hl, rfl⟩
      rw [ha, ih.mpr hl]
      rfl

/-- Every result is the result of an element. -/
theorem exists_of_mem_mapM {bs : List β} (h : l.mapM f = .ok bs) {b : β} (hb : b ∈ bs) :
    ∃ a ∈ l, f a = .ok b := by
  have hall := mapM_eq_ok_iff.mp h
  clear h
  induction hall with
  | nil => cases hb
  | cons ha _ ih =>
    rcases List.mem_cons.mp hb with rfl | hb
    · exact ⟨_, List.mem_cons_self, ha⟩
    · obtain ⟨a, hmem, hok⟩ := ih hb
      exact ⟨a, List.mem_cons_of_mem _ hmem, hok⟩

/-- What names the argument of every result gives the arguments back. -/
theorem map_of_mapM {bs : List β} (h : l.mapM f = .ok bs) {g : β → α}
    (hg : ∀ a ∈ l, ∀ b, f a = .ok b → g b = a) : bs.map g = l := by
  have hall := mapM_eq_ok_iff.mp h
  clear h
  induction hall with
  | nil => rfl
  | @cons a b l bs ha _ ih =>
    rw [List.map_cons, hg a List.mem_cons_self b ha]
    exact congrArg _ (ih fun a hmem => hg a (List.mem_cons_of_mem _ hmem))

theorem mapM_error {e : ε} (h : l.mapM f = .error e) : ∃ a ∈ l, f a = .error e := by
  induction l with
  | nil => cases h
  | cons a l ih =>
    rw [List.mapM_cons] at h
    cases ha : f a with
    | error e' =>
      rw [ha] at h
      cases h
      exact ⟨a, List.mem_cons_self, ha⟩
    | ok b =>
      rw [ha] at h
      cases hl : l.mapM f with
      | error e' =>
        rw [hl] at h
        cases h
        obtain ⟨a', ha', herror⟩ := ih hl
        exact ⟨a', List.mem_cons_of_mem _ ha', herror⟩
      | ok rest =>
        rw [hl] at h
        cases h

theorem exists_mapM_eq_ok (h : ∀ a ∈ l, ∃ b, f a = .ok b) : ∃ bs, l.mapM f = .ok bs := by
  cases hl : l.mapM f with
  | ok bs => exact ⟨bs, rfl⟩
  | error e =>
    obtain ⟨a, ha, herror⟩ := mapM_error hl
    obtain ⟨b, hb⟩ := h a ha
    cases hb.symm.trans herror

end Lib
