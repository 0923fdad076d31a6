import Mathlib.Data.List.Basic

/-!
# Elements and what comes after them

A property of every element of a list that may look at the elements after it.

## What is proved

- `eachSplit_iff`: the recursion says what it says of every way to split the list.
- `eachSplit_append`, `eachSplit_flatMap`: a list put together of parts, by the parts.
-/

namespace Lib

variable {α β : Type*}

/-- `P` holds of every element with the list of those after it. -/
def EachSplit (P : α → List α → Prop) : List α → Prop
  | [] => True
  | a :: rest => P a rest ∧ EachSplit P rest

variable {P Q : α → List α → Prop} {l m : List α}

@[simp] theorem eachSplit_nil : EachSplit P [] := trivial

@[simp] theorem eachSplit_cons {a : α} : EachSplit P (a :: l) ↔ P a l ∧ EachSplit P l := Iff.rfl

theorem eachSplit_congr (h : ∀ a rest, P a rest ↔ Q a rest) : EachSplit P l ↔ EachSplit Q l := by
  induction l with
  | nil => exact Iff.rfl
  | cons a l ih => exact and_congr (h a l) ih

theorem eachSplit_iff :
    EachSplit P l ↔ ∀ before a after, l = before ++ a :: after → P a after := by
  induction l with
  | nil =>
    refine iff_of_true trivial fun before a after h => ?_
    exact absurd h.symm (List.append_ne_nil_of_right_ne_nil _ (List.cons_ne_nil a after))
  | cons b l ih =>
    rw [eachSplit_cons, ih]
    constructor
    · rintro ⟨hb, hl⟩ before a after heq
      cases before with
      | nil =>
        cases heq
        exact hb
      | cons c before =>
        cases heq
        exact hl before a after rfl
    · exact fun h => ⟨h [] b l rfl, fun before a after heq => h (b :: before) a after (heq ▸ rfl)⟩

theorem eachSplit_append :
    EachSplit P (l ++ m) ↔ EachSplit (fun a rest => P a (rest ++ m)) l ∧ EachSplit P m := by
  induction l with
  | nil => exact (iff_of_eq (true_and _)).symm
  | cons a l ih => rw [List.cons_append, eachSplit_cons, ih, eachSplit_cons, and_assoc]

theorem eachSplit_flatMap {f : β → List α} {l : List β} :
    EachSplit P (l.flatMap f) ↔
      EachSplit (fun b rest => EachSplit (fun a more => P a (more ++ rest.flatMap f)) (f b)) l := by
  induction l with
  | nil => exact Iff.rfl
  | cons b l ih => rw [List.flatMap_cons, eachSplit_append, ih, eachSplit_cons]

end Lib
