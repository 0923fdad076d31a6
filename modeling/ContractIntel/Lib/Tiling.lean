import Mathlib.Data.List.Basic
import Mathlib.Data.List.Chain

/-!
# Overlapping tilings of a range

A range `[start, stop)` of natural numbers is covered from left to right by windows of at most
`cap` positions. Each window starts past the start of the one before it and no later than its
end, at most `overlap` positions back: no gap, bounded overlap, progress.

## What is proved

- `Tiling.bounds`: every window is non-empty, fits the cap and stays inside the range.
- `Tiling.covers`: every position of the range lies in a window.
- `Tiling.starts_lt`: the starts strictly increase.
- `Tiling.seams`: neighbouring windows touch, and overlap by at most `overlap`.
- `Tiling.separate`, `Tiling.unique`: without overlap a position lies in one window only.
- `isChain_flatMap_of_ordered`: the neighbours of a concatenation of pieces.
-/

namespace Lib

/-- The windows of a left-to-right cover of `[start, stop)`. -/
inductive Tiling (cap overlap stop : Nat) : Nat → List (Nat × Nat) → Prop
  /-- The rest of the range fits one window. -/
  | last {start : Nat} (hlt : start < stop) (hcap : stop ≤ start + cap) :
      Tiling cap overlap stop start [(start, stop)]
  /-- A window up to `cut`, the next one from `next` on. -/
  | step {start cut next : Nat} {rest : List (Nat × Nat)} (hcut : start < cut)
      (hcap : cut ≤ start + cap) (hstop : cut ≤ stop) (hnext : start < next) (hgap : next ≤ cut)
      (hover : cut ≤ next + overlap) (tail : Tiling cap overlap stop next rest) :
      Tiling cap overlap stop start ((start, cut) :: rest)

namespace Tiling

variable {cap overlap start stop : Nat} {windows : List (Nat × Nat)}

theorem bounds (h : Tiling cap overlap stop start windows) :
    ∀ w ∈ windows, start ≤ w.1 ∧ w.1 < w.2 ∧ w.2 ≤ stop ∧ w.2 ≤ w.1 + cap := by
  induction h with
  | last hlt hcap =>
    intro w hw
    obtain rfl := List.mem_singleton.mp hw
    exact ⟨Nat.le_refl _, hlt, Nat.le_refl _, hcap⟩
  | step hcut hcap hstop hnext _ _ _ ih =>
    intro w hw
    rcases List.mem_cons.mp hw with rfl | hw
    · exact ⟨Nat.le_refl _, hcut, hstop, hcap⟩
    · obtain ⟨hstart, hrest⟩ := ih w hw
      exact ⟨Nat.le_trans (Nat.le_of_lt hnext) hstart, hrest⟩

theorem covers (h : Tiling cap overlap stop start windows) {i : Nat} (hi : start ≤ i)
    (hstop : i < stop) : ∃ w ∈ windows, w.1 ≤ i ∧ i < w.2 := by
  induction h with
  | last _ _ => exact ⟨_, List.mem_cons_self, hi, hstop⟩
  | @step start cut next rest _ _ _ _ hgap _ _ ih =>
    by_cases hin : i < cut
    · exact ⟨_, List.mem_cons_self, hi, hin⟩
    · -- past the cut, and the next window starts at the cut or before it
      obtain ⟨w, hw, hwi⟩ := ih (by omega)
      exact ⟨w, List.mem_cons_of_mem _ hw, hwi⟩

theorem starts_lt (h : Tiling cap overlap stop start windows) :
    windows.Pairwise fun v w => v.1 < w.1 := by
  induction h with
  | last _ _ => exact List.pairwise_singleton _ _
  | step _ _ _ hnext _ _ tail ih =>
    refine List.pairwise_cons.mpr ⟨fun w hw => ?_, ih⟩
    exact Nat.lt_of_lt_of_le hnext (tail.bounds w hw).1

theorem head? (h : Tiling cap overlap stop start windows) :
    ∃ cut, windows.head? = some (start, cut) := by
  cases h with
  | last _ _ => exact ⟨_, rfl⟩
  | step _ _ _ _ _ _ _ => exact ⟨_, rfl⟩

theorem getLast? (h : Tiling cap overlap stop start windows) :
    ∃ first, windows.getLast? = some (first, stop) := by
  induction h with
  | last _ _ => exact ⟨_, rfl⟩
  | step _ _ _ _ _ _ tail ih =>
    obtain ⟨first, hfirst⟩ := ih
    have hne := List.ne_nil_of_mem (List.mem_of_getLast? hfirst)
    exact ⟨first, by rw [List.getLast?_cons_of_ne_nil hne, hfirst]⟩

theorem seams (h : Tiling cap overlap stop start windows) :
    windows.IsChain fun v w => w.1 ≤ v.2 ∧ v.2 ≤ w.1 + overlap := by
  induction h with
  | last _ _ => exact List.isChain_singleton _
  | step _ _ _ _ hgap hover tail ih =>
    obtain ⟨cut, hcut⟩ := tail.head?
    rw [List.isChain_cons]
    refine ⟨fun w hw => ?_, ih⟩
    rw [hcut, Option.mem_some_iff] at hw
    subst hw
    exact ⟨hgap, hover⟩

/-- Without overlap the windows lie one behind the other. -/
theorem separate (h : Tiling cap 0 stop start windows) :
    windows.Pairwise fun v w => v.2 ≤ w.1 := by
  induction h with
  | last _ _ => exact List.pairwise_singleton _ _
  | step _ _ _ _ _ hover tail ih =>
    refine List.pairwise_cons.mpr ⟨fun w hw => ?_, ih⟩
    exact Nat.le_trans hover (tail.bounds w hw).1

/-- And every position lies in one of them only, also when they carry labels. -/
theorem unique {α : Type*} {range : α → Nat × Nat} {l : List α}
    (h : Tiling cap 0 stop start (l.map range)) {i : Nat} {a b : α} (ha : a ∈ l) (hb : b ∈ l)
    (hai : (range a).1 ≤ i ∧ i < (range a).2) (hbi : (range b).1 ≤ i ∧ i < (range b).2) : a = b := by
  by_contra hne
  have : Std.Symm fun a b => (range a).2 ≤ (range b).1 ∨ (range b).2 ≤ (range a).1 :=
    ⟨fun _ _ => Or.symm⟩
  have happart := (List.pairwise_map.mp h.separate).imp
    (S := fun a b => (range a).2 ≤ (range b).1 ∨ (range b).2 ≤ (range a).1) .inl
  have := happart.forall ha hb hne
  omega

end Tiling

/-! ## Concatenating pieces -/

section Pieces

variable {α β : Type*} {piece : α → List β} {l : List α}

/-- What holds between neighbours inside every piece, and across ordered pieces, holds between
neighbours of the concatenation. -/
theorem isChain_flatMap_of_ordered {S : α → α → Prop} {R : β → β → Prop}
    (inside : ∀ a ∈ l, (piece a).IsChain R)
    (across : ∀ a ∈ l, ∀ b ∈ l, S a b → ∀ x ∈ piece a, ∀ y ∈ piece b, R x y)
    (ordered : l.Pairwise S) : (l.flatMap piece).IsChain R := by
  induction l with
  | nil => exact List.isChain_nil
  | cons a l ih =>
    obtain ⟨hhead, htail⟩ := List.pairwise_cons.mp ordered
    rw [List.flatMap_cons, List.isChain_append]
    refine ⟨inside a List.mem_cons_self, ?_, fun x hx y hy => ?_⟩
    · exact ih (fun b hb => inside b (List.mem_cons_of_mem _ hb))
        (fun b hb c hc => across b (List.mem_cons_of_mem _ hb) c (List.mem_cons_of_mem _ hc)) htail
    · obtain ⟨b, hb, hyb⟩ := List.mem_flatMap.mp (List.mem_of_mem_head? hy)
      exact across a List.mem_cons_self b (List.mem_cons_of_mem _ hb) (hhead b hb) x
        (List.mem_of_mem_getLast? hx) y hyb

end Pieces

end Lib
