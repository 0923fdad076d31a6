import ContractIntel.Text.Parsing
import Mathlib.Data.List.Basic

/-!
# What the joining pass lays out

`build` is a loop with four accumulators; its blocks are `layout`, one block behind the other with
two characters between them, and its text is the `"\n\n"` join of the entries' texts.
-/

namespace ContractIntel.Parsing

/-- The blocks of a list of entries, laid from `pos` on. -/
def layout : Nat → List Entry → List ParsedBlock
  | _, [] => []
  | pos, e :: es =>
    ⟨e.kind, e.text, pos, pos + e.text.length, e.page⟩ :: layout (pos + e.text.length + 2) es

/-- The separator between two blocks. -/
def separator : Str := ['\n', '\n']

/-- The loop from a state that has laid a part already. -/
theorem addEntry_foldl (entries : List Entry) (state : Build) (h : state.parts ≠ []) :
    let final := entries.foldl addEntry state
    final.blocks = state.blocks ++ layout (state.pos + 2) entries ∧
      final.parts = state.parts ++ entries.flatMap fun e => [separator, e.text] := by
  induction entries generalizing state with
  | nil => simp [layout]
  | cons e es ih =>
    obtain ⟨hblocks, hparts⟩ := ih (addEntry state e) (by simp [addEntry])
    rw [List.foldl_cons]
    refine ⟨?_, ?_⟩
    · rw [hblocks]
      simp [addEntry, h, layout]
    · rw [hparts]
      simp [addEntry, h, separator]

theorem build_blocks (entries : List Entry) : (build entries).blocks = layout 0 entries := by
  cases entries with
  | nil => rfl
  | cons e es =>
    obtain ⟨hblocks, -⟩ := addEntry_foldl es (addEntry ⟨[], [], [], 0⟩ e) (by simp [addEntry])
    show ((e :: es).foldl addEntry ⟨[], [], [], 0⟩).blocks = _
    rw [List.foldl_cons, hblocks]
    simp [addEntry, layout]

theorem intersperse_cons {α : Type} (sep a : α) (l : List α) :
    (a :: l).intersperse sep = a :: l.flatMap fun b => [sep, b] := by
  induction l generalizing a with
  | nil => rfl
  | cons b l ih => simp [List.intersperse_cons_cons, ih]

theorem join_nil (parts : List Str) : Str.join [] parts = parts.flatten := by
  unfold Str.join
  cases parts with
  | nil => rfl
  | cons a l =>
    rw [intersperse_cons, List.flatten_cons, List.flatten_cons]
    congr 1
    induction l with
    | nil => rfl
    | cons b l ih => simp [ih]

/-- The canonical text is the join of the entries' texts. -/
theorem build_text (entries : List Entry) :
    (build entries).text = Str.join separator (entries.map Entry.text) := by
  cases entries with
  | nil => rfl
  | cons e es =>
    obtain ⟨-, hparts⟩ := addEntry_foldl es (addEntry ⟨[], [], [], 0⟩ e) (by simp [addEntry])
    show Str.join [] ((e :: es).foldl addEntry ⟨[], [], [], 0⟩).parts = _
    rw [List.foldl_cons, hparts, join_nil, Str.join, List.map_cons, intersperse_cons]
    simp [addEntry, List.flatMap_map]

@[simp] theorem join_singleton (sep a : Str) : Str.join sep [a] = a := by simp [Str.join]

@[simp] theorem join_cons_cons (sep a b : Str) (l : List Str) :
    Str.join sep (a :: b :: l) = a ++ sep ++ Str.join sep (b :: l) := by
  simp [Str.join, List.intersperse_cons_cons]

/-- One block for every entry, in order. -/
theorem layout_entries (pos : Nat) (entries : List Entry) :
    (layout pos entries).map (fun b => (⟨b.kind, b.text, b.page⟩ : Entry)) = entries := by
  induction entries generalizing pos with
  | nil => rfl
  | cons e es ih => rw [layout, List.map_cons, ih]

theorem mem_layout {pos : Nat} {entries : List Entry} {b : ParsedBlock} (h : b ∈ layout pos entries) :
    ⟨b.kind, b.text, b.page⟩ ∈ entries := by
  rw [← layout_entries pos entries]
  exact List.mem_map_of_mem (f := fun b => (⟨b.kind, b.text, b.page⟩ : Entry)) h

/-! ## Where the blocks lie -/

section Layout

variable {entries : List Entry} {pos : Nat}

theorem layout_start (b : ParsedBlock) (hb : b ∈ layout pos entries) : pos ≤ b.start := by
  induction entries generalizing pos with
  | nil => cases hb
  | cons e es ih =>
    rcases List.mem_cons.mp hb with rfl | hb
    · exact Nat.le_refl _
    · have := ih hb
      omega

/-- Blocks of non-empty texts are non-empty ranges. -/
theorem layout_lt (h : ∀ e ∈ entries, e.text ≠ []) (b : ParsedBlock)
    (hb : b ∈ layout pos entries) : b.start < b.stop := by
  induction entries generalizing pos with
  | nil => cases hb
  | cons e es ih =>
    rcases List.mem_cons.mp hb with rfl | hb
    · have := List.length_pos_iff.mpr (h e List.mem_cons_self)
      show pos < pos + e.text.length
      omega
    · exact ih (fun e he => h e (List.mem_cons_of_mem _ he)) hb

theorem layout_pairwise : (layout pos entries).Pairwise fun a b => a.stop < b.start := by
  induction entries generalizing pos with
  | nil => exact List.Pairwise.nil
  | cons e es ih =>
    refine List.pairwise_cons.mpr ⟨fun b hb => ?_, ih⟩
    have := layout_start b hb
    show pos + e.text.length < b.start
    omega

/-- The last block ends where the text ends, and no block ends later. -/
theorem layout_stop_le (b : ParsedBlock) (hb : b ∈ layout pos entries) :
    b.stop ≤ pos + (Str.join separator (entries.map Entry.text)).length := by
  induction entries generalizing pos with
  | nil => cases hb
  | cons e es ih =>
    cases es with
    | nil =>
      obtain rfl := List.mem_singleton.mp hb
      simp
    | cons e' es =>
      rcases List.mem_cons.mp hb with rfl | hb
      · simp
      · have := ih hb
        simp only [List.map_cons, join_cons_cons, List.length_append, separator, List.length_cons,
          List.length_nil] at this ⊢
        omega

theorem layout_getLast_stop {b : ParsedBlock} (hb : (layout pos entries).getLast? = some b) :
    b.stop = pos + (Str.join separator (entries.map Entry.text)).length := by
  induction entries generalizing pos with
  | nil => cases hb
  | cons e es ih =>
    cases es with
    | nil =>
      obtain rfl := Option.some.inj hb
      simp [layout]
    | cons e' es =>
      rw [layout, List.getLast?_cons_of_ne_nil (by simp [layout])] at hb
      have := ih hb
      simp only [List.map_cons, join_cons_cons, List.length_append, separator, List.length_cons,
        List.length_nil] at this ⊢
      omega

end Layout

end ContractIntel.Parsing
