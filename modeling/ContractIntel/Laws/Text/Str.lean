import ContractIntel.Text.Str
import Mathlib.Data.List.TakeWhile

/-!
# Laws of the string operations

What a slice, a strip and a search answer, position by position: a slice of a concatenation is a
slice of the part it lies in, a string strips to nothing exactly when it is blank, and `find`
stops at the first occurrence.
-/

namespace ContractIntel.Str

/-- A character of the text that is not whitespace stands at the position. -/
def Visible (text : Str) (i : Nat) : Prop := ∃ c, text[i]? = some c ∧ isSpace c = false

/-- A string of whitespace only. -/
def Blank (text : Str) : Prop := ∀ c ∈ text, isSpace c = true

/-! ## Blank strings -/

theorem dropWhile_isSpace_eq_nil_iff {text : Str} : text.dropWhile isSpace = [] ↔ Blank text :=
  List.dropWhile_eq_nil_iff

theorem strip_eq_nil_iff {text : Str} : strip text = [] ↔ Blank text := by
  unfold strip
  rw [List.reverse_eq_nil_iff, dropWhile_isSpace_eq_nil_iff]
  constructor
  · intro h c hc
    rw [← List.takeWhile_append_dropWhile (p := isSpace) (l := text)] at hc
    rcases List.mem_append.mp hc with hc | hc
    · exact List.mem_takeWhile_imp hc
    · exact h c (List.mem_reverse.mpr hc)
  · intro h c hc
    exact h c ((List.dropWhile_suffix isSpace).subset (List.mem_reverse.mp hc))

theorem strip_ne_nil_iff {text : Str} : strip text ≠ [] ↔ ∃ i, Visible text i := by
  rw [ne_eq, strip_eq_nil_iff]
  constructor
  · intro h
    by_contra hnone
    refine h fun c hc => ?_
    obtain ⟨i, hi⟩ := List.mem_iff_getElem?.mp hc
    by_contra hspace
    exact hnone ⟨i, c, hi, Bool.not_eq_true _ ▸ hspace⟩
  · rintro ⟨i, c, hi, hspace⟩ h
    rw [h c (List.mem_of_getElem? hi)] at hspace
    cases hspace

theorem strip_isInfix (text : Str) : strip text <:+: text := by
  have hprefix : strip text <+: text.dropWhile isSpace := by
    rw [← List.reverse_suffix, strip, List.reverse_reverse]
    exact List.dropWhile_suffix isSpace
  exact hprefix.isInfix.trans (List.dropWhile_suffix isSpace).isInfix

theorem mem_of_mem_strip {text : Str} {c : Char} (h : c ∈ strip text) : c ∈ text :=
  (strip_isInfix text).subset h

/-- Stripping leaves no whitespace at the end. -/
theorem isSpace_of_strip_getLast? {text : Str} {c : Char} (h : (strip text).getLast? = some c) :
    isSpace c = false := by
  have hhead := List.head?_dropWhile_not isSpace (text.dropWhile isSpace).reverse
  rw [strip, List.getLast?_reverse] at h
  rw [h] at hhead
  exact hhead

/-- So what is left is not blank. -/
theorem strip_strip_ne_nil {text : Str} (h : strip text ≠ []) : strip (strip text) ≠ [] := by
  rw [ne_eq, strip_eq_nil_iff]
  intro hblank
  have hlast := List.getLast?_eq_some_getLast h
  have hspace := isSpace_of_strip_getLast? hlast
  rw [hblank _ (List.getLast_mem h)] at hspace
  cases hspace

/-! ## Lines -/

theorem firstLine_eq_self {text : Str} (h : '\n' ∉ text) : firstLine text = text := by
  unfold firstLine
  rw [List.takeWhile_eq_self_iff]
  intro c hc
  refine decide_eq_true ?_
  rintro rfl
  exact h hc

/-- No line holds a line break. -/
theorem splitlinesFrom_no_break {line text : Str} (hline : ∀ c ∈ line, isLineBreak c = false) :
    ∀ l ∈ splitlinesFrom line text, ∀ c ∈ l, isLineBreak c = false := by
  fun_induction splitlinesFrom line text with
  | case1 line hempty => exact fun l hl => absurd hl List.not_mem_nil
  | case2 line hne =>
    intro l hl
    obtain rfl := List.mem_singleton.mp hl
    exact hline
  | case3 line rest ih =>
    intro l hl
    rcases List.mem_cons.mp hl with rfl | hl
    · exact hline
    · exact ih (fun c hc => absurd hc List.not_mem_nil) l hl
  | case4 line c rest hcr hbreak ih =>
    intro l hl
    rcases List.mem_cons.mp hl with rfl | hl
    · exact hline
    · exact ih (fun c hc => absurd hc List.not_mem_nil) l hl
  | case5 line c rest hcr hbreak ih =>
    refine ih fun d hd => ?_
    rcases List.mem_append.mp hd with hd | hd
    · exact hline d hd
    · obtain rfl := List.mem_singleton.mp hd
      exact Bool.not_eq_true _ ▸ hbreak

theorem splitlines_no_newline {text line : Str} (h : line ∈ splitlines text) : '\n' ∉ line :=
  fun hc => absurd (splitlinesFrom_no_break (fun c hc => absurd hc List.not_mem_nil) line h '\n' hc)
    (by decide)

/-! ## Slices -/

theorem getElem?_slice {text : Str} {start stop i : Nat} :
    (slice text start stop)[i]? = if start + i < stop then text[start + i]? else none := by
  unfold slice
  rw [List.getElem?_drop, List.getElem?_take]

/-- A slice that ends inside the first part is a slice of it. -/
theorem slice_append_left {first rest : Str} {start stop : Nat} (h : stop ≤ first.length) :
    slice (first ++ rest) start stop = slice first start stop := by
  unfold slice
  rw [List.take_append_of_le_length h]

/-- A slice that starts behind the first part is a slice of the rest. -/
theorem slice_append_right {first rest : Str} {start stop : Nat} :
    slice (first ++ rest) (first.length + start) (first.length + stop) = slice rest start stop := by
  unfold slice
  rw [List.take_length_add_append, List.drop_length_add_append]

/-- The whole of a text. -/
@[simp] theorem slice_zero_length (text : Str) : slice text 0 text.length = text := by
  simp [slice]

/-- What stands between two other parts is cut out by their lengths. -/
theorem slice_append_middle (before middle rest : Str) :
    slice (before ++ (middle ++ rest)) before.length (before.length + middle.length) = middle := by
  have h := @slice_append_right before (middle ++ rest) 0 middle.length
  rwa [Nat.add_zero, slice_append_left (Nat.le_refl _), slice_zero_length] at h

theorem visible_slice {text : Str} {start stop : Nat} :
    (∃ i, Visible (slice text start stop) i) ↔ ∃ i, start ≤ i ∧ i < stop ∧ Visible text i := by
  unfold Visible
  simp only [getElem?_slice]
  constructor
  · rintro ⟨i, c, hi, hc⟩
    split at hi
    · exact ⟨start + i, Nat.le_add_right _ _, ‹_›, c, hi, hc⟩
    · cases hi
  · rintro ⟨i, hstart, hstop, c, hi, hc⟩
    refine ⟨i - start, c, ?_, hc⟩
    rw [Nat.add_sub_cancel' hstart, if_pos hstop, hi]

/-! ## Searches -/

theorem findFrom_eq_some {needle rest : Str} {pos stop : Nat}
    (h : findFrom needle rest pos = some stop) :
    pos ≤ stop ∧ needle <+: rest.drop (stop - pos) := by
  induction rest generalizing pos with
  | nil =>
    unfold findFrom at h
    split at h
    · obtain rfl := List.isEmpty_iff.mp ‹_›
      cases h
      exact ⟨Nat.le_refl _, List.nil_prefix⟩
    · cases h
  | cons c rest ih =>
    unfold findFrom at h
    split at h
    · cases h
      rw [Nat.sub_self]
      exact ⟨Nat.le_refl _, List.isPrefixOf_iff_prefix.mp ‹_›⟩
    · obtain ⟨hle, hpre⟩ := ih h
      refine ⟨by omega, ?_⟩
      rw [show stop - pos = (stop - (pos + 1)) + 1 by omega]
      exact hpre

/-- Where `find` stops the needle stands. -/
theorem find_eq_some {text needle : Str} {pos stop : Nat} (h : find text needle pos = some stop) :
    pos ≤ stop ∧ needle <+: text.drop stop := by
  obtain ⟨hle, hpre⟩ := findFrom_eq_some h
  rw [List.drop_drop, Nat.add_sub_cancel' hle] at hpre
  exact ⟨hle, hpre⟩

end ContractIntel.Str
