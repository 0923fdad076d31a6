import Mathlib.Algebra.BigOperators.Group.List.Basic
import Mathlib.Data.List.DropRight
import Mathlib.Data.List.SplitBy

/-!
# The lines of a text

A line ends at a line feed, at a carriage return, or at a carriage return with the line feed after
it. The text is a list over any alphabet that tells which characters are line feeds and which are
carriage returns, so that characters may carry more than their code: `touched` has them carry their
positions, to say on which lines a stretch of the text stands.

## What is proved

- `lines_append`, `lines_closed`: after a line feed a new line starts.
- `lines_map`: what else the characters carry does not matter.
- `touched_eq`: a stretch between line feeds stands on lines of its own.
- `lines_closed_eq_map`, `forall_of_length_lines_le`: texts closed by line feeds are the lines exactly
  when none has a carriage return before its end; else there are more lines than texts.
-/

namespace Lib

section Trailing

variable {α : Type*} {p : α → Bool} {l m : List α}

theorem rdropWhile_append_of_all (h : ∀ c ∈ m, p c) :
    (l ++ m).rdropWhile p = l.rdropWhile p := by
  have hdrop : m.reverse.dropWhile p = [] :=
    List.dropWhile_eq_nil_iff.mpr fun c hc => h c (List.mem_reverse.mp hc)
  simp [List.rdropWhile, List.dropWhile_append, hdrop]

theorem rdropWhile_append_of_exists (h : ∃ c ∈ m, ¬ p c) :
    (l ++ m).rdropWhile p = l ++ m.rdropWhile p := by
  obtain ⟨c, hc, hp⟩ := h
  have hdrop : m.reverse.dropWhile p ≠ [] := fun hnil =>
    hp (List.dropWhile_eq_nil_iff.mp hnil c (List.mem_reverse.mpr hc))
  simp [List.rdropWhile, List.dropWhile_append, hdrop]

theorem rdropWhile_congr {q : α → Bool} (h : ∀ c ∈ l, p c = q c) :
    l.rdropWhile p = l.rdropWhile q := by
  induction l using List.reverseRecOn with
  | nil => rfl
  | append_singleton l c ih =>
    rw [List.rdropWhile_concat, List.rdropWhile_concat, h c (List.mem_append_right _ (by simp)),
      ih fun d hd => h d (List.mem_append_left _ hd)]

end Trailing

namespace Lines

variable {α β : Type*} (isLf isCr : α → Bool)

/-- Whether the line of `a` goes on with `b`. -/
def goesOn (a b : α) : Bool := !isLf a && (!isCr a || isLf b)

/-- The lines of a text, each with its line ending. -/
def lines (text : List α) : List (List α) := text.splitBy (goesOn isLf isCr)

/-- A line without its ending. -/
def body (line : List α) : List α := line.takeWhile fun c => !isLf c && !isCr c

/-- The lines that hold a character at one of the positions from `start` up to `stop`. -/
def touched (start stop : Nat) (text : List α) : List (List α) :=
  ((lines (fun c => isLf c.1) (fun c => isCr c.1) text.zipIdx).filter fun line =>
    line.any fun c => start ≤ c.2 && c.2 < stop).map (List.map Prod.fst)

/-- Texts as lines that end with a line feed. -/
def closed (lf : α) (texts : List (List α)) : List α := texts.flatMap (· ++ [lf])

variable {isLf isCr} {text before after block : List α} {lf : α} {texts : List (List α)}

@[simp] theorem lines_nil : lines isLf isCr [] = [] := rfl

@[simp] theorem flatten_lines : (lines isLf isCr text).flatten = text := List.flatten_splitBy ..

theorem mem_of_mem_lines {line : List α} {c : α} (hline : line ∈ lines isLf isCr text)
    (hc : c ∈ line) : c ∈ text := by
  have hflat : (lines isLf isCr text).flatten = text := flatten_lines
  exact hflat ▸ List.mem_flatten.mpr ⟨line, hline, hc⟩

theorem goesOn_of_isLf {a b : α} (h : isLf a) : goesOn isLf isCr a b = false := by
  simp [goesOn, h]

/-- A text that ends with a line feed may be cut off. -/
theorem lines_append (h : ∀ c ∈ before.getLast?, isLf c) :
    lines isLf isCr (before ++ after) = lines isLf isCr before ++ lines isLf isCr after :=
  List.splitBy_append fun c hc _ _ => goesOn_of_isLf (h c hc)

theorem lines_map (f : β → α) (text : List β) :
    (lines (fun c => isLf (f c)) (fun c => isCr (f c)) text).map (List.map f) =
      lines isLf isCr (text.map f) := by
  refine (List.splitBy_eq_iff.mpr ⟨?_, ?_, ?_, ?_⟩).symm
  · rw [← List.map_flatten, flatten_lines]
  · intro hnil
    obtain ⟨line, hline, heq⟩ := List.mem_map.mp hnil
    rw [List.map_eq_nil_iff.mp heq] at hline
    exact List.nil_notMem_splitBy _ _ hline
  · intro mapped hmapped
    obtain ⟨line, hline, rfl⟩ := List.mem_map.mp hmapped
    exact (List.isChain_map f).mpr (List.isChain_of_mem_splitBy hline)
  · refine (List.isChain_map (List.map f)).mpr
      ((List.isChain_getLast_head_splitBy _ _).imp fun line next ⟨hline, hnext, hends⟩ => ?_)
    refine ⟨mt List.map_eq_nil_iff.mp hline, mt List.map_eq_nil_iff.mp hnext, ?_⟩
    rw [List.getLast_map, List.head_map]
    exact hends

/-- A character that goes on with the line before it does not stand on a line alone. -/
theorem exists_mem_of_goesOn {a b : α} {line : List α} (h : goesOn isLf isCr a b)
    (hline : line ∈ lines isLf isCr (text ++ [a] ++ [b])) : ∃ c ∈ line, c ∈ text ++ [a] := by
  have hflat : (lines isLf isCr (text ++ [a] ++ [b])).flatten = text ++ [a] ++ [b] := flatten_lines
  have hends := List.isChain_getLast_head_splitBy (goesOn isLf isCr) (text ++ [a] ++ [b])
  have hnil := List.nil_notMem_splitBy (goesOn isLf isCr) (text ++ [a] ++ [b])
  rw [← lines] at hends hnil
  generalize lines isLf isCr (text ++ [a] ++ [b]) = all at hline hflat hends hnil
  obtain ⟨first, last, rfl⟩ := (List.eq_nil_or_concat' all).resolve_left (List.ne_nil_of_mem hline)
  have hlast : last ≠ [] := fun heq => hnil (List.mem_append_right _ (List.mem_singleton.mpr heq.symm))
  obtain ⟨init, c, rfl⟩ := (List.eq_nil_or_concat' last).resolve_left hlast
  rw [List.flatten_append, List.flatten_singleton, ← List.append_assoc] at hflat
  obtain ⟨hinit, rfl⟩ := List.append_singleton_inj.mp hflat
  rcases List.mem_append.mp hline with hfirst | hlast
  · obtain ⟨c, hc⟩ := List.exists_mem_of_ne_nil line fun heq =>
      hnil (List.mem_append_left _ (heq ▸ hfirst))
    exact ⟨c, hc, hinit ▸ List.mem_append_left _ (List.mem_flatten.mpr ⟨line, hfirst, hc⟩)⟩
  · rw [List.mem_singleton.mp hlast]
    cases init with
    | cons d init =>
      exact ⟨d, List.mem_cons_self, hinit ▸ List.mem_append_right _ List.mem_cons_self⟩
    | nil =>
      -- alone on the last line it would start a line after `a`
      rw [List.append_nil] at hinit
      have hne : first ≠ [] := fun heq => List.concat_ne_nil a text (by rw [← hinit, heq]; rfl)
      obtain ⟨before, line', rfl⟩ := (List.eq_nil_or_concat' first).resolve_left hne
      obtain ⟨_, _, hpair⟩ := List.isChain_append.mp hends
      obtain ⟨hline', _, hends⟩ := hpair line' List.getLast?_concat _ rfl
      obtain ⟨init, a', rfl⟩ := (List.eq_nil_or_concat' line').resolve_left hline'
      rw [List.flatten_append, List.flatten_singleton, ← List.append_assoc] at hinit
      obtain ⟨-, rfl⟩ := List.append_singleton_inj.mp hinit
      rw [List.getLast_concat] at hends
      exact absurd hends (Bool.eq_false_iff.not.mpr (not_not.mpr h))

/-- Lines outside the stretch hold none of its positions. -/
theorem filter_untouched {start stop n : Nat} (h : n + text.length ≤ start ∨ stop ≤ n) :
    (lines (fun c => isLf c.1) (fun c => isCr c.1) (text.zipIdx n)).filter
      (fun line => line.any fun c => start ≤ c.2 && c.2 < stop) = [] := by
  refine List.filter_eq_nil_iff.mpr fun line hline htouched => ?_
  obtain ⟨c, hc, hpos⟩ := List.any_eq_true.mp htouched
  have hmem := mem_of_mem_lines hline hc
  have hle := List.le_snd_of_mem_zipIdx hmem
  have hlt := List.snd_lt_add_of_mem_zipIdx hmem
  simp only [Bool.and_eq_true, decide_eq_true_eq] at hpos
  omega

/-- Every line of the stretch holds one, the one that its closing line feed ends among them. -/
theorem filter_touched {start stop : Nat} (hlf : isLf lf) (hne : block ≠ [])
    (hblock : ∀ c ∈ block.getLast?, ¬ isLf c) (hstop : start + block.length ≤ stop) :
    (lines (fun c => isLf c.1) (fun c => isCr c.1) ((block ++ [lf]).zipIdx start)).filter
      (fun line => line.any fun c => start ≤ c.2 && c.2 < stop) =
    lines (fun c => isLf c.1) (fun c => isCr c.1) ((block ++ [lf]).zipIdx start) := by
  obtain ⟨init, last, rfl⟩ := (List.eq_nil_or_concat' block).resolve_left hne
  refine List.filter_eq_self.mpr fun line hline => ?_
  rw [List.zipIdx_append, List.zipIdx_append] at hline
  obtain ⟨c, hc, hmem⟩ := exists_mem_of_goesOn
    (by simpa [goesOn, hlf] using hblock last List.getLast?_concat) hline
  rw [← List.zipIdx_singleton, ← List.zipIdx_append] at hmem
  refine List.any_eq_true.mpr ⟨c, hc, ?_⟩
  have hle := List.le_snd_of_mem_zipIdx hmem
  have hlt := List.snd_lt_add_of_mem_zipIdx hmem
  simp only [Bool.and_eq_true, decide_eq_true_eq]
  omega

/-- A stretch between two line feeds that does not end with one stands on lines of its own: they are
the lines of the stretch, closed by the line feed after it. -/
theorem touched_eq {start stop : Nat} (hlf : isLf lf) (hbefore : ∀ c ∈ before.getLast?, isLf c)
    (hne : block ≠ []) (hblock : ∀ c ∈ block.getLast?, ¬ isLf c) (hstart : start = before.length)
    (hstop : start + block.length ≤ stop)
    (hafter : after = [] ∨ stop ≤ start + block.length + 1) :
    touched isLf isCr start stop (before ++ (block ++ [lf]) ++ after) =
      lines isLf isCr (block ++ [lf]) := by
  have hlast {l : List α} {n : Nat} (h : ∀ c ∈ l.getLast?, isLf c) :
      ∀ c ∈ (l.zipIdx n).getLast?, isLf c.1 := by
    intro c hc
    refine h c.1 ?_
    rw [← List.zipIdx_map_fst n l, List.getLast?_map]
    exact Option.mem_map_of_mem _ hc
  have hclosed : ∀ c ∈ (before ++ (block ++ [lf])).getLast?, isLf c := by
    intro c hc
    rw [← List.append_assoc, List.getLast?_concat] at hc
    exact Option.some.inj hc ▸ hlf
  rw [touched, List.zipIdx_append, lines_append (hlast hclosed), List.zipIdx_append,
    lines_append (hlast hbefore), List.filter_append, List.filter_append, Nat.zero_add, ← hstart,
    filter_untouched (.inl (by omega)), filter_touched hlf hne hblock hstop, List.nil_append]
  rcases hafter with rfl | hstop'
  · rw [List.zipIdx_nil, lines_nil, List.filter_nil, List.append_nil, lines_map,
      List.zipIdx_map_fst]
  · have hfar : stop ≤ 0 + (before ++ (block ++ [lf])).length := by
      simp only [List.length_append, List.length_singleton]
      omega
    rw [filter_untouched (.inr hfar), List.append_nil, lines_map, List.zipIdx_map_fst]

/-! ## Texts closed by line feeds -/

@[simp] theorem closed_nil : closed lf [] = [] := rfl

@[simp] theorem closed_cons : closed lf (text :: texts) = text ++ [lf] ++ closed lf texts := rfl

@[simp] theorem closed_append {more : List (List α)} :
    closed lf (texts ++ more) = closed lf texts ++ closed lf more := List.flatMap_append

/-- Texts joined by line feeds, with one more after them. -/
theorem intercalate_concat (h : texts ≠ []) : [lf].intercalate texts ++ [lf] = closed lf texts := by
  induction texts with
  | nil => exact absurd rfl h
  | cons text texts ih =>
    cases texts with
    | nil => simp
    | cons next texts =>
      rw [List.intercalate_cons_cons, List.append_assoc, ih (List.cons_ne_nil _ _)]
      rfl

theorem isLf_of_getLast?_closed (hlf : isLf lf) : ∀ c ∈ (closed lf texts).getLast?, isLf c := by
  intro c hc
  rcases List.eq_nil_or_concat' texts with rfl | ⟨texts, text, rfl⟩
  · cases hc
  · rw [closed_append, closed_cons, closed_nil, List.append_nil, ← List.append_assoc,
      List.getLast?_concat] at hc
    exact Option.some.inj hc ▸ hlf

theorem intercalate_append_singleton (texts : List (List α)) (text : List α) :
    [lf].intercalate (texts ++ [text]) = closed lf texts ++ text := by
  refine (List.append_left_inj [lf]).mp ?_
  rw [intercalate_concat (by simp)]
  simp

theorem not_mem_of_mem_splitOn [DecidableEq α] {part : List α} (h : part ∈ text.splitOn lf) :
    lf ∉ part := by
  induction text generalizing part with
  | nil =>
    rw [List.mem_singleton.mp h]
    exact List.not_mem_nil
  | cons c text ih =>
    rw [List.splitOn_cons_eq_if_modifyHead] at h
    split at h
    next hc =>
      rcases List.mem_cons.mp h with rfl | h
      · exact List.not_mem_nil
      · exact ih h
    next hc =>
      obtain ⟨head, tail, hsplit⟩ := List.exists_cons_of_ne_nil (List.splitOn_ne_nil lf text)
      rw [hsplit] at h ih
      rcases List.mem_cons.mp h with rfl | h
      · refine List.not_mem_cons_of_ne_of_not_mem (fun heq => ?_) (ih List.mem_cons_self)
        exact hc (beq_iff_eq.mpr heq.symm)
      · exact ih (List.mem_cons_of_mem _ h)

/-- Every text starts a line. -/
theorem lines_closed (hlf : isLf lf) (texts : List (List α)) :
    lines isLf isCr (closed lf texts) = texts.flatMap fun text => lines isLf isCr (text ++ [lf]) := by
  induction texts with
  | nil => rfl
  | cons text texts ih =>
    have hend : ∀ c ∈ (text ++ [lf]).getLast?, isLf c := by
      intro c hc
      rw [List.getLast?_concat] at hc
      exact Option.some.inj hc ▸ hlf
    rw [closed_cons, lines_append hend, List.flatMap_cons, ← ih]

/-- A text without line feeds is one line exactly when no carriage return stands before its end. -/
theorem isChain_concat_iff (htext : ∀ c ∈ text, ¬ isLf c) (hlf : isLf lf) :
    (text ++ [lf]).IsChain (fun a b => goesOn isLf isCr a b) ↔ ∀ c ∈ text.dropLast, ¬ isCr c := by
  induction text with
  | nil => simp
  | cons a text ih =>
    obtain ⟨ha, htext⟩ := List.forall_mem_cons.mp htext
    cases text with
    | nil => simp [goesOn, ha, hlf]
    | cons b text =>
      obtain ⟨hb, -⟩ := List.forall_mem_cons.mp htext
      have hgoes : goesOn isLf isCr a b ↔ ¬ isCr a := by simp [goesOn, ha, hb]
      rw [List.cons_append, List.cons_append, List.isChain_cons_cons, hgoes, ← List.cons_append,
        ih htext, List.dropLast_cons_cons, List.forall_mem_cons]

/-- The line feed that closes a line is not part of its body. -/
theorem body_concat (hlf : isLf lf) (text : List α) :
    body isLf isCr (text ++ [lf]) = body isLf isCr text := by
  rw [body, body, List.takeWhile_append]
  split
  next h =>
    rw [(List.takeWhile_prefix _).eq_of_length h, List.takeWhile_cons_of_neg (by simp [hlf]),
      List.append_nil]
  next => rfl

theorem lines_concat (htext : ∀ c ∈ text, ¬ isLf c) (hlf : isLf lf)
    (hcr : ∀ c ∈ text.dropLast, ¬ isCr c) : lines isLf isCr (text ++ [lf]) = [text ++ [lf]] :=
  List.splitBy_of_isChain (List.concat_ne_nil lf text) ((isChain_concat_iff htext hlf).mpr hcr)

theorem lines_closed_eq_map (hlf : isLf lf) (htexts : ∀ text ∈ texts, ∀ c ∈ text, ¬ isLf c)
    (hcr : ∀ text ∈ texts, ∀ c ∈ text.dropLast, ¬ isCr c) :
    lines isLf isCr (closed lf texts) = texts.map (· ++ [lf]) := by
  rw [lines_closed hlf, List.flatMap_congr fun text htext =>
    lines_concat (htexts text htext) hlf (hcr text htext)]
  exact List.flatMap_pure_eq_map (· ++ [lf]) texts

theorem one_le_lines (lf : α) (text : List α) :
    1 ≤ (lines isLf isCr (text ++ [lf])).length :=
  List.length_pos_iff.mpr (List.splitBy_ne_nil.mpr (List.concat_ne_nil lf text))

theorem length_le_lines (hlf : isLf lf) (texts : List (List α)) :
    texts.length ≤ (lines isLf isCr (closed lf texts)).length := by
  rw [lines_closed hlf]
  induction texts with
  | nil => exact Nat.zero_le _
  | cons text texts ih =>
    have hone : 1 ≤ (lines isLf isCr (text ++ [lf])).length := one_le_lines lf text
    rw [List.flatMap_cons, List.length_append, List.length_cons]
    omega

/-- A text that is one line has no carriage return before its end. -/
theorem forall_of_length_le_one (htext : ∀ c ∈ text, ¬ isLf c) (hlf : isLf lf)
    (h : (lines isLf isCr (text ++ [lf])).length ≤ 1) : ∀ c ∈ text.dropLast, ¬ isCr c := by
  obtain ⟨line, hline⟩ := List.length_eq_one_iff.mp (h.antisymm (one_le_lines lf text))
  have hflat : (lines isLf isCr (text ++ [lf])).flatten = text ++ [lf] := flatten_lines
  rw [hline, List.flatten_singleton] at hflat
  have hchain := List.isChain_of_mem_splitBy (r := goesOn isLf isCr) (m := line)
    (l := text ++ [lf]) (by rw [← lines, hline]; exact List.mem_singleton_self _)
  exact (isChain_concat_iff htext hlf).mp (hflat ▸ hchain)

/-- No more lines than line feeds: no carriage return stands before the end of a line. -/
theorem forall_of_length_lines_le (hlf : isLf lf) (htexts : ∀ text ∈ texts, ∀ c ∈ text, ¬ isLf c)
    (h : (lines isLf isCr (closed lf texts)).length ≤ texts.length) :
    ∀ text ∈ texts, ∀ c ∈ text.dropLast, ¬ isCr c := by
  induction texts with
  | nil => exact List.forall_mem_nil _
  | cons text texts ih =>
    obtain ⟨htext, htexts⟩ := List.forall_mem_cons.mp htexts
    have hrest : texts.length ≤ (lines isLf isCr (closed lf texts)).length :=
      length_le_lines hlf texts
    have hone : 1 ≤ (lines isLf isCr (text ++ [lf])).length := one_le_lines lf text
    rw [lines_closed hlf, List.flatMap_cons, List.length_append, ← lines_closed hlf,
      List.length_cons] at h
    refine List.forall_mem_cons.mpr ⟨forall_of_length_le_one htext hlf ?_, ih htexts ?_⟩
    · omega
    · omega

end Lines

end Lib
