import ContractIntel.Laws.Text.Parsing
import ContractIntel.Laws.Text.Str
import ContractIntel.Lib.Backtracking
import ContractIntel.Lib.Fallible
import ContractIntel.Text.Diffing

/-!
# Clause keys

The clause-number pattern tries five alternatives in order, each greedy. On a numbered line the
greedy choices are all right, so the first match is read off the line part by part
(`clauseNumber_numbered`) and its capture is the whole dotted number: the key is the list of its
integers.

A reference is the dotted decimal writing of a number, or the text of a heading. The writing can be
read back, and a heading's text holds a character no number's writing has, so a reference belongs
to one key (`clauseRef_injective`).
-/

namespace ContractIntel

namespace Str

/-- The integer a digit string denotes. -/
def value (digits : Str) : Nat := digits.foldl (fun n c => 10 * n + (decimal? c).getD 0) 0

theorem toInt_eq_value {digits : Str} (h : digits.length ≤ INT_MAX_STR_DIGITS) :
    toInt digits = .ok (value digits) := if_neg (Nat.not_lt.mpr h)

theorem isDigit_of_isSpace {c : Char} (h : isSpace c = true) : isDigit c = false := by
  rw [isSpace, List.contains_iff_mem] at h
  rw [← Char.ofNat_toNat c]
  generalize c.toNat = n at h
  revert n
  decide

theorem isSpace_of_isDigit {c : Char} (h : isDigit c = true) : isSpace c = false := by
  by_contra hspace
  rw [isDigit_of_isSpace (Bool.not_eq_false _ ▸ hspace)] at h
  cases h

end Str

namespace Diffing

open Lib (Pattern)
open Patterns

/-! ## The letters of a clause word -/

theorem ignoreCase_cases {letter c : Char} (h : ignoreCase letter c = true) :
    c = letter ∨ c = letter.toUpper ∨
      (letter = 'i' ∧ (c = Char.ofNat 0x130 ∨ c = Char.ofNat 0x131)) ∨
      (letter = 's' ∧ c = Char.ofNat 0x17f) := by
  have hchar : ∀ n, c.toNat = n → c = Char.ofNat n := by
    rintro _ rfl
    exact (Char.ofNat_toNat c).symm
  simp only [ignoreCase, Bool.or_eq_true, Bool.and_eq_true, decide_eq_true_eq] at h
  rcases h with ((h | h) | ⟨hi, h⟩) | ⟨hs, h⟩
  · exact .inl h
  · exact .inr (.inl h)
  · exact .inr (.inr (.inl ⟨hi, h.imp (hchar _) (hchar _)⟩))
  · exact .inr (.inr (.inr ⟨hs, hchar _ h⟩))

theorem ignoreCase_a {c : Char} (h : ignoreCase 'a' c = true) : c = 'a' ∨ c = 'A' := by
  rcases ignoreCase_cases h with h | h | ⟨hi, -⟩ | ⟨hs, -⟩
  · exact .inl h
  · exact .inr h
  · exact absurd hi (by decide)
  · exact absurd hs (by decide)

theorem ignoreCase_c {c : Char} (h : ignoreCase 'c' c = true) : c = 'c' ∨ c = 'C' := by
  rcases ignoreCase_cases h with h | h | ⟨hi, -⟩ | ⟨hs, -⟩
  · exact .inl h
  · exact .inr h
  · exact absurd hi (by decide)
  · exact absurd hs (by decide)

theorem ignoreCase_s {c : Char} (h : ignoreCase 's' c = true) :
    c = 's' ∨ c = 'S' ∨ c = Char.ofNat 0x17f := by
  rcases ignoreCase_cases h with h | h | ⟨hi, -⟩ | ⟨-, h⟩
  · exact .inl h
  · exact .inr (.inl h)
  · exact absurd hi (by decide)
  · exact .inr (.inr h)

/-- No digit starts a clause word. -/
theorem ignoreCase_of_isDigit {c : Char} (h : Str.isDigit c = true) :
    ignoreCase 'a' c = false ∧ ignoreCase 's' c = false ∧ ignoreCase 'c' c = false := by
  refine ⟨?_, ?_, ?_⟩ <;> rw [← Bool.not_eq_true] <;> intro hcase
  · rcases ignoreCase_a hcase with rfl | rfl <;> exact absurd h (by decide)
  · rcases ignoreCase_s hcase with rfl | rfl | rfl <;> exact absurd h (by decide)
  · rcases ignoreCase_c hcase with rfl | rfl <;> exact absurd h (by decide)

/-! ## The pieces of a numbered line -/

section Pieces

variable {γ : Type} {rest : Str}

/-- A clause word in any letter case. -/
def ClauseWord (text : Str) : Prop :=
  ∃ letters ∈ ["article", "section", "clause"],
    List.Forall₂ (fun letter c => ignoreCase letter c = true) letters.toList text

theorem match?_literal {letters : String} {text : Str}
    (h : List.Forall₂ (fun letter c => ignoreCase letter c = true) letters.toList text) :
    (literal letters : Pattern γ).match? (text ++ rest) = some ([], rest) :=
  Pattern.match?_word (List.forall₂_map_left_iff.mpr h)

theorem match?_literal_none {letters : String} {letter : Char} {others : List Char} {text : Str}
    (hletters : letters.toList = letter :: others)
    (h : ∀ c ∈ text.head?, ignoreCase letter c = false) :
    (literal letters : Pattern γ).match? text = none := by
  rw [literal, hletters]
  exact Pattern.match?_word_none h

/-- The three words start with different letters, so the one that stands there is the one found. -/
theorem match?_clauseWord {text : Str} (h : ClauseWord text) :
    (clauseWord : Pattern γ).match? (text ++ rest) = some ([], rest) := by
  obtain ⟨letters, hmem, hletters⟩ := h
  have hmatch := @match?_literal γ rest _ _ hletters
  simp only [List.mem_cons, List.not_mem_nil, or_false] at hmem
  rcases hmem with rfl | rfl | rfl
  · exact Pattern.match?_alt_left hmatch
  · obtain ⟨c, tail, hc, -, rfl⟩ := List.forall₂_cons_left_iff.mp hletters
    have ha : (literal "article" : Pattern γ).match? (c :: tail ++ rest) = none := by
      refine match?_literal_none rfl fun d hd => ?_
      obtain rfl := Option.mem_some_iff.mp hd
      rcases ignoreCase_s hc with rfl | rfl | rfl <;> decide
    exact (Pattern.match?_alt_right ha).trans (Pattern.match?_alt_left hmatch)
  · obtain ⟨c, tail, hc, -, rfl⟩ := List.forall₂_cons_left_iff.mp hletters
    have hother : ∀ letter ∈ ['a', 's'], ∀ d ∈ (c :: tail ++ rest).head?,
        ignoreCase letter d = false := by
      intro letter hletter d hd
      obtain rfl := Option.mem_some_iff.mp hd
      rcases List.mem_pair.mp hletter with rfl | rfl <;>
        rcases ignoreCase_c hc with rfl | rfl <;> decide
    have ha : (literal "article" : Pattern γ).match? (c :: tail ++ rest) = none :=
      match?_literal_none rfl (hother 'a' (by simp))
    have hs : (literal "section" : Pattern γ).match? (c :: tail ++ rest) = none :=
      match?_literal_none rfl (hother 's' (by simp))
    exact ((Pattern.match?_alt_right ha).trans (Pattern.match?_alt_right hs)).trans hmatch

theorem match?_clauseWord_none {text : Str} (h : ∀ c ∈ text.head?, Str.isDigit c = true) :
    (clauseWord : Pattern γ).match? text = none := by
  have ha : (literal "article" : Pattern γ).match? text = none :=
    match?_literal_none rfl fun c hc => (ignoreCase_of_isDigit (h c hc)).1
  have hs : (literal "section" : Pattern γ).match? text = none :=
    match?_literal_none rfl fun c hc => (ignoreCase_of_isDigit (h c hc)).2.1
  have hc : (literal "clause" : Pattern γ).match? text = none :=
    match?_literal_none rfl fun c hc => (ignoreCase_of_isDigit (h c hc)).2.2
  exact ((Pattern.match?_alt_right ha).trans (Pattern.match?_alt_right hs)).trans hc

/-- A non-empty run of decimal digits. -/
def Digits (text : Str) : Prop := text ≠ [] ∧ ∀ c ∈ text, Str.isDigit c = true

/-- A non-empty run of whitespace. -/
def Gap (text : Str) : Prop := text ≠ [] ∧ ∀ c ∈ text, Str.isSpace c = true

theorem match?_digits {text : Str} (h : Digits text) (hrest : ∀ c ∈ rest.head?, Str.isDigit c = false) :
    (digits : Pattern γ).match? (text ++ rest) = some ([], rest) :=
  Pattern.match?_plus_cls h.1 h.2 hrest

theorem match?_spaces {text : Str} (h : Gap text) (hrest : ∀ c ∈ rest.head?, Str.isSpace c = false) :
    (spaces : Pattern γ).match? (text ++ rest) = some ([], rest) :=
  Pattern.match?_plus_cls h.1 h.2 hrest

/-- Where a dotted number can go no further. -/
def EndsNumber (rest : Str) : Prop :=
  (∀ c ∈ rest.head?, Str.isDigit c = false) ∧
    ∀ tail, rest = '.' :: tail → ∀ c ∈ tail.head?, Str.isDigit c = false

theorem match?_dottedPart_none (h : EndsNumber rest) :
    (dottedPart : Pattern γ).match? rest = none := by
  cases rest with
  | nil => rfl
  | cons c tail =>
    by_cases hc : c = '.'
    · subst hc
      have hdigits : (digits : Pattern γ).match? tail = none :=
        Pattern.match?_seq_none (Pattern.match?_cls_none (h.2 tail rfl))
      rw [Pattern.match?_eq_none_iff] at hdigits ⊢
      simp [dottedPart, hdigits]
    · exact Pattern.match?_seq_none (Pattern.match?_cls_none (by simpa using hc))

theorem match?_dottedPart {text : Str} (h : Digits text)
    (hrest : ∀ c ∈ rest.head?, Str.isDigit c = false) :
    (dottedPart : Pattern γ).match? ('.' :: text ++ rest) = some ([], rest) :=
  Pattern.match?_seq (m := ([], text ++ rest)) (Pattern.match?_cls (by simp)) (match?_digits h hrest)

/-- A dotted number goes on with a dot, or ends. -/
theorem head_dottedParts {parts : List Str} (hrest : EndsNumber rest) :
    ∀ c ∈ (parts.flatMap ('.' :: ·) ++ rest).head?, Str.isDigit c = false := by
  cases parts with
  | nil => exact hrest.1
  | cons p ps =>
    intro c hc
    obtain rfl := Option.mem_some_iff.mp hc
    decide

/-- The parts behind the first one are taken greedily. -/
theorem match?_dottedParts {parts : List Str} (h : ∀ p ∈ parts, Digits p) (hrest : EndsNumber rest) :
    (Pattern.star dottedPart : Pattern γ).match? (parts.flatMap ('.' :: ·) ++ rest) =
      some ([], rest) := by
  induction parts with
  | nil => exact Pattern.match?_star_stop (match?_dottedPart_none hrest)
  | cons p ps ih =>
    obtain ⟨hp, hps⟩ := List.forall_mem_cons.mp h
    have hfirst := @match?_dottedPart γ (ps.flatMap ('.' :: ·) ++ rest) p hp (head_dottedParts hrest)
    rw [← List.append_assoc] at hfirst
    refine Pattern.match?_star_more hfirst ?_ (ih hps)
    simp only [List.length_append, List.length_cons]
    omega

/-- The text of a dotted number. -/
def dottedText (parts : List Str) : Str := Str.join ['.'] parts

theorem dottedText_cons (p : Str) (ps : List Str) :
    dottedText (p :: ps) = p ++ ps.flatMap ('.' :: ·) := by
  unfold dottedText
  induction ps generalizing p with
  | nil => simp
  | cons q qs ih => rw [Parsing.join_cons_cons, ih, List.flatMap_cons, List.append_assoc]; rfl

/-- A number of one part or more. -/
theorem match?_number {parts : List Str} (hne : parts ≠ []) (h : ∀ p ∈ parts, Digits p)
    (hrest : EndsNumber rest) :
    (Pattern.seq digits (.star dottedPart) : Pattern γ).match? (dottedText parts ++ rest) =
      some ([], rest) := by
  obtain ⟨p, ps, rfl⟩ := List.exists_cons_of_ne_nil hne
  obtain ⟨hp, hps⟩ := List.forall_mem_cons.mp h
  rw [dottedText_cons, List.append_assoc]
  exact Pattern.match?_seq (match?_digits hp (head_dottedParts hrest)) (match?_dottedParts hps hrest)

/-- A number of two parts or more. -/
theorem match?_dotted {parts : List Str} (hlen : 2 ≤ parts.length) (h : ∀ p ∈ parts, Digits p)
    (hrest : EndsNumber rest) :
    (Pattern.seq digits (.plus dottedPart) : Pattern γ).match? (dottedText parts ++ rest) =
      some ([], rest) := by
  match parts, hlen with
  | p :: q :: qs, _ =>
    obtain ⟨hp, hq, hqs⟩ : Digits p ∧ Digits q ∧ ∀ r ∈ qs, Digits r := by simpa using h
    have hfirst := @match?_digits γ ((q :: qs).flatMap ('.' :: ·) ++ rest) p hp
      (head_dottedParts hrest)
    have hsecond := @match?_dottedPart γ (qs.flatMap ('.' :: ·) ++ rest) q hq (head_dottedParts hrest)
    have hplus := Pattern.match?_seq hsecond (match?_dottedParts hqs hrest)
    rw [← List.append_assoc] at hplus
    rw [dottedText_cons, List.append_assoc]
    exact Pattern.match?_seq hfirst hplus

end Pieces

/-! ## Numbered lines -/

/-- A line with a clause number: the word, if any, with the whitespace behind it, the parts of the
number, the delimiter, the whitespace and the title. -/
structure NumberedLine where
  word : Option (Str × Str)
  parts : List Str
  delimiter : Option Char
  gap : Str
  title : Str
  word_ok : ∀ w ∈ word, ClauseWord w.1 ∧ Gap w.2
  parts_ok : ∀ p ∈ parts, Digits p ∧ p.length ≤ Str.INT_MAX_STR_DIGITS
  enough : (if word.isSome then 1 else 2) ≤ parts.length
  delimiter_ok : ∀ c ∈ delimiter, c = '.' ∨ c = ')'
  gap_ok : Gap gap
  title_ok : ∃ c rest, title = c :: rest ∧ Str.isSpace c = false

namespace NumberedLine

/-- What stands behind the number. -/
def tail (l : NumberedLine) : Str := l.delimiter.toList ++ (l.gap ++ l.title)

def line (l : NumberedLine) : Str :=
  match l.word with
  | some (word, gap) => word ++ (gap ++ (dottedText l.parts ++ l.tail))
  | none => dottedText l.parts ++ l.tail

variable (l : NumberedLine)

theorem endsNumber_tail : EndsNumber l.tail := by
  obtain ⟨c, gap, hgap⟩ := List.exists_cons_of_ne_nil l.gap_ok.1
  have hspace : Str.isSpace c = true := l.gap_ok.2 c (by simp [hgap])
  have hc := Str.isDigit_of_isSpace hspace
  unfold tail
  rw [hgap]
  cases hd : l.delimiter with
  | none =>
    refine ⟨fun d hd => ?_, fun rest heq => ?_⟩
    · obtain rfl := Option.mem_some_iff.mp hd
      exact hc
    · obtain ⟨rfl, -⟩ := List.cons.inj heq
      exact absurd hspace (by decide)
  | some d =>
    have hdelim := l.delimiter_ok d hd
    refine ⟨fun e he => ?_, fun rest heq e he => ?_⟩
    · obtain rfl := Option.mem_some_iff.mp he
      rcases hdelim with rfl | rfl <;> decide
    · obtain ⟨-, rfl⟩ := List.cons.inj heq
      obtain rfl := Option.mem_some_iff.mp he
      exact hc

/-- The optional delimiter is taken, and the title behind the whitespace found. -/
theorem match?_tail :
    (Pattern.opt Patterns.delimiter : Pattern NumberGroup).match? l.tail = some ([], l.gap ++ l.title) ∧
      ∃ rest, (Pattern.seq spaces nonSpace : Pattern NumberGroup).match? (l.gap ++ l.title) =
        some ([], rest) := by
  obtain ⟨c, rest, htitle, hc⟩ := l.title_ok
  obtain ⟨g, gap, hgap⟩ := List.exists_cons_of_ne_nil l.gap_ok.1
  have hspace : Str.isSpace g = true := l.gap_ok.2 g (by simp [hgap])
  constructor
  · unfold tail
    cases hd : l.delimiter with
    | none =>
      refine Pattern.match?_opt_none (Pattern.match?_cls_none fun d hd => ?_)
      rw [hgap] at hd
      obtain rfl := Option.mem_some_iff.mp hd
      rw [Bool.or_eq_false_iff]
      constructor <;> rw [decide_eq_false_iff_not] <;> rintro rfl <;> exact absurd hspace (by decide)
    | some d =>
      refine Pattern.match?_alt_left (Pattern.match?_cls ?_)
      rcases l.delimiter_ok d hd with rfl | rfl <;> rfl
  · have hspaces : (spaces : Pattern NumberGroup).match? (l.gap ++ l.title) = some ([], l.title) := by
      refine match?_spaces l.gap_ok fun d hd => ?_
      rw [htitle] at hd
      obtain rfl := Option.mem_some_iff.mp hd
      exact hc
    have htitle' : (nonSpace : Pattern NumberGroup).match? l.title = some ([], rest) := by
      rw [htitle]
      exact Pattern.match?_cls (by simp [hc])
    exact ⟨rest, Pattern.match?_seq hspaces htitle'⟩

/-- The number stands in front of something. -/
theorem parts_ne_nil : l.parts ≠ [] := by
  have := l.enough
  refine List.ne_nil_of_length_pos (Nat.lt_of_lt_of_le ?_ this)
  split <;> omega

theorem digits_parts : ∀ p ∈ l.parts, Digits p := fun p hp => (l.parts_ok p hp).1

theorem dottedText_head : ∃ c rest, dottedText l.parts = c :: rest ∧ Str.isDigit c = true := by
  obtain ⟨p, ps, hparts⟩ := List.exists_cons_of_ne_nil l.parts_ne_nil
  obtain ⟨hne, hdigits⟩ := l.digits_parts p (by simp [hparts])
  obtain ⟨c, rest, rfl⟩ := List.exists_cons_of_ne_nil hne
  exact ⟨c, _, by rw [hparts, dottedText_cons]; rfl, hdigits c List.mem_cons_self⟩

theorem match?_word {word gap : Str} (h : l.word = some (word, gap)) :
    ∃ rest, CLAUSE_NUMBER_PATTERN.match? l.line =
      some ([(.prefixed, dottedText l.parts)], rest) := by
  obtain ⟨hword, hgap⟩ := l.word_ok (word, gap) h
  obtain ⟨c, text, htext, hc⟩ := l.dottedText_head
  obtain ⟨htail, rest, hrest⟩ := l.match?_tail
  have hspaces : (spaces : Pattern NumberGroup).match? (gap ++ (dottedText l.parts ++ l.tail)) =
      some ([], dottedText l.parts ++ l.tail) := by
    refine match?_spaces hgap fun d hd => ?_
    rw [htext] at hd
    obtain rfl := Option.mem_some_iff.mp hd
    exact Str.isSpace_of_isDigit hc
  have hnumber := @Pattern.match?_group _ _ NumberGroup.prefixed _ _
    (match?_number l.parts_ne_nil l.digits_parts l.endsNumber_tail)
  have hline : l.line = word ++ (gap ++ (dottedText l.parts ++ l.tail)) := by rw [line, h]
  rw [hline]
  exact ⟨rest, Pattern.match?_alt_left <| Pattern.match?_seq
    (Pattern.match?_alt_left <| Pattern.match?_seq (match?_clauseWord hword) <|
      Pattern.match?_seq hspaces <| Pattern.match?_seq hnumber htail) hrest⟩

theorem match?_no_word (h : l.word = none) :
    ∃ rest, CLAUSE_NUMBER_PATTERN.match? l.line =
      some ([(.dotted, dottedText l.parts)], rest) := by
  obtain ⟨c, text, htext, hc⟩ := l.dottedText_head
  obtain ⟨htail, rest, hrest⟩ := l.match?_tail
  have henough : 2 ≤ l.parts.length := by
    have := l.enough
    rwa [h] at this
  have hline : l.line = dottedText l.parts ++ l.tail := by rw [line, h]
  have hword : (clauseWord : Pattern NumberGroup).match? (dottedText l.parts ++ l.tail) = none := by
    refine match?_clauseWord_none fun d hd => ?_
    rw [htext] at hd
    obtain rfl := Option.mem_some_iff.mp hd
    exact hc
  have hnumber := @Pattern.match?_group _ _ NumberGroup.dotted _ _
    (match?_dotted henough l.digits_parts l.endsNumber_tail)
  rw [hline]
  refine ⟨rest, Pattern.match?_alt_left (Pattern.match?_seq
    (m := ([(.dotted, dottedText l.parts)], l.gap ++ l.title)) (n := ([], rest)) ?_ hrest)⟩
  exact (Pattern.match?_alt_right (Pattern.match?_seq_none hword)).trans
    (Pattern.match?_alt_left (Pattern.match?_seq hnumber htail))

theorem clauseNumber_line : clauseNumber l.line = some (dottedText l.parts) := by
  obtain ⟨c, text, htext, -⟩ := l.dottedText_head
  unfold clauseNumber
  cases hword : l.word with
  | some w =>
    obtain ⟨rest, hmatch⟩ := l.match?_word hword
    rw [hmatch, htext]
    rfl
  | none =>
    obtain ⟨rest, hmatch⟩ := l.match?_no_word hword
    rw [hmatch, htext]
    rfl

end NumberedLine

theorem splitOn_dottedText {parts : List Str} (hne : parts ≠ []) (h : ∀ p ∈ parts, '.' ∉ p) :
    (dottedText parts).splitOn '.' = parts := List.splitOn_intercalate '.' h hne

theorem Digits.no_dot {text : Str} (h : Digits text) : '.' ∉ text :=
  fun hdot => absurd (h.2 '.' hdot) (by decide)

/-- The key of a numbered line is the list of its integers. -/
theorem clauseKey_line [Ucd] (l : NumberedLine) :
    clauseKey l.line = .ok (some (.clause (l.parts.map Str.value))) := by
  have hsplit := splitOn_dottedText l.parts_ne_nil fun p hp => (l.digits_parts p hp).no_dot
  have hints : l.parts.mapM Str.toInt = .ok (l.parts.map Str.value) := by
    rw [Lib.mapM_eq_ok_iff, List.forall₂_map_right_iff, List.forall₂_same]
    exact fun p hp => Str.toInt_eq_value (l.parts_ok p hp).2
  unfold clauseKey
  rw [l.clauseNumber_line]
  simp only [hsplit, hints]
  rfl

/-! ## References -/

/-- The case folding of an uppercase character keeps a character that is neither whitespace nor a
dot nor an ASCII digit. -/
def FoldsVisibly [Ucd] : Prop :=
  ∀ c, Ucd.isUpper c = true →
    ∃ d ∈ Ucd.casefold c, Str.isSpace d = false ∧ d ≠ '.' ∧ d.isDigit = false

/-- A character that is not whitespace is in one of the words. -/
theorem mem_words {text : Str} {d : Char} (hd : d ∈ text) (hspace : Str.isSpace d = false) :
    ∃ word ∈ Str.words text, d ∈ word := by
  have hpiece : ∃ piece ∈ text.splitOnP Str.isSpace, d ∈ piece := by
    induction text with
    | nil => cases hd
    | cons c text ih =>
      rw [List.splitOnP_cons_eq_if_modifyHead]
      obtain ⟨first, rest, hsplit⟩ :=
        List.exists_cons_of_ne_nil (List.splitOnP_ne_nil Str.isSpace text)
      rw [hsplit] at ih ⊢
      rcases List.mem_cons.mp hd with rfl | hd
      · rw [if_neg (by simp [hspace])]
        exact ⟨d :: first, List.mem_cons_self, List.mem_cons_self⟩
      · obtain ⟨piece, hmem, hd⟩ := ih hd
        split
        · exact ⟨piece, List.mem_cons_of_mem _ hmem, hd⟩
        · rcases List.mem_cons.mp hmem with rfl | hmem
          · exact ⟨c :: piece, List.mem_cons_self, List.mem_cons_of_mem _ hd⟩
          · exact ⟨piece, List.mem_cons_of_mem _ hmem, hd⟩
  obtain ⟨piece, hpiece, hd⟩ := hpiece
  refine ⟨piece, List.mem_filter.mpr ⟨hpiece, ?_⟩, hd⟩
  exact decide_eq_true (List.ne_nil_of_mem hd)

theorem mem_join {sep : Str} {parts : List Str} {d : Char} (h : ∃ part ∈ parts, d ∈ part) :
    d ∈ Str.join sep parts := by
  obtain ⟨part, hpart, hd⟩ := h
  induction parts with
  | nil => cases hpart
  | cons p ps ih =>
    cases ps with
    | nil =>
      obtain rfl := List.mem_singleton.mp hpart
      rwa [Parsing.join_singleton]
    | cons q qs =>
      rw [Parsing.join_cons_cons, List.append_assoc]
      rcases List.mem_cons.mp hpart with rfl | hpart
      · exact List.mem_append_left _ hd
      · exact List.mem_append_right _ (List.mem_append_right _ (ih hpart))

theorem of_mem_join {sep : Str} {parts : List Str} {d : Char} (h : d ∈ Str.join sep parts) :
    d ∈ sep ∨ ∃ part ∈ parts, d ∈ part := by
  obtain ⟨piece, hpiece, hd⟩ := List.mem_flatten.mp h
  induction parts with
  | nil => cases hpiece
  | cons p ps ih =>
    rw [Parsing.intersperse_cons] at hpiece
    rcases List.mem_cons.mp hpiece with rfl | hpiece
    · exact .inr ⟨piece, List.mem_cons_self, hd⟩
    · obtain ⟨q, hq, hpiece⟩ := List.mem_flatMap.mp hpiece
      rcases List.mem_cons.mp hpiece with rfl | hpiece
      · exact .inl hd
      · obtain rfl := List.mem_singleton.mp hpiece
        exact .inr ⟨piece, List.mem_cons_of_mem _ hq, hd⟩

/-- The characters of a number's reference. -/
theorem of_mem_clauseRef {number : List Nat} {d : Char}
    (h : d ∈ Str.join ['.'] (number.map Str.ofNat)) : d = '.' ∨ d.isDigit = true := by
  rcases of_mem_join h with h | ⟨part, hpart, hd⟩
  · exact .inl (List.mem_singleton.mp h)
  · obtain ⟨n, -, rfl⟩ := List.mem_map.mp hpart
    exact .inr (Nat.isDigit_of_mem_toDigits (by omega) (by omega) hd)

theorem ofNat_injective : Function.Injective Str.ofNat := by
  intro n m h
  have := congrArg (Nat.ofDigitChars 10 · 0) h
  simpa only [Str.ofNat, Nat.ofDigitChars_ten_toDigits] using this

/-- A number is read back from its reference. -/
theorem clauseRef_number_injective {number number' : List Nat} (hne : number ≠ [])
    (hne' : number' ≠ [])
    (h : Str.join ['.'] (number.map Str.ofNat) = Str.join ['.'] (number'.map Str.ofNat)) :
    number = number' := by
  have hsplit : ∀ l : List Nat, l ≠ [] →
      (Str.join ['.'] (l.map Str.ofNat)).splitOn '.' = l.map Str.ofNat := by
    intro l hl
    refine splitOn_dottedText (by simpa using hl) fun part hpart hdot => ?_
    obtain ⟨n, -, rfl⟩ := List.mem_map.mp hpart
    exact absurd (Nat.isDigit_of_mem_toDigits (by omega) (by omega) hdot) (by decide)
  have := congrArg (List.splitOn '.') h
  rw [hsplit _ hne, hsplit _ hne'] at this
  exact List.map_injective_iff.mpr ofNat_injective this

section Refs

variable [Ucd]

/-- A clause key has a component. -/
theorem clause_ne_nil {line : Str} {number : List Nat}
    (h : clauseKey line = .ok (some (.clause number))) : number ≠ [] := by
  unfold clauseKey at h
  cases hraw : clauseNumber line with
  | none =>
    rw [hraw] at h
    cases hheading : headingText line <;> rw [hheading] at h <;> cases h
  | some raw =>
    rw [hraw] at h
    simp only at h
    cases hints : (raw.splitOn '.').mapM Str.toInt with
    | error e =>
      rw [hints] at h
      cases h
    | ok ints =>
      rw [hints] at h
      obtain rfl : ints = number := by
        cases h
        rfl
      rintro rfl
      have := (Lib.mapM_eq_ok_iff.mp hints).length_eq
      exact List.splitOn_ne_nil '.' raw (List.length_eq_zero_iff.mp this)

/-- The text of a heading key holds a character that no dotted number has. -/
theorem heading_visible (hfold : FoldsVisibly) {line text : Str}
    (h : clauseKey line = .ok (some (.heading text))) : ∃ d ∈ text, d ≠ '.' ∧ d.isDigit = false := by
  have hheading : headingText line = some text := by
    unfold clauseKey at h
    cases hraw : clauseNumber line with
    | none =>
      rw [hraw] at h
      cases hheading : headingText line with
      | none =>
        rw [hheading] at h
        cases h
      | some text' =>
        rw [hheading] at h
        cases h
        rfl
    | some raw =>
      rw [hraw] at h
      simp only at h
      cases hints : (raw.splitOn '.').mapM Str.toInt <;> rw [hints] at h <;> cases h
  unfold headingText at hheading
  simp only at hheading
  split at hheading
  case isTrue hcaps =>
    obtain rfl := Option.some.inj hheading
    have hupper := hcaps.2.2.1
    rw [Str.isUpper, Bool.and_eq_true, List.any_eq_true] at hupper
    obtain ⟨⟨c, hc, hupper⟩, -⟩ := hupper
    obtain ⟨d, hd, hspace, hdot, hdigit⟩ := hfold c hupper
    have hfolded : d ∈ Str.casefold (Str.strip line) := List.mem_flatMap.mpr ⟨c, hc, hd⟩
    exact ⟨d, mem_join (mem_words hfolded hspace), hdot, hdigit⟩
  case isFalse => cases hheading

/-- Two keys the lines of a version can have share no reference. -/
theorem clauseRef_injective (hfold : FoldsVisibly) {line line' : Str} {k k' : Option SectionKey}
    (h : clauseKey line = .ok k) (h' : clauseKey line' = .ok k') (href : clauseRef k = clauseRef k') :
    k = k' := by
  have apart : ∀ {line : Str} {number : List Nat} {text : Str},
      clauseKey line = .ok (some (.heading text)) →
        Str.join ['.'] (number.map Str.ofNat) ≠ text := by
    rintro line number _ h rfl
    obtain ⟨d, hd, hdot, hdigit⟩ := heading_visible hfold h
    rcases of_mem_clauseRef hd with rfl | hd
    · exact hdot rfl
    · rw [hdigit] at hd
      cases hd
  match k, k' with
  | none, none => rfl
  | none, some (.clause _) => cases href
  | none, some (.heading _) => cases href
  | some (.clause _), none => cases href
  | some (.heading _), none => cases href
  | some (.clause number), some (.clause number') =>
    rw [clauseRef_number_injective (clause_ne_nil h) (clause_ne_nil h') (Option.some.inj href)]
  | some (.clause _), some (.heading _) => exact absurd (Option.some.inj href) (apart h')
  | some (.heading _), some (.clause _) => exact absurd (Option.some.inj href).symm (apart h)
  | some (.heading _), some (.heading _) => rw [Option.some.inj href]

end Refs

/-- The key of a numbered line is its list of integers, so two numbered lines share a key, and
align, exactly when their numbers agree component by component; and no two keys share a
reference. -/
theorem clauseKey_normalizes [Ucd] (hfold : FoldsVisibly) :
    (∀ l : NumberedLine, clauseKey l.line = .ok (some (.clause (l.parts.map Str.value)))) ∧
    (∀ l l' : NumberedLine, clauseKey l.line = clauseKey l'.line ↔
      List.Forall₂ (fun p q => Str.value p = Str.value q) l.parts l'.parts) ∧
    ∀ line line' k k', clauseKey line = .ok k → clauseKey line' = .ok k' →
      clauseRef k = clauseRef k' → k = k' := by
  refine ⟨clauseKey_line, fun l l' => ?_, fun _ _ _ _ => clauseRef_injective hfold⟩
  rw [clauseKey_line, clauseKey_line]
  simp only [Except.ok.injEq, Option.some.injEq, SectionKey.clause.injEq]
  rw [← List.forall₂_eq_eq_eq, List.forall₂_map_left_iff, List.forall₂_map_right_iff]

theorem ascii_foldsVisibly : @FoldsVisibly Ucd.ascii := by
  have letters : ∀ n < 91, (Char.ofNat n).isUpper = true →
      Str.isSpace (Char.ofNat n).toLower = false ∧ (Char.ofNat n).toLower ≠ '.' ∧
        (Char.ofNat n).toLower.isDigit = false := by
    decide
  intro c hc
  have hc : c.isUpper = true := hc
  have hrange : c.val ≥ 65 ∧ c.val ≤ 90 := of_decide_eq_true hc
  have hlt : c.toNat < 91 := Nat.lt_succ_of_le hrange.2
  have := letters c.toNat hlt
  rw [Char.ofNat_toNat] at this
  exact ⟨c.toLower, List.mem_singleton.mpr rfl, this hc⟩

/-- With the case data of ASCII. -/
theorem clauseKey_normalizes_ascii :
    letI := Ucd.ascii
    (∀ l : NumberedLine, clauseKey l.line = .ok (some (.clause (l.parts.map Str.value)))) ∧
    (∀ l l' : NumberedLine, clauseKey l.line = clauseKey l'.line ↔
      List.Forall₂ (fun p q => Str.value p = Str.value q) l.parts l'.parts) ∧
    ∀ line line' k k', clauseKey line = .ok k → clauseKey line' = .ok k' →
      clauseRef k = clauseRef k' → k = k' :=
  @clauseKey_normalizes Ucd.ascii ascii_foldsVisibly

end Diffing

end ContractIntel
