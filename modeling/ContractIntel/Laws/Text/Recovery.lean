import ContractIntel.Laws.Text.Nesting
import ContractIntel.Laws.Services.Documents

/-!
# The diff recovers the parser's blocks

The text parser cuts at the regular expression `\n\s*\n` and strips the parts, the diff cuts the
joined text at two newlines. The two agree: inside a part the pattern matches nowhere, so no part
holds two newlines, and a stripped part does not end with one (`strip_block`). The blocks of whatever
an upload sniffs as plain text are read back, and so are those of a PDF
(`parsed_blocks_recovered`).
-/

namespace ContractIntel.Diffing

open Lib (Pattern)
open Parsing

/-- `\n\s*\n` consumes something. -/
theorem blankLine_lt {input rest : Str} (h : BLANK_LINE_PATTERN.Accepts input rest) :
    rest.length < input.length := by
  obtain ⟨middle, hnewline, hmore⟩ := Pattern.accepts_seq.mp h
  obtain ⟨c, rfl, -⟩ := Pattern.accepts_cls.mp hnewline
  exact Nat.lt_succ_of_le hmore.length_le

/-- Two newlines in a row are a match, with no whitespace between them. -/
theorem blankLine_match (rest : Str) :
    (BLANK_LINE_PATTERN.match? ('\n' :: '\n' :: rest)).isSome := by
  refine Pattern.match?_isSome_iff.mpr ⟨rest, Pattern.accepts_seq.mpr ⟨'\n' :: rest, ?_, ?_⟩⟩
  · exact Pattern.accepts_cls.mpr ⟨'\n', rfl, by decide⟩
  · exact Pattern.accepts_seq.mpr
      ⟨_, Pattern.accepts_star_nil, Pattern.accepts_cls.mpr ⟨'\n', rfl, by decide⟩⟩

/-- A part of the split holds no two newlines in a row. -/
theorem blankLine_split_whole {text part : Str} (h : part ∈ BLANK_LINE_PATTERN.split text) :
    ¬ ['\n', '\n'] <:+: part := by
  rintro ⟨before, after, rfl⟩
  obtain ⟨rest, hnone⟩ := Pattern.split_unmatched (fun _ _ => blankLine_lt) h
  have hmatch := blankLine_match (after ++ rest)
  rw [List.append_assoc] at hnone
  have := hnone (['\n', '\n'] ++ after) (by simp) (List.suffix_append _ _)
  rw [List.append_assoc] at this
  rw [show '\n' :: '\n' :: (after ++ rest) = ['\n', '\n'] ++ (after ++ rest) from rfl, this] at hmatch
  cases hmatch

/-- A part that is not blank is stripped to a block. -/
theorem strip_block {part : Str} (hne : Str.strip part ≠ []) (hwhole : ¬ ['\n', '\n'] <:+: part) :
    Block (Str.strip part) where
  visible := Str.strip_strip_ne_nil hne
  whole h := hwhole (h.trans (Str.strip_isInfix part))
  closed hlast := by
    have hspace := Str.isSpace_of_strip_getLast? hlast
    cases hspace

/-- The paragraphs of a plain text are the parser's blocks. -/
theorem parseText_recovered (text : Str) :
    paragraphs (parseText text).text =
      (parseText text).blocks.map fun b => ⟨b.start, b.stop, b.text⟩ := by
  refine paragraphs_build fun e he => ?_
  obtain ⟨part, hpart, he⟩ := List.mem_filterMap.mp he
  split at he
  · cases he
  case isFalse hne =>
    cases he
    exact strip_block hne (blankLine_split_whole hpart)

/-- And so are those of a PDF. -/
theorem parsePdf_recovered (pages : List (Option Str)) :
    paragraphs (parsePdf pages).text =
      (parsePdf pages).blocks.map fun b => ⟨b.start, b.stop, b.text⟩ :=
  paragraphs_build fun _ he => (pdfEntry_of_mem he).1

/-- What is sniffed as plain text is UTF-8. -/
theorem decodeUtf8_of_sniffMime [Platform] {content : Bytes}
    (h : Documents.sniffMime content = .ok (some TEXT_MIME)) :
    ∃ text, decodeUtf8 content = some text := by
  unfold Documents.sniffMime at h
  split at h
  · cases h
  split at h
  · exact absurd (Option.some.inj (Except.ok.inj h)) (by decide)
  split at h
  · unfold Documents.sniffZip at h
    split at h
    · cases h
    · cases h
    · split at h
      · exact absurd (Option.some.inj (Except.ok.inj h)) (by decide)
      · cases h
  split at h
  · cases h
  split at h
  · cases h
  case isFalse hsome =>
    exact Option.ne_none_iff_exists'.mp fun hnone => hsome (by rw [hnone, Option.isNone_none])

/-- The diff recovers the parser's blocks: what is sniffed as plain text is parsed, and the
paragraphs of the canonical text are the blocks it was joined from, offsets included; the same
holds for the document of any PDF. -/
theorem parsed_blocks_recovered [Platform] :
    (∀ content, Documents.sniffMime content = .ok (some TEXT_MIME) →
      ∃ text, decodeUtf8 content = some text ∧ parse TEXT_MIME content = .ok (parseText text) ∧
        paragraphs (parseText text).text =
          (parseText text).blocks.map fun b => ⟨b.start, b.stop, b.text⟩) ∧
    ∀ pages, paragraphs (parsePdf pages).text =
      (parsePdf pages).blocks.map fun b => ⟨b.start, b.stop, b.text⟩ := by
  refine ⟨fun content h => ?_, parsePdf_recovered⟩
  obtain ⟨text, htext⟩ := decodeUtf8_of_sniffMime h
  refine ⟨text, htext, ?_, parseText_recovered text⟩
  rw [parse, if_neg (by decide), if_neg (by decide), if_pos rfl, htext]

/-- Carriage returns, a blank line with a space, a run of newlines, a leading and a trailing one. -/
def mixedBreaks : Bytes := [10, 97, 13, 10, 13, 10, 98, 10, 32, 10, 99, 10, 10, 10, 10, 100, 10]

example : (parseText (mixedBreaks.map fun b => Char.ofNat b.toNat)).blocks.map ParsedBlock.text =
    ["a".toList, "b".toList, "c".toList, "d".toList] := by decide +kernel

theorem parsed_blocks_recovered_mixed :
    letI := Documents.onePdf
    Documents.sniffMime mixedBreaks = .ok (some TEXT_MIME) ∧
      ∃ text, decodeUtf8 mixedBreaks = some text ∧
        paragraphs (parseText text).text =
          (parseText text).blocks.map fun b => ⟨b.start, b.stop, b.text⟩ := by
  let := Documents.onePdf
  have hsniff : Documents.sniffMime mixedBreaks = .ok (some TEXT_MIME) := rfl
  obtain ⟨text, htext, -, h⟩ := parsed_blocks_recovered.1 mixedBreaks hsniff
  exact ⟨hsniff, text, htext, h⟩

end ContractIntel.Diffing
