import ContractIntel.Laws.Text.Chunking
import ContractIntel.Laws.Text.ClauseKeys
import ContractIntel.Laws.Text.Diffing
import ContractIntel.Laws.Text.Sections

/-!
# Sections inside clause spans

The parser's heading pattern and the diff's clause-number pattern are two regular expressions. What
the first accepts the second accepts too (`heading_accepted`), so every heading the PDF parser marks
has a clause key. Both modules group the same blocks, the chunker at the headings and the diff at
the keyed ones, so the diff's sections lie inside the chunker's clause spans
(`parsePdf_sections_nest`).
-/

namespace ContractIntel

namespace Diffing

open Chunking (clauseSpans_eq_hulls isHeading)
open Lib (Pattern hulls)
open Parsing (Entry HEADING_PATTERN ParsedBlock ParsedDocument build layout parsePdf pdfEntry separator)
open Patterns

/-! ## The two patterns -/

/-- What the heading pattern accepts the clause-number pattern accepts, by the same alternative. -/
theorem heading_accepted {input rest : Str} (h : HEADING_PATTERN.Accepts input rest) :
    CLAUSE_NUMBER_PATTERN.Accepts input rest := by
  rw [← @Pattern.accepts_erase _ Empty]
  obtain ⟨middle, hnumber, htitle⟩ := Pattern.accepts_seq.mp h
  refine Pattern.accepts_alt.mpr (.inl (Pattern.accepts_seq.mpr ⟨middle, ?_, htitle⟩))
  refine Pattern.accepts_alt.mpr ?_
  rcases Pattern.accepts_alt.mp hnumber with hnumber | hnumber
  · refine .inl ?_
    obtain ⟨a, hword, hnumber⟩ := Pattern.accepts_seq.mp hnumber
    obtain ⟨b, hspaces, hnumber⟩ := Pattern.accepts_seq.mp hnumber
    obtain ⟨c, hdigits, hnumber⟩ := Pattern.accepts_seq.mp hnumber
    obtain ⟨d, hparts, hdelimiter⟩ := Pattern.accepts_seq.mp hnumber
    exact Pattern.accepts_seq.mpr ⟨a, hword, Pattern.accepts_seq.mpr ⟨b, hspaces,
      Pattern.accepts_seq.mpr ⟨d, Pattern.accepts_seq.mpr ⟨c, hdigits, hparts⟩, hdelimiter⟩⟩⟩
  · refine .inr (Pattern.accepts_alt.mpr ?_)
    rcases Pattern.accepts_alt.mp hnumber with hnumber | hnumber
    · refine .inl ?_
      obtain ⟨c, hdigits, hnumber⟩ := Pattern.accepts_seq.mp hnumber
      obtain ⟨d, hparts, hdelimiter⟩ := Pattern.accepts_seq.mp hnumber
      exact Pattern.accepts_seq.mpr
        ⟨d, Pattern.accepts_seq.mpr ⟨c, hdigits, hparts⟩, hdelimiter⟩
    · refine .inr ?_
      obtain ⟨c, hdigits, hdot⟩ := Pattern.accepts_seq.mp hnumber
      obtain ⟨ch, rfl, hch⟩ := Pattern.accepts_cls.mp hdot
      refine Pattern.accepts_seq.mpr ⟨ch :: middle, hdigits, Pattern.accepts_cls.mpr ⟨ch, rfl, ?_⟩⟩
      rw [hch, Bool.true_or]

/-- Digits consume something. -/
theorem digits_lt {γ : Type} {input rest : Str} (h : (digits : Pattern γ).Accepts input rest) :
    rest.length < input.length := by
  obtain ⟨middle, hfirst, hmore⟩ := Pattern.accepts_seq.mp h
  obtain ⟨c, rfl, -⟩ := Pattern.accepts_cls.mp hfirst
  exact Nat.lt_succ_of_le hmore.length_le

theorem digits_seq_lt {γ : Type} {p : Pattern γ} {input rest : Str}
    (h : (Pattern.seq digits p).Accepts input rest) : rest.length < input.length := by
  obtain ⟨middle, hdigits, hmore⟩ := Pattern.accepts_seq.mp h
  exact Nat.lt_of_le_of_lt hmore.length_le (digits_lt hdigits)

theorem clauseWord_plain {γ : Type} : (clauseWord : Pattern γ).Plain := by
  have hword : ∀ letters : String, (literal letters : Pattern γ).Plain := by
    intro letters
    unfold literal
    generalize letters.toList.map ignoreCase = fs
    induction fs with
    | nil => trivial
    | cons f fs ih => exact ⟨trivial, ih⟩
  exact ⟨hword _, hword _, hword _⟩

/-- A match of the clause-number pattern captures one number. -/
theorem clauseNumber_one : CLAUSE_NUMBER_PATTERN.One := by
  have hspaces : (spaces : Pattern NumberGroup).Plain := ⟨trivial, trivial⟩
  have hdelimiter : (Pattern.opt delimiter : Pattern NumberGroup).Plain := ⟨trivial, trivial⟩
  have hdigits : (digits : Pattern NumberGroup).Plain := ⟨trivial, trivial⟩
  have hpart : (dottedPart : Pattern NumberGroup).Plain := ⟨trivial, hdigits⟩
  refine .alt (.seq_plain (.alt ?_ (.alt ?_ ?_)) ⟨hspaces, trivial⟩) (.seq_plain ?_ ⟨hspaces, trivial⟩)
  · refine .plain_seq clauseWord_plain (.plain_seq hspaces (.seq_plain ?_ hdelimiter))
    exact .group _ ⟨hdigits, hpart⟩ fun _ _ => digits_seq_lt
  · exact .seq_plain (.group _ ⟨hdigits, hpart, hpart⟩ fun _ _ => digits_seq_lt) hdelimiter
  · exact .seq_plain (.group _ hdigits fun _ _ => digits_lt) trivial
  · exact .group _ hdigits fun _ _ => digits_lt

/-- A line the clause-number pattern matches has a number. -/
theorem clauseNumber_isSome {line : Str} (h : (CLAUSE_NUMBER_PATTERN.match? line).isSome) :
    ∃ raw, clauseNumber line = some raw := by
  obtain ⟨m, hm⟩ := Option.isSome_iff_exists.mp h
  obtain ⟨name, text, hcaps, hne⟩ := clauseNumber_one line m (List.mem_of_mem_head? hm)
  obtain ⟨c, rest, rfl⟩ := List.exists_cons_of_ne_nil hne
  refine ⟨c :: rest, ?_⟩
  unfold clauseNumber
  rw [hm, Option.bind_some]
  unfold Pattern.Match.group?
  rw [hcaps]
  cases name <;> rfl

/-- A heading line has a clause key, unless its number is too long for `int`. -/
theorem clauseKey_of_heading [Ucd] {line : Str} (h : (HEADING_PATTERN.match? line).isSome)
    (hfit : ∀ raw ∈ clauseNumber line, ∀ part ∈ raw.splitOn '.',
      part.length ≤ Str.INT_MAX_STR_DIGITS) :
    ∃ number, clauseKey line = .ok (some (.clause number)) := by
  obtain ⟨rest, hrest⟩ := Pattern.match?_isSome_iff.mp h
  obtain ⟨raw, hraw⟩ :=
    clauseNumber_isSome (Pattern.match?_isSome_iff.mpr ⟨rest, heading_accepted hrest⟩)
  obtain ⟨number, hnumber⟩ := Lib.exists_mapM_eq_ok fun part hpart => toInt_isOk (hfit raw hraw part hpart)
  refine ⟨number, ?_⟩
  unfold clauseKey
  rw [hraw]
  simp only [hnumber]
  rfl

/-! ## Two groupings of the same blocks -/

theorem lay_eq_layout (pos : Nat) (entries : List Parsing.Entry) :
    lay pos (entries.map Parsing.Entry.text) =
      (layout pos entries).map fun b => ⟨b.start, b.stop, b.text⟩ := by
  induction entries generalizing pos with
  | nil => rfl
  | cons e es ih => rw [List.map_cons, lay, layout, List.map_cons, ih]

/-- The paragraphs of a document whose blocks are read back are its blocks. -/
theorem paragraphs_build {entries : List Parsing.Entry} (hblocks : ∀ e ∈ entries, Block e.text) :
    paragraphs (build entries).text =
      (build entries).blocks.map fun b => ⟨b.start, b.stop, b.text⟩ := by
  rw [Parsing.build_text, paragraphs_join, lay_eq_layout, ← Parsing.build_blocks]
  intro b hb
  obtain ⟨e, he, rfl⟩ := List.mem_map.mp hb
  exact hblocks e he

section Blocks

variable [Ucd] {entries : List Parsing.Entry}

/-- The paragraph of a block, with the key of its first line. -/
def blockEntry (b : ParsedBlock) : Entry :=
  (⟨b.start, b.stop, b.text⟩, (clauseKey (Str.firstLine b.text)).toOption.join)

/-- The sections of a document whose blocks are read back are the groups of its blocks that the
keyed ones open. -/
theorem sections_build (hblocks : ∀ e ∈ entries, Block e.text) {l : List Section}
    (h : sections (build entries).text = .ok l) :
    l = sectionsOf ((build entries).blocks.map blockEntry) := by
  obtain ⟨es, hps, hkeys, rfl⟩ := sections_eq_ok_iff.mp h
  rw [paragraphs_build hblocks] at hps
  congr 1
  calc es = es.map fun e => (e.1, (clauseKey (Str.firstLine e.1.text)).toOption.join) := by
        refine (List.map_id es).symm.trans (List.map_congr_left fun e he => ?_)
        rw [hkeys e he]
        rfl
    _ = (es.map Prod.fst).map fun p => (p, (clauseKey (Str.firstLine p.text)).toOption.join) := by
        rw [List.map_map]
        rfl
    _ = (build entries).blocks.map blockEntry := by
        rw [hps, List.map_map]
        rfl

/-- When every heading has a key, every section lies in exactly one clause span. -/
theorem sections_nest (hblocks : ∀ e ∈ entries, Block e.text)
    (hheadings : ∀ b ∈ (build entries).blocks, b.kind = .heading →
      ∃ key, clauseKey (Str.firstLine b.text) = .ok (some key)) {l : List Section}
    (h : sections (build entries).text = .ok l) :
    ∀ s ∈ l, ∃! span, span ∈ Chunking.clauseSpans (build entries).blocks ∧
      span.1 ≤ s.charStart ∧ s.charEnd ≤ span.2 := by
  have hne : ∀ e ∈ entries, e.text ≠ [] := by
    intro e he hnil
    exact (hblocks e he).visible (by rw [hnil]; rfl)
  have hsep := (Chunking.build_laid hne).ordered.toSeparate
  obtain rfl := sections_build hblocks h
  intro s hs
  have hhull : (s.charStart, s.charEnd) ∈ hulls ParsedBlock.start ParsedBlock.stop
      (opensSection ∘ blockEntry) (build entries).blocks := by
    have := List.mem_map_of_mem (f := fun s : Section => (s.charStart, s.charEnd)) hs
    rw [sectionsOf_hulls, Lib.hulls_map] at this
    exact this
  have hlt := (hsep.hulls_bounds _ hhull).1
  have hfine : ∀ b ∈ (build entries).blocks, isHeading b = true →
      (opensSection ∘ blockEntry) b = true := by
    intro b hb hheading
    obtain ⟨key, hkey⟩ := hheadings b hb (of_decide_eq_true hheading)
    simp only [Function.comp_apply, opensSection, blockEntry, hkey]
    rfl
  obtain ⟨span, hspan, hin⟩ := hsep.hulls_refine hfine _ hhull
  have hapart := hsep.hulls_pairwise isHeading
  rw [← clauseSpans_eq_hulls] at hspan hapart
  refine ⟨span, ⟨hspan, hin⟩, ?_⟩
  rintro other ⟨hother, hinother⟩
  exact Lib.eq_of_within hapart hother hspan hlt hinother hin

end Blocks

/-! ## PDF documents -/

/-- The entries of a PDF's lines: stripped lines, each marked by the heading pattern. -/
theorem pdfEntry_of_mem {pages : List (Option Str)} {e : Parsing.Entry}
    (h : e ∈ (pages.zipIdx 1).flatMap fun entry =>
      (Str.splitlines (entry.1.getD [])).filterMap (pdfEntry entry.2)) :
    Block e.text ∧ '\n' ∉ e.text ∧ (e.kind = .heading → (HEADING_PATTERN.match? e.text).isSome) := by
  obtain ⟨⟨page, i⟩, -, he⟩ := List.mem_flatMap.mp h
  obtain ⟨line, hline, he⟩ := List.mem_filterMap.mp he
  have hnewline : '\n' ∉ Str.strip line := fun hc =>
    Str.splitlines_no_newline hline (Str.mem_of_mem_strip hc)
  unfold pdfEntry at he
  simp only at he
  split at he
  · cases he
  case isFalse hne =>
    cases he
    refine ⟨⟨Str.strip_strip_ne_nil hne, ?_, ?_⟩, hnewline, fun hkind => ?_⟩
    · exact fun hin => hnewline (hin.subset (by simp))
    · exact fun hlast => hnewline (List.mem_of_getLast? hlast)
    · by_contra hnone
      simp only [hnone] at hkind
      cases hkind

/-- `parse_pdf` and the diff agree on clauses: every heading block has a clause key, and every
section of the text lies in exactly one clause span of the blocks. -/
theorem parsePdf_sections_nest [Ucd] (pages : List (Option Str))
    (hfit : ClauseNumbersFit (parsePdf pages).text) :
    (∀ b ∈ (parsePdf pages).blocks, b.kind = .heading →
      ∃ number, clauseKey b.text = .ok (some (.clause number))) ∧
    ∃ l, sections (parsePdf pages).text = .ok l ∧
      ∀ s ∈ l, ∃! span, span ∈ Chunking.clauseSpans (parsePdf pages).blocks ∧
        span.1 ≤ s.charStart ∧ s.charEnd ≤ span.2 := by
  unfold parsePdf at hfit ⊢
  generalize hentries : ((pages.zipIdx 1).flatMap fun entry =>
    (Str.splitlines (entry.1.getD [])).filterMap (pdfEntry entry.2)) = entries at hfit ⊢
  have hentry : ∀ e ∈ entries, Block e.text ∧ '\n' ∉ e.text ∧
      (e.kind = .heading → (HEADING_PATTERN.match? e.text).isSome) := by
    intro e he
    rw [← hentries] at he
    exact pdfEntry_of_mem he
  have hblocks := fun e he => (hentry e he).1
  have hkeys : ∀ b ∈ (build entries).blocks, b.kind = .heading →
      Str.firstLine b.text = b.text ∧ ∃ number, clauseKey b.text = .ok (some (.clause number)) := by
    intro b hb hkind
    obtain ⟨-, hnewline, hmatch⟩ := hentry _ (Parsing.mem_layout (Parsing.build_blocks entries ▸ hb))
    have hline : Str.firstLine b.text = b.text := Str.firstLine_eq_self hnewline
    have hp : (⟨b.start, b.stop, b.text⟩ : Paragraph) ∈ paragraphs (build entries).text := by
      rw [paragraphs_build hblocks]
      exact List.mem_map_of_mem hb
    have hfits := hfit _ hp
    rw [hline] at hfits
    exact ⟨hline, clauseKey_of_heading (hmatch hkind) hfits⟩
  obtain ⟨l, hl⟩ := sections_isOk hfit
  refine ⟨fun b hb hkind => (hkeys b hb hkind).2, l, hl, sections_nest hblocks ?_ hl⟩
  intro b hb hkind
  obtain ⟨hline, number, hkey⟩ := hkeys b hb hkind
  exact ⟨_, hline.symm ▸ hkey⟩

/-- A page with a preamble, two clauses and a body. -/
theorem parsePdf_sections_nest_page :
    let pages : List (Option Str) := [some "Between us\n1. Term\nOne year.\nSection 2.1 Notice".toList]
    letI := Ucd.ascii
    (∀ b ∈ (parsePdf pages).blocks, b.kind = .heading →
      ∃ number, clauseKey b.text = .ok (some (.clause number))) ∧
    ∃ l, sections (parsePdf pages).text = .ok l ∧
      ∀ s ∈ l, ∃! span, span ∈ Chunking.clauseSpans (parsePdf pages).blocks ∧
        span.1 ≤ s.charStart ∧ s.charEnd ≤ span.2 := by
  let := Ucd.ascii
  exact parsePdf_sections_nest _ (by decide +kernel)

end Diffing

end ContractIntel
