import ContractIntel.Laws.Text.Duality
import ContractIntel.Services.ChangeReport

/-!
# What a report shows of the versions

Every change of a diff carries the spans its kind demands, each the span of a section, so what a
report quotes of a change is never empty; only a change of the preamble has no clause reference;
and a section the diff does not report reads the same in the other version.
-/

namespace ContractIntel.Diffing

open Impact (EXCERPT_LIMIT excerpt)
open ChangeReport (impactQuery)
open Lib (paired unpaired)

/-! ## Excerpts -/

/-- A non-empty quote from the start of a span inside the text. -/
def Quotes (text : Str) (span : Span) (quote : Str) : Prop :=
  ∃ stop, span.charStart < stop ∧ stop ≤ span.charEnd ∧ span.charEnd ≤ text.length ∧
    quote = Str.slice text span.charStart stop ∧ quote ≠ []

theorem excerpt_quotes {text : Str} {span : Span} (hlt : span.charStart < span.charEnd)
    (hlen : span.charEnd ≤ text.length) : Quotes text span (excerpt text span) := by
  have hslice : excerpt text span =
      Str.slice text span.charStart (min span.charEnd (span.charStart + EXCERPT_LIMIT)) := by
    unfold excerpt Str.slice
    rw [List.take_drop, List.take_take, Nat.min_comm]
  have hstop : span.charStart < min span.charEnd (span.charStart + EXCERPT_LIMIT) := by
    unfold EXCERPT_LIMIT
    omega
  refine ⟨_, hstop, Nat.min_le_left _ _, hlen, hslice, ?_⟩
  rw [hslice]
  apply List.ne_nil_of_length_pos
  simp only [Str.slice, List.length_drop, List.length_take]
  omega

/-! ## Changes -/

/-- The spans a change of the kind carries. -/
def ChangeKind.Carries : ChangeKind → Option Span → Option Span → Prop
  | .added, base, amended => base = none ∧ amended.isSome
  | .removed, base, amended => base.isSome ∧ amended = none
  | .modified, base, amended => base.isSome ∧ amended.isSome

/-- What a change shows of the two versions it is about. -/
structure Shows (baseText amendedText : Str) (base amended : List Section) (c : Change) : Prop where
  spans : c.kind.Carries c.baseSpan c.amendedSpan
  ofBase : ∀ span ∈ c.baseSpan, ∃ s ∈ base, span = s.span ∧ c.clauseRef = s.clauseRef
  ofAmended : ∀ span ∈ c.amendedSpan, ∃ t ∈ amended, span = t.span ∧ c.clauseRef = t.clauseRef
  baseExcerpt : ∀ span ∈ c.baseSpan, Quotes baseText span (excerpt baseText span)
  amendedExcerpt : ∀ span ∈ c.amendedSpan, Quotes amendedText span (excerpt amendedText span)
  /-- The impact query quotes the amendment, or the base where the amendment has no wording. -/
  query : ∃ quote, impactQuery c baseText amendedText = some quote ∧
    ((∃ span ∈ c.amendedSpan, Quotes amendedText span quote) ∨
      c.amendedSpan = none ∧ ∃ span ∈ c.baseSpan, Quotes baseText span quote)
  /-- Without a clause reference the change is about the first section, and that has no key. -/
  preamble : c.clauseRef = none →
    (∀ span ∈ c.baseSpan, ∃ s ∈ base.head?, s.key = none ∧ span = s.span) ∧
      ∀ span ∈ c.amendedSpan, ∃ t ∈ amended.head?, t.key = none ∧ span = t.span

theorem clauseRef_eq_none_iff {key : Option SectionKey} : clauseRef key = none ↔ key = none := by
  cases key with
  | none => exact ⟨fun _ => rfl, fun _ => rfl⟩
  | some key => cases key <;> simp [clauseRef]

/-- Only the first section of a cover has no reference. -/
theorem Cover.head_of_clauseRef {text : Str} {l : List Section} (h : Cover text l) {s : Section}
    (hs : s ∈ l) (href : s.clauseRef = none) : s ∈ l.head? ∧ s.key = none := by
  have hkey : s.key = none := by
    rw [h.refs s hs] at href
    exact clauseRef_eq_none_iff.mp href
  cases l with
  | nil => cases hs
  | cons first rest =>
    rcases List.mem_cons.mp hs with rfl | hs
    · exact ⟨rfl, hkey⟩
    · exact absurd hkey (h.keyed s hs)

section Report

variable {baseText amendedText : Str} {base amended : List Section}

theorem shows_of_mem (hbase : Cover baseText base) (hamended : Cover amendedText amended)
    {c : Change} (hc : c ∈ expectedChanges baseText amendedText base amended) :
    Shows baseText amendedText base amended c := by
  have hquote : ∀ s ∈ base, Quotes baseText s.span (excerpt baseText s.span) :=
    fun s hs => excerpt_quotes (hbase.inText s hs).1 (hbase.inText s hs).2
  have hquote' : ∀ t ∈ amended, Quotes amendedText t.span (excerpt amendedText t.span) :=
    fun t ht => excerpt_quotes (hamended.inText t ht).1 (hamended.inText t ht).2
  have hfirst : ∀ s ∈ base, s.clauseRef = none →
      ∃ first ∈ base.head?, first.key = none ∧ s.span = first.span := by
    intro s hs href
    obtain ⟨hhead, hkey⟩ := hbase.head_of_clauseRef hs href
    exact ⟨s, hhead, hkey, rfl⟩
  have hfirst' : ∀ t ∈ amended, t.clauseRef = none →
      ∃ first ∈ amended.head?, first.key = none ∧ t.span = first.span := by
    intro t ht href
    obtain ⟨hhead, hkey⟩ := hamended.head_of_clauseRef ht href
    exact ⟨t, hhead, hkey, rfl⟩
  rcases mem_expectedChanges_iff.mp hc with ⟨s, hs, rfl⟩ | ⟨s, t, hp, -, rfl⟩ | ⟨t, ht, rfl⟩
  · have hs := Lib.mem_of_mem_unpaired hs
    constructor
    · exact ⟨rfl, rfl⟩
    · rintro _ ⟨⟩
      exact ⟨s, hs, rfl, rfl⟩
    · rintro _ ⟨⟩
    · rintro _ ⟨⟩
      exact hquote s hs
    · rintro _ ⟨⟩
    · exact ⟨_, rfl, .inr ⟨rfl, s.span, rfl, hquote s hs⟩⟩
    · intro href
      constructor
      · rintro _ ⟨⟩
        exact hfirst s hs href
      · rintro _ ⟨⟩
  · obtain ⟨hs, ht, hkey⟩ := Lib.mem_paired hp
    have href : s.clauseRef = t.clauseRef := by rw [hbase.refs s hs, hamended.refs t ht, hkey]
    constructor
    · exact ⟨rfl, rfl⟩
    · rintro _ ⟨⟩
      exact ⟨s, hs, rfl, rfl⟩
    · rintro _ ⟨⟩
      exact ⟨t, ht, rfl, href⟩
    · rintro _ ⟨⟩
      exact hquote s hs
    · rintro _ ⟨⟩
      exact hquote' t ht
    · exact ⟨_, rfl, .inl ⟨t.span, rfl, hquote' t ht⟩⟩
    · intro hnone
      constructor
      · rintro _ ⟨⟩
        exact hfirst s hs hnone
      · rintro _ ⟨⟩
        exact hfirst' t ht (href.symm.trans hnone)
  · have ht := Lib.mem_of_mem_unpaired ht
    constructor
    · exact ⟨rfl, rfl⟩
    · rintro _ ⟨⟩
    · rintro _ ⟨⟩
      exact ⟨t, ht, rfl, rfl⟩
    · rintro _ ⟨⟩
    · rintro _ ⟨⟩
      exact hquote' t ht
    · exact ⟨_, rfl, .inl ⟨t.span, rfl, hquote' t ht⟩⟩
    · intro href
      constructor
      · rintro _ ⟨⟩
      · rintro _ ⟨⟩
        exact hfirst' t ht href

/-- A base section is reported, or reads the same in the other version. -/
theorem base_reported {s : Section} (hs : s ∈ base) :
    (∃ c ∈ expectedChanges baseText amendedText base amended, c.baseSpan = some s.span) ∨
      ∃ t ∈ amended, t.key = s.key ∧ s.text baseText = t.text amendedText := by
  rcases Lib.mem_unpaired_or_paired Section.key amended hs with hlone | ⟨t, hp⟩
  · exact .inl ⟨_, mem_expectedChanges_iff.mpr (.inl ⟨s, hlone, rfl⟩), rfl⟩
  · obtain ⟨-, ht, hkey⟩ := Lib.mem_paired hp
    by_cases hsame : s.text baseText = t.text amendedText
    · exact .inr ⟨t, ht, hkey.symm, hsame⟩
    · exact .inl ⟨_, mem_expectedChanges_iff.mpr (.inr (.inl ⟨s, t, hp, hsame, rfl⟩)), rfl⟩

/-- So is an amended section: its counterpart is paired with it from the other side too. -/
theorem amended_reported {t : Section} (ht : t ∈ amended) :
    (∃ c ∈ expectedChanges baseText amendedText base amended, c.amendedSpan = some t.span) ∨
      ∃ s ∈ base, s.key = t.key ∧ s.text baseText = t.text amendedText := by
  rcases Lib.mem_unpaired_or_paired Section.key base ht with hlone | ⟨s, hp⟩
  · exact .inl ⟨_, mem_expectedChanges_iff.mpr (.inr (.inr ⟨t, hlone, rfl⟩)), rfl⟩
  · obtain ⟨-, hs, hkey⟩ := Lib.mem_paired hp
    have hp : (s, t) ∈ paired Section.key base amended := by
      rw [(Lib.paired_swap_perm amended base).mem_iff]
      exact List.mem_map.mpr ⟨(t, s), hp, rfl⟩
    by_cases hsame : s.text baseText = t.text amendedText
    · exact .inr ⟨s, hs, hkey.symm, hsame⟩
    · exact .inl ⟨_, mem_expectedChanges_iff.mpr (.inr (.inl ⟨s, t, hp, hsame, rfl⟩)), rfl⟩

end Report

/-- The sections of both versions cover them, every change shows what its kind demands, and no
section escapes the diff. -/
theorem detectChanges_shows [Ucd] (baseText amendedText : Str)
    (hbase : ClauseNumbersFit baseText) (hamended : ClauseNumbersFit amendedText) :
    ∃ base amended changes, sections baseText = .ok base ∧ sections amendedText = .ok amended ∧
      Cover baseText base ∧ Cover amendedText amended ∧
      detectChanges baseText amendedText = .ok changes ∧
      (∀ c ∈ changes, Shows baseText amendedText base amended c) ∧
      (∀ s ∈ base, (∃ c ∈ changes, c.baseSpan = some s.span) ∨
        ∃ t ∈ amended, t.key = s.key ∧ s.text baseText = t.text amendedText) ∧
      ∀ t ∈ amended, (∃ c ∈ changes, c.amendedSpan = some t.span) ∨
        ∃ s ∈ base, s.key = t.key ∧ s.text baseText = t.text amendedText := by
  obtain ⟨base, hb⟩ := sections_isOk hbase
  obtain ⟨amended, ha⟩ := sections_isOk hamended
  have hcb := sections_cover hb
  have hca := sections_cover ha
  exact ⟨base, amended, _, hb, ha, hcb, hca, detectChanges_eq hb ha,
    fun c hc => shows_of_mem hcb hca hc, fun s hs => base_reported hs,
    fun t ht => amended_reported ht⟩

/-- A preamble ahead of a clause, with a blank stretch and three newlines between. -/
theorem detectChanges_shows_preamble :
    let baseText := "Between the parties\n\n\n \n\n1. Term".toList
    let amendedText := "1. Term".toList
    letI := Ucd.ascii
    ∃ base amended changes, sections baseText = .ok base ∧ sections amendedText = .ok amended ∧
      Cover baseText base ∧ Cover amendedText amended ∧
      detectChanges baseText amendedText = .ok changes ∧
      (∀ c ∈ changes, Shows baseText amendedText base amended c) ∧
      (∀ s ∈ base, (∃ c ∈ changes, c.baseSpan = some s.span) ∨
        ∃ t ∈ amended, t.key = s.key ∧ s.text baseText = t.text amendedText) ∧
      ∀ t ∈ amended, (∃ c ∈ changes, c.amendedSpan = some t.span) ∨
        ∃ s ∈ base, s.key = t.key ∧ s.text baseText = t.text amendedText := by
  let := Ucd.ascii
  exact detectChanges_shows _ _ (by decide +kernel) (by decide +kernel)

end ContractIntel.Diffing
