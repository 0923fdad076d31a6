import ContractIntel.Laws.Text.Paragraphs
import ContractIntel.Lib.Fallible
import ContractIntel.Lib.Groups

/-!
# How a version falls into sections

The grouping loop rebuilds its last section round by round. Read over the whole list, a section is
a group of consecutive paragraphs that a keyed one opens (`sections_eq`), and its span is the
group's hull. So the sections of any text are non-empty, in order and apart, they hold every
character that is not whitespace, and only the first one can be without a key (`sections_cover`).
-/

namespace ContractIntel.Diffing

open Lib (groups hull hulls Separate)
open Str (Visible)

/-- A paragraph with the key of its first line. -/
abbrev Entry := Paragraph × Option SectionKey

def opensSection (e : Entry) : Bool := e.2.isSome

/-- The section of a group of paragraphs: the key of the first, up to the stop of the last. -/
def sectionOf (g : List Entry) : Option Section :=
  g.head?.bind fun a => g.getLast?.map fun b => ⟨a.2, clauseRef a.2, a.1.start, b.1.stop⟩

def sectionsOf (es : List Entry) : List Section := (groups opensSection es).filterMap sectionOf

/-! ## The grouping loop -/

/-- A keyed paragraph opens a section. -/
theorem sectionsOf_concat_keyed (es : List Entry) (p : Paragraph) (number : SectionKey) :
    sectionsOf (es ++ [(p, some number)]) =
      sectionsOf es ++ [⟨some number, clauseRef (some number), p.start, p.stop⟩] := by
  unfold sectionsOf
  rw [Lib.groups_concat_opens rfl, List.filterMap_append]
  rfl

/-- Prose extends the last section. -/
theorem sectionsOf_concat_prose {es : List Entry} (hne : es ≠ []) (p : Paragraph) :
    ∃ before last, sectionsOf es = before ++ [last] ∧
      sectionsOf (es ++ [(p, none)]) = before ++ [{ last with charEnd := p.stop }] := by
  have hgroups : groups opensSection es ≠ [] := by simpa [groups] using hne
  obtain ⟨before, g, hg⟩ := (List.eq_nil_or_concat _).resolve_left hgroups
  rw [List.concat_eq_append] at hg
  have hmem : g ∈ groups opensSection es := by simp [hg]
  have hgne : g ≠ [] := Lib.ne_nil_of_mem_groups hmem
  obtain ⟨a, rest, rfl⟩ := List.exists_cons_of_ne_nil hgne
  refine ⟨before.filterMap sectionOf,
    ⟨a.2, clauseRef a.2, a.1.start, ((a :: rest).getLast hgne).1.stop⟩, ?_, ?_⟩
  · rw [sectionsOf, hg, List.filterMap_append]
    simp [sectionOf, List.getLast?_eq_some_getLast hgne]
  · rw [sectionsOf, Lib.groups_concat_joins rfl hg, List.filterMap_append, List.filterMap_cons,
      sectionOf, List.getLast?_concat]
    rfl

section Keys

variable [Ucd]

def keyed (p : Paragraph) : Except ValueError Entry := do
  return (p, ← clauseKey (Str.firstLine p.text))

theorem keyed_eq_ok_iff {p : Paragraph} {e : Entry} :
    keyed p = .ok e ↔ e.1 = p ∧ clauseKey (Str.firstLine p.text) = .ok e.2 := by
  unfold keyed
  cases clauseKey (Str.firstLine p.text) with
  | error err =>
    constructor
    · rintro ⟨⟩
    · rintro ⟨-, ⟨⟩⟩
  | ok key =>
    constructor
    · rintro ⟨⟩
      exact ⟨rfl, rfl⟩
    · rintro ⟨rfl, h⟩
      cases h
      rfl

/-- One round of the grouping loop. -/
theorem addParagraph_sectionsOf (es : List Entry) (p : Paragraph) :
    addParagraph (sectionsOf es) p = (fun e => sectionsOf (es ++ [e])) <$> keyed p := by
  unfold addParagraph keyed
  cases clauseKey (Str.firstLine p.text) with
  | error err => rfl
  | ok key =>
    cases key with
    | some number => exact congrArg Except.ok (sectionsOf_concat_keyed es p number).symm
    | none =>
      by_cases hne : es = []
      · subst hne
        rfl
      · obtain ⟨before, last, hes, hnext⟩ := sectionsOf_concat_prose hne p
        refine Eq.trans ?_ (congrArg Except.ok hnext.symm)
        simp only [hes, List.getLast?_concat, List.dropLast_concat]
        rfl

theorem foldlM_addParagraph (ps : List Paragraph) (es : List Entry) :
    ps.foldlM addParagraph (sectionsOf es) =
      (fun next => sectionsOf (es ++ next)) <$> ps.mapM keyed := by
  induction ps generalizing es with
  | nil => simp
  | cons p ps ih =>
    rw [List.foldlM_cons, List.mapM_cons, addParagraph_sectionsOf]
    cases keyed p with
    | error err => rfl
    | ok e =>
      refine (ih (es ++ [e])).trans ?_
      cases ps.mapM keyed with
      | error err => rfl
      | ok next =>
        show Except.ok (sectionsOf (es ++ [e] ++ next)) = Except.ok (sectionsOf (es ++ e :: next))
        rw [List.append_assoc]
        rfl

/-- The grouping loop computes the sections of the keyed paragraphs. -/
theorem sections_eq (text : Str) : sections text = sectionsOf <$> (paragraphs text).mapM keyed :=
  foldlM_addParagraph (paragraphs text) []

theorem mapM_keyed_eq_ok_iff {ps : List Paragraph} {es : List Entry} :
    ps.mapM keyed = .ok es ↔
      es.map Prod.fst = ps ∧ ∀ e ∈ es, clauseKey (Str.firstLine e.1.text) = .ok e.2 := by
  rw [Lib.mapM_eq_ok_iff]
  simp only [keyed_eq_ok_iff]
  constructor
  · intro h
    induction h with
    | nil => exact ⟨rfl, fun e he => absurd he List.not_mem_nil⟩
    | cons he _ ih =>
      obtain ⟨rfl, hkey⟩ := he
      exact ⟨by rw [List.map_cons, ih.1], List.forall_mem_cons.mpr ⟨hkey, ih.2⟩⟩
  · rintro ⟨rfl, h⟩
    induction es with
    | nil => exact .nil
    | cons e es ih =>
      obtain ⟨hkey, hrest⟩ := List.forall_mem_cons.mp h
      exact .cons ⟨rfl, hkey⟩ (ih hrest)

/-- The sections of a text are the groups of its paragraphs. -/
theorem sections_eq_ok_iff {text : Str} {l : List Section} :
    sections text = .ok l ↔ ∃ es : List Entry, es.map Prod.fst = paragraphs text ∧
      (∀ e ∈ es, clauseKey (Str.firstLine e.1.text) = .ok e.2) ∧ l = sectionsOf es := by
  rw [sections_eq]
  constructor
  · intro h
    cases hes : (paragraphs text).mapM keyed with
    | error err =>
      rw [hes] at h
      cases h
    | ok es =>
      rw [hes] at h
      obtain ⟨hps, hkeys⟩ := mapM_keyed_eq_ok_iff.mp hes
      exact ⟨es, hps, hkeys, (Except.ok.inj h).symm⟩
  · rintro ⟨es, hps, hkeys, rfl⟩
    rw [mapM_keyed_eq_ok_iff.mpr ⟨hps, hkeys⟩]
    rfl

end Keys

/-! ## Spans and keys of the groups -/

section Groups

variable {es : List Entry}

theorem sectionOf_eq_some_iff {g : List Entry} {s : Section} :
    sectionOf g = some s ↔ ∃ a b, g.head? = some a ∧ g.getLast? = some b ∧
      s = ⟨a.2, clauseRef a.2, a.1.start, b.1.stop⟩ := by
  simp only [sectionOf, Option.bind_eq_some_iff, Option.map_eq_some_iff]
  constructor
  · rintro ⟨a, ha, b, hb, rfl⟩
    exact ⟨a, b, ha, hb, rfl⟩
  · rintro ⟨a, b, ha, hb, rfl⟩
    exact ⟨a, ha, b, hb, rfl⟩

/-- The span of a section is the hull of its group. -/
theorem sectionsOf_hulls (es : List Entry) :
    (sectionsOf es).map (fun s => (s.charStart, s.charEnd)) =
      hulls (·.1.start) (·.1.stop) opensSection es := by
  unfold sectionsOf hulls
  rw [List.map_filterMap]
  refine List.filterMap_congr fun g _ => ?_
  unfold sectionOf hull
  cases g.head? <;> cases g.getLast? <;> rfl

/-- A section starts at a paragraph, with its key. -/
theorem mem_sectionsOf_start {s : Section} (h : s ∈ sectionsOf es) :
    ∃ e ∈ es, s.charStart = e.1.start ∧ s.key = e.2 ∧ s.clauseRef = clauseRef s.key := by
  obtain ⟨g, hg, hs⟩ := List.mem_filterMap.mp h
  obtain ⟨a, b, ha, -, rfl⟩ := sectionOf_eq_some_iff.mp hs
  exact ⟨a, Lib.mem_of_mem_groups hg (List.mem_of_mem_head? ha), rfl, rfl, rfl⟩

/-- Only the first section can be without a key. -/
theorem key_of_mem_tail {s : Section} (h : s ∈ (sectionsOf es).tail) : s.key ≠ none := by
  have htail : (sectionsOf es).tail = (groups opensSection es).tail.filterMap sectionOf := by
    have hne : ∀ g ∈ groups opensSection es, g ≠ [] := fun g hg => Lib.ne_nil_of_mem_groups hg
    unfold sectionsOf
    generalize groups opensSection es = gs at hne
    cases gs with
    | nil => rfl
    | cons g gs =>
      have hgne := hne g List.mem_cons_self
      have hg : sectionOf g = some _ := sectionOf_eq_some_iff.mpr
        ⟨_, _, List.head?_eq_some_head hgne, List.getLast?_eq_some_getLast hgne, rfl⟩
      rw [List.filterMap_cons, hg]
      rfl
  rw [htail] at h
  obtain ⟨g, hg, hs⟩ := List.mem_filterMap.mp h
  obtain ⟨a, b, ha, -, rfl⟩ := sectionOf_eq_some_iff.mp hs
  have hopens := Lib.opens_head_of_mem_tail hg a ha
  intro hnone
  simp only [opensSection] at hopens
  rw [show a.2 = none from hnone] at hopens
  cases hopens

end Groups

/-! ## The sections of a text -/

/-- A cut of a text into sections leaves no visible character out, and none in two sections. -/
structure Cover (text : Str) (l : List Section) : Prop where
  /-- A section is a non-empty range of the text. -/
  inText : ∀ s ∈ l, s.charStart < s.charEnd ∧ s.charEnd ≤ text.length
  /-- The sections increase, each starting behind the one before. -/
  increasing : l.Pairwise fun s t => s.charStart < t.charStart ∧ s.charEnd < t.charStart
  /-- Every visible character is in exactly one section. -/
  complete : ∀ i, Visible text i → ∃! s, s ∈ l ∧ s.charStart ≤ i ∧ i < s.charEnd
  /-- Only the first section can be the preamble. -/
  keyed : ∀ s ∈ l.tail, s.key ≠ none
  /-- The reference of a section is that of its key. -/
  refs : ∀ s ∈ l, s.clauseRef = clauseRef s.key

/-- A section is known by its span. -/
theorem Cover.eq_of_span {text : Str} {l : List Section} (h : Cover text l) {s t : Section}
    (hs : s ∈ l) (ht : t ∈ l) (hstart : s.charStart = t.charStart) (hend : s.charEnd = t.charEnd) :
    s = t :=
  Lib.eq_of_within (h.increasing.imp And.right) hs ht (h.inText s hs).1
    ⟨Nat.le_refl _, Nat.le_refl _⟩ ⟨Nat.le_of_eq hstart.symm, Nat.le_of_eq hend⟩

theorem separate_of_paragraphs {text : Str} {es : List Entry}
    (h : es.map Prod.fst = paragraphs text) :
    Separate (fun e : Entry => e.1.start) (fun e => e.1.stop) es := by
  constructor
  · intro e he
    have hmem : e.1 ∈ paragraphs text := h ▸ List.mem_map_of_mem he
    exact (paragraphsFrom_in e.1 hmem).2.lt
  · have hapart := @paragraphsFrom_pairwise text text.length 0
    change (paragraphs text).Pairwise _ at hapart
    rw [← h] at hapart
    exact List.pairwise_map.mp hapart

/-- The sections of every text that can be cut cover it. -/
theorem sections_cover [Ucd] {text : Str} {l : List Section} (h : sections text = .ok l) :
    Cover text l := by
  obtain ⟨es, hps, -, rfl⟩ := sections_eq_ok_iff.mp h
  have hsep := separate_of_paragraphs hps
  have hmem : ∀ s ∈ sectionsOf es,
      (s.charStart, s.charEnd) ∈ hulls (·.1.start) (·.1.stop) opensSection es := by
    intro s hs
    rw [← sectionsOf_hulls]
    exact List.mem_map_of_mem hs
  have hlt : ∀ s ∈ sectionsOf es, s.charStart < s.charEnd :=
    fun s hs => (hsep.hulls_bounds _ (hmem s hs)).1
  have hapart : (sectionsOf es).Pairwise fun s t => s.charEnd < t.charStart := by
    have := hsep.hulls_pairwise opensSection
    rw [← sectionsOf_hulls] at this
    exact List.pairwise_map.mp this
  constructor
  · intro s hs
    obtain ⟨-, -, e, he, hstop⟩ := hsep.hulls_bounds _ (hmem s hs)
    have hin : e.1 ∈ paragraphs text := hps ▸ List.mem_map_of_mem he
    refine ⟨hlt s hs, ?_⟩
    rw [show s.charEnd = e.1.stop from hstop]
    exact (paragraphsFrom_in e.1 hin).2.stop_le
  · refine hapart.imp_of_mem fun {s t} hs _ hst => ⟨?_, hst⟩
    have := hlt s hs
    omega
  · intro i hi
    obtain ⟨p, hp, hstart, hstop⟩ : ∃ p ∈ paragraphs text, p.start ≤ i ∧ i < p.stop :=
      paragraphsFrom_complete (by omega) (Nat.zero_le i) hi
    rw [← hps] at hp
    obtain ⟨e, he, rfl⟩ := List.mem_map.mp hp
    obtain ⟨r, hr, hrstart, hrstop⟩ := hsep.hulls_cover opensSection he
    rw [← sectionsOf_hulls] at hr
    obtain ⟨s, hs, rfl⟩ := List.mem_map.mp hr
    change s.charStart ≤ e.1.start at hrstart
    change e.1.stop ≤ s.charEnd at hrstop
    refine ⟨s, ⟨hs, by omega, by omega⟩, ?_⟩
    rintro t ⟨ht, htstart, htstop⟩
    exact Lib.eq_of_within hapart ht hs (Nat.lt_succ_self i) ⟨htstart, htstop⟩ (by omega)
  · exact fun s hs => key_of_mem_tail hs
  · intro s hs
    obtain ⟨-, -, -, -, href⟩ := mem_sectionsOf_start hs
    exact href

end ContractIntel.Diffing
