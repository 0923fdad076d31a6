import ContractIntel.Laws.Text.Duality

/-!
# The diff of an insertion

Blocks inserted between others move everything behind them and are cut and grouped anew with it.
Paragraphs and sections distribute over the join at a keyed block (`sections_insert`), and sections
of other keys leave every pairing what it was, so the diff reports the inserted sections and nothing
else (`detectChanges_insert`).
-/

namespace ContractIntel.Diffing

open Lib (groups paired unpaired)
open Parsing (separator)

/-! ## Moving paragraphs and sections -/

def Paragraph.shift (n : Nat) (p : Paragraph) : Paragraph := ⟨p.start + n, p.stop + n, p.text⟩

def shiftEntry (n : Nat) (e : Entry) : Entry := (e.1.shift n, e.2)

/-- The section `n` characters further on. -/
def Section.shift (n : Nat) (s : Section) : Section :=
  { s with charStart := s.charStart + n, charEnd := s.charEnd + n }

theorem sectionOf_shift (n : Nat) (g : List Entry) :
    sectionOf (g.map (shiftEntry n)) = (sectionOf g).map (Section.shift n) := by
  unfold sectionOf
  rw [List.head?_map, List.getLast?_map]
  cases g.head? <;> cases g.getLast? <;> rfl

theorem sectionsOf_shift (n : Nat) (es : List Entry) :
    sectionsOf (es.map (shiftEntry n)) = (sectionsOf es).map (Section.shift n) := by
  unfold sectionsOf
  rw [Lib.groups_map, List.filterMap_map, List.map_filterMap]
  exact List.filterMap_congr fun g _ => sectionOf_shift n g

theorem sectionsOf_append {es fs : List Entry} (h : ∀ e ∈ fs.head?, opensSection e = true) :
    sectionsOf (es ++ fs) = sectionsOf es ++ sectionsOf fs := by
  unfold sectionsOf
  rw [Lib.groups_append h, List.filterMap_append]

/-- A section behind a lead reads what it read without. -/
theorem Section.text_shift (s : Section) (lead text : Str) :
    (s.shift lead.length).text (lead ++ text) = s.text text := by
  unfold Section.text Section.shift
  rw [Nat.add_comm s.charStart, Nat.add_comm s.charEnd]
  exact Str.slice_append_right

/-- A section inside the first part reads what it reads there. -/
theorem Section.text_eq_of_isPrefix {s : Section} {text whole : Str} (h : text <+: whole)
    (hs : s.charEnd ≤ text.length) : s.text whole = s.text text := by
  obtain ⟨rest, rfl⟩ := h
  exact Str.slice_append_left hs

/-! ## Blocks in front of others -/

/-- What the join writes for blocks that others follow. -/
def lead (bs : List Str) : Str := bs.flatMap (· ++ separator)

theorem join_append {bs cs : List Str} (h : cs ≠ []) :
    Str.join separator (bs ++ cs) = lead bs ++ Str.join separator cs := by
  induction bs with
  | nil => rfl
  | cons b bs ih =>
    obtain ⟨c, l, hl⟩ := List.exists_cons_of_ne_nil (List.append_ne_nil_of_right_ne_nil bs h)
    rw [List.cons_append, hl, Parsing.join_cons_cons, ← hl, ih, lead, lead, List.flatMap_cons,
      List.append_assoc _ _ (Str.join separator cs)]

theorem isPrefix_join_append (bs cs : List Str) :
    Str.join separator bs <+: Str.join separator (bs ++ cs) := by
  cases cs with
  | nil => exact (List.append_nil bs).symm ▸ List.prefix_rfl
  | cons c cs =>
    cases bs using List.reverseRec with
    | nil => exact List.nil_prefix
    | append_singleton bs b =>
      rw [List.append_assoc, join_append (by simp), join_append (by simp), Parsing.join_singleton,
        List.singleton_append, Parsing.join_cons_cons, List.append_assoc b]
      exact (List.prefix_append_right_inj _).mpr (List.prefix_append _ _)

theorem lay_shift (n pos : Nat) (bs : List Str) :
    lay (pos + n) bs = (lay pos bs).map (Paragraph.shift n) := by
  induction bs generalizing pos with
  | nil => rfl
  | cons b bs ih =>
    rw [lay, lay, List.map_cons, ← ih]
    simp only [Paragraph.shift, Nat.add_right_comm]

theorem length_lead_cons (b : Str) (bs : List Str) :
    (lead (b :: bs)).length = b.length + 2 + (lead bs).length := by
  simp [lead, separator]
  omega

theorem lay_append (pos : Nat) (bs cs : List Str) :
    lay pos (bs ++ cs) = lay pos bs ++ lay (pos + (lead bs).length) cs := by
  induction bs generalizing pos with
  | nil => rfl
  | cons b bs ih =>
    rw [List.cons_append, lay, lay, ih, List.cons_append, length_lead_cons]
    simp only [Nat.add_assoc]

theorem map_text_lay (pos : Nat) (bs : List Str) : (lay pos bs).map Paragraph.text = bs := by
  induction bs generalizing pos with
  | nil => rfl
  | cons b bs ih => rw [lay, List.map_cons, ih]

/-! ## The sections of joined blocks -/

section Keys

variable [Ucd]

/-- A block whose first line has a key. -/
def KeyedBlock (b : Str) : Prop := ∃ number, clauseKey (Str.firstLine b) = .ok (some number)

/-- The entries of blocks laid from `pos` on. -/
def Entries (pos : Nat) (bs : List Str) (es : List Entry) : Prop :=
  es.map Prod.fst = lay pos bs ∧ ∀ e ∈ es, clauseKey (Str.firstLine e.1.text) = .ok e.2

theorem sections_join_iff {bs : List Str} (h : ∀ b ∈ bs, Block b) {l : List Section} :
    sections (Str.join separator bs) = .ok l ↔ ∃ es, Entries 0 bs es ∧ l = sectionsOf es := by
  rw [sections_eq_ok_iff, paragraphs_join h]
  simp only [Entries, and_assoc]

theorem Entries.shift {pos : Nat} {bs : List Str} {es : List Entry} (h : Entries pos bs es) (n : Nat) :
    Entries (pos + n) bs (es.map (shiftEntry n)) := by
  obtain ⟨hlay, hkeys⟩ := h
  constructor
  · rw [lay_shift, ← hlay, List.map_map, List.map_map]
    rfl
  · intro e he
    obtain ⟨f, hf, rfl⟩ := List.mem_map.mp he
    exact hkeys f hf

theorem Entries.append {pos : Nat} {bs cs : List Str} {es fs : List Entry} (hes : Entries pos bs es)
    (hfs : Entries (pos + (lead bs).length) cs fs) : Entries pos (bs ++ cs) (es ++ fs) := by
  constructor
  · rw [List.map_append, lay_append, hes.1, hfs.1]
  · exact List.forall_mem_append.mpr ⟨hes.2, hfs.2⟩

/-- Blocks whose first lines have keys have entries. -/
theorem exists_entries {bs : List Str} (h : ∀ b ∈ bs, ∃ key, clauseKey (Str.firstLine b) = .ok key)
    (pos : Nat) : ∃ es, Entries pos bs es := by
  induction bs generalizing pos with
  | nil => exact ⟨[], rfl, fun e he => absurd he List.not_mem_nil⟩
  | cons b bs ih =>
    obtain ⟨⟨key, hkey⟩, hbs⟩ := List.forall_mem_cons.mp h
    obtain ⟨es, hlay, hkeys⟩ := ih hbs (pos + b.length + 2)
    refine ⟨(⟨pos, pos + b.length, b⟩, key) :: es, ?_, List.forall_mem_cons.mpr ⟨hkey, hkeys⟩⟩
    rw [List.map_cons, hlay, lay]

theorem Entries.key_of_mem {pos : Nat} {bs : List Str} {es : List Entry} (h : Entries pos bs es)
    {b : Str} (hb : b ∈ bs) : ∃ key, clauseKey (Str.firstLine b) = .ok key := by
  rw [← map_text_lay pos bs, ← h.1, List.map_map] at hb
  obtain ⟨e, he, rfl⟩ := List.mem_map.mp hb
  exact ⟨e.2, h.2 e he⟩

theorem Entries.opens {pos : Nat} {bs : List Str} {es : List Entry} (h : Entries pos bs es)
    (hkeyed : ∀ b ∈ bs.head?, KeyedBlock b) : ∀ e ∈ es.head?, opensSection e = true := by
  obtain ⟨hlay, hkeys⟩ := h
  intro e he
  cases bs with
  | nil =>
    rw [lay, List.map_eq_nil_iff] at hlay
    rw [hlay] at he
    cases he
  | cons b bs =>
    obtain ⟨number, hnumber⟩ := hkeyed b rfl
    have hkey := hkeys e (List.mem_of_mem_head? he)
    have hfirst : e.1.text = b := by
      have := congrArg List.head? hlay
      rw [List.head?_map, Option.mem_def.mp he] at this
      exact congrArg Paragraph.text (Option.some.inj this)
    rw [hfirst, hnumber] at hkey
    rw [opensSection, ← Except.ok.inj hkey]
    rfl

/-- Cutting a text whose middle blocks were inserted: every part is cut as before, the parts
behind the first are moved. -/
theorem sections_insert {A S B : List Str} (hblocks : ∀ b ∈ A ++ S ++ B, Block b)
    (hS : ∀ b ∈ S.head?, KeyedBlock b) (hB : ∀ b ∈ B.head?, KeyedBlock b) {ab s : List Section}
    (hab : sections (Str.join separator (A ++ B)) = .ok ab)
    (hs : sections (Str.join separator S) = .ok s) :
    ∃ a b, sections (Str.join separator A) = .ok a ∧ sections (Str.join separator B) = .ok b ∧
      ab = a ++ b.map (Section.shift (lead A).length) ∧
      sections (Str.join separator (A ++ S ++ B)) = .ok (a ++ s.map (Section.shift (lead A).length) ++
        b.map (Section.shift (lead (A ++ S)).length)) := by
  obtain ⟨hAS, hBb⟩ := List.forall_mem_append.mp hblocks
  obtain ⟨hAb, hSb⟩ := List.forall_mem_append.mp hAS
  have hABb := List.forall_mem_append.mpr ⟨hAb, hBb⟩
  obtain ⟨_, hkeys, -⟩ := (sections_join_iff hABb).mp hab
  obtain ⟨esA, hesA⟩ := exists_entries (fun b hb => hkeys.key_of_mem (List.mem_append_left B hb)) 0
  obtain ⟨esB, hesB⟩ := exists_entries (fun b hb => hkeys.key_of_mem (List.mem_append_right A hb)) 0
  obtain ⟨esS, hesS, rfl⟩ := (sections_join_iff hSb).mp hs
  have hopensB := fun n => (hesB.shift n).opens hB
  refine ⟨sectionsOf esA, sectionsOf esB, (sections_join_iff hAb).mpr ⟨esA, hesA, rfl⟩,
    (sections_join_iff hBb).mpr ⟨esB, hesB, rfl⟩, ?_, ?_⟩
  · have hboth := (sections_join_iff hABb).mpr ⟨_, hesA.append (hesB.shift _), rfl⟩
    rw [Except.ok.inj (hab.symm.trans hboth), sectionsOf_append (hopensB _), sectionsOf_shift]
  · have hall := (hesA.append (hesS.shift _)).append (hesB.shift (lead (A ++ S)).length)
    rw [(sections_join_iff hblocks).mpr ⟨_, hall, rfl⟩, sectionsOf_append (hopensB _),
      sectionsOf_append ((hesS.shift _).opens hS), sectionsOf_shift, sectionsOf_shift]

end Keys

/-! ## The diff of an insertion -/

section Insert

variable {baseText amendedText : Str} {a s b : List Section} {m n : Nat}

/-- Inserted sections of other keys, with the kept ones reading what they read, are the report. -/
theorem expectedChanges_insert (hfresh : ∀ x ∈ s, ∀ y ∈ a ++ b, x.key ≠ y.key)
    (ha : ∀ x ∈ a, x.text baseText = x.text amendedText)
    (hb : ∀ x ∈ b, (x.shift m).text baseText = (x.shift n).text amendedText) :
    let base := a ++ b.map (Section.shift m)
    let amended := a ++ s ++ b.map (Section.shift n)
    expectedChanges baseText amendedText base amended = s.map addedChange ∧
      expectedChanges amendedText baseText amended base = s.map removedChange := by
  intro base amended
  have hmap : ∀ k, (b.map (Section.shift k)).map Section.key = b.map Section.key := by
    intro k
    rw [List.map_map]
    rfl
  have hkeys : (b.map (Section.shift n)).map Section.key =
      (b.map (Section.shift m)).map Section.key := (hmap n).trans (hmap m).symm
  have hother : ∀ k ∈ s.map Section.key, k ∉ (a ++ b.map (Section.shift m)).map Section.key := by
    rw [List.map_append, hmap, ← List.map_append]
    intro k hk hmem
    obtain ⟨x, hx, rfl⟩ := List.mem_map.mp hk
    obtain ⟨y, hy, heq⟩ := List.mem_map.mp hmem
    exact hfresh x hx y hy heq.symm
  have hpairs : ∀ x y, (x, y) ∈ paired Section.key base amended →
      x.text baseText = y.text amendedText := by
    intro x y hp
    rcases Lib.mem_paired_kept hkeys hother hp with ⟨hx, rfl⟩ | ⟨j, hx, hy⟩
    · exact ha _ hx
    · rw [List.getElem?_map] at hx hy
      obtain ⟨z, hz, rfl⟩ := Option.map_eq_some_iff.mp hx
      rw [hz] at hy
      cases hy
      exact hb z (List.mem_of_getElem? hz)
  have hpairs' : ∀ y x, (y, x) ∈ paired Section.key amended base →
      y.text amendedText = x.text baseText := by
    intro y x hp
    rw [(Lib.paired_swap_perm base amended).mem_iff] at hp
    obtain ⟨⟨_, _⟩, hpair, heq⟩ := List.mem_map.mp hp
    cases heq
    exact (hpairs _ _ hpair).symm
  have hkept := Lib.unpaired_kept hkeys hother
  have hinserted := Lib.unpaired_inserted hkeys hother
  constructor
  · rw [expectedChanges_of_unchanged hpairs, hkept, hinserted]
    rfl
  · rw [expectedChanges_of_unchanged hpairs', hkept, hinserted, List.map_nil, List.append_nil]

end Insert

/-- Clauses inserted anywhere are reported as added, clauses taken out as removed, each with its
span, and no other clause is reported. -/
theorem detectChanges_insert [Ucd] {A S B : List Str} (hblocks : ∀ b ∈ A ++ S ++ B, Block b)
    (hne : S ≠ []) (hS : ∀ b ∈ S.head?, KeyedBlock b) (hB : ∀ b ∈ B.head?, KeyedBlock b)
    {ab s : List Section} (hab : sections (Str.join separator (A ++ B)) = .ok ab)
    (hs : sections (Str.join separator S) = .ok s)
    (hfresh : ∀ x ∈ s, ∀ y ∈ ab, x.key ≠ y.key) :
    let without := Str.join separator (A ++ B)
    let whole := Str.join separator (A ++ S ++ B)
    let inserted := s.map (Section.shift (lead A).length)
    detectChanges without whole = .ok (inserted.map addedChange) ∧
      detectChanges whole without = .ok (inserted.map removedChange) ∧
      ∀ x ∈ s, (x.shift (lead A).length).text whole = x.text (Str.join separator S) := by
  intro without whole inserted
  obtain ⟨a, b, hsa, hsb, rfl, hall⟩ := sections_insert hblocks hS hB hab hs
  have hcs := sections_cover hs
  have hca := sections_cover hsa
  have hwhole : whole = lead A ++ Str.join separator (S ++ B) := by
    show Str.join separator (A ++ S ++ B) = _
    rw [List.append_assoc, join_append (List.append_ne_nil_of_left_ne_nil hne B)]
  have ha : ∀ x ∈ a, x.text without = x.text whole := by
    intro x hx
    have hin := (hca.inText x hx).2
    have hpre : Str.join separator A <+: whole := by
      show _ <+: Str.join separator (A ++ S ++ B)
      rw [List.append_assoc]
      exact isPrefix_join_append A (S ++ B)
    rw [Section.text_eq_of_isPrefix (isPrefix_join_append A B) hin, Section.text_eq_of_isPrefix hpre hin]
  have hb : ∀ x ∈ b, (x.shift (lead A).length).text without =
      (x.shift (lead (A ++ S)).length).text whole := by
    intro x hx
    have hBne : B ≠ [] := by
      rintro rfl
      cases hsb
      cases hx
    show (x.shift _).text (Str.join separator (A ++ B)) =
      (x.shift _).text (Str.join separator (A ++ S ++ B))
    rw [join_append hBne, join_append hBne, Section.text_shift, Section.text_shift]
  have hother : ∀ x ∈ inserted, ∀ y ∈ a ++ b, x.key ≠ y.key := by
    intro _ hmem y hy
    obtain ⟨x, hx, rfl⟩ := List.mem_map.mp hmem
    rcases List.mem_append.mp hy with hy | hy
    · exact hfresh x hx y (List.mem_append_left _ hy)
    · exact hfresh x hx (y.shift _) (List.mem_append_right _ (List.mem_map_of_mem hy))
  obtain ⟨hadded, hremoved⟩ := expectedChanges_insert hother ha hb
  refine ⟨?_, ?_, fun x hx => ?_⟩
  · rw [detectChanges_eq hab hall, hadded]
  · rw [detectChanges_eq hall hab, hremoved]
  · rw [hwhole, Section.text_shift]
    exact Section.text_eq_of_isPrefix (isPrefix_join_append S B) (hcs.inText x hx).2

/-- A clause with its body, inserted between two clauses of one repeated number. -/
theorem detectChanges_insert_between :
    let A := ["1. Term".toList]
    let S := ["2. Notice".toList, "By post.".toList]
    let s : List Section := [⟨some (.clause [2]), some ['2'], 0, 19⟩]
    letI := Ucd.ascii
    detectChanges (Str.join separator (A ++ A)) (Str.join separator (A ++ S ++ A)) =
      .ok ((s.map (Section.shift (lead A).length)).map addedChange) := by
  let := Ucd.ascii
  have hblocks : ∀ b ∈ ["1. Term".toList, "2. Notice".toList, "By post.".toList, "1. Term".toList],
      Block b := by
    decide +kernel
  have hab : sections (Str.join separator ["1. Term".toList, "1. Term".toList]) =
      .ok [⟨some (.clause [1]), some ['1'], 0, 7⟩, ⟨some (.clause [1]), some ['1'], 9, 16⟩] := by
    decide +kernel
  have hs : sections (Str.join separator ["2. Notice".toList, "By post.".toList]) =
      .ok [⟨some (.clause [2]), some ['2'], 0, 19⟩] := by
    decide +kernel
  have hS : KeyedBlock "2. Notice".toList := ⟨.clause [2], by decide +kernel⟩
  have hB : KeyedBlock "1. Term".toList := ⟨.clause [1], by decide +kernel⟩
  exact (@detectChanges_insert _ ["1. Term".toList] ["2. Notice".toList, "By post.".toList]
    ["1. Term".toList] hblocks (List.cons_ne_nil _ _)
    (fun b hb => Option.mem_some_iff.mp hb ▸ hS) (fun b hb => Option.mem_some_iff.mp hb ▸ hB)
    _ _ hab hs (by decide +kernel)).1

end ContractIntel.Diffing
