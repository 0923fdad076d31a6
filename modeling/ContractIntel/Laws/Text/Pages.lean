import ContractIntel.Laws.Text.Parsing
import ContractIntel.Laws.Text.Str
import ContractIntel.Lib.Tiling

/-!
# Offsets and pages of a built document

The joining pass keeps an offset, the blocks and an open page span in one loop; the end of a span
is written when a block of another page starts, or after the loop. What it writes is `spansFrom`,
read off the entries alone. On pages in order the spans tile the text (`spansFrom_tiling`), and
every block lies inside the span of its page.
-/

namespace ContractIntel.Parsing

open Lib (Tiling)

/-! ## Blocks as slices of the text -/

/-- In a text with the blocks joined behind `before`, every block is the slice its offsets say, and
between two neighbours stands the separator. -/
theorem layout_slices {text before : Str} {entries : List Entry}
    (htext : text = before ++ Str.join separator (entries.map Entry.text)) :
    (∀ b ∈ layout before.length entries, Str.slice text b.start b.stop = b.text) ∧
      (layout before.length entries).IsChain fun b c =>
        c.start = b.stop + 2 ∧ Str.slice text b.stop c.start = separator := by
  induction entries generalizing before with
  | nil => exact ⟨fun b hb => absurd hb List.not_mem_nil, List.isChain_nil⟩
  | cons e es ih =>
    cases es with
    | nil =>
      refine ⟨fun b hb => ?_, List.isChain_singleton _⟩
      obtain rfl := List.mem_singleton.mp hb
      rw [htext, List.map_singleton, join_singleton]
      have hslice := Str.slice_append_middle before e.text []
      rwa [List.append_nil] at hslice
    | cons e' es =>
      rw [List.map_cons, List.map_cons, join_cons_cons, ← List.map_cons, List.append_assoc] at htext
      -- the text up to the second entry stands before the rest
      have hbefore : (before ++ (e.text ++ separator)).length = before.length + e.text.length + 2 := by
        simp only [List.length_append, separator, List.length_cons, List.length_nil, Nat.add_assoc]
      obtain ⟨hslices, hchain⟩ := @ih (before ++ (e.text ++ separator))
        (by rw [htext, List.append_assoc, List.append_assoc])
      rw [hbefore] at hslices hchain
      refine ⟨fun b hb => ?_, ?_⟩
      · rcases List.mem_cons.mp hb with rfl | hb
        · rw [htext]
          exact Str.slice_append_middle before e.text _
        · exact hslices b hb
      · refine List.isChain_cons_cons.mpr ⟨⟨rfl, ?_⟩, hchain⟩
        have hslice := Str.slice_append_middle (before ++ e.text) separator
          (Str.join separator ((e' :: es).map Entry.text))
        rwa [List.append_assoc, List.length_append, ← htext] at hslice

/-! ## The page spans -/

/-- The page spans from an open one on: its page and start, and the offset reached. -/
def spansFrom (page start pos : Nat) : List Entry → List PageSpan
  | [] => [⟨page, start, some pos⟩]
  | e :: es =>
    match e.page with
    | none => spansFrom page start (pos + 2 + e.text.length) es
    | some next =>
      if next = page then spansFrom page start (pos + 2 + e.text.length) es
      else ⟨page, start, some (pos + 2)⟩ :: spansFrom next (pos + 2) (pos + 2 + e.text.length) es

theorem closeLast_append (closed : List PageSpan) (page start stop : Nat) :
    closeLast (closed ++ [⟨page, start, none⟩]) stop = closed ++ [⟨page, start, some stop⟩] := by
  simp [closeLast]

/-- The loop from a state with an open span closes it where `spansFrom` says. -/
theorem addEntry_foldl_pageMap (entries : List Entry) {state : Build} (hparts : state.parts ≠ [])
    {closed : List PageSpan} {page start : Nat}
    (hopen : state.pageMap = closed ++ [⟨page, start, none⟩]) :
    closeLast (entries.foldl addEntry state).pageMap (entries.foldl addEntry state).pos =
      closed ++ spansFrom page start state.pos entries := by
  induction entries generalizing state closed page start with
  | nil =>
    rw [List.foldl_nil, hopen, closeLast_append, spansFrom]
  | cons e es ih =>
    have hnext : (addEntry state e).parts ≠ [] := by simp [addEntry]
    have hpos : (addEntry state e).pos = state.pos + 2 + e.text.length := by
      simp [addEntry, hparts]
    rw [List.foldl_cons]
    cases hpage : e.page with
    | none =>
      have hsame : (addEntry state e).pageMap = closed ++ [⟨page, start, none⟩] := by
        simp [addEntry, hpage, hopen]
      rw [ih hnext hsame, hpos]
      simp only [spansFrom, hpage]
    | some next =>
      by_cases heq : next = page
      · have hsame : (addEntry state e).pageMap = closed ++ [⟨page, start, none⟩] := by
          simp [addEntry, hpage, hopen, heq]
        rw [ih hnext hsame, hpos]
        simp only [spansFrom, hpage, if_pos heq]
      · have hmoved : (addEntry state e).pageMap =
            (closed ++ [⟨page, start, some (state.pos + 2)⟩]) ++ [⟨next, state.pos + 2, none⟩] := by
          simp [addEntry, hpage, hopen, hparts, Ne.symm heq, closeLast_append]
        rw [ih hnext hmoved, hpos]
        simp only [spansFrom, hpage, if_neg heq, List.append_assoc, List.singleton_append]

theorem build_pageMap {e : Entry} {page : Nat} (hpage : e.page = some page) (es : List Entry) :
    (build (e :: es)).pageMap = spansFrom page 0 e.text.length es := by
  have hfirst : (addEntry ⟨[], [], [], 0⟩ e).pageMap = [] ++ [⟨page, 0, none⟩] := by
    simp [addEntry, hpage, closeLast]
  have hpos : (addEntry ⟨[], [], [], 0⟩ e).pos = e.text.length := by simp [addEntry]
  have hloop := addEntry_foldl_pageMap es (by simp [addEntry]) hfirst
  rw [hpos] at hloop
  exact hloop

/-- Where the last of the entries ends, laid behind one that ends at `pos`. -/
def lastStop : Nat → List Entry → Nat
  | pos, [] => pos
  | pos, e :: es => lastStop (pos + 2 + e.text.length) es

theorem le_lastStop (pos : Nat) (entries : List Entry) : pos ≤ lastStop pos entries := by
  induction entries generalizing pos with
  | nil => exact Nat.le_refl _
  | cons e es ih =>
    have := ih (pos + 2 + e.text.length)
    rw [lastStop]
    omega

theorem lastStop_eq (pos : Nat) (e : Entry) (es : List Entry) :
    lastStop (pos + e.text.length) es =
      pos + (Str.join separator ((e :: es).map Entry.text)).length := by
  induction es generalizing pos e with
  | nil => simp [lastStop]
  | cons e' es ih =>
    rw [lastStop, ih (pos + e.text.length + 2) e']
    simp only [List.map_cons, join_cons_cons, List.length_append, separator, List.length_cons,
      List.length_nil]
    omega

section Spans

variable {entries : List Entry} {page start pos : Nat}

theorem spansFrom_head (entries : List Entry) (page start pos : Nat) :
    ∃ stop rest, spansFrom page start pos entries = ⟨page, start, some stop⟩ :: rest ∧ pos ≤ stop := by
  induction entries generalizing pos with
  | nil => exact ⟨pos, [], rfl, Nat.le_refl _⟩
  | cons e es ih =>
    obtain ⟨stop, rest, heq, hle⟩ := @ih (pos + 2 + e.text.length)
    cases hpage : e.page with
    | none => exact ⟨stop, rest, by simp only [spansFrom, hpage, heq], by omega⟩
    | some next =>
      by_cases hsame : next = page
      · exact ⟨stop, rest, by simp only [spansFrom, hpage, if_pos hsame, heq], by omega⟩
      · refine ⟨pos + 2, spansFrom next (pos + 2) (pos + 2 + e.text.length) es, ?_, by omega⟩
        simp only [spansFrom, hpage, if_neg hsame]

/-- A closed span as a range. -/
def PageSpan.range (s : PageSpan) : Nat × Nat := (s.start, s.stop.getD 0)

theorem spansFrom_closed : ∀ s ∈ spansFrom page start pos entries, s.stop.isSome := by
  fun_induction spansFrom page start pos entries with
  | case1 page start pos => simp
  | case2 page start pos e es hpage ih => exact ih
  | case3 start pos e es page hpage ih => exact ih
  | case4 page start pos e es next hpage hne ih => simpa using ih

/-- The spans of non-empty entries tile what is laid, with no overlap. -/
theorem spansFrom_tiling (hne : ∀ e ∈ entries, e.text ≠ []) (hstart : start < pos) {stop : Nat}
    (hstop : lastStop pos entries = stop) :
    Tiling stop 0 stop start ((spansFrom page start pos entries).map PageSpan.range) := by
  fun_induction spansFrom page start pos entries with
  | case1 page start pos =>
    obtain rfl : pos = stop := hstop
    exact .last hstart (by omega)
  | case2 page start pos e es hpage ih =>
    exact ih (fun e he => hne e (List.mem_cons_of_mem _ he)) (by omega) hstop
  | case3 start pos e es page hpage ih =>
    exact ih (fun e he => hne e (List.mem_cons_of_mem _ he)) (by omega) hstop
  | case4 page start pos e es next hpage hother ih =>
    have hpos := List.length_pos_iff.mpr (hne e List.mem_cons_self)
    have hle := le_lastStop (pos + 2 + e.text.length) es
    rw [lastStop] at hstop
    have htail := ih (fun e he => hne e (List.mem_cons_of_mem _ he)) (by omega) hstop
    have hrange : PageSpan.range ⟨page, start, some (pos + 2)⟩ = (start, pos + 2) := rfl
    rw [List.map_cons, hrange]
    exact .step (by omega) (by omega) (by omega) (by omega) (Nat.le_refl _) (Nat.le_refl _) htail

/-- On pages in order the spans' pages are the pages that occur, once each. -/
theorem spansFrom_pages {pages : List Nat} (hpages : entries.map Entry.page = pages.map some)
    (hsorted : (page :: pages).Pairwise (· ≤ ·)) :
    ((spansFrom page start pos entries).map PageSpan.page).Pairwise (· < ·) ∧
      ∀ q, q ∈ (spansFrom page start pos entries).map PageSpan.page ↔ q ∈ page :: pages := by
  fun_induction spansFrom page start pos entries generalizing pages with
  | case1 page start pos =>
    obtain rfl : pages = [] := by simpa using hpages.symm
    simp
  | case2 page start pos e es hpage ih =>
    cases pages with
    | nil => cases hpages
    | cons next pages =>
      rw [List.map_cons, hpage] at hpages
      cases hpages
  | case3 start pos e es page hpage ih =>
    cases pages with
    | nil => cases hpages
    | cons next pages =>
      rw [List.map_cons, List.map_cons, hpage, List.cons.injEq, Option.some.injEq] at hpages
      obtain ⟨rfl, hpages⟩ := hpages
      obtain ⟨hincreasing, hmem⟩ := ih hpages (List.pairwise_cons.mp hsorted).2
      refine ⟨hincreasing, fun q => ?_⟩
      rw [hmem]
      simp
  | case4 page start pos e es next hpage hother ih =>
    cases pages with
    | nil => cases hpages
    | cons next' pages =>
      rw [List.map_cons, List.map_cons, hpage, List.cons.injEq, Option.some.injEq] at hpages
      obtain ⟨rfl, hpages⟩ := hpages
      obtain ⟨hle, hsorted⟩ := List.pairwise_cons.mp hsorted
      obtain ⟨hincreasing, hmem⟩ := ih hpages hsorted
      refine ⟨?_, fun q => ?_⟩
      · -- the pages behind are the next one and later ones
        rw [List.map_cons, List.pairwise_cons]
        refine ⟨fun q hq => ?_, hincreasing⟩
        have hnext := hle next List.mem_cons_self
        have hq := (List.mem_cons.mp ((hmem q).mp hq)).imp_right ((List.pairwise_cons.mp hsorted).1 q)
        show page < q
        omega
      · rw [List.map_cons, List.mem_cons, hmem, List.mem_cons (b := page)]

/-- Every block lies inside the span of its page. -/
theorem spansFrom_block (hstart : start ≤ pos) (b : ParsedBlock) (hb : b ∈ layout (pos + 2) entries)
    (hsome : b.page.isSome) :
    ∃ s ∈ spansFrom page start pos entries, b.page = some s.page ∧ s.start ≤ b.start ∧
      ∃ stop, s.stop = some stop ∧ b.stop ≤ stop := by
  fun_induction spansFrom page start pos entries with
  | case1 page start pos => cases hb
  | case2 page start pos e es hpage ih =>
    rcases List.mem_cons.mp hb with rfl | hb
    · rw [hpage] at hsome
      cases hsome
    · exact ih (by omega) hb
  | case3 start pos e es page hpage ih =>
    rcases List.mem_cons.mp hb with rfl | hb
    · obtain ⟨stop, rest, heq, hle⟩ := spansFrom_head es page start (pos + 2 + e.text.length)
      rw [heq]
      exact ⟨_, List.mem_cons_self, hpage, by show start ≤ pos + 2; omega, stop, rfl, hle⟩
    · exact ih (by omega) hb
  | case4 page start pos e es next hpage hother ih =>
    rcases List.mem_cons.mp hb with rfl | hb
    · obtain ⟨stop, rest, heq, hle⟩ := spansFrom_head es next (pos + 2) (pos + 2 + e.text.length)
      rw [heq]
      exact ⟨_, List.mem_cons_of_mem _ List.mem_cons_self, hpage, Nat.le_refl _, stop, rfl, hle⟩
    · obtain ⟨s, hs, hin⟩ := ih (by omega) hb
      exact ⟨s, List.mem_cons_of_mem _ hs, hin⟩

end Spans

/-! ## The document -/

/-- The page map of a document whose blocks lie on `pages`, in order: the pages that occur, their
spans one behind the other over the whole text, every block inside the span of its page. -/
structure Paged (doc : ParsedDocument) (pages : List Nat) : Prop where
  increasing : (doc.pageMap.map PageSpan.page).Pairwise (· < ·)
  occurring : ∀ p, p ∈ doc.pageMap.map PageSpan.page ↔ p ∈ pages
  closed : ∀ s ∈ doc.pageMap, ∃ stop, s.stop = some stop ∧ s.start < stop ∧ stop ≤ doc.text.length
  first : ∀ s ∈ doc.pageMap.head?, s.start = 0
  contiguous : doc.pageMap.IsChain fun s t => s.stop = some t.start
  last : ∀ s ∈ doc.pageMap.getLast?, s.stop = some doc.text.length
  partition : ∀ i < doc.text.length,
    ∃! s, s ∈ doc.pageMap ∧ s.start ≤ i ∧ ∃ stop, s.stop = some stop ∧ i < stop
  blocks : ∀ b ∈ doc.blocks, ∃ s ∈ doc.pageMap, b.page = some s.page ∧ s.start ≤ b.start ∧
    ∃ stop, s.stop = some stop ∧ b.stop ≤ stop

theorem PageSpan.stop_of_isSome {s : PageSpan} (h : s.stop.isSome) : s.stop = some s.range.2 := by
  obtain ⟨stop, hstop⟩ := Option.isSome_iff_exists.mp h
  rw [range, hstop, Option.getD_some]

/-- What tiles the text, closed, is a page map. -/
theorem Paged.of_tiling {doc : ParsedDocument} {pages : List Nat} {cap : Nat}
    (htiling : Tiling cap 0 doc.text.length 0 (doc.pageMap.map PageSpan.range))
    (hclosed : ∀ s ∈ doc.pageMap, s.stop.isSome)
    (hpages : (doc.pageMap.map PageSpan.page).Pairwise (· < ·) ∧
      ∀ p, p ∈ doc.pageMap.map PageSpan.page ↔ p ∈ pages)
    (hblocks : ∀ b ∈ doc.blocks, ∃ s ∈ doc.pageMap, b.page = some s.page ∧ s.start ≤ b.start ∧
      ∃ stop, s.stop = some stop ∧ b.stop ≤ stop) : Paged doc pages where
  increasing := hpages.1
  occurring := hpages.2
  closed s hs := by
    obtain ⟨-, hlt, hle, -⟩ := htiling.bounds _ (List.mem_map_of_mem hs)
    exact ⟨_, PageSpan.stop_of_isSome (hclosed s hs), hlt, hle⟩
  first s hs := by
    obtain ⟨cut, hcut⟩ := htiling.head?
    rw [List.head?_map, Option.mem_def.mp hs] at hcut
    exact congrArg Prod.fst (Option.some.inj hcut)
  contiguous := by
    have hseams := (List.isChain_map _).mp htiling.seams
    refine hseams.imp_of_mem_imp fun s t hs _ hst => ?_
    rw [PageSpan.stop_of_isSome (hclosed s hs)]
    exact congrArg some (Nat.le_antisymm hst.2 hst.1)
  last s hs := by
    obtain ⟨start, hstart⟩ := htiling.getLast?
    rw [List.getLast?_map, Option.mem_def.mp hs] at hstart
    rw [PageSpan.stop_of_isSome (hclosed s (List.mem_of_getLast? hs))]
    exact congrArg some (congrArg Prod.snd (Option.some.inj hstart))
  partition i hi := by
    obtain ⟨w, hw, hlo, hhi⟩ := htiling.covers (Nat.zero_le i) hi
    obtain ⟨s, hs, rfl⟩ := List.mem_map.mp hw
    refine ⟨s, ⟨hs, hlo, _, PageSpan.stop_of_isSome (hclosed s hs), hhi⟩, ?_⟩
    rintro t ⟨ht, hlo', stop, hstop, hhi'⟩
    have hsame := Option.some.inj (hstop.symm.trans (PageSpan.stop_of_isSome (hclosed t ht)))
    exact htiling.unique ht hs ⟨hlo', hsame ▸ hhi'⟩ ⟨hlo, hhi⟩
  blocks := hblocks

theorem paged_nil : Paged (build []) [] where
  increasing := List.Pairwise.nil
  occurring _ := Iff.rfl
  closed s hs := absurd hs List.not_mem_nil
  first s hs := by cases hs
  contiguous := List.isChain_nil
  last s hs := by cases hs
  partition i hi := absurd hi (Nat.not_lt_zero i)
  blocks b hb := absurd hb List.not_mem_nil

theorem paged_build {entries : List Entry} {pages : List Nat} (hne : ∀ e ∈ entries, e.text ≠ [])
    (hpages : entries.map Entry.page = pages.map some) (hsorted : pages.Pairwise (· ≤ ·)) :
    Paged (build entries) pages := by
  cases entries with
  | nil =>
    obtain rfl : pages = [] := by simpa using hpages.symm
    exact paged_nil
  | cons e es =>
    obtain _ | ⟨page, pages⟩ := pages
    · cases hpages
    rw [List.map_cons, List.map_cons, List.cons.injEq] at hpages
    obtain ⟨hpage, hpages⟩ := hpages
    obtain ⟨htext, hrest⟩ := List.forall_mem_cons.mp hne
    have hmap := build_pageMap hpage es
    have hstop : lastStop e.text.length es = (build (e :: es)).text.length := by
      rw [build_text, ← Nat.zero_add e.text.length, lastStop_eq, Nat.zero_add]
    have htiling := @spansFrom_tiling es page 0 _ hrest (List.length_pos_iff.mpr htext) _ hstop
    rw [← hmap] at htiling
    refine .of_tiling htiling (hmap ▸ spansFrom_closed) (hmap ▸ spansFrom_pages hpages hsorted) ?_
    intro b hb
    rw [hmap]
    rw [build_blocks] at hb
    rcases List.mem_cons.mp hb with rfl | hb
    · obtain ⟨stop, rest, heq, hle⟩ := spansFrom_head es page 0 e.text.length
      rw [heq]
      exact ⟨_, List.mem_cons_self, hpage, Nat.le_refl _, stop, rfl, by simpa using hle⟩
    · rw [Nat.zero_add] at hb
      have hmem := List.mem_map_of_mem (f := Entry.page) (mem_layout hb)
      rw [hpages] at hmem
      obtain ⟨q, -, hq⟩ := List.mem_map.mp hmem
      exact spansFrom_block (Nat.zero_le _) b hb (Option.isSome_iff_exists.mpr ⟨q, hq.symm⟩)

/-- The blocks of a built document are its entries, in order, each the slice of the text its
offsets say, with two newlines between neighbours; the page map of entries with pages in order
lists the pages that occur and cuts the text into their spans. -/
theorem build_bookkeeping {entries : List Entry} (hne : ∀ e ∈ entries, e.text ≠ []) :
    let doc := build entries
    doc.blocks.map (fun b => (⟨b.kind, b.text, b.page⟩ : Entry)) = entries ∧
      (∀ b ∈ doc.blocks, Str.slice doc.text b.start b.stop = b.text) ∧
      (doc.blocks.IsChain fun b c =>
        c.start = b.stop + 2 ∧ Str.slice doc.text b.stop c.start = ['\n', '\n']) ∧
      ∀ pages : List Nat, entries.map Entry.page = pages.map some → pages.Pairwise (· ≤ ·) →
        Paged doc pages := by
  obtain ⟨hslices, hchain⟩ := @layout_slices _ [] _ (build_text entries)
  rw [List.length_nil, ← build_blocks] at hslices hchain
  refine ⟨by rw [build_blocks, layout_entries], hslices, hchain, fun pages hpages hsorted => ?_⟩
  exact paged_build hne hpages hsorted

/-- Three lines on two pages that are not neighbours. -/
theorem build_bookkeeping_pages :
    let doc := build [⟨.heading, "1. A".toList, some 2⟩, ⟨.paragraph, "x".toList, some 2⟩,
      ⟨.paragraph, "yz".toList, some 5⟩]
    doc.pageMap = [⟨2, 0, some 9⟩, ⟨5, 9, some 11⟩] ∧ Paged doc [2, 2, 5] :=
  ⟨by decide +kernel, (build_bookkeeping (by decide)).2.2.2 _ (by decide) (by decide)⟩

end ContractIntel.Parsing
