import ContractIntel.Laws.Text.Parsing
import ContractIntel.Lib.Groups
import ContractIntel.Lib.Tiling
import ContractIntel.Text.Chunking

/-!
# What the chunks cover

The windows of a range are a tiling of it (`splitRange_tiling`), whatever the stops, snaps and
clamps of one round do: a round's stop lies in its budget, and the next round starts past this
one's start, not behind its stop, and at most the overlap before it. The clause spans are separate
non-empty ranges that hold every block. A document's chunks are the tilings of its clause spans one
behind the other (`chunkDocument_eq_flatMap`), headings or not, since a document without headings
is one span.

`chunkDocument_covers` reads the guarantees of a chunking off the two facts.
-/

namespace ContractIntel.Chunking

open Lib (Separate Tiling groups hull hulls)
open Parsing (BlockKind Entry ParsedBlock ParsedDocument build layout)

/-! ## The windows of a range -/

theorem rfind_lt {text : Str} {c : Char} {lo hi : Nat} : Str.rfind text c lo hi < max lo hi + 1 := by
  unfold Str.rfind
  split
  case h_1 i hi' =>
    have hmem := List.mem_of_find?_eq_some hi'
    rw [List.mem_reverse, List.mem_range'_1] at hmem
    omega
  case h_2 => omega

theorem snapBackward_bounds {text : Str} {limit floor : Nat} (h : floor < limit) :
    floor < snapBackward text limit floor ∧ snapBackward text limit floor ≤ limit := by
  have hspace := @rfind_lt text ' ' floor limit
  have hline := @rfind_lt text '\n' floor limit
  unfold snapBackward
  simp only
  split <;> omega

/-- A window that has to be cut ends past its start and inside its budget. -/
theorem windowStop_bounds (text : Str) (bounds : List Nat) (pos : Nat) :
    pos < windowStop text bounds pos ∧ windowStop text bounds pos ≤ pos + MAX_CHUNK_CHARS := by
  unfold windowStop
  simp only
  split
  case h_1 stop hstop =>
    have hmem := List.max?_mem hstop
    simp only [List.mem_filter, decide_eq_true_eq] at hmem
    exact ⟨hmem.2.1, hmem.2.2.1⟩
  case h_2 => exact snapBackward_bounds (by simp [MAX_CHUNK_CHARS])

/-- Snapping forward never goes back. -/
theorem le_snapForward (text : Str) {pos : Nat} (h : pos ≤ text.length) :
    pos ≤ snapForward text pos := by
  unfold snapForward
  split
  · exact Nat.le_add_right _ _
  · exact h

theorem nextPos_bounds {text : Str} {pos stop : Nat} (h : pos < stop) (hlen : stop ≤ text.length) :
    nextPos text pos stop ≤ stop ∧ stop ≤ nextPos text pos stop + OVERLAP_CHARS := by
  have hsnap := @le_snapForward text (max (stop - OVERLAP_CHARS) (pos + 1)) (by omega)
  unfold nextPos
  omega

/-- The windows of a range inside the text tile it. -/
theorem splitRange_tiling {text : Str} {stop : Nat} (bounds : List Nat)
    (hlen : stop ≤ text.length) (pos : Nat) (h : pos < stop) :
    Tiling MAX_CHUNK_CHARS OVERLAP_CHARS stop pos (splitRange text stop bounds pos) := by
  fun_induction splitRange text stop bounds pos with
  | case1 pos _ hfits => exact .last h (by omega)
  | case2 pos _ hfits cut ih =>
    obtain ⟨hlt, hcap⟩ := windowStop_bounds text bounds pos
    have hcut : cut < stop := by
      show windowStop text bounds pos < stop
      omega
    obtain ⟨hgap, hover⟩ := nextPos_bounds hlt (Nat.le_trans (Nat.le_of_lt hcut) hlen)
    exact .step hlt hcap (Nat.le_of_lt hcut) (lt_nextPos text pos cut) hgap hover
      (ih (Nat.lt_of_le_of_lt hgap hcut))
  | case3 pos hpos => exact absurd h hpos

/-- A range within the cap is one window. -/
theorem splitRange_of_fits {text : Str} {stop pos : Nat} (bounds : List Nat) (h : pos < stop)
    (hfits : stop - pos ≤ MAX_CHUNK_CHARS) : splitRange text stop bounds pos = [(pos, stop)] := by
  rw [splitRange, if_pos h, if_pos hfits]

/-! ## The clause spans -/

/-- The spans that close from an open span `[start, stop)` on. -/
def spansOf (start stop : Nat) : List ParsedBlock → List (Nat × Nat)
  | [] => [(start, stop)]
  | b :: bs =>
    if b.kind = .heading then (start, stop) :: spansOf b.start b.stop bs
    else spansOf start b.stop bs

theorem addBlock_foldl (blocks : List ParsedBlock) (spans : List (Nat × Nat)) (start stop : Nat) :
    let final := blocks.foldl addBlock ⟨spans, some start, stop⟩
    ∃ last, final.start = some last ∧
      final.spans ++ [(last, final.stop)] = spans ++ spansOf start stop blocks := by
  induction blocks generalizing spans start stop with
  | nil => exact ⟨start, rfl, rfl⟩
  | cons b bs ih =>
    cases hb : b.kind with
    | heading =>
      obtain ⟨last, hlast, hspans⟩ := ih (spans ++ [(start, stop)]) b.start b.stop
      refine ⟨last, ?_, ?_⟩
      · simpa [addBlock, hb] using hlast
      · simpa [addBlock, spansOf, hb] using hspans
    | paragraph =>
      obtain ⟨last, hlast, hspans⟩ := ih spans start b.stop
      refine ⟨last, ?_, ?_⟩
      · simpa [addBlock, hb] using hlast
      · simpa [addBlock, spansOf, hb] using hspans

theorem clauseSpans_cons (b : ParsedBlock) (bs : List ParsedBlock) :
    clauseSpans (b :: bs) = spansOf b.start b.stop bs := by
  obtain ⟨last, hlast, hspans⟩ := addBlock_foldl bs [] b.start b.stop
  have hfirst : addBlock ⟨[], none, 0⟩ b = ⟨[], some b.start, b.stop⟩ := by
    cases hb : b.kind <;> simp [addBlock, hb]
  unfold clauseSpans
  rw [List.foldl_cons, hfirst]
  simp only [hlast]
  simpa using hspans

/-- Separate non-empty blocks, in order. -/
structure Ordered (blocks : List ParsedBlock) : Prop where
  nonempty : ∀ b ∈ blocks, b.start < b.stop
  separate : blocks.Pairwise fun a b => a.stop < b.start

theorem Ordered.toSeparate {blocks : List ParsedBlock} (h : Ordered blocks) :
    Separate ParsedBlock.start ParsedBlock.stop blocks := ⟨h.nonempty, h.separate⟩

/-- A heading opens a span. -/
def isHeading (b : ParsedBlock) : Bool := b.kind = .heading

/-- The spans from an open one on are the hulls of the groups the headings open. -/
theorem spansOf_eq_hulls (blocks : List ParsedBlock) {g : List ParsedBlock} {start stop : Nat}
    (hg : groups isHeading g = [g])
    (hhull : hull ParsedBlock.start ParsedBlock.stop g = some (start, stop)) :
    spansOf start stop blocks =
      hulls ParsedBlock.start ParsedBlock.stop isHeading (g ++ blocks) := by
  induction blocks generalizing g start stop with
  | nil => simp [spansOf, hulls, hg, hhull]
  | cons b bs ih =>
    unfold spansOf
    by_cases hb : b.kind = .heading
    · have hopens : ∀ a ∈ (b :: bs).head?, isHeading a = true := by
        intro a ha
        obtain rfl := Option.mem_some_iff.mp ha
        exact decide_eq_true hb
      have hrest := @ih [b] b.start b.stop rfl rfl
      rw [if_pos hb, hrest, hulls, hulls, Lib.groups_append hopens, List.filterMap_append, hg]
      simp [hhull]
    · obtain ⟨first, last, hfirst, hlast, heq⟩ := Lib.hull_eq_some_iff.mp hhull
      cases heq
      have hprose : isHeading b = false := decide_eq_false hb
      have hjoin : groups isHeading (g ++ [b]) = [g ++ [b]] :=
        @Lib.groups_concat_joins _ isHeading g [] g b hprose hg
      have hnext : hull ParsedBlock.start ParsedBlock.stop (g ++ [b]) =
          some (first.start, b.stop) := by
        refine Lib.hull_eq_some_iff.mpr ⟨first, b, ?_, List.getLast?_concat, rfl⟩
        rw [List.head?_append, hfirst]
        rfl
      rw [if_neg hb, ih hjoin hnext, List.append_assoc]
      rfl

theorem clauseSpans_eq_hulls (blocks : List ParsedBlock) :
    clauseSpans blocks = hulls ParsedBlock.start ParsedBlock.stop isHeading blocks := by
  cases blocks with
  | nil => rfl
  | cons b bs =>
    rw [clauseSpans_cons]
    exact spansOf_eq_hulls bs (g := [b]) rfl rfl

/-- Without headings the open span runs to the end of the last block. -/
theorem spansOf_of_no_heading {blocks : List ParsedBlock} {start stop : Nat}
    (h : ∀ b ∈ blocks, b.kind ≠ .heading) :
    spansOf start stop blocks = [(start, (blocks.getLast?.map ParsedBlock.stop).getD stop)] := by
  induction blocks generalizing stop with
  | nil => rfl
  | cons b bs ih =>
    rw [spansOf, if_neg (h b List.mem_cons_self),
      ih fun c hc => h c (List.mem_cons_of_mem b hc)]
    cases bs with
    | nil => rfl
    | cons c cs =>
      rw [List.getLast?_cons_cons, List.getLast?_eq_some_getLast (List.cons_ne_nil c cs)]
      rfl

/-! ## The chunks of a document -/

/-- A chunk inside a span. -/
def Chunk.Inside (c : Chunk) (span : Nat × Nat) : Prop := span.1 ≤ c.charStart ∧ c.charEnd ≤ span.2

instance (c : Chunk) (span : Nat × Nat) : Decidable (c.Inside span) :=
  inferInstanceAs (Decidable (_ ∧ _))

/-- The guarantees of a chunking, for citations, embeddings and retrieval. -/
structure Covers (doc : ParsedDocument) (chunks : List Chunk) : Prop where
  /-- A chunk is a non-empty slice of the text within the cap. -/
  slices : ∀ c ∈ chunks, c.text = Str.slice doc.text c.charStart c.charEnd ∧ 1 ≤ c.text.length ∧
    c.text.length ≤ MAX_CHUNK_CHARS
  /-- Chunk starts strictly increase. -/
  increasing : chunks.Pairwise fun c d => c.charStart < d.charStart
  /-- Every character of every block is in a chunk. -/
  complete : ∀ b ∈ doc.blocks, ∀ i, b.start ≤ i → i < b.stop →
    ∃ c ∈ chunks, c.charStart ≤ i ∧ i < c.charEnd
  /-- Neighbours inside one clause span leave no gap and overlap by a bounded amount. -/
  seams : chunks.IsChain fun c d => ∀ span ∈ clauseSpans doc.blocks, c.Inside span → d.Inside span →
    d.charStart ≤ c.charEnd ∧ c.charEnd ≤ d.charStart + OVERLAP_CHARS
  /-- No chunk crosses a clause boundary. -/
  confined : ∀ c ∈ chunks, ∃! span, span ∈ clauseSpans doc.blocks ∧ c.Inside span
  /-- A clause within the cap is one chunk. -/
  whole : ∀ span ∈ clauseSpans doc.blocks, span.2 - span.1 ≤ MAX_CHUNK_CHARS →
    chunks.filter (·.Inside span) = [⟨Str.slice doc.text span.1 span.2, span.1, span.2⟩]

/-- The blocks and text the joining pass lays out from non-empty texts. -/
structure Laid (doc : ParsedDocument) : Prop where
  ordered : Ordered doc.blocks
  inText : ∀ b ∈ doc.blocks, b.stop ≤ doc.text.length
  first : ∀ b ∈ doc.blocks.head?, b.start = 0
  last : ∀ b ∈ doc.blocks.getLast?, b.stop = doc.text.length

theorem build_laid {entries : List Entry} (h : ∀ e ∈ entries, e.text ≠ []) :
    Laid (build entries) := by
  have hblocks := Parsing.build_blocks entries
  have htext := Parsing.build_text entries
  constructor
  · rw [hblocks]
    exact ⟨Parsing.layout_lt h, Parsing.layout_pairwise⟩
  · rw [hblocks, htext]
    intro b hb
    simpa using Parsing.layout_stop_le b hb
  · rw [hblocks]
    intro b hb
    cases entries with
    | nil => cases hb
    | cons e es =>
      cases hb
      rfl
  · rw [hblocks, htext]
    intro b hb
    simpa using Parsing.layout_getLast_stop hb

section Laws

variable {doc : ParsedDocument}

/-- A span is not empty, and ends where a block ends. -/
theorem Laid.spans_bounds (h : Laid doc) :
    ∀ s ∈ clauseSpans doc.blocks,
      s.1 < s.2 ∧ s.2 ≤ doc.text.length ∧ ∃ b ∈ doc.blocks, s.2 = b.stop := by
  intro s hs
  rw [clauseSpans_eq_hulls] at hs
  obtain ⟨hlt, -, b, hb, hstop⟩ := h.ordered.toSeparate.hulls_bounds s hs
  exact ⟨hlt, hstop ▸ h.inText b hb, b, hb, hstop⟩

/-- The spans are apart, and so are disjoint. -/
theorem Laid.spans_pairwise (h : Laid doc) :
    (clauseSpans doc.blocks).Pairwise fun s t => s.2 < t.1 := by
  rw [clauseSpans_eq_hulls]
  exact h.ordered.toSeparate.hulls_pairwise isHeading

/-- Every block lies in a span. -/
theorem Laid.spans_cover (h : Laid doc) : ∀ b ∈ doc.blocks,
    ∃ s ∈ clauseSpans doc.blocks, s.1 ≤ b.start ∧ b.stop ≤ s.2 := by
  rw [clauseSpans_eq_hulls]
  exact fun b hb => h.ordered.toSeparate.hulls_cover isHeading hb

/-- A document without headings is one span. -/
theorem Laid.spans_of_no_heading (h : Laid doc) (hne : doc.blocks ≠ [])
    (hkind : ∀ b ∈ doc.blocks, b.kind ≠ .heading) :
    clauseSpans doc.blocks = [(0, doc.text.length)] := by
  obtain ⟨-, -, hfirst, hlast⟩ := h
  cases hblocks : doc.blocks with
  | nil => exact absurd hblocks hne
  | cons b bs =>
    rw [hblocks] at hfirst hlast hkind
    rw [clauseSpans_cons, spansOf_of_no_heading fun c hc => hkind c (List.mem_cons_of_mem _ hc),
      hfirst b rfl]
    cases bs with
    | nil => rw [← hlast b rfl]; rfl
    | cons c cs =>
      rw [List.getLast?_cons_cons, List.getLast?_eq_some_getLast (List.cons_ne_nil c cs)] at hlast
      rw [List.getLast?_eq_some_getLast (List.cons_ne_nil c cs), ← hlast _ rfl]
      rfl

/-- Where the windows of a span may stop: at its block ends, anywhere without headings. -/
def windowBounds (doc : ParsedDocument) (span : Nat × Nat) : List Nat :=
  if doc.blocks.any (·.kind = .heading) then spanBounds doc.blocks span else []

/-- The chunks of a laid document are the windows of its clause spans, one span after the other. -/
theorem Laid.chunkDocument_eq_flatMap (h : Laid doc) :
    chunkDocument doc = (clauseSpans doc.blocks).flatMap fun span =>
      makeChunks doc.text (splitRange doc.text span.2 (windowBounds doc span) span.1) := by
  by_cases hne : doc.blocks = []
  · rw [chunkDocument, if_pos (Or.inr hne), hne]
    rfl
  · have htext : doc.text ≠ [] := by
      obtain ⟨b, hb⟩ := List.exists_mem_of_ne_nil _ hne
      have := h.ordered.nonempty b hb
      have := h.inText b hb
      exact List.ne_nil_of_length_pos (by omega)
    unfold windowBounds
    rw [chunkDocument, if_neg (not_or.mpr ⟨htext, hne⟩)]
    by_cases hkind : doc.blocks.any (·.kind = .heading)
    · simp only [if_pos hkind]
      rfl
    · simp only [if_neg hkind]
      rw [h.spans_of_no_heading hne (by simpa using hkind), List.flatMap_cons, List.flatMap_nil,
        List.append_nil]

/-- What the windows of one clause span give. -/
theorem Laid.piece_bounds (h : Laid doc) {span : Nat × Nat} (hspan : span ∈ clauseSpans doc.blocks)
    {bounds : List Nat} {c : Chunk}
    (hc : c ∈ makeChunks doc.text (splitRange doc.text span.2 bounds span.1)) :
    c.text = Str.slice doc.text c.charStart c.charEnd ∧ c.Inside span ∧ c.charStart < c.charEnd ∧
      c.charEnd ≤ doc.text.length ∧ c.charEnd ≤ c.charStart + MAX_CHUNK_CHARS := by
  obtain ⟨hlt, hlen, -⟩ := h.spans_bounds span hspan
  obtain ⟨w, hw, rfl⟩ := List.mem_map.mp hc
  obtain ⟨hstart, hw, hstop, hcap⟩ := (splitRange_tiling bounds hlen span.1 hlt).bounds w hw
  exact ⟨rfl, ⟨hstart, hstop⟩, hw, Nat.le_trans hstop hlen, hcap⟩

/-- Two spans that hold one non-empty chunk are one span. -/
theorem Laid.span_unique (h : Laid doc) {c : Chunk} (hc : c.charStart < c.charEnd)
    {s t : Nat × Nat} (hs : s ∈ clauseSpans doc.blocks) (ht : t ∈ clauseSpans doc.blocks)
    (hcs : c.Inside s) (hct : c.Inside t) : s = t :=
  Lib.eq_of_within h.spans_pairwise hs ht hc hcs hct

theorem length_slice {text : Str} {start stop : Nat} (h : stop ≤ text.length) :
    (Str.slice text start stop).length = stop - start := by
  simp [Str.slice, Nat.min_eq_left h]

theorem makeChunks_pairwise {text : Str} {windows : List (Nat × Nat)}
    (h : windows.Pairwise fun v w => v.1 < w.1) :
    (makeChunks text windows).Pairwise fun c d => c.charStart < d.charStart :=
  List.pairwise_map.mpr h

theorem makeChunks_isChain {text : Str} {windows : List (Nat × Nat)} {overlap : Nat}
    (h : windows.IsChain fun v w => w.1 ≤ v.2 ∧ v.2 ≤ w.1 + overlap) :
    (makeChunks text windows).IsChain fun c d =>
      d.charStart ≤ c.charEnd ∧ c.charEnd ≤ d.charStart + overlap :=
  List.isChain_map _ |>.mpr h

/-- The chunks inside one of several separate spans are that span's chunks. -/
theorem Laid.filter_inside (h : Laid doc) {span : Nat × Nat}
    (hspan : span ∈ clauseSpans doc.blocks) (bounds : Nat × Nat → List Nat) :
    ((clauseSpans doc.blocks).flatMap fun s =>
      makeChunks doc.text (splitRange doc.text s.2 (bounds s) s.1)).filter (·.Inside span) =
      makeChunks doc.text (splitRange doc.text span.2 (bounds span) span.1) := by
  have hother : ∀ s ∈ clauseSpans doc.blocks, s ≠ span →
      (makeChunks doc.text (splitRange doc.text s.2 (bounds s) s.1)).filter (·.Inside span) = [] := by
    intro s hs hne
    rw [List.filter_eq_nil_iff]
    intro c hc hin
    obtain ⟨-, hcs, hlt, -⟩ := h.piece_bounds hs hc
    exact hne (h.span_unique hlt hs hspan hcs (of_decide_eq_true hin))
  have hself : (makeChunks doc.text (splitRange doc.text span.2 (bounds span) span.1)).filter
      (·.Inside span) = makeChunks doc.text (splitRange doc.text span.2 (bounds span) span.1) := by
    rw [List.filter_eq_self]
    intro c hc
    exact decide_eq_true (h.piece_bounds hspan hc).2.1
  obtain ⟨before, after, hsplit⟩ := List.append_of_mem hspan
  have hpair := h.spans_pairwise
  rw [hsplit] at hpair hother ⊢
  have hlt := (h.spans_bounds span hspan).1
  obtain ⟨-, hafter, hbefore⟩ := List.pairwise_append.mp hpair
  rw [List.filter_flatMap, List.flatMap_append, List.flatMap_cons, hself,
    List.flatMap_eq_nil_iff.mpr, List.flatMap_eq_nil_iff.mpr, List.nil_append, List.append_nil]
  · intro s hs
    refine hother s (by simp [hs]) ?_
    rintro rfl
    exact absurd ((List.pairwise_cons.mp hafter).1 s hs) (by omega)
  · intro s hs
    refine hother s (by simp [hs]) ?_
    rintro rfl
    exact absurd (hbefore s hs s List.mem_cons_self) (by omega)

/-- The chunking of a laid document keeps its guarantees. -/
theorem Laid.covers (h : Laid doc) : Covers doc (chunkDocument doc) := by
  have hchunks := h.chunkDocument_eq_flatMap
  have hpiece : ∀ c ∈ chunkDocument doc, ∃ span ∈ clauseSpans doc.blocks,
      c.text = Str.slice doc.text c.charStart c.charEnd ∧ c.Inside span ∧
        c.charStart < c.charEnd ∧ c.charEnd ≤ doc.text.length ∧
        c.charEnd ≤ c.charStart + MAX_CHUNK_CHARS := by
    intro c hc
    rw [hchunks] at hc
    obtain ⟨span, hspan, hc⟩ := List.mem_flatMap.mp hc
    exact ⟨span, hspan, h.piece_bounds hspan hc⟩
  have htiling := fun span hspan => splitRange_tiling (windowBounds doc span)
    (h.spans_bounds span hspan).2.1 span.1 (h.spans_bounds span hspan).1
  constructor
  · intro c hc
    obtain ⟨-, -, htext, -, hlt, hlen, hcap⟩ := hpiece c hc
    have := @length_slice doc.text c.charStart c.charEnd hlen
    rw [← htext] at this
    exact ⟨htext, by omega, by omega⟩
  · rw [hchunks, List.pairwise_flatMap]
    refine ⟨fun span hspan => makeChunks_pairwise (htiling span hspan).starts_lt, ?_⟩
    refine h.spans_pairwise.imp_of_mem fun {s t} hs ht hapart c hc d hd => ?_
    obtain ⟨-, hcs, hclt, -⟩ := h.piece_bounds hs hc
    obtain ⟨-, hdt, -⟩ := h.piece_bounds ht hd
    have := hcs.2
    have := hdt.1
    omega
  · intro b hb i hi hstop
    obtain ⟨span, hspan, hstart, hend⟩ := h.spans_cover b hb
    obtain ⟨w, hw, hwi⟩ := (htiling span hspan).covers (i := i) (by omega) (by omega)
    refine ⟨⟨Str.slice doc.text w.1 w.2, w.1, w.2⟩, ?_, hwi⟩
    rw [hchunks]
    exact List.mem_flatMap.mpr ⟨span, hspan, List.mem_map_of_mem hw⟩
  · rw [hchunks]
    refine Lib.isChain_flatMap_of_ordered (fun span hspan => ?_) ?_ h.spans_pairwise
    · exact (makeChunks_isChain (htiling span hspan).seams).imp fun c d hcd _ _ _ _ => hcd
    · -- across a clause boundary no span holds both chunks
      intro s hs t ht hapart c hc d hd span hspan hcs hds
      obtain ⟨-, hcin, hclt, -⟩ := h.piece_bounds hs hc
      obtain ⟨-, hdin, hdlt, -⟩ := h.piece_bounds ht hd
      obtain rfl := h.span_unique hclt hs hspan hcin hcs
      obtain rfl := h.span_unique hdlt ht hspan hdin hds
      have := (h.spans_bounds _ hspan).1
      omega
  · intro c hc
    obtain ⟨span, hspan, -, hin, hlt, -⟩ := hpiece c hc
    exact ⟨span, ⟨hspan, hin⟩, fun t ht => h.span_unique hlt ht.1 hspan ht.2 hin⟩
  · intro span hspan hfits
    rw [hchunks, h.filter_inside hspan (windowBounds doc),
      splitRange_of_fits _ (h.spans_bounds span hspan).1 hfits]
    rfl

end Laws

/-- A block beyond the cap is spread over several chunks. -/
theorem Covers.two_le_length {doc : ParsedDocument} {chunks : List Chunk} (h : Covers doc chunks)
    {b : ParsedBlock} (hb : b ∈ doc.blocks) (hin : b.stop ≤ doc.text.length)
    (hlong : MAX_CHUNK_CHARS < b.stop - b.start) : 2 ≤ chunks.length := by
  obtain ⟨c, hc, hfirst, -⟩ := h.complete b hb b.start (Nat.le_refl _) (by omega)
  obtain ⟨d, hd, -, hlast⟩ := h.complete b hb (b.stop - 1) (by omega) (by omega)
  by_contra hfew
  have hsame : c = d := by
    obtain ⟨e, rfl⟩ := List.length_eq_one_iff.mp
      (Nat.le_antisymm (by omega) (List.length_pos_of_mem hc))
    rw [List.mem_singleton.mp hc, List.mem_singleton.mp hd]
  subst hsame
  obtain ⟨htext, -, hcap⟩ := h.slices c hc
  rw [htext, Str.slice, List.length_drop, List.length_take] at hcap
  omega

/-- A heading with its clause. -/
def clause (body : Str) : List Entry :=
  [⟨.heading, "1. Term".toList, none⟩, ⟨.paragraph, body, none⟩]

/-- `chunk_document` on what `_build` makes of non-empty texts: the chunks cover the document. -/
theorem chunkDocument_covers (entries : List Entry) (h : ∀ e ∈ entries, e.text ≠ []) :
    Covers (build entries) (chunkDocument (build entries)) :=
  (build_laid h).covers

/-- A clause beyond the cap. -/
theorem chunkDocument_covers_clause :
    let doc := build (clause (List.replicate 8500 'x'))
    Covers doc (chunkDocument doc) ∧ 2 ≤ (chunkDocument doc).length := by
  have hlong : MAX_CHUNK_CHARS < (List.replicate 8500 'x').length := by
    rw [List.length_replicate]
    decide
  generalize List.replicate 8500 'x' = body at hlong ⊢
  have htexts : ∀ e ∈ clause body, e.text ≠ [] := by
    have hbody : body ≠ [] := List.ne_nil_of_length_pos (by omega)
    simp [clause, hbody]
  have hcovers := chunkDocument_covers (clause body) htexts
  obtain ⟨b, hb, hlength⟩ : ∃ b ∈ (build (clause body)).blocks, b.stop - b.start = body.length := by
    rw [Parsing.build_blocks]
    exact ⟨_, List.mem_cons_of_mem _ List.mem_cons_self, Nat.add_sub_cancel_left _ _⟩
  exact ⟨hcovers, hcovers.two_le_length hb ((build_laid htexts).inText b hb) (hlength ▸ hlong)⟩

end ContractIntel.Chunking
