import ContractIntel.Laws.Text.Windows

/-!
# Which chunks add text

Each round of `_split_range` moves the start of its window on, and nothing there moves the stop. A
bound is a stop only in the upper half of the budget, but a blank is one wherever it stands: when
the last stop is the last blank the next window sees, the next window stops there again. Such a
round stalls, and the chunks of a document add text each if and only if no round stalls
(`chunkDocument_fresh_iff`).
-/

namespace ContractIntel.Chunking

open Parsing (Entry ParsedDocument build layout)

/-! ## Rounds -/

/-- The loop states, a position and the stop of the window before it, that the loop reaches from
one of them. -/
inductive Reaches (text : Str) (stop : Nat) (bounds : List Nat) : Nat → Nat → Nat → Nat → Prop
  | here {pos last : Nat} : Reaches text stop bounds pos last pos last
  | round {pos last pos' last' : Nat} (h : pos + MAX_CHUNK_CHARS < stop)
      (rest : Reaches text stop bounds (nextPos text pos (windowStop text bounds pos))
        (windowStop text bounds pos) pos' last') : Reaches text stop bounds pos last pos' last'

/-- In this state a round stops where the round before did, or in front of it. -/
structure Stalls (text : Str) (stop : Nat) (bounds : List Nat) (pos last : Nat) : Prop where
  /-- The rest of the range does not fit. -/
  long : pos + MAX_CHUNK_CHARS < stop
  /-- No block ends in the upper half of the budget. -/
  unbounded : ∀ bound ∈ bounds, ¬ Qualifies pos bound
  /-- There is a blank behind the position, up to the last stop. -/
  blank : ∃ i, pos < i ∧ i ≤ last ∧ BlankAt text i
  /-- There is none between the last stop and the end of the budget. -/
  solid : ∀ i, last < i → i < pos + MAX_CHUNK_CHARS → ¬ BlankAt text i

section Rounds

variable {text : Str} {stop : Nat} {bounds : List Nat} {pos last : Nat}

/-- A window that has to be cut passes the last stop unless its round stalls. -/
theorem lt_windowStop_iff (hlong : pos + MAX_CHUNK_CHARS < stop)
    (hlast : last ≤ pos + OVERLAP_CHARS) :
    last < windowStop text bounds pos ↔ ¬ Stalls text stop bounds pos last := by
  have hmax : MAX_CHUNK_CHARS = 8000 := rfl
  have hoverlap : OVERLAP_CHARS = 200 := rfl
  rcases windowStop_spec text bounds pos with ⟨hmem, hq⟩ | ⟨hnone, hsnap⟩
  · -- half a budget is more than the overlap
    have hhalf := hq.2.2
    exact ⟨fun _ hstall => hstall.unbounded _ hmem hq, fun _ => by omega⟩
  · rw [hsnap]
    have hlt := (@snapBackward_bounds text (pos + MAX_CHUNK_CHARS) pos (by omega)).1
    obtain ⟨hafter, hcut⟩ := snapBackward_spec text (pos + MAX_CHUNK_CHARS) pos
    generalize snapBackward text (pos + MAX_CHUNK_CHARS) pos = cut at hlt hafter hcut
    constructor
    · rintro hpast ⟨-, -, ⟨i, hi, hil, hblank⟩, hsolid⟩
      rcases hcut with ⟨hlim, hcutblank⟩ | ⟨-, hnoblank⟩
      · exact hsolid cut hpast hlim hcutblank
      · exact hnoblank i hi (by omega) hblank
    · intro hgo
      by_contra hback
      rcases hcut with ⟨-, hcutblank⟩ | ⟨hlim, -⟩
      · exact hgo ⟨hlong, hnone, ⟨cut, hlt, by omega, hcutblank⟩,
          fun i hi hilim => hafter i (by omega) hilim⟩
      · omega

/-- The stops of a range's windows go up from the last one if and only if no round stalls. -/
theorem splitRange_increases_iff (hlen : stop ≤ text.length) (hpos : pos < stop)
    (hstop : last < stop) (hlast : last ≤ pos + OVERLAP_CHARS) :
    ((∀ w ∈ splitRange text stop bounds pos, last < w.2) ∧
        (splitRange text stop bounds pos).Pairwise fun v w => v.2 < w.2) ↔
      ∀ pos' last', Reaches text stop bounds pos last pos' last' →
        ¬ Stalls text stop bounds pos' last' := by
  fun_induction splitRange text stop bounds pos generalizing last with
  | case1 pos _ hfits =>
    have hstay : ∀ pos' last', Reaches text stop bounds pos last pos' last' →
        ¬ Stalls text stop bounds pos' last' := by
      intro pos' last' hreach
      cases hreach with
      | here => exact fun hstall => absurd hstall.long (by omega)
      | round h => omega
    simpa [hstop] using hstay
  | case2 pos _ hfits cut =>
    rename_i ih
    obtain ⟨hlt, hcap⟩ := windowStop_bounds text bounds pos
    have hcut : windowStop text bounds pos < stop := by omega
    obtain ⟨hgap, hover⟩ := nextPos_bounds hlt (Nat.le_trans (Nat.le_of_lt hcut) hlen)
    have hround := @lt_windowStop_iff text stop bounds pos last (by omega) hlast
    have hrest := ih (Nat.lt_of_le_of_lt hgap hcut) hcut hover
    rw [List.forall_mem_cons, List.pairwise_cons]
    constructor
    · rintro ⟨⟨hfirst, -⟩, habove, hpair⟩ pos' last' hreach
      cases hreach with
      | here => exact hround.mp hfirst
      | round _ hreach => exact hrest.mp ⟨habove, hpair⟩ pos' last' hreach
    · intro hgo
      have hfirst := hround.mpr (hgo pos last .here)
      obtain ⟨habove, hpair⟩ := hrest.mpr fun pos' last' hreach =>
        hgo pos' last' (.round (by omega) hreach)
      exact ⟨⟨hfirst, fun w hw => Nat.lt_trans hfirst (habove w hw)⟩, habove, hpair⟩
  | case3 pos hnot => exact absurd hpos hnot

/-- A position is at most the overlap in front of the last stop. -/
theorem Reaches.overlap {pos' last' : Nat} (h : Reaches text stop bounds pos last pos' last')
    (hlen : stop ≤ text.length) (hlast : last ≤ pos + OVERLAP_CHARS) :
    last' ≤ pos' + OVERLAP_CHARS := by
  induction h with
  | here => exact hlast
  | @round pos last _ _ hlong _ ih =>
    obtain ⟨hlt, hcap⟩ := windowStop_bounds text bounds pos
    exact ih (nextPos_bounds hlt (by omega)).2

/-- Where each stretch of a budget less the overlap has a blank, no round stalls. -/
theorem Reaches.not_stalls {pos' last' : Nat} (h : Reaches text stop bounds pos last pos' last')
    (hlen : stop ≤ text.length) (hlast : last ≤ pos + OVERLAP_CHARS)
    (hwords : ∀ i, i + (MAX_CHUNK_CHARS - OVERLAP_CHARS) ≤ text.length →
      ∃ j, i < j ∧ j < i + (MAX_CHUNK_CHARS - OVERLAP_CHARS) ∧ BlankAt text j) :
    ¬ Stalls text stop bounds pos' last' := by
  have hover := h.overlap hlen hlast
  have hmax : MAX_CHUNK_CHARS = 8000 := rfl
  have hoverlap : OVERLAP_CHARS = 200 := rfl
  rintro ⟨hlong, -, -, hsolid⟩
  obtain ⟨j, hj, hlim, hblank⟩ := hwords last' (by omega)
  exact hsolid j hj (by omega) hblank

end Rounds

/-! ## Chunks -/

/-- Each chunk adds text to the chunks before it. -/
structure Fresh (chunks : List Chunk) : Prop where
  /-- Chunk stops strictly increase. -/
  increasing : chunks.Pairwise fun c d => c.charEnd < d.charEnd
  /-- No chunk lies in another one. -/
  apart : chunks.Pairwise fun c d =>
    ¬ c.Inside (d.charStart, d.charEnd) ∧ ¬ d.Inside (c.charStart, c.charEnd)

section Chunks

variable {doc : ParsedDocument}

/-- The stops of a laid document's chunks increase if and only if no round of a clause stalls. -/
theorem Laid.increases_iff (h : Laid doc) :
    ((chunkDocument doc).Pairwise fun c d => c.charEnd < d.charEnd) ↔
      ∀ span ∈ clauseSpans doc.blocks, ∀ pos last,
        Reaches doc.text span.2 (windowBounds doc span) span.1 span.1 pos last →
          ¬ Stalls doc.text span.2 (windowBounds doc span) pos last := by
  have hpiece : ∀ span ∈ clauseSpans doc.blocks,
      ((makeChunks doc.text (splitRange doc.text span.2 (windowBounds doc span) span.1)).Pairwise
        fun c d => c.charEnd < d.charEnd) ↔
      ∀ pos last, Reaches doc.text span.2 (windowBounds doc span) span.1 span.1 pos last →
        ¬ Stalls doc.text span.2 (windowBounds doc span) pos last := by
    intro span hspan
    obtain ⟨hlt, hlen, -⟩ := h.spans_bounds span hspan
    rw [← splitRange_increases_iff hlen hlt hlt (Nat.le_add_right _ _)]
    refine List.pairwise_map.trans (and_iff_right fun w hw => ?_).symm
    obtain ⟨hstart, hw, -⟩ := (splitRange_tiling _ hlen span.1 hlt).bounds w hw
    exact Nat.lt_of_le_of_lt hstart hw
  rw [h.chunkDocument_eq_flatMap, List.pairwise_flatMap]
  constructor
  · exact fun hpair span hspan => (hpiece span hspan).mp (hpair.1 span hspan)
  · intro hgo
    refine ⟨fun span hspan => (hpiece span hspan).mpr (hgo span hspan), ?_⟩
    -- a chunk of a later clause starts behind the end of the earlier one
    refine h.spans_pairwise.imp_of_mem fun {s t} hs ht hapart c hc d hd => ?_
    obtain ⟨-, hcs, -⟩ := h.piece_bounds hs hc
    obtain ⟨-, hdt, hdlt, -⟩ := h.piece_bounds ht hd
    exact Nat.lt_of_le_of_lt hcs.2 (Nat.lt_trans (Nat.lt_of_lt_of_le hapart hdt.1) hdlt)

/-- A document whose chunks stop one behind the other has no chunk inside another one. -/
theorem Laid.fresh (h : Laid doc)
    (hincreasing : (chunkDocument doc).Pairwise fun c d => c.charEnd < d.charEnd) :
    Fresh (chunkDocument doc) := by
  refine ⟨hincreasing, ?_⟩
  exact (h.covers.increasing.and hincreasing).imp fun ⟨hstart, hstop⟩ =>
    ⟨fun hin => absurd hin.1 (Nat.not_le.mpr hstart),
      fun hin => absurd hin.2 (Nat.not_le.mpr hstop)⟩

/-- A document with a blank in each stretch of a budget less the overlap has fresh chunks. -/
theorem Laid.fresh_of_words (h : Laid doc)
    (hwords : ∀ i, i + (MAX_CHUNK_CHARS - OVERLAP_CHARS) ≤ doc.text.length →
      ∃ j, i < j ∧ j < i + (MAX_CHUNK_CHARS - OVERLAP_CHARS) ∧ BlankAt doc.text j) :
    Fresh (chunkDocument doc) :=
  h.fresh <| h.increases_iff.mpr fun span hspan _ _ hreach =>
    hreach.not_stalls (h.spans_bounds span hspan).2.1 (Nat.le_add_right _ _) hwords

end Chunks

/-- The chunks of a document add text each if and only if no round of the window loop stalls. -/
theorem chunkDocument_fresh_iff (entries : List Entry) (h : ∀ e ∈ entries, e.text ≠ []) :
    let doc := build entries
    Fresh (chunkDocument doc) ↔
      ∀ span ∈ clauseSpans doc.blocks, ∀ pos last,
        Reaches doc.text span.2 (windowBounds doc span) span.1 span.1 pos last →
          ¬ Stalls doc.text span.2 (windowBounds doc span) pos last := by
  have hlaid := build_laid h
  exact ⟨fun hfresh => hlaid.increases_iff.mp hfresh.increasing,
    fun hgo => hlaid.fresh (hlaid.increases_iff.mpr hgo)⟩

/-- A document that is one window. -/
theorem chunkDocument_fresh_iff_window :
    Fresh (chunkDocument (build [⟨.paragraph, "Pay now".toList, none⟩])) := by
  refine (chunkDocument_fresh_iff [⟨.paragraph, "Pay now".toList, none⟩] (by decide)).mpr ?_
  intro span hspan pos last _ hstall
  have hspans : clauseSpans (build [⟨.paragraph, "Pay now".toList, none⟩]).blocks = [(0, 7)] := by
    decide +kernel
  rw [hspans, List.mem_singleton] at hspan
  have hlong := hspan ▸ hstall.long
  have hmax : MAX_CHUNK_CHARS = 8000 := rfl
  omega

/-- Behind the short word `xxx` a word that fills a window lets the second round stall. -/
theorem stalls_behind_short_word {word : Str} (hlen : MAX_CHUNK_CHARS ≤ word.length)
    (hword : ∀ c ∈ word, c ≠ ' ' ∧ c ≠ '\n') :
    let text := 'x' :: 'x' :: 'x' :: ' ' :: word
    Reaches text text.length [] 0 0 1 3 ∧ Stalls text text.length [] 1 3 := by
  intro text
  have hmax : MAX_CHUNK_CHARS = 8000 := rfl
  have htext : text.length = word.length + 4 := rfl
  have hblank : BlankAt text 3 := .inl rfl
  have hsolid : ∀ i, 3 < i → ¬ BlankAt text i := by
    intro i hi hblank
    obtain ⟨j, rfl⟩ : ∃ j, i = j + 4 := ⟨i - 4, by omega⟩
    rcases hblank with h | h
    · exact (hword _ (List.mem_of_getElem? h)).1 rfl
    · exact (hword _ (List.mem_of_getElem? h)).2 rfl
  have hstop : windowStop text [] 0 = 3 := by
    show snapBackward text (0 + MAX_CHUNK_CHARS) 0 = 3
    obtain ⟨hafter, hcut⟩ := snapBackward_spec text (0 + MAX_CHUNK_CHARS) 0
    rcases hcut with ⟨-, hcutblank⟩ | ⟨-, hnone⟩
    · rcases Nat.lt_trichotomy (snapBackward text (0 + MAX_CHUNK_CHARS) 0) 3 with hlt | heq | hgt
      · exact absurd hblank (hafter 3 hlt (by omega))
      · exact heq
      · exact absurd hcutblank (hsolid _ hgt)
    · exact absurd hblank (hnone 3 (by omega) (by omega))
  have hnext : nextPos text 0 3 = 1 := rfl
  constructor
  · refine .round (by omega) ?_
    rw [hstop, hnext]
    exact .here
  · exact ⟨by omega, fun bound hbound => absurd hbound List.not_mem_nil,
      ⟨3, by omega, Nat.le_refl _, hblank⟩, fun i hi _ => hsolid i hi⟩

/-- A document of one paragraph is one range without bounds. -/
theorem paragraph_increases_iff {text : Str} (h : text ≠ []) :
    ((chunkDocument (build [⟨.paragraph, text, none⟩])).Pairwise fun c d =>
        c.charEnd < d.charEnd) ↔
      ∀ pos last, Reaches text text.length [] 0 0 pos last →
        ¬ Stalls text text.length [] pos last := by
  have hblocks := Parsing.build_blocks [⟨.paragraph, text, none⟩]
  have htext : (build [⟨.paragraph, text, none⟩]).text = text := by
    rw [Parsing.build_text]
    exact Parsing.join_singleton _ _
  have hspans : clauseSpans (build [⟨.paragraph, text, none⟩]).blocks = [(0, text.length)] := by
    rw [hblocks, layout, clauseSpans_cons]
    simp [layout, spansOf]
  have hbounds (span) : windowBounds (build [⟨.paragraph, text, none⟩]) span = [] := by
    rw [windowBounds, hblocks]
    rfl
  rw [(build_laid (List.forall_mem_singleton.mpr h)).increases_iff, hspans, htext]
  simp only [List.forall_mem_singleton, hbounds]

/-- A short word in front of a long one: the second window stops where the first one did. -/
theorem chunkDocument_repeats_word :
    let entries : List Entry := [⟨.paragraph, "xxx ".toList ++ List.replicate 9000 'y', none⟩]
    (∀ e ∈ entries, e.text ≠ [] ∧ Str.strip e.text = e.text) ∧
      ¬ (chunkDocument (build entries)).Pairwise fun c d => c.charEnd < d.charEnd := by
  have hlen : (List.replicate 9000 'y').length = 9000 := List.length_replicate
  have hword : ∀ c ∈ List.replicate 9000 'y', c = 'y' := fun c hc => List.eq_of_mem_replicate hc
  have hlast : (List.replicate 9000 'y').reverse = 'y' :: List.replicate 8999 'y' := by
    rw [List.reverse_replicate]
    rfl
  generalize List.replicate 9000 'y' = word at hlen hword hlast
  intro entries
  obtain ⟨hreach, hstall⟩ := @stalls_behind_short_word word (by rw [hlen]; decide)
    fun c hc => hword c hc ▸ by decide
  refine ⟨fun e he => ?_, fun hpair => ?_⟩
  · obtain rfl := List.mem_singleton.mp he
    have hfirst : ('x' :: 'x' :: 'x' :: ' ' :: word).dropWhile Str.isSpace =
        'x' :: 'x' :: 'x' :: ' ' :: word := List.dropWhile_cons_of_neg (by decide)
    refine ⟨List.cons_ne_nil _ _, ?_⟩
    show Str.strip ('x' :: 'x' :: 'x' :: ' ' :: word) = 'x' :: 'x' :: 'x' :: ' ' :: word
    have hrev : ('x' :: 'x' :: 'x' :: ' ' :: word).reverse =
        word.reverse ++ [' ', 'x', 'x', 'x'] := by simp
    rw [Str.strip, hfirst, hrev, hlast, List.cons_append,
      List.dropWhile_cons_of_neg (by decide), ← List.cons_append, ← hlast, ← hrev,
      List.reverse_reverse]
  · exact (paragraph_increases_iff (List.cons_ne_nil _ _)).mp hpair 1 3 hreach hstall

end ContractIntel.Chunking
