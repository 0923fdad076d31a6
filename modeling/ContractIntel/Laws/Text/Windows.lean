import ContractIntel.Laws.Text.Chunking

/-!
# Where windows stop

A window stops at the end of its range, at a block end, at a blank, or at its budget when no blank
is inside. So a run without blanks is cut only by a window that has no room for it
(`chunkDocument_keeps_words`).
-/

namespace ContractIntel.Chunking

open Parsing (Entry ParsedBlock ParsedDocument build layout separator)

/-! ## Blanks -/

/-- A blank or a newline stands at the position: a window may be cut there. -/
def BlankAt (text : Str) (i : Nat) : Prop := text[i]? = some ' ' ∨ text[i]? = some '\n'

/-- What `rfind` answers is the character's last position in the range. -/
theorem rfind_at {text : Str} {c : Char} {lo hi : Nat} (h : (lo : Int) ≤ Str.rfind text c lo hi) :
    ∃ i : Nat, Str.rfind text c lo hi = i ∧ i < hi ∧ text[i]? = some c := by
  unfold Str.rfind at h ⊢
  split
  case h_1 i hi' =>
    have hmem := List.mem_of_find?_eq_some hi'
    rw [List.mem_reverse, List.mem_range'_1] at hmem
    exact ⟨i, rfl, by omega, by simpa using List.find?_some hi'⟩
  case h_2 hnone =>
    rw [hnone] at h
    simp only at h
    omega

theorem rfind_after {text : Str} {c : Char} {lo hi j : Nat} (hlo : lo ≤ j) (hhi : j < hi)
    (h : Str.rfind text c lo hi < j) : text[j]? ≠ some c := by
  have hmem : j ∈ (List.range' lo (hi - lo)).reverse := by
    rw [List.mem_reverse, List.mem_range'_1]
    omega
  intro hc
  unfold Str.rfind at h
  split at h
  case h_1 i hfind =>
    obtain ⟨-, before, after, hsplit, hbefore⟩ := List.find?_eq_some_iff_append.mp hfind
    have hsorted : (List.range' lo (hi - lo)).reverse.Pairwise (· > ·) :=
      List.pairwise_reverse.mpr (List.pairwise_lt_range')
    rw [hsplit] at hmem hsorted
    rcases List.mem_append.mp hmem with hmem | hmem
    · simpa [hc] using hbefore j hmem
    · rcases List.mem_cons.mp hmem with rfl | hmem
      · omega
      · -- behind the answer the positions are smaller
        have := (List.pairwise_cons.mp (List.pairwise_append.mp hsorted).2.1).1 j hmem
        omega
  case h_2 hnone => simpa [hc] using List.find?_eq_none.mp hnone j hmem

/-- The backward snap stops at the last blank of the range, or at the limit when there is none. -/
theorem snapBackward_spec (text : Str) (limit floor : Nat) :
    (∀ j, snapBackward text limit floor < j → j < limit → ¬ BlankAt text j) ∧
      ((snapBackward text limit floor < limit ∧ BlankAt text (snapBackward text limit floor)) ∨
        (snapBackward text limit floor = limit ∧
          ∀ j, floor < j → j < limit → ¬ BlankAt text j)) := by
  have hafter : ∀ j : Nat, floor ≤ j → j < limit →
      max (Str.rfind text ' ' floor limit) (Str.rfind text '\n' floor limit) < j →
      ¬ BlankAt text j := by
    intro j hlo hhi hmax hblank
    rcases hblank with hspace | hline
    · exact rfind_after hlo hhi (by omega) hspace
    · exact rfind_after hlo hhi (by omega) hline
  unfold snapBackward
  simp only
  split
  case isTrue hcut =>
    obtain ⟨i, hi, hlt, hblank⟩ : ∃ i : Nat, max (Str.rfind text ' ' floor limit)
        (Str.rfind text '\n' floor limit) = i ∧ i < limit ∧ BlankAt text i := by
      rcases Int.le_total (Str.rfind text '\n' floor limit) (Str.rfind text ' ' floor limit)
        with hle | hle
      · rw [Int.max_eq_left hle] at hcut ⊢
        obtain ⟨i, hi, hlt, hc⟩ := rfind_at (Int.le_of_lt hcut)
        exact ⟨i, hi, hlt, .inl hc⟩
      · rw [Int.max_eq_right hle] at hcut ⊢
        obtain ⟨i, hi, hlt, hc⟩ := rfind_at (Int.le_of_lt hcut)
        exact ⟨i, hi, hlt, .inr hc⟩
    rw [hi] at hafter hcut ⊢
    rw [Int.toNat_natCast]
    exact ⟨fun j hj hlim => hafter j (by omega) hlim (by omega), .inl ⟨hlt, hblank⟩⟩
  case isFalse hcut =>
    exact ⟨fun j hj hlim => by omega, .inr ⟨rfl, fun j hj hlim =>
      hafter j (by omega) hlim (by omega)⟩⟩

/-! ## Stops -/

/-- A bound in the upper half of the budget. -/
def Qualifies (pos bound : Nat) : Prop :=
  pos < bound ∧ bound ≤ pos + MAX_CHUNK_CHARS ∧ MAX_CHUNK_CHARS / 2 ≤ bound - pos

/-- A window that has to be cut stops at a bound that qualifies, else at the backward snap. -/
theorem windowStop_spec (text : Str) (bounds : List Nat) (pos : Nat) :
    (windowStop text bounds pos ∈ bounds ∧ Qualifies pos (windowStop text bounds pos)) ∨
      ((∀ bound ∈ bounds, ¬ Qualifies pos bound) ∧
        windowStop text bounds pos = snapBackward text (pos + MAX_CHUNK_CHARS) pos) := by
  unfold windowStop
  simp only
  split
  case h_1 stop hstop =>
    have hmem := List.max?_mem hstop
    simp only [List.mem_filter, decide_eq_true_eq] at hmem
    exact .inl hmem
  case h_2 hnone =>
    rw [List.max?_eq_none_iff, List.filter_eq_nil_iff] at hnone
    exact .inr ⟨fun bound hbound hq => hnone bound hbound (decide_eq_true hq), rfl⟩

/-- The four places where a window of a range stops. -/
theorem splitRange_stops {text : Str} {stop : Nat} {bounds : List Nat} {pos : Nat} :
    ∀ w ∈ splitRange text stop bounds pos, w.2 = stop ∨ w.2 ∈ bounds ∨ BlankAt text w.2 ∨
      (w.2 = w.1 + MAX_CHUNK_CHARS ∧ ∀ j, w.1 < j → j < w.2 → ¬ BlankAt text j) := by
  fun_induction splitRange text stop bounds pos with
  | case1 pos _ hfits =>
    intro w hw
    obtain rfl := List.mem_singleton.mp hw
    exact .inl rfl
  | case2 pos _ hfits cut ih =>
    intro w hw
    rcases List.mem_cons.mp hw with rfl | hw
    · rcases windowStop_spec text bounds pos with ⟨hmem, -⟩ | ⟨-, hsnap⟩
      · exact .inr (.inl hmem)
      · show windowStop text bounds pos = stop ∨ _ ∨ BlankAt text (windowStop text bounds pos) ∨
          windowStop text bounds pos = _ ∧ _
        rcases (snapBackward_spec text (pos + MAX_CHUNK_CHARS) pos).2 with
          ⟨-, hblank⟩ | ⟨heq, hsolid⟩
        · exact .inr (.inr (.inl (hsnap ▸ hblank)))
        · refine .inr (.inr (.inr ⟨hsnap.trans heq, fun j hj hlim => hsolid j hj ?_⟩))
          rw [← heq, ← hsnap]
          exact hlim
    · exact ih w hw
  | case3 pos hpos => exact fun w hw => absurd hw List.not_mem_nil

/-! ## Where blocks end -/

section Blocks

variable {entries : List Entry}

/-- The text of two blocks or more, the first one behind `before`. -/
theorem append_join_cons (before : Str) (e e' : Entry) (es : List Entry) :
    before ++ Str.join separator ((e :: e' :: es).map Entry.text) =
      before ++ e.text ++ '\n' :: '\n' :: Str.join separator ((e' :: es).map Entry.text) := by
  rw [List.map_cons, List.map_cons, Parsing.join_cons_cons, ← List.map_cons, List.append_assoc,
    List.append_assoc]
  rfl

/-- Behind a block that is not the last one stand two newlines. -/
theorem layout_stop_newlines (before : Str) {b : ParsedBlock}
    (hb : b ∈ layout before.length entries) :
    let text := before ++ Str.join separator (entries.map Entry.text)
    b.stop = text.length ∨ (text[b.stop]? = some '\n' ∧ text[b.stop + 1]? = some '\n') := by
  induction entries generalizing before with
  | nil => cases hb
  | cons e es ih =>
    cases es with
    | nil =>
      obtain rfl := List.mem_singleton.mp hb
      exact .inl (by simp)
    | cons e' es =>
      rw [append_join_cons]
      rcases List.mem_cons.mp hb with rfl | hb
      · refine .inr ?_
        show (before ++ e.text ++ _)[before.length + e.text.length]? = _ ∧
          (before ++ e.text ++ _)[before.length + e.text.length + 1]? = _
        rw [← List.length_append, List.getElem?_append_right (Nat.le_refl _),
          List.getElem?_append_right (Nat.le_succ _), Nat.sub_self, Nat.succ_sub (Nat.le_refl _),
          Nat.sub_self]
        exact ⟨rfl, rfl⟩
      · have hlen : (before ++ e.text ++ separator).length = before.length + e.text.length + 2 := by
          simp [separator, Nat.add_assoc]
        have := ih (before ++ e.text ++ separator) (hlen ▸ hb)
        rw [List.append_assoc _ separator] at this
        exact this

/-- Outside the blocks a text has only newlines. -/
theorem layout_covers (before : Str) {i : Nat} (hi : before.length ≤ i)
    (hlt : i < (before ++ Str.join separator (entries.map Entry.text)).length) :
    (∃ b ∈ layout before.length entries, b.start ≤ i ∧ i < b.stop) ∨
      (before ++ Str.join separator (entries.map Entry.text))[i]? = some '\n' := by
  induction entries generalizing before with
  | nil =>
    rw [List.map_nil, show Str.join separator [] = [] from rfl, List.append_nil] at hlt
    omega
  | cons e es ih =>
    rcases Nat.lt_or_ge i (before.length + e.text.length) with hin | hout
    · exact .inl ⟨_, List.mem_cons_self, hi, hin⟩
    · cases es with
      | nil =>
        simp at hlt
        omega
      | cons e' es =>
        rw [append_join_cons] at hlt ⊢
        have hlen : (before ++ e.text ++ separator).length = before.length + e.text.length + 2 := by
          simp [separator, Nat.add_assoc]
        rcases Nat.lt_or_ge i (before.length + e.text.length + 2) with hgap | hrest
        · refine .inr ?_
          rw [List.getElem?_append_right (by rw [List.length_append]; omega), List.length_append]
          have hoffset : i - (before.length + e.text.length) = 0 ∨
              i - (before.length + e.text.length) = 1 := by omega
          rcases hoffset with h | h <;> rw [h] <;> rfl
        · have hassoc := List.append_assoc (before ++ e.text) separator
            (Str.join separator ((e' :: es).map Entry.text))
          have := ih (before ++ e.text ++ separator) (by omega) (by rw [hassoc]; exact hlt)
          rw [hassoc, hlen] at this
          refine this.imp_left fun hin => ?_
          obtain ⟨b, hb, hin⟩ := hin
          exact ⟨b, List.mem_cons_of_mem _ hb, hin⟩

/-- A block ends at the end of the text, or in front of two newlines. -/
theorem build_stop {b : ParsedBlock} (hb : b ∈ (build entries).blocks) :
    b.stop = (build entries).text.length ∨ ((build entries).text[b.stop]? = some '\n' ∧
      (build entries).text[b.stop + 1]? = some '\n') := by
  rw [Parsing.build_blocks] at hb
  rw [Parsing.build_text]
  exact layout_stop_newlines [] hb

theorem build_covers {i : Nat} (hi : i < (build entries).text.length) :
    (∃ b ∈ (build entries).blocks, b.start ≤ i ∧ i < b.stop) ∨
      (build entries).text[i]? = some '\n' := by
  rw [Parsing.build_text] at hi ⊢
  rw [Parsing.build_blocks]
  exact layout_covers [] (Nat.zero_le i) hi

end Blocks

/-! ## Words -/

/-- A maximal run of characters that are neither blanks nor newlines. -/
structure Run (text : Str) (start stop : Nat) : Prop where
  lt : start < stop
  stop_le : stop ≤ text.length
  solid : ∀ i, start ≤ i → i < stop → ¬ BlankAt text i
  opens : start = 0 ∨ BlankAt text (start - 1)
  closes : stop = text.length ∨ BlankAt text stop

/-- A window that holds the first character of a short run holds the run. -/
theorem Run.within {text : Str} {start stop : Nat} (h : Run text start stop)
    (hlen : stop - start ≤ MAX_CHUNK_CHARS - 1) {w : Nat × Nat} (hstart : w.1 ≤ start)
    (hstop : start < w.2) (hw : w.2 = text.length ∨ BlankAt text w.2 ∨
      (w.2 = w.1 + MAX_CHUNK_CHARS ∧ ∀ j, w.1 < j → j < w.2 → ¬ BlankAt text j)) :
    stop ≤ w.2 := by
  by_contra hcut
  have hmax : MAX_CHUNK_CHARS = 8000 := rfl
  rcases hw with hend | hblank | ⟨hbudget, hsolid⟩
  · have := h.stop_le
    omega
  · exact h.solid w.2 (by omega) (by omega) hblank
  · -- the budget is full, so a blank in front of the run is the window's first character
    rcases h.opens with hzero | hopen
    · omega
    · have := hsolid (start - 1)
      by_cases hfirst : start - 1 ≤ w.1
      · omega
      · exact this (by omega) (by omega) hopen

/-- A word behind a newline runs to the end of the text. -/
theorem run_of_last {front word : Str} (hword : word ≠ [])
    (hsolid : ∀ c ∈ word, c ≠ ' ' ∧ c ≠ '\n') :
    Run (front ++ '\n' :: word) (front.length + 1) (front.length + 1 + word.length) := by
  have hlength : (front ++ '\n' :: word).length = front.length + 1 + word.length := by
    rw [List.length_append, List.length_cons]
    omega
  refine ⟨Nat.lt_add_of_pos_right (List.length_pos_of_ne_nil hword), Nat.le_of_eq hlength.symm,
    fun i hstart hstop => ?_, .inr (.inr ?_), .inl hlength.symm⟩
  · obtain ⟨j, rfl⟩ := Nat.exists_eq_add_of_le hstart
    have hj : j < word.length := by omega
    have hat : (front ++ '\n' :: word)[front.length + 1 + j]? = some word[j] := by
      rw [Nat.add_assoc, List.getElem?_append_right (by omega), Nat.add_sub_cancel_left,
        Nat.add_comm 1, List.getElem?_cons_succ, List.getElem?_eq_getElem hj]
    obtain ⟨hblank, hline⟩ := hsolid word[j] (List.getElem_mem hj)
    rw [BlankAt, hat]
    simp [hblank, hline]
  · rw [Nat.add_sub_cancel, List.getElem?_append_right (Nat.le_refl _), Nat.sub_self,
      List.getElem?_cons_zero]

section Words

variable {entries : List Entry}

/-- The stops of a built document's windows, as a run meets them. -/
theorem chunk_stops (h : ∀ e ∈ entries, e.text ≠ []) {c : Chunk}
    (hc : c ∈ chunkDocument (build entries)) :
    c.charEnd = (build entries).text.length ∨ BlankAt (build entries).text c.charEnd ∨
      (c.charEnd = c.charStart + MAX_CHUNK_CHARS ∧
        ∀ j, c.charStart < j → j < c.charEnd → ¬ BlankAt (build entries).text j) := by
  have hlaid := build_laid h
  have hblock : ∀ b ∈ (build entries).blocks, b.stop = (build entries).text.length ∨
      BlankAt (build entries).text b.stop := by
    intro b hb
    exact (build_stop hb).imp_right fun hnew => .inr hnew.1
  rw [hlaid.chunkDocument_eq_flatMap] at hc
  obtain ⟨span, hspan, hc⟩ := List.mem_flatMap.mp hc
  obtain ⟨w, hw, rfl⟩ := List.mem_map.mp hc
  obtain ⟨-, -, b, hb, hstop⟩ := hlaid.spans_bounds span hspan
  rcases splitRange_stops w hw with hend | hbound | hcut
  · show w.2 = _ ∨ BlankAt _ w.2 ∨ _
    rw [hend, hstop]
    exact (hblock b hb).imp_right .inl
  · obtain ⟨b', hb', hb'stop⟩ : ∃ b ∈ (build entries).blocks, b.stop = w.2 := by
      unfold windowBounds at hbound
      split at hbound
      · obtain ⟨b', hb', heq⟩ := List.mem_map.mp hbound
        exact ⟨b', (List.mem_filter.mp hb').1, heq⟩
      · cases hbound
    show w.2 = _ ∨ BlankAt _ w.2 ∨ _
    rw [← hb'stop]
    exact (hblock b' hb').imp_right .inl
  · exact .inr hcut

end Words

/-- No run that fits a chunk is cut: a chunk with its first character holds it, and some chunk
does. -/
theorem chunkDocument_keeps_words (entries : List Entry) (h : ∀ e ∈ entries, e.text ≠ [])
    {start stop : Nat} (hrun : Run (build entries).text start stop)
    (hlen : stop - start ≤ MAX_CHUNK_CHARS - 1) :
    (∀ c ∈ chunkDocument (build entries), c.charStart ≤ start → start < c.charEnd →
      stop ≤ c.charEnd) ∧
    ∃ c ∈ chunkDocument (build entries), c.charStart ≤ start ∧ stop ≤ c.charEnd := by
  have hwithin : ∀ c ∈ chunkDocument (build entries), c.charStart ≤ start → start < c.charEnd →
      stop ≤ c.charEnd := fun c hc hstart hstop =>
    hrun.within (w := (c.charStart, c.charEnd)) hlen hstart hstop (chunk_stops h hc)
  refine ⟨hwithin, ?_⟩
  have hin : start < (build entries).text.length := Nat.lt_of_lt_of_le hrun.lt hrun.stop_le
  rcases build_covers hin with ⟨b, hb, hstart, hstop⟩ | hnewline
  · obtain ⟨c, hc, hstart, hstop⟩ := (build_laid h).covers.complete b hb start hstart hstop
    exact ⟨c, hc, hstart, hwithin c hc hstart hstop⟩
  · exact absurd (.inr hnewline) (hrun.solid start (Nat.le_refl _) hrun.lt)

/-- The word behind a paragraph beyond the cap. -/
theorem chunkDocument_keeps_words_last :
    let doc := build [⟨.paragraph, List.replicate 8500 'x', none⟩, ⟨.paragraph, "Pay".toList, none⟩]
    (∀ c ∈ chunkDocument doc, c.charStart ≤ 8502 → 8502 < c.charEnd → 8505 ≤ c.charEnd) ∧
      ∃ c ∈ chunkDocument doc, c.charStart ≤ 8502 ∧ 8505 ≤ c.charEnd := by
  obtain ⟨body, hbody⟩ : ∃ body : Str, List.replicate 8500 'x' = body := ⟨_, rfl⟩
  have hlength : body.length = 8500 := by rw [← hbody, List.length_replicate]
  have hrun : Run (build [⟨.paragraph, body, none⟩, ⟨.paragraph, "Pay".toList, none⟩]).text
      8502 8505 := by
    rw [Parsing.build_text]
    have := @run_of_last (body ++ ['\n']) "Pay".toList (by simp) (by simp)
    simpa [hlength, Parsing.separator] using this
  rw [hbody]
  refine chunkDocument_keeps_words _ (fun e he => ?_) hrun (by decide)
  have hne : body ≠ [] := List.ne_nil_of_length_pos (by omega)
  rcases List.mem_pair.mp he with rfl | rfl
  · exact hne
  · exact List.cons_ne_nil _ _

end ContractIntel.Chunking
