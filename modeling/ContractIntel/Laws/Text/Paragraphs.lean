import ContractIntel.Laws.Text.Parsing
import ContractIntel.Laws.Text.Str
import ContractIntel.Text.Diffing
import Mathlib.Data.List.Infix

/-!
# How a text falls into paragraphs

The paragraph scan stops at the first `"\n\n"` and goes on two characters later, whatever stands
there: runs of newlines, blank stretches, no separator at all. Its paragraphs are separate slices
of the text that hold every character that is not whitespace. Of a text joined from blocks that
hold no separator themselves they are the blocks, where the join laid them (`paragraphs_join`).
-/

namespace ContractIntel.Diffing

open Str (Visible)

/-! ## Paragraphs -/

/-- A paragraph is a slice of the text that is not blank. -/
structure Paragraph.In (p : Paragraph) (text : Str) : Prop where
  text_eq : p.text = Str.slice text p.start p.stop
  stop_le : p.stop ≤ text.length
  visible : ∃ i, p.start ≤ i ∧ i < p.stop ∧ Visible text i

theorem Paragraph.In.lt {p : Paragraph} {text : Str} (h : p.In text) : p.start < p.stop := by
  obtain ⟨i, hstart, hstop, -⟩ := h.visible
  omega

/-- Where a paragraph from `pos` on ends, and that the scan skips nothing but newlines. -/
theorem paragraph_stop {text : Str} {pos : Nat} (h : pos < text.length) :
    let stop := (Str.find text ['\n', '\n'] pos).getD text.length
    pos ≤ stop ∧ stop ≤ text.length ∧ ∀ i, stop ≤ i → i < stop + 2 → ¬ Visible text i := by
  cases hfind : Str.find text ['\n', '\n'] pos with
  | none =>
    refine ⟨Nat.le_of_lt h, Nat.le_refl _, fun i hi _ ⟨c, hc, _⟩ => ?_⟩
    rw [List.getElem?_eq_none hi] at hc
    cases hc
  | some stop =>
    obtain ⟨hle, rest, hrest⟩ := Str.find_eq_some hfind
    have hlen := congrArg List.length hrest
    simp only [List.length_append, List.length_cons, List.length_nil, List.length_drop] at hlen
    rw [Option.getD_some]
    refine ⟨hle, by omega, fun i hi hlt ⟨c, hc, hspace⟩ => ?_⟩
    have hchar : (['\n', '\n'] ++ rest)[i - stop]? = some c := by
      rw [hrest, List.getElem?_drop, Nat.add_sub_cancel' hi, hc]
    have hoffset : i - stop = 0 ∨ i - stop = 1 := by omega
    rcases hoffset with hz | hz <;> rw [hz] at hchar <;> cases hchar <;> cases hspace

section Scan

variable {text : Str} {rounds pos : Nat}

/-- One round of the scan: the paragraph up to the stop, unless it is blank, and the rest. -/
theorem paragraphsFrom_cases (rounds : Nat) (h : pos < text.length) :
    ∃ stop, pos ≤ stop ∧ stop ≤ text.length ∧
      (∀ i, stop ≤ i → i < stop + 2 → ¬ Visible text i) ∧
      ((paragraphsFrom text (rounds + 1) pos =
          ⟨pos, stop, Str.slice text pos stop⟩ :: paragraphsFrom text rounds (stop + 2) ∧
          ∃ i, pos ≤ i ∧ i < stop ∧ Visible text i) ∨
        (paragraphsFrom text (rounds + 1) pos = paragraphsFrom text rounds (stop + 2) ∧
          ¬ ∃ i, pos ≤ i ∧ i < stop ∧ Visible text i)) := by
  obtain ⟨hle, hlen, hskip⟩ := paragraph_stop h
  refine ⟨_, hle, hlen, hskip, ?_⟩
  rw [← Str.visible_slice, ← Str.strip_ne_nil_iff, paragraphsFrom, if_pos h]
  by_cases hblank : Str.strip
      (Str.slice text pos ((Str.find text ['\n', '\n'] pos).getD text.length)) = []
  · exact .inr ⟨by simp [hblank], by simp [hblank]⟩
  · exact .inl ⟨by simp [hblank], hblank⟩

theorem paragraphsFrom_of_length_le (h : text.length ≤ pos) : paragraphsFrom text rounds pos = [] := by
  cases rounds with
  | zero => rfl
  | succ rounds => rw [paragraphsFrom, if_neg (Nat.not_lt.mpr h)]

theorem paragraphsFrom_in :
    ∀ p ∈ paragraphsFrom text rounds pos, pos ≤ p.start ∧ p.In text := by
  induction rounds generalizing pos with
  | zero => exact fun p hp => absurd hp List.not_mem_nil
  | succ rounds ih =>
    intro p hp
    rcases Nat.lt_or_ge pos text.length with hlt | hge
    · obtain ⟨stop, hle, hlen, -, ⟨heq, hvisible⟩ | ⟨heq, -⟩⟩ := paragraphsFrom_cases rounds hlt <;>
        rw [heq] at hp
      · rcases List.mem_cons.mp hp with rfl | hp
        · exact ⟨Nat.le_refl _, rfl, hlen, hvisible⟩
        · obtain ⟨hstart, hin⟩ := ih p hp
          exact ⟨by omega, hin⟩
      · obtain ⟨hstart, hin⟩ := ih p hp
        exact ⟨by omega, hin⟩
    · rw [paragraphsFrom_of_length_le hge] at hp
      cases hp

theorem paragraphsFrom_pairwise :
    (paragraphsFrom text rounds pos).Pairwise fun p q => p.stop < q.start := by
  induction rounds generalizing pos with
  | zero => exact List.Pairwise.nil
  | succ rounds ih =>
    rcases Nat.lt_or_ge pos text.length with hlt | hge
    · obtain ⟨stop, -, -, -, ⟨heq, -⟩ | ⟨heq, -⟩⟩ := paragraphsFrom_cases rounds hlt <;> rw [heq]
      · refine List.pairwise_cons.mpr ⟨fun q hq => ?_, ih⟩
        have := (paragraphsFrom_in q hq).1
        show stop < q.start
        omega
      · exact ih
    · rw [paragraphsFrom_of_length_le hge]
      exact List.Pairwise.nil

/-- With rounds for the rest of the text, no visible character is passed over. -/
theorem paragraphsFrom_complete (h : text.length ≤ pos + rounds) {i : Nat} (hi : pos ≤ i)
    (hvisible : Visible text i) :
    ∃ p ∈ paragraphsFrom text rounds pos, p.start ≤ i ∧ i < p.stop := by
  have hlt : i < text.length := by
    obtain ⟨c, hc, -⟩ := hvisible
    exact (List.getElem?_eq_some_iff.mp hc).1
  induction rounds generalizing pos with
  | zero => omega
  | succ rounds ih =>
    obtain ⟨stop, hle, -, hskip, hcase⟩ :=
      paragraphsFrom_cases rounds (Nat.lt_of_le_of_lt hi hlt)
    rcases Nat.lt_or_ge i stop with hin | hout
    · -- inside the paragraph, which is not blank then
      rcases hcase with ⟨heq, -⟩ | ⟨-, hblank⟩
      · rw [heq]
        exact ⟨_, List.mem_cons_self, hi, hin⟩
      · exact absurd ⟨i, hi, hin, hvisible⟩ hblank
    · have hafter : stop + 2 ≤ i := by
        by_contra hbefore
        exact hskip i hout (by omega) hvisible
      obtain ⟨p, hp, hin⟩ := ih (by omega) hafter
      refine ⟨p, ?_, hin⟩
      rcases hcase with ⟨heq, -⟩ | ⟨heq, -⟩ <;> rw [heq]
      · exact List.mem_cons_of_mem _ hp
      · exact hp

end Scan

/-! ## The paragraphs of joined blocks -/

/-- A block the scan reads back as one paragraph. -/
structure Block (text : Str) : Prop where
  visible : Str.strip text ≠ []
  whole : ¬ ['\n', '\n'] <:+: text
  closed : text.getLast? ≠ some '\n'

instance (text : Str) : Decidable (Block text) :=
  decidable_of_iff
    (Str.strip text ≠ [] ∧ ¬ ['\n', '\n'] <:+: text ∧ text.getLast? ≠ some '\n')
    ⟨fun ⟨hvisible, hwhole, hclosed⟩ => ⟨hvisible, hwhole, hclosed⟩,
      fun ⟨hvisible, hwhole, hclosed⟩ => ⟨hvisible, hwhole, hclosed⟩⟩

/-- The paragraphs of blocks laid from `pos` on, with two characters between them. -/
def lay : Nat → List Str → List Paragraph
  | _, [] => []
  | pos, b :: bs => ⟨pos, pos + b.length, b⟩ :: lay (pos + b.length + 2) bs

/-- The search runs through a block to the separator behind it. -/
theorem findFrom_separator {b : Str} (hwhole : ¬ ['\n', '\n'] <:+: b)
    (hclosed : b.getLast? ≠ some '\n') (rest : Str) (pos : Nat) :
    Str.findFrom ['\n', '\n'] (b ++ '\n' :: '\n' :: rest) pos = some (pos + b.length) := by
  induction b generalizing pos with
  | nil => simp [Str.findFrom]
  | cons c b ih =>
    have hnot : ¬ ['\n', '\n'] <+: c :: b ++ '\n' :: '\n' :: rest := by
      cases b with
      | nil =>
        simp only [List.getLast?_singleton, ne_eq, Option.some.injEq] at hclosed
        simp [Ne.symm hclosed]
      | cons d b =>
        intro hpre
        obtain ⟨rfl, rfl⟩ : '\n' = c ∧ '\n' = d := by simpa using hpre
        exact hwhole ⟨[], b, rfl⟩
    rw [List.cons_append, Str.findFrom, if_neg (by simpa using hnot), ih, List.length_cons]
    · congr 1
      omega
    · exact fun h => hwhole (h.trans (List.suffix_cons c b).isInfix)
    · cases b with
      | nil => exact fun h => by cases h
      | cons d b => rwa [List.getLast?_cons_cons] at hclosed

theorem findFrom_eq_none {needle rest : Str} (hneedle : needle ≠ []) (h : ¬ needle <:+: rest)
    (pos : Nat) : Str.findFrom needle rest pos = none := by
  induction rest generalizing pos with
  | nil => simp [Str.findFrom, hneedle]
  | cons c rest ih =>
    have hnot : ¬ needle <+: c :: rest := fun hpre => h hpre.isInfix
    rw [Str.findFrom, if_neg (by simpa using hnot), ih]
    exact fun hin => h (hin.trans (List.suffix_cons c rest).isInfix)

/-- One round over a block, once the search stops behind it. -/
theorem paragraphsFrom_block (before rest : Str) {b : Str} (hb : Block b) (rounds : Nat)
    (hstop : (Str.find (before ++ (b ++ rest)) ['\n', '\n'] before.length).getD
      (before ++ (b ++ rest)).length = before.length + b.length) :
    paragraphsFrom (before ++ (b ++ rest)) (rounds + 1) before.length =
      ⟨before.length, before.length + b.length, b⟩ ::
        paragraphsFrom (before ++ (b ++ rest)) rounds (before.length + b.length + 2) := by
  have hpos : 0 < b.length := by
    refine List.length_pos_iff.mpr ?_
    rintro rfl
    exact hb.visible rfl
  have hlt : before.length < (before ++ (b ++ rest)).length := by
    simp only [List.length_append]
    omega
  rw [paragraphsFrom, if_pos hlt]
  simp only [hstop, Str.slice_append_middle, hb.visible, ne_eq, not_false_eq_true, if_true,
    List.singleton_append]

theorem paragraphsFrom_join {bs : List Str} (h : ∀ b ∈ bs, Block b) (before : Str) {rounds : Nat}
    (hrounds : (Str.join Parsing.separator bs).length ≤ rounds) :
    paragraphsFrom (before ++ Str.join Parsing.separator bs) rounds before.length =
      lay before.length bs := by
  induction bs generalizing before rounds with
  | nil => exact paragraphsFrom_of_length_le (by simp [Str.join])
  | cons b bs ih =>
    obtain ⟨hb, hbs⟩ := List.forall_mem_cons.mp h
    have hfind : ∀ rest, Str.find (before ++ rest) ['\n', '\n'] before.length =
        Str.findFrom ['\n', '\n'] rest before.length := by
      intro rest
      rw [Str.find, List.drop_left]
    have hpos : 0 < b.length := by
      refine List.length_pos_iff.mpr ?_
      rintro rfl
      exact hb.visible rfl
    cases bs with
    | nil =>
      rw [Parsing.join_singleton] at hrounds ⊢
      obtain ⟨rounds, rfl⟩ : ∃ n, rounds = n + 1 := Nat.exists_eq_succ_of_ne_zero (by omega)
      have hround := paragraphsFrom_block before [] hb rounds
      rw [List.append_nil, hfind, findFrom_eq_none (by simp) hb.whole] at hround
      rw [hround (by simp), paragraphsFrom_of_length_le (by simp), lay, lay]
    | cons b' bs =>
      have hnext := fun rounds => @ih hbs (before ++ (b ++ Parsing.separator)) rounds
      rw [Parsing.join_cons_cons, List.append_assoc] at hrounds ⊢
      generalize Str.join Parsing.separator (b' :: bs) = rest at hrounds hnext ⊢
      simp only [List.append_assoc, Parsing.separator, List.length_append, List.length_cons,
        List.length_nil] at hrounds hnext ⊢
      obtain ⟨rounds, rfl⟩ : ∃ n, rounds = n + 1 := Nat.exists_eq_succ_of_ne_zero (by omega)
      have hround := paragraphsFrom_block before ('\n' :: '\n' :: rest) hb rounds
      rw [hfind, findFrom_separator hb.whole hb.closed] at hround
      have hrest := hnext rounds (by omega)
      rw [lay, Nat.add_assoc, ← hrest]
      exact hround rfl

/-- The paragraphs of joined blocks are the blocks. -/
theorem paragraphs_join {bs : List Str} (h : ∀ b ∈ bs, Block b) :
    paragraphs (Str.join Parsing.separator bs) = lay 0 bs :=
  paragraphsFrom_join h [] (Nat.le_refl _)

end ContractIntel.Diffing
