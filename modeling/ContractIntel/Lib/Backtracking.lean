import ContractIntel.Lib.Pattern
import Mathlib.Data.List.Forall2

/-!
# Which match a backtracking pattern finds

The engine's answer is the first way of matching. A sequence whose parts answer one after the other
answers with both (`match?_seq`), so along an input on which every greedy choice is right the answer
is read off part by part, and no backtracking has to be looked at.

What a pattern accepts, captures apart, is `Accepts`: it forgets the order of the alternatives and
the groups, so two patterns that differ in these accept the same inputs.

## What is proved

- `match?_seq`, `match?_alt_left`, `match?_alt_right`, `match?_group`, `match?_star_more`,
  `match?_star_stop`: the answer of a pattern from the answers of its parts.
- `match?_plus_cls`: greedy repetition of a class takes the whole run.
- `accepts_seq`, `accepts_alt`, `accepts_group`, `accepts_star_congr`: what is accepted.
- `accepts_erase`: a pattern accepts what it accepts without its groups.
- `Plain.captures`, `One.*`: what a match captures.
- `split_unmatched`: inside a part of a split the pattern matches nowhere.
-/

namespace Lib.Pattern

variable {γ δ : Type}

/-! ## The first match -/

section First

variable {p q body : Pattern γ} {input : List Char} {m n : Match γ}

theorem match?_eq_none_iff : p.match? input = none ↔ p.tries input = [] := List.head?_eq_none_iff

theorem match?_cls {f : Char → Bool} {c : Char} (h : f c = true) :
    (cls f : Pattern γ).match? (c :: input) = some ([], input) := by
  simp [match?, h]

theorem match?_cls_none {f : Char → Bool} (h : ∀ c ∈ input.head?, f c = false) :
    (cls f : Pattern γ).match? input = none := by
  cases input with
  | nil => rfl
  | cons c rest => simp [match?, h c rfl]

theorem match?_seq (hp : p.match? input = some m) (hq : q.match? m.2 = some n) :
    (seq p q).match? input = some (m.1 ++ n.1, n.2) := by
  obtain ⟨ms, hms⟩ := List.head?_eq_some_iff.mp hp
  obtain ⟨ns, hns⟩ := List.head?_eq_some_iff.mp hq
  simp [match?, hms, hns]

theorem match?_seq_none (hp : p.match? input = none) : (seq p q).match? input = none := by
  rw [match?_eq_none_iff] at hp ⊢
  simp [hp]

theorem match?_alt_left (hp : p.match? input = some m) : (alt p q).match? input = some m := by
  obtain ⟨ms, hms⟩ := List.head?_eq_some_iff.mp hp
  simp [match?, hms]

theorem match?_alt_right (hp : p.match? input = none) : (alt p q).match? input = q.match? input := by
  rw [match?_eq_none_iff] at hp
  simp [match?, hp]

theorem match?_opt_none (hp : p.match? input = none) : (opt p).match? input = some ([], input) :=
  match?_alt_right hp

/-- A group captures what its body consumed. -/
theorem match?_group {name : γ} {text rest : List Char} (hp : p.match? (text ++ rest) = some ([], rest)) :
    (group name p).match? (text ++ rest) = some ([(name, text)], rest) := by
  obtain ⟨ms, hms⟩ := List.head?_eq_some_iff.mp hp
  simp [match?, hms]

/-! ## Greedy repetition -/

/-- Fuel beyond the input's length changes nothing. -/
theorem repeatTries_fuel (f : List Char → List (Match γ)) {fuel fuel' : Nat} {input : List Char}
    (h : input.length ≤ fuel) (h' : input.length ≤ fuel') :
    repeatTries f fuel input = repeatTries f fuel' input := by
  induction fuel generalizing fuel' input with
  | zero =>
    obtain rfl := List.length_eq_zero_iff.mp (Nat.le_zero.mp h)
    cases fuel' <;> simp [repeatTries_succ]
  | succ fuel ih =>
    cases fuel' with
    | zero =>
      obtain rfl := List.length_eq_zero_iff.mp (Nat.le_zero.mp h')
      simp [repeatTries_succ]
    | succ fuel' =>
      rw [repeatTries_succ, repeatTries_succ]
      congr 2
      funext m
      split
      · rw [@ih fuel' m.2 (by omega) (by omega)]
      · rfl

/-- Another round that consumes something is tried first. -/
theorem match?_star_more (hbody : body.match? input = some m) (hlt : m.2.length < input.length)
    (hrest : (star body).match? m.2 = some n) :
    (star body).match? input = some (m.1 ++ n.1, n.2) := by
  obtain ⟨ms, hms⟩ := List.head?_eq_some_iff.mp hbody
  obtain ⟨fuel, hfuel⟩ := Nat.exists_eq_succ_of_ne_zero (Nat.ne_zero_of_lt hlt)
  have hinner : (repeatTries body.tries fuel m.2).head? = some n := by
    rw [@repeatTries_fuel γ body.tries fuel m.2.length m.2 (by omega) (Nat.le_refl _)]
    exact hrest
  obtain ⟨ns, hns⟩ := List.head?_eq_some_iff.mp hinner
  rw [match?, tries_star, hfuel, repeatTries_succ, hms, List.flatMap_cons, if_pos hlt, hns]
  rfl

theorem match?_star_stop (hbody : body.match? input = none) :
    (star body).match? input = some ([], input) := by
  rw [match?_eq_none_iff] at hbody
  rw [match?, tries_star]
  cases input.length <;> simp [repeatTries_succ, hbody]

/-- Repeating a class takes the whole run. -/
theorem match?_star_cls {f : Char → Bool} {run rest : List Char} (hrun : ∀ c ∈ run, f c = true)
    (hrest : ∀ c ∈ rest.head?, f c = false) :
    (star (cls f) : Pattern γ).match? (run ++ rest) = some ([], rest) := by
  induction run with
  | nil => exact match?_star_stop (match?_cls_none hrest)
  | cons c run ih =>
    obtain ⟨hc, hrun⟩ := List.forall_mem_cons.mp hrun
    exact match?_star_more (m := ([], run ++ rest)) (match?_cls hc) (by simp) (ih hrun)

theorem match?_plus_cls {f : Char → Bool} {run rest : List Char} (hne : run ≠ [])
    (hrun : ∀ c ∈ run, f c = true) (hrest : ∀ c ∈ rest.head?, f c = false) :
    (plus (cls f) : Pattern γ).match? (run ++ rest) = some ([], rest) := by
  obtain ⟨c, run, rfl⟩ := List.exists_cons_of_ne_nil hne
  obtain ⟨hc, hrun⟩ := List.forall_mem_cons.mp hrun
  exact match?_seq (m := ([], run ++ rest)) (match?_cls hc) (match?_star_cls hrun hrest)

/-- A sequence of classes takes a word of them. -/
theorem match?_word {fs : List (Char → Bool)} {text rest : List Char}
    (h : List.Forall₂ (fun f c => f c = true) fs text) :
    (word fs : Pattern γ).match? (text ++ rest) = some ([], rest) := by
  induction h with
  | nil => rfl
  | @cons f c fs text hc _ ih =>
    exact match?_seq (m := ([], text ++ rest)) (match?_cls hc) ih

theorem match?_word_none {f : Char → Bool} {fs : List (Char → Bool)} {text : List Char}
    (h : ∀ c ∈ text.head?, f c = false) : (word (f :: fs) : Pattern γ).match? text = none :=
  match?_seq_none (match?_cls_none h)

end First

/-! ## What is accepted -/

/-- Some way of matching leaves `rest` of the input. -/
def Accepts (p : Pattern γ) (input rest : List Char) : Prop := ∃ caps, (caps, rest) ∈ p.tries input

section Accepts

variable {p q : Pattern γ} {input rest : List Char}

theorem match?_isSome_iff : (p.match? input).isSome ↔ ∃ rest, p.Accepts input rest := by
  unfold match? Accepts
  constructor
  · intro h
    obtain ⟨m, hm⟩ := Option.isSome_iff_exists.mp h
    exact ⟨m.2, m.1, List.mem_of_mem_head? hm⟩
  · rintro ⟨rest, caps, h⟩
    rw [List.isSome_head?]
    exact List.ne_nil_of_mem h

theorem accepts_cls {f : Char → Bool} :
    (cls f : Pattern γ).Accepts input rest ↔ ∃ c, input = c :: rest ∧ f c = true := by
  unfold Accepts
  cases input with
  | nil => simp
  | cons c tail =>
    simp only [tries_cls_cons, List.cons.injEq]
    split
    case isTrue hc =>
      simp only [List.mem_singleton, Prod.mk.injEq, exists_eq_left]
      constructor
      · rintro rfl
        exact ⟨c, ⟨rfl, rfl⟩, hc⟩
      · rintro ⟨_, ⟨rfl, rfl⟩, -⟩
        rfl
    case isFalse hc =>
      constructor
      · rintro ⟨_, ⟨⟩⟩
      · rintro ⟨_, ⟨rfl, rfl⟩, h⟩
        exact absurd h hc

theorem accepts_seq :
    (seq p q).Accepts input rest ↔ ∃ middle, p.Accepts input middle ∧ q.Accepts middle rest := by
  unfold Accepts
  simp only [tries_seq, List.mem_flatMap, List.mem_map, Prod.mk.injEq, Prod.exists]
  constructor
  · rintro ⟨_, a, middle, hp, b, _, hq, -, rfl⟩
    exact ⟨middle, ⟨a, hp⟩, b, hq⟩
  · rintro ⟨middle, ⟨a, hp⟩, b, hq⟩
    exact ⟨a ++ b, a, middle, hp, b, rest, hq, rfl, rfl⟩

theorem accepts_alt :
    (alt p q).Accepts input rest ↔ p.Accepts input rest ∨ q.Accepts input rest := by
  unfold Accepts
  simp only [tries_alt, List.mem_append, exists_or]

theorem accepts_group {name : γ} : (group name p).Accepts input rest ↔ p.Accepts input rest := by
  unfold Accepts
  simp only [tries_group, List.mem_map, Prod.mk.injEq, Prod.exists]
  constructor
  · rintro ⟨_, a, _, hp, -, rfl⟩
    exact ⟨a, hp⟩
  · rintro ⟨a, hp⟩
    exact ⟨_, a, rest, hp, rfl, rfl⟩

theorem accepts_eps : (eps : Pattern γ).Accepts input rest ↔ rest = input := by
  unfold Accepts
  simp

/-- One round of a repetition, captures apart. -/
theorem mem_repeatTries_succ {f : List Char → List (Match γ)} {fuel : Nat} :
    (∃ caps, (caps, rest) ∈ repeatTries f (fuel + 1) input) ↔
      (∃ middle, (∃ caps, (caps, middle) ∈ f input) ∧ middle.length < input.length ∧
        ∃ caps, (caps, rest) ∈ repeatTries f fuel middle) ∨ rest = input := by
  simp only [repeatTries_succ, List.mem_append, List.mem_flatMap, List.mem_singleton, Prod.exists,
    Prod.mk.injEq]
  constructor
  · rintro ⟨caps, ⟨a, middle, hf, hmem⟩ | ⟨-, rfl⟩⟩
    · split at hmem
      · obtain ⟨⟨b, rest'⟩, hb, heq⟩ := List.mem_map.mp hmem
        cases heq
        exact .inl ⟨middle, ⟨a, hf⟩, ‹_›, b, hb⟩
      · cases hmem
    · exact .inr rfl
  · rintro (⟨middle, ⟨a, hf⟩, hlt, b, hb⟩ | rfl)
    · refine ⟨a ++ b, .inl ⟨a, middle, hf, ?_⟩⟩
      rw [if_pos hlt]
      exact List.mem_map.mpr ⟨(b, rest), hb, rfl⟩
    · exact ⟨[], .inr ⟨rfl, rfl⟩⟩

/-- Repetitions of patterns that accept the same accept the same. -/
theorem accepts_star_congr {q : Pattern δ}
    (h : ∀ input rest, p.Accepts input rest ↔ q.Accepts input rest) :
    (star p).Accepts input rest ↔ (star q).Accepts input rest := by
  have rounds : ∀ fuel input, (∃ caps, (caps, rest) ∈ repeatTries p.tries fuel input) ↔
      ∃ caps, (caps, rest) ∈ repeatTries q.tries fuel input := by
    intro fuel
    induction fuel with
    | zero => simp
    | succ fuel ih =>
      intro input
      rw [mem_repeatTries_succ, mem_repeatTries_succ]
      simp only [ih]
      exact or_congr_left (exists_congr fun middle => and_congr_left fun _ => h input middle)
  exact rounds input.length input

/-- A repetition accepts nothing at all. -/
theorem accepts_star_nil : (star p).Accepts input input := by
  unfold Accepts
  rw [tries_star]
  cases input.length <;> simp [repeatTries_succ]

theorem Accepts.length_le (h : p.Accepts input rest) : rest.length ≤ input.length := by
  induction p generalizing input rest with
  | eps => exact Nat.le_of_eq (congrArg List.length (accepts_eps.mp h))
  | cls f =>
    obtain ⟨c, rfl, -⟩ := accepts_cls.mp h
    simp
  | seq p q hp hq =>
    obtain ⟨middle, hpm, hqr⟩ := accepts_seq.mp h
    exact Nat.le_trans (hq hqr) (hp hpm)
  | alt p q hp hq =>
    rcases accepts_alt.mp h with h | h
    · exact hp h
    · exact hq h
  | star body ih =>
    have rounds : ∀ fuel input, (∃ caps, (caps, rest) ∈ repeatTries body.tries fuel input) →
        rest.length ≤ input.length := by
      intro fuel
      induction fuel with
      | zero =>
        rintro input ⟨caps, hmem⟩
        simp only [repeatTries_zero, List.mem_singleton, Prod.mk.injEq] at hmem
        exact Nat.le_of_eq (congrArg List.length hmem.2)
      | succ fuel ihf =>
        intro input hmem
        rcases mem_repeatTries_succ.mp hmem with ⟨middle, -, hlt, hrest⟩ | rfl
        · exact Nat.le_trans (ihf middle hrest) (Nat.le_of_lt hlt)
        · exact Nat.le_refl _
    exact rounds input.length input h
  | group name body ih => exact ih (accepts_group.mp h)

/-- The pattern without its groups. -/
def erase : Pattern γ → Pattern δ
  | .eps => .eps
  | .cls f => .cls f
  | .seq first second => .seq first.erase second.erase
  | .alt left right => .alt left.erase right.erase
  | .star body => .star body.erase
  | .group _ body => body.erase

theorem accepts_erase : (p.erase : Pattern δ).Accepts input rest ↔ p.Accepts input rest := by
  induction p generalizing input rest with
  | eps => rw [erase, accepts_eps, accepts_eps]
  | cls f => rw [erase, accepts_cls, accepts_cls]
  | seq p q hp hq => simp only [erase, accepts_seq, hp, hq]
  | alt p q hp hq => simp only [erase, accepts_alt, hp, hq]
  | star body ih => exact accepts_star_congr fun _ _ => ih
  | group name body ih => rw [erase, accepts_group, ih]

end Accepts

/-! ## Captures -/

/-- No group inside. -/
def Plain : Pattern γ → Prop
  | .eps => True
  | .cls _ => True
  | .seq first second => first.Plain ∧ second.Plain
  | .alt left right => left.Plain ∧ right.Plain
  | .star body => body.Plain
  | .group _ _ => False

/-- A pattern without groups captures nothing. -/
theorem Plain.captures {p : Pattern γ} (h : p.Plain) {input : List Char} :
    ∀ m ∈ p.tries input, m.1 = [] := by
  induction p generalizing input with
  | eps =>
    intro m hm
    rw [List.mem_singleton.mp hm]
  | cls f =>
    intro m hm
    cases input with
    | nil => cases hm
    | cons c rest =>
      rw [tries_cls_cons] at hm
      split at hm
      · rw [List.mem_singleton.mp hm]
      · cases hm
  | seq p q hp hq =>
    intro m hm
    obtain ⟨a, ha, hm⟩ := List.mem_flatMap.mp hm
    obtain ⟨b, hb, rfl⟩ := List.mem_map.mp hm
    show a.1 ++ b.1 = []
    rw [hp h.1 a ha, hq h.2 b hb, List.append_nil]
  | alt p q hp hq =>
    intro m hm
    rcases List.mem_append.mp hm with hm | hm
    · exact hp h.1 m hm
    · exact hq h.2 m hm
  | star body ih =>
    have rounds : ∀ fuel input, ∀ m ∈ repeatTries body.tries fuel input, m.1 = [] := by
      intro fuel
      induction fuel with
      | zero =>
        intro input m hm
        rw [List.mem_singleton.mp hm]
      | succ fuel ihf =>
        intro input m hm
        rcases List.mem_append.mp hm with hm | hm
        · obtain ⟨a, ha, hm⟩ := List.mem_flatMap.mp hm
          split at hm
          · obtain ⟨b, hb, rfl⟩ := List.mem_map.mp hm
            show a.1 ++ b.1 = []
            rw [ih h a ha, ihf a.2 b hb, List.append_nil]
          · cases hm
        · rw [List.mem_singleton.mp hm]
    exact rounds input.length input
  | group name body ih => exact absurd h id

/-- Every match makes one capture, and that is not empty. -/
def One (p : Pattern γ) : Prop :=
  ∀ input, ∀ m ∈ p.tries input, ∃ name text, m.1 = [(name, text)] ∧ text ≠ []

section One

variable {p q : Pattern γ}

/-- A group without groups inside, whose body consumes something. -/
theorem One.group (name : γ) (h : p.Plain)
    (hlt : ∀ input rest, p.Accepts input rest → rest.length < input.length) :
    (Pattern.group name p).One := by
  intro input m hm
  obtain ⟨a, ha, rfl⟩ := List.mem_map.mp hm
  refine ⟨name, _, by rw [h.captures a ha]; rfl, List.ne_nil_of_length_pos ?_⟩
  have := hlt input a.2 ⟨a.1, ha⟩
  rw [List.length_take]
  omega

theorem One.seq_plain (hp : p.One) (hq : q.Plain) : (Pattern.seq p q).One := by
  intro input m hm
  obtain ⟨a, ha, hm⟩ := List.mem_flatMap.mp hm
  obtain ⟨b, hb, rfl⟩ := List.mem_map.mp hm
  obtain ⟨name, text, hcaps, hne⟩ := hp input a ha
  exact ⟨name, text, by rw [hcaps, hq.captures b hb, List.append_nil], hne⟩

theorem One.plain_seq (hp : p.Plain) (hq : q.One) : (Pattern.seq p q).One := by
  intro input m hm
  obtain ⟨a, ha, hm⟩ := List.mem_flatMap.mp hm
  obtain ⟨b, hb, rfl⟩ := List.mem_map.mp hm
  obtain ⟨name, text, hcaps, hne⟩ := hq a.2 b hb
  exact ⟨name, text, by rw [hp.captures a ha, hcaps, List.nil_append], hne⟩

theorem One.alt (hp : p.One) (hq : q.One) : (Pattern.alt p q).One := by
  intro input m hm
  rcases List.mem_append.mp hm with hm | hm
  · exact hp input m hm
  · exact hq input m hm

end One

/-! ## Splitting -/

section Split

variable {p : Pattern γ}

/-- With `piece` scanned so far, no part ever holds a place where the pattern matches: at every
character of a part the engine answered `none`, on what stood from there to the end. -/
theorem splitFrom_unmatched (hconsumes : ∀ input rest, p.Accepts input rest → rest.length < input.length)
    {rounds : Nat} {piece input : List Char} (hrounds : input.length < rounds)
    (hpiece : ∀ s, s ≠ [] → s <:+ piece → p.match? (s ++ input) = none) :
    ∀ part ∈ p.splitFrom rounds piece input,
      ∃ rest, ∀ s, s ≠ [] → s <:+ part → p.match? (s ++ rest) = none := by
  fun_induction splitFrom p rounds piece input with
  | case1 piece input => cases Nat.not_lt_zero _ hrounds
  | case2 rounds piece =>
    intro part hpart
    obtain rfl := List.mem_singleton.mp hpart
    exact ⟨[], hpiece⟩
  | case3 rounds piece c rest m hm ih =>
    intro part hpart
    rcases List.mem_cons.mp hpart with rfl | hpart
    · exact ⟨_, hpiece⟩
    · have hlt := hconsumes _ m.2 ⟨m.1, List.mem_of_mem_head? hm⟩
      refine ih (by omega) (fun s hne hs => ?_) part hpart
      exact absurd (List.suffix_nil.mp hs) hne
  | case4 rounds piece c rest hnone ih =>
    refine ih (by simpa using hrounds) fun s hne hs => ?_
    -- a place in the piece so far, or the one the scan just stood at
    obtain rfl | ⟨t, rfl, ht⟩ := List.suffix_concat_iff.mp hs
    · exact absurd rfl hne
    · rw [List.append_assoc, List.singleton_append]
      by_cases hempty : t = []
      · rw [hempty, List.nil_append, hnone]
      · exact hpiece t hempty ht

/-- Inside a part of a split the pattern matches nowhere. -/
theorem split_unmatched (hconsumes : ∀ input rest, p.Accepts input rest → rest.length < input.length)
    {input part : List Char} (h : part ∈ p.split input) :
    ∃ rest, ∀ s, s ≠ [] → s <:+ part → p.match? (s ++ rest) = none :=
  splitFrom_unmatched hconsumes (Nat.lt_succ_self _)
    (fun _ hne hs => absurd (List.suffix_nil.mp hs) hne) part h

end Split

end Lib.Pattern
