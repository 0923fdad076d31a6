import ContractIntel.Laws.Text.Diffing
import ContractIntel.Laws.Text.Sections

/-!
# The diff read from either side

The scan loops over the base and consumes amended indices, so its report is not visibly symmetric.
Its pairing is (`Lib.paired_swap_perm`), and the report is the unpaired sections of either version
with the pairs that read differently (`expectedChanges_perm`). So exchanging the versions exchanges
`added` with `removed` and the two spans, and nothing else (`detectChanges_swap`).
-/

namespace ContractIntel.Diffing

open Lib (paired unpaired)

/-! ## What is reported -/

/-- The change of a pair, none when both sections read the same. -/
def pairChange (baseText amendedText : Str) (s t : Section) : Option Change :=
  if s.text baseText ≠ t.text amendedText then some (modifiedChange s t) else none

section Report

variable {baseText amendedText : Str} {base amended : List Section}

/-- The additions are the unpaired amended sections. -/
theorem filterMap_amendedChange (base amended : List Section) :
    amended.zipIdx.filterMap (amendedChange base amended) =
      (unpaired Section.key amended base).map addedChange := by
  rw [unpaired, List.map_filterMap]
  refine List.filterMap_congr fun e _ => ?_
  unfold amendedChange keys
  split <;> rfl

/-- The report: unpaired base sections, pairs that read differently, unpaired amended sections. -/
theorem expectedChanges_perm (baseText amendedText : Str) (base amended : List Section) :
    (expectedChanges baseText amendedText base amended).Perm
      ((unpaired Section.key base amended).map removedChange ++
        (paired Section.key base amended).filterMap
          (fun p => pairChange baseText amendedText p.1 p.2) ++
        (unpaired Section.key amended base).map addedChange) := by
  rw [expectedChanges, filterMap_amendedChange]
  exact (Lib.filterMap_pairing_perm removedChange (pairChange baseText amendedText) base
    amended).append_right _

/-- When every pair reads the same, the report is the unpaired sections, in the order of each
version. -/
theorem expectedChanges_of_unchanged (h : ∀ s t, (s, t) ∈ paired Section.key base amended →
    s.text baseText = t.text amendedText) :
    expectedChanges baseText amendedText base amended =
      (unpaired Section.key base amended).map removedChange ++
        (unpaired Section.key amended base).map addedChange := by
  have hsilent := Lib.filterMap_pairing_of_silent removedChange
    (pairChange baseText amendedText) fun s t hp => if_neg (not_not.mpr (h s t hp))
  rw [expectedChanges, filterMap_amendedChange]
  exact congrArg (· ++ _) hsilent

theorem pairChange_eq_some_iff {s t : Section} {c : Change} :
    pairChange baseText amendedText s t = some c ↔
      s.text baseText ≠ t.text amendedText ∧ c = modifiedChange s t := by
  unfold pairChange
  by_cases h : s.text baseText = t.text amendedText
  · simp [h]
  · simp [h, eq_comm]

/-- A change is about an unpaired section or a pair that reads differently. -/
theorem mem_expectedChanges_iff {c : Change} :
    c ∈ expectedChanges baseText amendedText base amended ↔
      (∃ s ∈ unpaired Section.key base amended, c = removedChange s) ∨
      (∃ s t, (s, t) ∈ paired Section.key base amended ∧
        s.text baseText ≠ t.text amendedText ∧ c = modifiedChange s t) ∨
      ∃ t ∈ unpaired Section.key amended base, c = addedChange t := by
  rw [(expectedChanges_perm baseText amendedText base amended).mem_iff, List.mem_append,
    List.mem_append, or_assoc]
  simp only [List.mem_map, List.mem_filterMap, Prod.exists, pairChange_eq_some_iff,
    eq_comm (a := c)]

end Report

/-! ## Exchanging the versions -/

def ChangeKind.swap : ChangeKind → ChangeKind
  | .added => .removed
  | .removed => .added
  | .modified => .modified

/-- The same difference with the versions exchanged. -/
def Change.swap (c : Change) : Change := ⟨c.kind.swap, c.clauseRef, c.amendedSpan, c.baseSpan⟩

section Swap

variable {baseText amendedText : Str} {base amended : List Section}

/-- With one reference a key, the report of the exchanged versions is the exchanged report. -/
theorem expectedChanges_swap (baseText amendedText : Str)
    (hbase : ∀ s ∈ base, s.clauseRef = clauseRef s.key)
    (hamended : ∀ t ∈ amended, t.clauseRef = clauseRef t.key) :
    (expectedChanges amendedText baseText amended base).Perm
      ((expectedChanges baseText amendedText base amended).map Change.swap) := by
  have hpairs : ((paired Section.key amended base).filterMap
      fun p => pairChange amendedText baseText p.1 p.2).Perm
      (((paired Section.key base amended).filterMap
        fun p => pairChange baseText amendedText p.1 p.2).map Change.swap) := by
    refine ((Lib.paired_swap_perm base amended).filterMap _).trans (List.Perm.of_eq ?_)
    rw [List.filterMap_map, List.map_filterMap]
    refine List.filterMap_congr fun ⟨s, t⟩ hp => ?_
    obtain ⟨hs, ht, hkey⟩ := Lib.mem_paired hp
    have href : t.clauseRef = s.clauseRef := by rw [hbase s hs, hamended t ht, hkey]
    simp only [Function.comp_apply, Prod.swap_prod_mk, pairChange, ne_comm (a := t.text amendedText)]
    split
    · simp [modifiedChange, Change.swap, ChangeKind.swap, href]
    · rfl
  have hremoved : (unpaired Section.key amended base).map removedChange =
      ((unpaired Section.key amended base).map addedChange).map Change.swap := by
    rw [List.map_map]
    rfl
  have hadded : (unpaired Section.key base amended).map addedChange =
      ((unpaired Section.key base amended).map removedChange).map Change.swap := by
    rw [List.map_map]
    rfl
  have hforward := (expectedChanges_perm baseText amendedText base amended).map Change.swap
  rw [List.map_append, List.map_append] at hforward
  refine (expectedChanges_perm amendedText baseText amended base).trans (.trans ?_ hforward.symm)
  rw [hremoved, hadded]
  -- the two unpaired parts change places
  refine List.perm_append_comm.trans ?_
  rw [List.append_assoc]
  exact ((hpairs.append_left _).trans List.perm_append_comm).append_left _

/-- A reported modification of two sections is one of sections of the same key. -/
theorem key_eq_of_modified (hbase : Cover baseText base) (hamended : Cover amendedText amended)
    {s t : Section} (hs : s ∈ base) (ht : t ∈ amended)
    (h : modifiedChange s t ∈ expectedChanges baseText amendedText base amended) :
    s.key = t.key := by
  rcases mem_expectedChanges_iff.mp h with ⟨_, -, hc⟩ | ⟨s', t', hp, -, hc⟩ | ⟨_, -, hc⟩
  · cases hc
  · obtain ⟨hs', ht', hkey⟩ := Lib.mem_paired hp
    simp only [modifiedChange, Section.span, Change.mk.injEq, Option.some.injEq, Span.mk.injEq,
      true_and] at hc
    obtain ⟨-, ⟨hstart, hend⟩, hstart', hend'⟩ := hc
    rw [hbase.eq_of_span hs hs' hstart hend, hamended.eq_of_span ht ht' hstart' hend', hkey]
  · cases hc

theorem modified_swap (hbase : Cover baseText base) (hamended : Cover amendedText amended)
    {s t : Section} (hs : s ∈ base) (ht : t ∈ amended)
    (h : modifiedChange s t ∈ expectedChanges baseText amendedText base amended) :
    modifiedChange t s ∈ expectedChanges amendedText baseText amended base := by
  have href : t.clauseRef = s.clauseRef := by
    rw [hbase.refs s hs, hamended.refs t ht, key_eq_of_modified hbase hamended hs ht h]
  have hswap : modifiedChange t s = (modifiedChange s t).swap := by
    simp [modifiedChange, Change.swap, ChangeKind.swap, href]
  rw [(expectedChanges_swap baseText amendedText hbase.refs hamended.refs).mem_iff, hswap]
  exact List.mem_map_of_mem h

end Swap

/-- `detect_changes` with the versions exchanged reports the exchanged changes, in some order, and
its modifications are of the same two sections. -/
theorem detectChanges_swap [Ucd] (a b : Str) (ha : ClauseNumbersFit a) (hb : ClauseNumbersFit b) :
    ∃ xs ys forward backward, sections a = .ok xs ∧ sections b = .ok ys ∧
      detectChanges a b = .ok forward ∧ detectChanges b a = .ok backward ∧
      backward.Perm (forward.map Change.swap) ∧ backward.length = forward.length ∧
      (∀ c ∈ forward, c.kind = .modified → ∃ s ∈ xs, ∃ t ∈ ys, c = modifiedChange s t) ∧
      ∀ s ∈ xs, ∀ t ∈ ys, modifiedChange s t ∈ forward ↔ modifiedChange t s ∈ backward := by
  obtain ⟨xs, hxs⟩ := sections_isOk ha
  obtain ⟨ys, hys⟩ := sections_isOk hb
  have hcx := sections_cover hxs
  have hcy := sections_cover hys
  have hperm := expectedChanges_swap a b hcx.refs hcy.refs
  refine ⟨xs, ys, _, _, hxs, hys, detectChanges_eq hxs hys, detectChanges_eq hys hxs, hperm, ?_,
    fun c hc hkind => ?_, fun s hs t ht => ⟨modified_swap hcx hcy hs ht, modified_swap hcy hcx ht hs⟩⟩
  · rw [hperm.length_eq, List.length_map]
  · rcases mem_expectedChanges_iff.mp hc with ⟨_, -, rfl⟩ | ⟨s, t, hp, -, rfl⟩ | ⟨_, -, rfl⟩
    · cases hkind
    · obtain ⟨hs, ht, -⟩ := Lib.mem_paired hp
      exact ⟨s, hs, t, ht, rfl⟩
    · cases hkind

/-- One clause struck and one reworded, read from either side. -/
theorem detectChanges_swap_reworded :
    let a := "1. Term\n\n2. Notice".toList
    let b := "1. Term of one year".toList
    letI := Ucd.ascii
    ∃ xs ys forward backward, sections a = .ok xs ∧ sections b = .ok ys ∧
      detectChanges a b = .ok forward ∧ detectChanges b a = .ok backward ∧
      backward.Perm (forward.map Change.swap) ∧ backward.length = forward.length ∧
      (∀ c ∈ forward, c.kind = .modified → ∃ s ∈ xs, ∃ t ∈ ys, c = modifiedChange s t) ∧
      ∀ s ∈ xs, ∀ t ∈ ys, modifiedChange s t ∈ forward ↔ modifiedChange t s ∈ backward := by
  let := Ucd.ascii
  exact detectChanges_swap _ _ (by decide +kernel) (by decide +kernel)

end ContractIntel.Diffing
