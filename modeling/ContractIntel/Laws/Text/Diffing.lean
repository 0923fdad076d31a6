import ContractIntel.Lib.Fallible
import ContractIntel.Lib.Pairing
import ContractIntel.Text.Diffing

/-!
# What the diff reports

The abstract reading of `detect_changes`: pair the j-th section of a key in one version with the
j-th section of that key in the other (`Lib.counterpart`, over the keys, the preamble's `none`
included), report every unpaired section and every pair whose texts differ, and nothing else
(`expectedChanges`). The greedy scan of the code computes exactly this list
(`alignSections_eq_expectedChanges`): its `consumed` set is `Lib.Consumed` of the base prefix read
so far, so the first unconsumed index of a key IS the counterpart.

`detectChanges_pairs_sections` is the result over the texts themselves, with the accounting it
entails: the pairing is the same partial matching from both sides, and the diff is empty exactly
when the versions carry, key by key, the same section texts.
-/

namespace ContractIntel.Diffing

open Lib (counterpart positions occurrences Consumed)

/-! ## When a text can be cut -/

/-- Every clause number at the head of a paragraph stays within CPython's digit limit. -/
def ClauseNumbersFit (text : Str) : Prop :=
  ∀ p ∈ paragraphs text, ∀ raw ∈ clauseNumber (Str.firstLine p.text),
    ∀ part ∈ raw.splitOn '.', part.length ≤ Str.INT_MAX_STR_DIGITS

instance (text : Str) : Decidable (ClauseNumbersFit text) := by
  unfold ClauseNumbersFit
  infer_instance

theorem toInt_isOk {part : Str} (h : part.length ≤ Str.INT_MAX_STR_DIGITS) :
    ∃ n, Str.toInt part = .ok n :=
  ⟨_, if_neg (Nat.not_lt.mpr h)⟩

theorem clauseKey_isOk [Ucd] {line : Str} (h : ∀ raw ∈ clauseNumber line,
    ∀ part ∈ raw.splitOn '.', part.length ≤ Str.INT_MAX_STR_DIGITS) :
    ∃ key, clauseKey line = .ok key := by
  unfold clauseKey
  cases hraw : clauseNumber line with
  | none => exact ⟨_, rfl⟩
  | some raw =>
    obtain ⟨number, hn⟩ := Lib.exists_mapM_eq_ok fun part hpart => toInt_isOk (h raw hraw part hpart)
    exact ⟨some (.clause number), by simp only [hn]; rfl⟩

theorem addParagraph_isOk [Ucd] {p : Paragraph} {key : Option SectionKey}
    (h : clauseKey (Str.firstLine p.text) = .ok key) (done : List Section) :
    ∃ next, addParagraph done p = .ok next := by
  unfold addParagraph
  rw [h]
  cases key with
  | none => cases done.getLast? <;> exact ⟨_, rfl⟩
  | some key => exact ⟨_, rfl⟩

/-- A text whose clause numbers fit is cut into sections without a `ValueError`. -/
theorem sections_isOk [Ucd] {text : Str} (h : ClauseNumbersFit text) : ∃ l, sections text = .ok l := by
  have fold : ∀ (ps : List Paragraph), (∀ p ∈ ps, p ∈ paragraphs text) → ∀ done,
      ∃ l, ps.foldlM addParagraph done = .ok l := by
    intro ps
    induction ps with
    | nil => exact fun _ done => ⟨done, rfl⟩
    | cons p ps ih =>
      intro hps done
      obtain ⟨key, hkey⟩ := clauseKey_isOk (h p (hps p List.mem_cons_self))
      obtain ⟨next, hnext⟩ := addParagraph_isOk hkey done
      obtain ⟨l, hl⟩ := ih (fun q hq => hps q (List.mem_cons_of_mem _ hq)) next
      exact ⟨l, by rw [List.foldlM_cons, hnext]; exact hl⟩
  exact fold (paragraphs text) (fun _ hp => hp) []

/-! ## The greedy scan computes the pairing -/

/-- The keys of a version's sections, in order. -/
def keys (sections : List Section) : List (Option SectionKey) := sections.map Section.key

/-- What the diff owes one base section: `removed` when unpaired, `modified` when its counterpart
reads differently, nothing otherwise. -/
def baseChange (baseText amendedText : Str) (base amended : List Section)
    (entry : Section × Nat) : Option Change :=
  match counterpart (keys base) (keys amended) entry.2 with
  | none => some (removedChange entry.1)
  | some m => amended[m]?.bind fun other =>
    if entry.1.text baseText ≠ other.text amendedText then some (modifiedChange entry.1 other)
    else none

/-- What the diff owes one amended section: `added` when unpaired. -/
def amendedChange (base amended : List Section) (entry : Section × Nat) : Option Change :=
  if (counterpart (keys amended) (keys base) entry.2).isSome then none
  else some (addedChange entry.1)

/-- The diff of two sectioned versions: base order first, then the additions in amended order. -/
def expectedChanges (baseText amendedText : Str) (base amended : List Section) : List Change :=
  base.zipIdx.filterMap (baseChange baseText amendedText base amended) ++
    amended.zipIdx.filterMap (amendedChange base amended)

/-- The index dictionary holds, under every key, the positions of that key. -/
theorem indexByKey_eq_positions (amended : List Section) (key : Option SectionKey) :
    indexByKey amended key = positions key (keys amended) := by
  have fold : ∀ (l : List Section) (dict : Option SectionKey → List Nat) (n : Nat),
      ((l.zipIdx n).foldl (fun (byKey : Option SectionKey → List Nat) entry =>
        Function.update byKey entry.1.key (byKey entry.1.key ++ [entry.2])) dict) key =
      dict key ++ (positions key (keys l)).map (· + n) := by
    intro l
    induction l with
    | nil => intro dict n; simp [keys, positions]
    | cons s l ih =>
      intro dict n
      rw [List.zipIdx_cons, List.foldl_cons, ih]
      by_cases hk : s.key = key
      · subst hk
        simp [keys, positions, Nat.add_comm, Nat.add_left_comm]
      · simp [keys, positions, hk, Ne.symm hk, Nat.add_comm, Nat.add_left_comm]
  have := fold amended (fun _ => []) 0
  simpa [indexByKey] using this

/-- One round of the scan: with `done` behind it, the round appends the base section's change and
keeps the invariant. -/
theorem matchBase_step (baseText amendedText : Str) {amended done : List Section}
    (rest : List Section) (s : Section) {state : Alignment}
    (h : Consumed (keys amended) (keys done) state.consumed) :
    let next := matchBase baseText amendedText amended (indexByKey amended) state s
    next.changes = state.changes ++ (baseChange baseText amendedText (done ++ s :: rest) amended
      (s, done.length)).toList ∧ Consumed (keys amended) (keys (done ++ [s])) next.consumed := by
  have hpair : counterpart (keys (done ++ s :: rest)) (keys amended) done.length =
      (positions s.key (keys amended))[occurrences s.key (keys done)]? := by
    simpa [keys] using Lib.counterpart_append_cons (keys done) (keys rest) (keys amended) s.key
  have hpick := h.pick s.key
  have hsnoc : keys (done ++ [s]) = keys done ++ [s.key] := by simp [keys]
  simp only [matchBase, indexByKey_eq_positions, hpick, baseChange, hpair, hsnoc]
  cases hm : (positions s.key (keys amended))[occurrences s.key (keys done)]? with
  | none => exact ⟨rfl, h.snoc_none hm⟩
  | some m =>
    refine ⟨?_, h.snoc_some hm⟩
    cases hother : amended[m]? with
    | none => simp [hother]
    | some other =>
      by_cases heq : s.text baseText = other.text amendedText <;> simp [hother, heq]

/-- The whole scan over the base sections. -/
theorem matchBase_foldl (baseText amendedText : Str) {amended : List Section}
    (rest done : List Section) (state : Alignment)
    (h : Consumed (keys amended) (keys done) state.consumed) :
    let final := rest.foldl (matchBase baseText amendedText amended (indexByKey amended)) state
    final.changes = state.changes ++ (rest.zipIdx done.length).filterMap
        (baseChange baseText amendedText (done ++ rest) amended) ∧
      Consumed (keys amended) (keys (done ++ rest)) final.consumed := by
  induction rest generalizing done state with
  | nil => simpa using h
  | cons s rest ih =>
    obtain ⟨hchanges, hconsumed⟩ := matchBase_step baseText amendedText rest s h
    obtain ⟨hfinal, hdone⟩ := ih (done ++ [s]) _ hconsumed
    rw [List.append_assoc, List.singleton_append] at hfinal hdone
    refine ⟨?_, hdone⟩
    rw [List.foldl_cons, hfinal, hchanges, List.zipIdx_cons, List.filterMap_cons]
    cases baseChange baseText amendedText (done ++ s :: rest) amended (s, done.length) <;> simp

/-- The greedy alignment is the occurrence pairing. -/
theorem alignSections_eq_expectedChanges (baseText amendedText : Str)
    (base amended : List Section) :
    alignSections baseText amendedText base amended =
      expectedChanges baseText amendedText base amended := by
  obtain ⟨hchanges, hconsumed⟩ := matchBase_foldl baseText amendedText base [] ⟨[], []⟩
    (Consumed.nil (keys amended))
  unfold alignSections expectedChanges
  simp only [hchanges, List.nil_append, List.length_nil] at hconsumed ⊢
  congr 1
  refine List.filterMap_congr fun entry hentry => ?_
  have hkey : (keys amended)[entry.2]? = some entry.1.key := by
    rw [keys, List.getElem?_map, List.mem_zipIdx_iff_getElem?.mp hentry]
    rfl
  -- an amended index is consumed exactly when its section is paired
  have hmem : entry.2 ∈ (base.foldl (matchBase baseText amendedText amended
      (indexByKey amended)) ⟨[], []⟩).consumed ↔
      (counterpart (keys amended) (keys base) entry.2).isSome := by
    rw [hconsumed entry.1.key _ entry.2 (Lib.positions_getElem?_eq_some_iff.mpr ⟨hkey, rfl⟩),
      Lib.counterpart_isSome_iff hkey]
  simp only [amendedChange, hmem]

/-! ## The empty diff -/

/-- The texts of the sections of one key, in order. -/
def sectionTexts (key : Option SectionKey) (text : Str) (sections : List Section) : List Str :=
  (sections.filter (·.key = key)).map (·.text text)

/-- Nothing is reported exactly when the versions carry, key by key, the same section texts. -/
theorem expectedChanges_eq_nil_iff {baseText amendedText : Str} {base amended : List Section} :
    expectedChanges baseText amendedText base amended = [] ↔
      ∀ key, sectionTexts key baseText base = sectionTexts key amendedText amended := by
  unfold sectionTexts
  rw [← Lib.paired_values_iff, expectedChanges, List.append_eq_nil_iff,
    List.filterMap_eq_nil_iff, List.filterMap_eq_nil_iff]
  simp only [Prod.forall, List.mem_zipIdx_iff_getElem?]
  refine and_congr ⟨fun h i s hs => ?_, fun h s i hs => ?_⟩
    ⟨fun h m s hs => ?_, fun h s m hs => ?_⟩
  · have hi := h s i hs
    unfold baseChange at hi
    cases hm : counterpart (keys base) (keys amended) i with
    | none => simp [hm] at hi
    | some m =>
      obtain ⟨k, -, hk, -⟩ := Lib.counterpart_eq_some_iff.mp hm
      obtain ⟨other, hother, -⟩ := List.getElem?_map .. ▸ hk |> Option.map_eq_some_iff.mp
      refine ⟨m, other, hm, hother, ?_⟩
      by_contra hne
      simp [hm, hother, hne] at hi
  · obtain ⟨m, other, hm, hother, heq⟩ := h i s hs
    simp only [baseChange, keys, hm, hother, Option.bind_some, heq, ne_eq, not_true_eq_false,
      if_false]
  · by_contra hnone
    have := h s m hs
    simp only [amendedChange, keys, hnone, if_false] at this
    cases this
  · simp only [amendedChange, keys, h m s hs, if_true]

/-! ## The diff of two texts -/

theorem detectChanges_eq [Ucd] {baseText amendedText : Str} {base amended : List Section}
    (hbase : sections baseText = .ok base) (hamended : sections amendedText = .ok amended) :
    detectChanges baseText amendedText =
      .ok (expectedChanges baseText amendedText base amended) := by
  rw [detectChanges, hbase, hamended, ← alignSections_eq_expectedChanges]
  rfl

/-- `detect_changes` reports the occurrence pairing of the two versions' sections: it is
`expectedChanges` of them, the pairing is one matching read from either side, and nothing is
reported exactly when every key carries the same section texts in both versions. -/
theorem detectChanges_pairs_sections [Ucd] (baseText amendedText : Str)
    (hbase : ClauseNumbersFit baseText) (hamended : ClauseNumbersFit amendedText) :
    ∃ base amended, sections baseText = .ok base ∧ sections amendedText = .ok amended ∧
      detectChanges baseText amendedText =
        .ok (expectedChanges baseText amendedText base amended) ∧
      (∀ i m, counterpart (keys base) (keys amended) i = some m ↔
        counterpart (keys amended) (keys base) m = some i) ∧
      (detectChanges baseText amendedText = .ok [] ↔
        ∀ key, sectionTexts key baseText base = sectionTexts key amendedText amended) ∧
      (baseText = amendedText → detectChanges baseText amendedText = .ok []) := by
  obtain ⟨base, hb⟩ := sections_isOk hbase
  obtain ⟨amended, ha⟩ := sections_isOk hamended
  have hdiff := detectChanges_eq hb ha
  have hnil : detectChanges baseText amendedText = .ok [] ↔
      ∀ key, sectionTexts key baseText base = sectionTexts key amendedText amended := by
    rw [hdiff, ← expectedChanges_eq_nil_iff, Except.ok.injEq]
  refine ⟨base, amended, hb, ha, hdiff, fun _ _ => Lib.counterpart_comm, hnil, ?_⟩
  rintro rfl
  rw [hnil]
  obtain rfl : base = amended := Except.ok.inj (hb.symm.trans ha)
  exact fun _ => rfl

/-- A clause struck from a version with a repeated number: the second occurrence is the one left
unpaired. -/
theorem detectChanges_pairs_sections_repeated :
    let baseText := "1. Term\n\n1. Notice".toList
    let amendedText := "1. Term".toList
    letI := Ucd.ascii
    ClauseNumbersFit baseText ∧ ClauseNumbersFit amendedText ∧
      ∃ base amended, sections baseText = .ok base ∧ sections amendedText = .ok amended ∧
        detectChanges baseText amendedText =
          .ok (expectedChanges baseText amendedText base amended) := by
  let := Ucd.ascii
  have hbase : ClauseNumbersFit "1. Term\n\n1. Notice".toList := by decide +kernel
  have hamended : ClauseNumbersFit "1. Term".toList := by decide +kernel
  obtain ⟨base, amended, hb, ha, hdiff, -⟩ := detectChanges_pairs_sections _ _ hbase hamended
  exact ⟨hbase, hamended, base, amended, hb, ha, hdiff⟩

end ContractIntel.Diffing
