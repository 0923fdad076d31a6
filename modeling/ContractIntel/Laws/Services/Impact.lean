import ContractIntel.Laws.Services.Extraction
import ContractIntel.Laws.Text.Chunking
import ContractIntel.Services.Impact
import Mathlib.Data.List.Forall2
import Mathlib.Data.List.GetD

/-!
# What an impact mapping may name

The candidates of a change are obligations at distinct positions of the base document's extraction,
each with a citation that a retrieved chunk shares a character with (`selectCandidates_picked`). A
reply is read as the first mentions of its indices (`readMapping_eq_ok_iff`), and one index outside
the candidates rejects it (`readMapping_rejects`).
-/

namespace ContractIntel.Impact

open Chunking (chunkDocument)
open Diffing (Change)
open Extraction (InText)
open Lib (Every Runs)
open Llm (OpenAiClient Accounted ask chats replies)
open Parsing (build)
open Search (SearchHit)

/-- Some character of the text lies in both spans. -/
def ShareCharacter (c : Citation) (hit : SearchHit) : Prop :=
  ∃ k : Nat, (c.charStart ≤ k ∧ (k : Int) < c.charEnd) ∧ hit.charStart ≤ k ∧ k < hit.charEnd

/-- Non-empty spans overlap exactly when they share a character. -/
theorem overlaps_iff {o : Obligation} {hit : SearchHit}
    (hspan : o.citation.charStart < o.citation.charEnd) (hhit : hit.charStart < hit.charEnd) :
    overlaps o hit ↔ ShareCharacter o.citation hit := by
  simp only [overlaps, ShareCharacter, Bool.and_eq_true, decide_eq_true_eq]
  constructor
  · rintro ⟨hbefore, hafter⟩
    refine ⟨max o.citation.charStart.toNat hit.charStart, ⟨?_, ?_⟩, ?_, ?_⟩ <;> omega
  · rintro ⟨k, ⟨hlow, hhigh⟩, hfrom, hto⟩
    constructor <;> omega

/-! ## Candidates -/

section Candidates

variable {obligations : List Obligation} {hits : List SearchHit} {limit : Nat}

/-- What the loops keep of a selection: distinct positions, each of an obligation that a hit
overlaps. -/
structure Picked (obligations : List Obligation) (hits : List SearchHit) (limit : Nat)
    (state : Selection) : Prop where
  nodup : state.picked.Nodup
  length_le : state.selected.length ≤ limit
  selected : List.Forall₂ (fun position o => obligations[position]? = some o ∧
    ∃ hit ∈ hits, overlaps o hit) state.picked.reverse state.selected

theorem Picked.pickFrom {state : Selection} {hit : SearchHit} {entry : Obligation × Nat}
    (h : Picked obligations hits limit state) (hlimit : 0 < limit) (hhit : hit ∈ hits)
    (hentry : entry ∈ obligations.zipIdx) :
    Picked obligations hits limit (pickFrom hit limit state entry) := by
  unfold Impact.pickFrom
  split
  · exact h
  next hpick =>
    obtain ⟨hroom, hfresh, hoverlaps⟩ := not_or.mp hpick |>.imp_right not_or.mp
    have hat : obligations[entry.2]? = some entry.1 := List.mem_zipIdx_iff_getElem?.mp hentry
    refine ⟨List.nodup_cons.mpr ⟨hfresh, h.nodup⟩, ?_, ?_⟩
    · have hle := h.length_le
      by_cases hnone : state.selected = []
      · simp only [hnone, List.nil_append, List.length_singleton]
        exact hlimit
      · have hne : state.selected.length ≠ limit := fun hfull => hroom ⟨hfull, hnone⟩
        simp only [List.length_append, List.length_singleton]
        omega
    · rw [List.reverse_cons]
      exact List.rel_append h.selected (.cons ⟨hat, hit, hhit, not_not.mp hoverlaps⟩ .nil)

/-- The candidates, with their positions in the extraction. -/
theorem selectCandidates_picked (hlimit : 0 < limit) :
    ∃ positions : List Nat, positions.Nodup ∧ positions.length ≤ limit ∧
      List.Forall₂ (fun position o => obligations[position]? = some o ∧
        ∃ hit ∈ hits, overlaps o hit) positions (selectCandidates obligations hits limit) := by
  have hfold : Picked obligations hits limit (hits.foldl (fun state chunk =>
      obligations.zipIdx.foldl (Impact.pickFrom chunk limit) state) ⟨[], []⟩) := by
    refine List.foldlRecOn hits _ ⟨List.nodup_nil, Nat.zero_le _, .nil⟩ fun state h hit hhit => ?_
    exact List.foldlRecOn _ _ h fun state h entry hentry => h.pickFrom hlimit hhit hentry
  refine ⟨_, List.nodup_reverse.mpr hfold.nodup, ?_, hfold.selected⟩
  rw [hfold.selected.length_eq]
  exact hfold.length_le

end Candidates

/-! ## Replies -/

/-- The mentions of an index that is not mentioned before them. -/
def firstMentions : List MappedImpact → List MappedImpact
  | [] => []
  | m :: rest => m :: (firstMentions rest).filter (·.index ≠ m.index)

/-- An index that names a candidate. -/
def Names (candidates : List Obligation) (m : MappedImpact) : Prop :=
  0 ≤ m.index ∧ m.index < candidates.length

section Replies

variable {candidates : List Obligation} {reply : List MappedImpact}

theorem firstMentions_sublist (reply : List MappedImpact) : (firstMentions reply).Sublist reply := by
  induction reply with
  | nil => exact .slnil
  | cons m rest ih => exact (List.filter_sublist.trans ih).cons_cons m

theorem firstMentions_nodup (reply : List MappedImpact) :
    ((firstMentions reply).map MappedImpact.index).Nodup := by
  induction reply with
  | nil => exact List.nodup_nil
  | cons m rest ih =>
    rw [firstMentions, List.map_cons, List.nodup_cons]
    constructor
    · intro hmem
      obtain ⟨n, hn, heq⟩ := List.mem_map.mp hmem
      exact absurd heq (of_decide_eq_true (List.mem_filter.mp hn).2)
    · exact ih.sublist (List.filter_sublist.map _)

/-- The mentions that the loop keeps: of the indices it has not seen, the first one. -/
def kept (reply : List MappedImpact) (seen : List Int) : List MappedImpact :=
  (firstMentions reply).filter (·.index ∉ seen)

theorem kept_nil (reply : List MappedImpact) : kept reply [] = firstMentions reply :=
  List.filter_eq_self.mpr fun _ _ => decide_eq_true List.not_mem_nil

theorem kept_cons_of_mem {m : MappedImpact} {seen : List Int} (h : m.index ∈ seen) :
    kept (m :: reply) seen = kept reply seen := by
  rw [kept, firstMentions, List.filter_cons_of_neg (by simpa using h), List.filter_filter]
  refine List.filter_congr fun n _ => ?_
  by_cases hn : n.index ∈ seen
  · simp [hn]
  · have hne : n.index ≠ m.index := fun heq => hn (heq ▸ h)
    simp [hn, hne]

theorem kept_cons_of_not_mem {m : MappedImpact} {seen : List Int} (h : m.index ∉ seen) :
    kept (m :: reply) seen = m :: kept reply (m.index :: seen) := by
  rw [kept, firstMentions, List.filter_cons_of_pos (by simpa using h), List.filter_filter, kept]
  congr 1
  exact List.filter_congr fun n _ => by simp [Bool.and_comm]

/-- A mention becomes the candidate it names, with the mention's confidence. -/
def Reads (candidates : List Obligation) (m : MappedImpact) (pair : Obligation × Rat) : Prop :=
  candidates[m.index.toNat]? = some pair.1 ∧ pair.2 = m.confidence

/-- One index outside the candidates rejects the reply. -/
theorem readMapping_rejects (h : ∃ m ∈ reply, ¬ Names candidates m) (seen : List Int) :
    ∃ message, readMapping candidates reply seen = .error (.llmOutputError message none) := by
  induction reply generalizing seen with
  | nil =>
    obtain ⟨m, hm, -⟩ := h
    cases hm
  | cons m rest ih =>
    rw [readMapping]
    split
    next => exact ⟨_, rfl⟩
    next o hfound =>
      have hm : Names candidates m := by
        split at hfound
        · cases hfound
        next hindex =>
          have hlt := (List.getElem?_eq_some_iff.mp hfound).1
          constructor <;> omega
      obtain ⟨n, hn, hbad⟩ := h
      have hrest : ∃ n ∈ rest, ¬ Names candidates n := by
        rcases List.mem_cons.mp hn with rfl | hn
        · exact absurd hm hbad
        · exact ⟨n, hn, hbad⟩
      split
      · exact ih hrest seen
      · obtain ⟨message, heq⟩ := ih hrest (m.index :: seen)
        exact ⟨message, by rw [heq]; rfl⟩

/-- Without one the loop keeps the first mentions. -/
theorem readMapping_reads (h : ∀ m ∈ reply, Names candidates m) (seen : List Int) :
    ∃ mapped, readMapping candidates reply seen = .ok mapped ∧
      List.Forall₂ (Reads candidates) (kept reply seen) mapped := by
  induction reply generalizing seen with
  | nil => exact ⟨[], rfl, .nil⟩
  | cons m rest ih =>
    obtain ⟨hm, hrest⟩ := List.forall_mem_cons.mp h
    obtain ⟨hlow, hhigh⟩ := hm
    have hlt : m.index.toNat < candidates.length := by omega
    have hfound : candidates[m.index.toNat]? = some candidates[m.index.toNat] :=
      List.getElem?_eq_getElem hlt
    rw [readMapping, if_neg (by omega), hfound]
    dsimp only
    split
    next hseen =>
      rw [kept_cons_of_mem hseen]
      exact ih hrest seen
    next hseen =>
      obtain ⟨mapped, heq, hreads⟩ := ih hrest (m.index :: seen)
      rw [kept_cons_of_not_mem hseen, heq]
      exact ⟨_, rfl, .cons ⟨hfound, rfl⟩ hreads⟩

theorem readMapping_error {seen : List Int} {e : Exn}
    (h : readMapping candidates reply seen = .error e) : ∃ message, e = .llmOutputError message none := by
  by_cases hnames : ∀ m ∈ reply, Names candidates m
  · obtain ⟨mapped, hok, -⟩ := readMapping_reads hnames seen
    cases hok.symm.trans h
  · obtain ⟨message, herror⟩ := readMapping_rejects (by simpa using hnames) seen
    cases herror.symm.trans h
    exact ⟨message, rfl⟩

theorem readMapping_eq_ok {mapped : List (Obligation × Rat)}
    (h : readMapping candidates reply [] = .ok mapped) :
    (∀ m ∈ reply, Names candidates m) ∧
      List.Forall₂ (Reads candidates) (firstMentions reply) mapped := by
  have hnames : ∀ m ∈ reply, Names candidates m := by
    by_contra hbad
    obtain ⟨message, heq⟩ := readMapping_rejects (by simpa using hbad) []
    rw [heq] at h
    cases h
  refine ⟨hnames, ?_⟩
  obtain ⟨mapped', heq, hreads⟩ := readMapping_reads hnames []
  cases h.symm.trans heq
  rwa [kept_nil] at hreads

end Replies

/-- An answer that the search and the reply support: obligations at distinct positions of the
extraction, no more than the limit, each citing a character of a hit, in the order and with the
confidences of the reply's first mentions. -/
structure Grounded (obligations : List Obligation) (hits : List SearchHit)
    (reply : List MappedImpact) (mapped : List (Obligation × Rat)) : Prop where
  positions : ∃ positions : List Nat, positions.Nodup ∧ positions.length ≤ CANDIDATE_LIMIT ∧
    List.Forall₂ (fun position pair => obligations[position]? = some pair.1 ∧
      ∃ hit ∈ hits, ShareCharacter pair.1.citation hit) positions mapped
  mentions : List.Forall₂ (Reads (selectCandidates obligations hits CANDIDATE_LIMIT))
    (firstMentions reply) mapped

section Grounding

variable {obligations : List Obligation} {hits : List SearchHit} {reply : List MappedImpact}
  {mapped : List (Obligation × Rat)}

/-- Distinct indices of a list of distinct positions are distinct positions. -/
theorem exists_positions {positions : List Nat} {candidates : List Obligation}
    {P : Nat → Obligation → Prop} (hcandidates : List.Forall₂ P positions candidates)
    (hnodup : positions.Nodup) {mentions : List MappedImpact}
    (hdistinct : (mentions.map MappedImpact.index).Nodup)
    (hnames : ∀ m ∈ mentions, Names candidates m)
    (hreads : List.Forall₂ (Reads candidates) mentions mapped) :
    ∃ picks : List Nat, picks.Nodup ∧ (∀ position ∈ picks, position ∈ positions) ∧
      List.Forall₂ (fun position pair => P position pair.1) picks mapped := by
  obtain ⟨hlength, hat⟩ := List.forall₂_iff_get.mp hcandidates
  have hlt : ∀ m ∈ mentions, m.index.toNat < positions.length := by
    intro m hm
    obtain ⟨hlow, hhigh⟩ := hnames m hm
    omega
  refine ⟨(mentions.map MappedImpact.index).map fun i => positions.getD i.toNat 0, ?_, ?_, ?_⟩
  · refine hdistinct.map_on fun i hi j hj heq => ?_
    obtain ⟨m, hm, rfl⟩ := List.mem_map.mp hi
    obtain ⟨n, hn, rfl⟩ := List.mem_map.mp hj
    rw [List.getD_eq_getElem _ _ (hlt m hm), List.getD_eq_getElem _ _ (hlt n hn)] at heq
    have hindex := (List.Nodup.getElem_inj_iff hnodup).mp heq
    have := (hnames m hm).1
    have := (hnames n hn).1
    omega
  · intro position hposition
    obtain ⟨i, hi, rfl⟩ := List.mem_map.mp hposition
    obtain ⟨m, hm, rfl⟩ := List.mem_map.mp hi
    rw [List.getD_eq_getElem _ _ (hlt m hm)]
    exact List.getElem_mem _
  · rw [List.map_map, List.forall₂_map_left_iff]
    refine hreads.imp fun m pair hpair => ?_
    obtain ⟨hi, hcandidate⟩ := List.getElem?_eq_some_iff.mp hpair.1
    have hposition := hat m.index.toNat (hlength ▸ hi) hi
    simp only [List.get_eq_getElem, hcandidate] at hposition
    simpa only [Function.comp_apply, List.getD_eq_getElem _ _ (hlength ▸ hi)] using hposition

theorem grounded_of_readMapping {text : Str}
    (hcited : ∀ o ∈ obligations, InText text o.citation)
    (hhits : ∀ hit ∈ hits, hit.charStart < hit.charEnd)
    (h : readMapping (selectCandidates obligations hits CANDIDATE_LIMIT) reply [] = .ok mapped) :
    Grounded obligations hits reply mapped := by
  obtain ⟨positions, hnodup, hlength, hcandidates⟩ :=
    @selectCandidates_picked obligations hits CANDIDATE_LIMIT (by decide)
  obtain ⟨hnames, hreads⟩ := readMapping_eq_ok h
  obtain ⟨picks, hpicks, hsub, hat⟩ := exists_positions hcandidates hnodup
    (firstMentions_nodup reply)
    (fun m hm => hnames m ((firstMentions_sublist reply).subset hm)) hreads
  refine ⟨⟨picks, hpicks, ?_, hat.imp fun position pair => ?_⟩, hreads⟩
  · exact Nat.le_trans (List.subperm_of_subset hpicks hsub).length_le hlength
  · rintro ⟨hposition, hit, hhit, hoverlaps⟩
    have hcitation := hcited pair.1 (List.mem_of_getElem? hposition)
    exact ⟨hposition, hit, hhit, (overlaps_iff hcitation.2.1 (hhits hit hhit)).mp hoverlaps⟩

end Grounding

/-! ## Runs -/

section Runs

variable {env : Store → Store → Prop} {l : Session} {s : Store}

/-- What becomes of the mapping of a change: no call without candidates, and with candidates the
reading of the one reply. -/
theorem mapChangeImpacts_run (llm : OpenAiClient) (change : Change) (candidates : List Obligation)
    (baseText amendedText requestId : Str) (tenantId : Uuid) (jobType : UsageJobKind)
    (jobId : Option Uuid) :
    Every exec env (mapChangeImpacts llm change candidates baseText amendedText
      (Usage.sink requestId tenantId jobType jobId)) l s fun trace res _ _ =>
        (candidates = [] → trace = [] ∧ res = .ok []) ∧
        (candidates ≠ [] → (∀ mapped, res = .ok mapped → ∃ reply,
            replies .impactMapping trace = [reply] ∧ readMapping candidates reply [] = .ok mapped) ∧
          ((∀ entry ∈ trace, Accounted entry) → ∀ reply ∈ replies .impactMapping trace,
            res = readMapping candidates reply [])) := by
  unfold mapChangeImpacts
  split
  next hnone => exact ⟨fun _ => ⟨rfl, rfl⟩, fun h => absurd hnone h⟩
  next hsome =>
    refine ask (fun trace e l' t hdeclined => ?_) fun trace reply l' t hasked => ?_
    · refine ⟨fun h => absurd h hsome, fun _ => ⟨nofun, fun haccounted reply hreply => ?_⟩⟩
      rw [hdeclined.replies_eq haccounted] at hreply
      cases hreply
    · have hreplies := hasked.replies_eq
      have hread : ∀ res, readMapping candidates reply.data [] = res →
          Every exec env (lift res) l' t fun more res' _ _ =>
            trace ++ more = trace ∧ res' = res := by
        intro res _
        cases res <;> exact ⟨List.append_nil _, rfl⟩
      refine (hread _ rfl).mono ?_
      rintro more res - - ⟨htrace, rfl⟩
      rw [htrace, hreplies]
      refine ⟨fun h => absurd h hsome, fun _ => ⟨fun mapped hmapped => ?_, fun _ reply' hreply => ?_⟩⟩
      · exact ⟨reply.data, rfl, hmapped⟩
      · rw [List.mem_singleton.mp hreply]

/-- The impact mapping of a change, on obligations cited in the base document's text and on chunks
of that document: what it returns is supported by the search and by the one reply, a reply with an
index outside the candidates is rejected, and without candidates no call is made. -/
theorem mapping_is_grounded (llm : OpenAiClient) (change : Change) (obligations : List Obligation)
    (hits : List SearchHit) (entries : List Parsing.Entry) (baseText amendedText requestId : Str)
    (tenantId : Uuid) (jobType : UsageJobKind) (jobId : Option Uuid) (l : Session) (s : Store)
    (hentries : ∀ e ∈ entries, e.text ≠ [])
    (hcited : ∀ o ∈ obligations, InText (build entries).text o.citation)
    (hhits : ∀ hit ∈ hits, ∃ chunk ∈ chunkDocument (build entries),
      hit.charStart = chunk.charStart ∧ hit.charEnd = chunk.charEnd) :
    let candidates := selectCandidates obligations hits CANDIDATE_LIMIT
    Every exec env (mapChangeImpacts llm change candidates baseText amendedText
      (Usage.sink requestId tenantId jobType jobId)) l s fun trace res _ _ =>
        let replied := replies .impactMapping trace
        (∀ mapped, res = .ok mapped → ∃ reply, (replied = [reply] ∨ candidates = [] ∧ reply = []) ∧
          Grounded obligations hits reply mapped) ∧
        (∀ reply ∈ replied, (∃ m ∈ reply, m.index < 0 ∨ candidates.length ≤ m.index) →
          (∀ mapped, res ≠ .ok mapped) ∧ ((∀ entry ∈ trace, Accounted entry) →
            ∃ message, res = .error (.llmOutputError message none))) ∧
        (candidates = [] → chats trace = [] ∧ res = .ok []) := by
  intro candidates
  have hspans : ∀ hit ∈ hits, hit.charStart < hit.charEnd := by
    intro hit hhit
    obtain ⟨chunk, hchunk, hstart, hend⟩ := hhits hit hhit
    obtain ⟨htext, hlength, -⟩ := (Chunking.build_laid hentries).covers.slices chunk hchunk
    rw [htext, Str.slice, List.length_drop, List.length_take] at hlength
    omega
  refine (mapChangeImpacts_run llm change candidates baseText amendedText requestId tenantId jobType
    jobId).mono ?_
  rintro trace res - - ⟨hnone, hsome⟩
  by_cases hcandidates : candidates = []
  · obtain ⟨rfl, rfl⟩ := hnone hcandidates
    refine ⟨fun mapped hmapped => ⟨[], .inr ⟨hcandidates, rfl⟩, ?_⟩, fun reply hreply => ?_,
      fun _ => ⟨rfl, rfl⟩⟩
    · cases hmapped
      exact grounded_of_readMapping hcited hspans rfl
    · exact absurd hreply List.not_mem_nil
  · obtain ⟨hok, haccounted⟩ := hsome hcandidates
    refine ⟨fun mapped hmapped => ?_, fun reply hreply hbad => ?_, fun h => absurd h hcandidates⟩
    · obtain ⟨reply, hreply, hread⟩ := hok mapped hmapped
      exact ⟨reply, .inl hreply, grounded_of_readMapping hcited hspans hread⟩
    · obtain ⟨m, hm, hindex⟩ := hbad
      have hrejects : ∃ m ∈ reply, ¬ Names candidates m := by
        refine ⟨m, hm, fun hnames => ?_⟩
        obtain ⟨hlow, hhigh⟩ := hnames
        omega
      obtain ⟨message, hread⟩ := readMapping_rejects hrejects []
      refine ⟨fun mapped hmapped => ?_, fun h => ⟨message, (haccounted h reply hreply).trans hread⟩⟩
      obtain ⟨reply', hreply', hread'⟩ := hok mapped hmapped
      rw [hreply', List.mem_singleton] at hreply
      rw [hreply, hread'] at hread
      cases hread

/-- An agreement of two lines. -/
def twoLines : List Parsing.Entry :=
  [⟨.paragraph, "Pay.".toList, none⟩, ⟨.paragraph, "Ship.".toList, none⟩]

/-- Three obligations that the agreement states. -/
def threeDuties : List Obligation :=
  [⟨"1".toList, "Pay.".toList, none, ⟨0, 4⟩, 1⟩, ⟨"2".toList, "Ship.".toList, none, ⟨6, 11⟩, 1⟩,
    ⟨"2".toList, "Ship on time.".toList, none, ⟨6, 10⟩, 1⟩]

/-- The one chunk of the agreement. -/
def oneHit : List SearchHit := [⟨10, [], [], 30, 0, [], 0, 11, 1⟩]

/-- The reply names the last candidate, the first, and the last once more. -/
def namedTwice : List MappedImpact := [⟨2, 1 / 2⟩, ⟨0, 9 / 10⟩, ⟨2, 1⟩]

/-- Of three candidates two are mapped, each by its first mention. -/
theorem mapping_is_grounded_two : ∃ trace mapped l' t,
    Runs exec Eq (mapChangeImpacts ⟨"gpt-4o".toList, []⟩ ⟨.added, none, none, none⟩
      (selectCandidates threeDuties oneHit CANDIDATE_LIMIT) [] []
      (Usage.sink [] 1 .changeReport none)) ⟨false⟩ (.empty 0) trace (.ok mapped) l' t ∧
    mapped.length = 2 ∧
    ∃ reply, replies .impactMapping trace = [reply] ∧ Grounded threeDuties oneHit reply mapped := by
  have hentries : ∀ e ∈ twoLines, e.text ≠ [] := by decide
  have hcited : ∀ o ∈ threeDuties, InText (build twoLines).text o.citation := by
    unfold InText
    decide +kernel
  have hhits : ∀ hit ∈ oneHit, ∃ chunk ∈ chunkDocument (build twoLines),
      hit.charStart = chunk.charStart ∧ hit.charEnd = chunk.charEnd := by
    decide +kernel
  have hreplay : ((Lib.replay exec (mapChangeImpacts ⟨"gpt-4o".toList, []⟩ ⟨.added, none, none, none⟩
      (selectCandidates threeDuties oneHit CANDIDATE_LIMIT) [] []
      (Usage.sink [] 1 .changeReport none)) ⟨false⟩ (.empty 0)
      [{ chat := .replied none 0 [some (.impactMapping namedTwice)] }, {}]).map fun r =>
        r.2.1.toOption.map List.length) = some (some 2) := by
    decide +kernel
  obtain ⟨⟨trace, res, l', t⟩, hr, hlength⟩ := Option.map_eq_some_iff.mp hreplay
  have hrun := Lib.runs_of_replay (fun s => Eq.refl s) hr
  cases res with
  | error e => cases hlength
  | ok mapped =>
    have hgrounded := (Lib.every_iff_runs _ _ _ _).mp
      (mapping_is_grounded ⟨"gpt-4o".toList, []⟩ ⟨.added, none, none, none⟩ threeDuties oneHit twoLines
        [] [] [] 1 .changeReport none _ _ hentries hcited hhits) _ _ _ _ hrun
    obtain ⟨reply, hreplied | ⟨hnone, -⟩, hmapped⟩ := hgrounded.1 mapped rfl
    · exact ⟨trace, mapped, l', t, hrun, Option.some.inj hlength, reply, hreplied, hmapped⟩
    · exact absurd hnone (by decide +kernel)

end Runs

end ContractIntel.Impact
