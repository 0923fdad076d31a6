import ContractIntel.Laws.Services.ChangeReport
import Mathlib.Data.List.Nodup

/-!
# The change-index gate

The gate compares the SET of the reply's indices with `0..n-1`. A missing index and one out of range
are rejected, but a set does not count: of two explanations with one index the later one is taken,
and the contradiction passes. So the gate keeps its promise of exactly one explanation for each index
on the replies that are off the indices anyway, or have no index twice (`explanations_gated_iff`).
-/

namespace ContractIntel.ChangeReport

open Diffing (Change)
open Lib (Every Runs replay)
open Llm (Accounted CallerSink OpenAiClient UsageSink ask_caller chats replies)

variable {reply : List ChangeExplanation} {n : Nat}

/-- Exactly one explanation for each index `0..n-1`, and no other index. -/
def Exact (reply : List ChangeExplanation) (n : Nat) : Prop :=
  ∀ i : Int, (reply.map ChangeExplanation.index).count i = if 0 ≤ i ∧ i < n then 1 else 0

/-- The gate's promise about an answer to a reply. -/
structure Gated (reply : List ChangeExplanation) (n : Nat)
    (res : Except Exn (List ChangeExplanation)) : Prop where
  returns : (∃ explanations, res = .ok explanations) ↔ Exact reply n
  given : ∀ explanations, res = .ok explanations → explanations.length = n ∧
    ∀ (i : Nat) (explanation : ChangeExplanation), explanations[i]? = some explanation →
      explanation ∈ reply ∧ explanation.index = i
  raises : ¬ Exact reply n → ∃ message, res = .error (.llmOutputError message none)

/-- No index twice, or off the indices anyway: one of them missing, or another one there. -/
def Unambiguous (reply : List ChangeExplanation) (n : Nat) : Prop :=
  (reply.map ChangeExplanation.index).Nodup ∨
    (∃ i < n, ∀ explanation ∈ reply, explanation.index ≠ (i : Int)) ∨
    ∃ explanation ∈ reply, ¬ (0 ≤ explanation.index ∧ explanation.index < n)

theorem coversIndices_iff : coversIndices reply n = true ↔
    (∀ explanation ∈ reply, 0 ≤ explanation.index ∧ explanation.index < n) ∧
      ∀ i < n, ∃ explanation ∈ reply, explanation.index = (i : Int) := by
  simp only [coversIndices, Bool.and_eq_true, List.all_eq_true, List.any_eq_true, List.mem_range,
    decide_eq_true_eq]

/-- The set comparison and no repetition make the reply exact. -/
theorem exact_iff : Exact reply n ↔
    coversIndices reply n = true ∧ (reply.map ChangeExplanation.index).Nodup := by
  rw [coversIndices_iff]
  constructor
  · intro h
    refine ⟨⟨fun explanation hmem => ?_, fun i hi => ?_⟩, List.nodup_iff_count_le_one.mpr fun i => ?_⟩
    · by_contra hout
      have hcount := h explanation.index
      rw [if_neg hout] at hcount
      exact List.count_eq_zero.mp hcount (List.mem_map_of_mem hmem)
    · have hcount := h i
      rw [if_pos ⟨by omega, by omega⟩] at hcount
      exact List.mem_map.mp (List.count_pos_iff.mp (by omega))
    · rw [h i]
      split <;> omega
  · rintro ⟨⟨hrange, hall⟩, hnodup⟩ i
    split
    case isTrue hi =>
      obtain ⟨explanation, hmem, hindex⟩ := hall i.toNat (by omega)
      rw [Int.toNat_of_nonneg hi.1] at hindex
      exact List.count_eq_one_of_mem hnodup (List.mem_map.mpr ⟨explanation, hmem, hindex⟩)
    case isFalse hout =>
      refine List.count_eq_zero.mpr fun hindex => ?_
      obtain ⟨explanation, hmem, rfl⟩ := List.mem_map.mp hindex
      exact hout (hrange explanation hmem)

/-- What is off the indices is exactly what the set comparison rejects. -/
theorem unambiguous_iff : Unambiguous reply n ↔
    (reply.map ChangeExplanation.index).Nodup ∨ ¬ coversIndices reply n = true := by
  rw [coversIndices_iff, Unambiguous]
  refine or_congr_right ?_
  rw [not_and_or, or_comm]
  push Not
  rfl

theorem readExplanations_of_covers (h : coversIndices reply n = true) :
    ∃ explanations, readExplanations reply n = .ok explanations := by
  unfold readExplanations
  rw [if_pos h]
  exact Lib.exists_mapM_eq_ok fun i hi => explanationAt_isOk h (List.mem_range.mp hi)

theorem GivenFor.mem {index : Nat} {explanation : ChangeExplanation}
    (h : GivenFor reply index explanation) : explanation ∈ reply ∧ explanation.index = index := by
  obtain ⟨before, after, rfl, hindex, -⟩ := h
  exact ⟨by simp, hindex⟩

/-- The gate as it is keeps the promise on the unambiguous replies only. -/
theorem readExplanations_gated_iff :
    Gated reply n (readExplanations reply n) ↔ Unambiguous reply n := by
  rw [unambiguous_iff]
  by_cases hcovers : coversIndices reply n = true
  · obtain ⟨explanations, hok⟩ := readExplanations_of_covers hcovers
    constructor
    · intro h
      exact .inl (exact_iff.mp (h.returns.mp ⟨explanations, hok⟩)).2
    · intro h
      have hexact : Exact reply n :=
        exact_iff.mpr ⟨hcovers, h.resolve_right fun hnot => hnot hcovers⟩
      refine ⟨⟨fun _ => hexact, fun _ => ⟨explanations, hok⟩⟩, fun found hfound => ?_,
        fun hnot => absurd hexact hnot⟩
      obtain ⟨hlength, hgiven⟩ := readExplanations_eq_ok hfound
      exact ⟨hlength, fun i explanation hi => (hgiven i explanation hi).mem⟩
  · have hinexact : ¬ Exact reply n := fun h => hcovers (exact_iff.mp h).1
    have herror : ∃ message, readExplanations reply n = .error (.llmOutputError message none) := by
      unfold readExplanations
      rw [if_neg hcovers]
      exact ⟨_, rfl⟩
    obtain ⟨message, herror⟩ := herror
    refine iff_of_true ⟨⟨fun ⟨_, hok⟩ => ?_, fun h => absurd h hinexact⟩, fun _ hok => ?_,
      fun _ => ⟨message, herror⟩⟩ (.inr hcovers)
    · cases hok.symm.trans herror
    · cases hok.symm.trans herror

/-- Of a run whose model call is answered, and whose usage row is not refused: the answer keeps the
gate's promise about the reply if and only if the reply has no index twice, or is off the indices
anyway. -/
theorem explanations_gated_iff (env : Store → Store → Prop) (llm : OpenAiClient)
    (changes : List Change) (baseText amendedText : Str) {usageSink : UsageSink}
    (hsink : CallerSink usageSink) (l : Session) (s : Store) :
    Every exec env (explainChanges llm changes baseText amendedText usageSink) l s
      fun trace res _ _ => (∀ entry ∈ trace, Accounted entry) →
        ∀ reply ∈ replies .changeExplanations trace,
          (Gated reply changes.length res ↔ Unambiguous reply changes.length) := by
  unfold explainChanges
  split
  next hnone => exact fun _ reply hreply => absurd hreply List.not_mem_nil
  next =>
    refine ask_caller hsink (fun trace e l' t hnone haccounted reply hreply => ?_)
      fun trace reply l' t hreplies => ?_
    · rw [hnone haccounted] at hreply
      exact absurd hreply List.not_mem_nil
    · have hgated := @readExplanations_gated_iff reply.data changes.length
      refine Every.ofResult.mpr ?_
      intro haccounted data hdata
      rw [List.append_nil, hreplies] at hdata
      obtain rfl := List.mem_singleton.mp hdata
      exact hgated

/-- A modified clause. -/
def oneModified : Change := ⟨.modified, some "1".toList, some ⟨0, 4⟩, some ⟨0, 4⟩⟩

/-- The one call that explains it. -/
def explainOne : Service (List ChangeExplanation) :=
  explainChanges ⟨"gpt-4o-mini".toList, []⟩ [oneModified] "Pay.".toList "Pay!".toList UsageSink.none

/-- A call that is answered with these explanations: the reply, the list that is returned, and how
many of the run's operations are model calls. -/
def explained (reply : List ChangeExplanation) :=
  (replay exec explainOne ⟨false⟩ (.empty 0)
    [{ chat := .replied none 0 [some (.changeExplanations reply)] }]).map fun r =>
      (replies .changeExplanations r.1, r.2.1.toOption, (chats r.1).length, r.1.length)

/-- A run that is nothing but its model call has no usage row to be refused. -/
theorem explained_run {reply : List ChangeExplanation} {found : Option (List ChangeExplanation)}
    (h : explained reply = some ([reply], found, 1, 1)) :
    ∃ trace res l' t, Runs exec Eq explainOne ⟨false⟩ (.empty 0) trace res l' t ∧
      (∀ entry ∈ trace, Accounted entry) ∧ reply ∈ replies .changeExplanations trace ∧
      res.toOption = found := by
  obtain ⟨⟨trace, res, l', t⟩, hr, hend⟩ := Option.map_eq_some_iff.mp h
  simp only [Prod.mk.injEq] at hend
  obtain ⟨hreply, hres, hchats, hlength⟩ := hend
  have hall := List.length_filter_eq_length_iff.mp (hchats.trans hlength.symm)
  refine ⟨trace, res, l', t, Lib.runs_of_replay (fun _ => rfl) hr, fun entry hentry => ?_, ?_, hres⟩
  · obtain ⟨o, a, result⟩ := entry
    have hchat := hall _ hentry
    cases o with
    | parseChat => trivial
    | _ => cases hchat
  · rw [hreply]
    exact List.mem_singleton_self _

theorem explanations_gated_iff_one :
    let reply : List ChangeExplanation := [⟨0, "raises the fee".toList, .high⟩]
    ∃ trace res l' t, Runs exec Eq explainOne ⟨false⟩ (.empty 0) trace res l' t ∧
      reply ∈ replies .changeExplanations trace ∧ Gated reply 1 res := by
  intro reply
  obtain ⟨trace, res, l', t, hrun, haccounted, hreply, -⟩ :=
    @explained_run reply (some reply) (by decide +kernel)
  have hiff := (Lib.every_iff_runs _ _ _ _).mp
    (explanations_gated_iff Eq ⟨"gpt-4o-mini".toList, []⟩ [oneModified] "Pay.".toList "Pay!".toList
      .none ⟨false⟩ (.empty 0)) _ _ _ _ hrun haccounted reply hreply
  exact ⟨trace, res, l', t, hrun, hreply, hiff.mpr (.inl (by decide))⟩

/-- A reply that describes one change twice, differently: the later severity is reported. -/
theorem contradicting_reply_is_accepted :
    let reply : List ChangeExplanation :=
      [⟨0, "raises the fee".toList, .high⟩, ⟨0, "no effect".toList, .low⟩]
    ∃ trace res l' t, Runs exec Eq explainOne ⟨false⟩ (.empty 0) trace res l' t ∧
      (∀ entry ∈ trace, Accounted entry) ∧ reply ∈ replies .changeExplanations trace ∧
      res.toOption = some [⟨0, "no effect".toList, .low⟩] ∧ ¬ Gated reply 1 res := by
  intro reply
  obtain ⟨trace, res, l', t, hrun, haccounted, hreply, hres⟩ :=
    @explained_run reply (some [⟨0, "no effect".toList, .low⟩]) (by decide +kernel)
  refine ⟨trace, res, l', t, hrun, haccounted, hreply, hres, fun hgated => ?_⟩
  have hexact : Exact reply 1 := by
    refine hgated.returns.mp ?_
    cases res with
    | error e => cases hres
    | ok explanations => exact ⟨explanations, rfl⟩
  have htwice := hexact 0
  revert htwice
  decide

end ContractIntel.ChangeReport
