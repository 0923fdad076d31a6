import ContractIntel.Laws.Llm.Client
import ContractIntel.Laws.Services.Workers

/-!
# The citation gate

`extract_obligations` asks at most twice. What it returns is the reply it stopped at, less the items
whose span is not in the text; what a run of the worker stores and routes is cited in the text it
read.
-/

namespace ContractIntel.Extraction

open Jobs (JobRow)
open Lib (Every Runs)
open Lib.Prog (Performs)
open Llm (Accounted OpenAiClient UsageSink ask chats heard replies)
open Repositories

/-! ## Grounded items -/

/-- The span of a citation lies in the text and is not empty. -/
def InText (text : Str) (c : Citation) : Prop :=
  0 ≤ c.charStart ∧ c.charStart < c.charEnd ∧ c.charEnd ≤ text.length

/-- The citations of both kinds of items. -/
def citations (extraction : ObligationExtraction) : List Citation :=
  extraction.obligations.map Obligation.citation ++ extraction.definedTerms.map DefinedTerm.citation

/-- Every item cites the text. -/
def Cited (text : Str) (extraction : ObligationExtraction) : Prop :=
  ∀ c ∈ citations extraction, InText text c

/-- The items of both kinds that cite the text, in their order. -/
def citedPart (text : Str) (extraction : ObligationExtraction) : ObligationExtraction :=
  ⟨extraction.obligations.filter (grounded text ·.citation),
    extraction.definedTerms.filter (grounded text ·.citation)⟩

variable {text : Str} {extraction : ObligationExtraction}

theorem grounded_iff {c : Citation} : grounded text c = true ↔ InText text c := by
  simp only [grounded, InText, Bool.and_eq_true, decide_eq_true_eq, and_assoc]

theorem splitCited_fst : (splitCited extraction text).1 = citedPart text extraction := rfl

/-- Nothing is rejected exactly when every item cites the text. -/
theorem splitCited_snd_eq_nil_iff : (splitCited extraction text).2 = [] ↔ Cited text extraction := by
  simp only [splitCited, List.map_eq_nil_iff, List.filter_eq_nil_iff, Bool.not_eq_true',
    Bool.not_eq_false, grounded_iff]
  rfl

theorem citedPart_cited (text : Str) (extraction : ObligationExtraction) :
    Cited text (citedPart text extraction) := by
  intro c hc
  rcases List.mem_append.mp hc with hc | hc
  · obtain ⟨o, ho, rfl⟩ := List.mem_map.mp hc
    exact grounded_iff.mp (List.mem_filter.mp ho).2
  · obtain ⟨t, ht, rfl⟩ := List.mem_map.mp hc
    exact grounded_iff.mp (List.mem_filter.mp ht).2

theorem citedPart_eq_self (h : Cited text extraction) : citedPart text extraction = extraction := by
  have hobligations : ∀ o ∈ extraction.obligations, grounded text o.citation = true := fun o ho =>
    grounded_iff.mpr (h _ (List.mem_append_left _ (List.mem_map_of_mem ho)))
  have hterms : ∀ t ∈ extraction.definedTerms, grounded text t.citation = true := fun t ht =>
    grounded_iff.mpr (h _ (List.mem_append_right _ (List.mem_map_of_mem ht)))
  unfold citedPart
  rw [List.filter_eq_self.mpr hobligations, List.filter_eq_self.mpr hterms]

/-- Nothing is left exactly when no item cites the text. -/
theorem citedPart_empty_iff :
    ((citedPart text extraction).obligations = [] ∧ (citedPart text extraction).definedTerms = []) ↔
      ∀ c ∈ citations extraction, ¬ InText text c := by
  simp only [citedPart, List.filter_eq_nil_iff, grounded_iff, citations, List.mem_append,
    List.mem_map, or_imp, forall_and, forall_exists_index, and_imp, forall_apply_eq_imp_iff₂]

/-! ## The loop -/

/-- The error for two replies without a cited item. -/
def citationError : Exn :=
  .llmOutputError ("model output failed citation validation: ".toList ++
    "every item cited a span outside the document text".toList) none

/-- What is heard of a call is never the loop's own error. -/
theorem heard_ne_citationError {model : Str} {schema : Schema}
    {result : Except Exn (ChatReply schema)}
    (hresult : ∀ e, result = .error e → Llm.ofSdk e) :
    heard model result ≠ .error citationError := by
  have hprefix : ∀ rest usage, Exn.llmOutputError
      ("model output failed schema validation model=".toList ++ rest) usage ≠ citationError := by
    intro rest usage h
    have htake : ("model output failed s".toList : Str) = "model output failed c".toList :=
      congrArg (List.take 21) (Exn.llmOutputError.inj h).1
    exact absurd htake (by decide)
  intro h
  cases result with
  | error e =>
    have hsdk := hresult e rfl
    cases e with
    | unusableReply => exact hprefix _ _ (Except.error.inj h)
    | openAiError | valueError | otherError => cases h
    | _ => cases hsdk
  | ok response =>
    rw [heard] at h
    by_cases hrecorded : Llm.Recordable model response.promptTokens response.completionTokens
    · obtain ⟨_, _, _, -, -, -, hrecord⟩ :=
        Llm.usageRecord_of_recordable hrecorded response.latencyMs
      rw [Llm.readReply_of_record hrecord] at h
      unfold Llm.readChoices at h
      split at h
      · cases h
      · exact hprefix _ _ (Except.error.inj h)
      · cases h
    · obtain ⟨e, hrecord, he⟩ :=
        Llm.usageRecord_of_not_recordable hrecorded response.latencyMs
      rw [Llm.readReply_of_no_record hrecord] at h
      obtain rfl := Except.error.inj h
      rcases he with he | ⟨_, _, he⟩ <;> cases he

/-- What a run of the loop comes to, with so many attempts: it asks again only after a reply that
is not cited throughout, returns the cited part of the reply it stopped at, and gives up exactly
when it is out of attempts without a cited item. -/
structure LoopRun (text : Str) (attempts : Nat) (trace : List Entry)
    (res : Except Exn ObligationExtraction) : Prop where
  calls : (chats trace).length ≤ attempts
  again : ∀ i, i + 1 < (chats trace).length →
    ∃ reply, (replies .obligationExtraction trace)[i]? = some reply ∧ ¬ Cited text reply
  returns : ∀ extraction, res = .ok extraction → ∃ before reply,
    replies .obligationExtraction trace = before ++ [reply] ∧ (∀ r ∈ before, ¬ Cited text r) ∧
      extraction = citedPart text reply
  givesUp : (∀ entry ∈ trace, Accounted entry) → (res = .error citationError ↔
    ∃ before reply, replies .obligationExtraction trace = before ++ [reply] ∧
      before.length + 1 = attempts ∧ (∀ r ∈ before ++ [reply], ¬ Cited text r) ∧
      ∀ c ∈ citations reply, ¬ InText text c)

section LoopRun

variable {data : ObligationExtraction} {trace more : List Entry}

/-- The run ends at a reply with a cited item, or without an item at all. -/
theorem LoopRun.stop (attempts : Nat) (hreplies : replies .obligationExtraction trace = [data])
    (hcalls : (chats trace).length = 1)
    (hstop : Cited text data ∨ ∃ c ∈ citations data, InText text c) :
    LoopRun text (attempts + 1) trace (.ok (citedPart text data)) where
  calls := by omega
  again i h := by omega
  returns extraction h := ⟨[], data, hreplies, nofun, (Except.ok.inj h).symm⟩
  givesUp _ := by
    refine iff_of_false nofun ?_
    rintro ⟨before, reply, heq, -, hcited, hnone⟩
    have hdata : data ∈ before ++ [reply] := heq ▸ hreplies ▸ List.mem_singleton_self _
    have hreply : reply = data := by
      have hmem : reply ∈ [data] := hreplies ▸ heq ▸ List.mem_append_right _ List.mem_cons_self
      exact List.mem_singleton.mp hmem
    rcases hstop with hclean | ⟨c, hc, hin⟩
    · exact hcited data hdata hclean
    · exact hnone c (hreply ▸ hc) hin

/-- The run gives up at its last reply. -/
theorem LoopRun.giveUp (hreplies : replies .obligationExtraction trace = [data])
    (hcalls : (chats trace).length = 1) (hrejected : ¬ Cited text data)
    (hnone : ∀ c ∈ citations data, ¬ InText text c) :
    LoopRun text 1 trace (.error citationError) where
  calls := by omega
  again i h := by omega
  returns := nofun
  givesUp _ := iff_of_true rfl ⟨[], data, hreplies, rfl,
    fun r hr => List.mem_singleton.mp hr ▸ hrejected, hnone⟩

/-- The run goes on after a reply that is not cited throughout. -/
theorem LoopRun.next {left : Nat} {res : Except Exn ObligationExtraction} (hleft : 0 < left)
    (hreplies : replies .obligationExtraction trace = [data])
    (hcalls : (chats trace).length = 1) (hrejected : ¬ Cited text data)
    (h : LoopRun text left more res) :
    LoopRun text (left + 1) (trace ++ more) res where
  calls := by
    have hmore := h.calls
    rw [Llm.chats_append, List.length_append]
    omega
  again i hi := by
    rw [Llm.chats_append, List.length_append] at hi
    rw [Llm.replies_append, hreplies]
    cases i with
    | zero => exact ⟨data, rfl, hrejected⟩
    | succ i => exact h.again i (by omega)
  returns extraction hres := by
    obtain ⟨before, reply, heq, hbefore, hextraction⟩ := h.returns extraction hres
    refine ⟨data :: before, reply, ?_, ?_, hextraction⟩
    · rw [Llm.replies_append, hreplies, heq]
      rfl
    · intro r hr
      rcases List.mem_cons.mp hr with rfl | hr
      · exact hrejected
      · exact hbefore r hr
  givesUp haccounted' := by
    rw [h.givesUp fun entry hentry => haccounted' entry (List.mem_append_right _ hentry),
      Llm.replies_append, hreplies]
    constructor
    · rintro ⟨before, reply, heq, hlength, hcited, hnone⟩
      refine ⟨data :: before, reply, by rw [heq]; rfl, by simp [hlength], ?_, hnone⟩
      intro r hr
      rcases List.mem_cons.mp hr with rfl | hr
      · exact hrejected
      · exact hcited r hr
    · rintro ⟨before, reply, heq, hlength, hcited, hnone⟩
      cases before with
      | nil =>
        rw [List.length_nil] at hlength
        omega
      | cons first before =>
        exact ⟨before, reply, (List.cons.inj heq).2, by simpa using hlength,
          fun r hr => hcited r (List.mem_cons_of_mem _ hr), hnone⟩

end LoopRun

variable {env : Store → Store → Prop} {l : Session} {s : Store}

theorem extractAttempts_run (llm : OpenAiClient) (text : Str) (requestId : Str) (tenantId : Uuid)
    (jobType : UsageJobKind) (jobId : Option Uuid) (attempts : Nat) :
    Every exec env (extractAttempts llm text (Usage.sink requestId tenantId jobType jobId) attempts)
      l s fun trace res _ _ => LoopRun text attempts trace res := by
  induction attempts generalizing l s with
  | zero =>
    refine ⟨Nat.le_refl 0, fun i h => absurd h (Nat.not_lt_zero _), nofun, fun _ => ?_⟩
    refine iff_of_false nofun ?_
    rintro ⟨before, reply, -, hlength, -⟩
    cases hlength
  | succ left ih =>
    refine ask (fun trace e l' t hdeclined => ?_) fun trace reply l' t hasked => ?_
    · have hcalls := hdeclined.length_chats
      refine ⟨by omega, fun i h => by omega, nofun, fun haccounted => ?_⟩
      refine iff_of_false ?_ ?_
      · cases hdeclined with
        | call a hresult hheard =>
          intro h
          cases h
          exact heard_ne_citationError hresult hheard
        | usage a b hread =>
          exact absurd (haccounted _ (List.mem_cons_of_mem _ (List.mem_singleton_self _))) nofun
      · rintro ⟨before, reply, heq, -⟩
        rw [hdeclined.replies_eq haccounted] at heq
        exact absurd heq.symm (List.append_ne_nil_of_right_ne_nil _ (List.cons_ne_nil _ _))
    · have hreplies := hasked.replies_eq
      have hcalls := hasked.length_chats
      dsimp only
      split
      next hclean =>
        have hcited := splitCited_snd_eq_nil_iff.mp hclean
        have hstop := LoopRun.stop left hreplies hcalls (.inl hcited)
        rw [citedPart_eq_self hcited] at hstop
        rwa [← List.append_nil trace] at hstop
      next hrejected =>
        have hcited := splitCited_snd_eq_nil_iff.not.mp hrejected
        split
        next hleft =>
          exact ih.mono fun more res _ _ h => h.next hleft hreplies hcalls hcited
        next hlast =>
          obtain rfl : left = 0 := by omega
          rw [splitCited_fst]
          split
          next hnone =>
            rw [citedPart_empty_iff] at hnone
            have hgiveUp := LoopRun.giveUp hreplies hcalls hcited hnone
            rwa [← List.append_nil trace] at hgiveUp
          next hsome =>
            rw [citedPart_empty_iff] at hsome
            have hstop := LoopRun.stop 0 hreplies hcalls
              (.inr (by simpa only [not_forall, not_not, exists_prop] using hsome))
            rwa [← List.append_nil trace] at hstop

/-! ## What a run stores -/

/-- The two operations that store what a run found. -/
def Op.ships : Op → Bool
  | .completeJob .. | .insertReviewItems .. => true
  | _ => false

/-- A text that the run read of the job's document. -/
def Read (trace : List Entry) (job : JobRow) (text : Str) : Prop :=
  ∃ a row, ⟨.findText job.documentId, a, .ok (some row)⟩ ∈ trace ∧ row.text = text

/-- The extraction an operation stores the result, or review items, of. -/
def StoresOf (job : JobRow) (extraction : ObligationExtraction) : Op → Prop
  | .completeJob _ id result => id = job.id ∧ result = extraction.modelDump
  | .insertReviewItems _ _ documentId jobId items =>
    documentId = job.documentId ∧ jobId = job.id ∧ ∀ item ∈ items, item ∈ reviewCandidates extraction
  | _ => True

/-- A review item of an obligation or a defined term that cites the text. -/
def CitedItem (text : Str) (item : Str × Json × Rat) : Prop :=
  (∃ o : Obligation, item = ("obligation".toList, o.modelDump, o.confidence) ∧
    InText text o.citation) ∨
  ∃ t : DefinedTerm, item = ("defined_term".toList, t.modelDump, t.confidence) ∧
    InText text t.citation

/-- What an operation stores for a job cites a text the run read of the job's document. -/
def Sourced (trace : List Entry) (job : JobRow) : Op → Prop
  | .completeJob _ id result => id = job.id ∧ ∃ text extraction, Read trace job text ∧
      Cited text extraction ∧ result = extraction.modelDump
  | .insertReviewItems _ _ documentId jobId items =>
    documentId = job.documentId ∧ jobId = job.id ∧ ∃ text, Read trace job text ∧
      ∀ item ∈ items, CitedItem text item
  | _ => True

theorem citedItem_of_mem (h : Cited text extraction) {item : Str × Json × Rat}
    (hitem : item ∈ reviewCandidates extraction) : CitedItem text item := by
  rcases List.mem_append.mp hitem with hitem | hitem
  · obtain ⟨o, ho, rfl⟩ := List.mem_map.mp hitem
    exact .inl ⟨o, rfl, h _ (List.mem_append_left _ (List.mem_map_of_mem ho))⟩
  · obtain ⟨t, ht, rfl⟩ := List.mem_map.mp hitem
    exact .inr ⟨t, rfl, h _ (List.mem_append_right _ (List.mem_map_of_mem ht))⟩

theorem Sourced.of_storesOf {trace : List Entry} {job : JobRow} {o : Op}
    (h : StoresOf job extraction o) (hread : Read trace job text) (hcited : Cited text extraction) :
    Sourced trace job o := by
  cases o with
  | completeJob kind id result => exact ⟨h.1, text, extraction, hread, hcited, h.2⟩
  | insertReviewItems tenantId source documentId jobId items =>
    obtain ⟨hdocument, hjob, hitems⟩ := h
    exact ⟨hdocument, hjob, text, hread, fun item hitem => citedItem_of_mem hcited (hitems item hitem)⟩
  | _ => trivial

theorem not_ships_of_ofTry {o : Op} (h : o.ofTry = true) : Op.ships o = false := by
  cases o <;> first | rfl | cases h

/-- What the `try` block extracts is cited in the text it found. -/
theorem extract_cited (llm : OpenAiClient) (job : JobRow) (requestId : Str) (tenantId : Uuid)
    (jobType : UsageJobKind) (jobId : Option Uuid) :
    Every exec env (extract llm job (Usage.sink requestId tenantId jobType jobId)) l s
      fun trace res _ _ => ∀ extraction, res = .ok extraction →
        ∃ text, Read trace job text ∧ Cited text extraction := by
  refine Every.bind.mpr (Every.call.mpr fun moved a _ => ?_)
  split
  next found _ =>
    cases found with
    | none => exact nofun
    | some document =>
      refine Every.bind.mpr (Every.call.mpr fun moved a _ => ?_)
      split
      next text htext =>
        cases text with
        | none => exact nofun
        | some row =>
          refine (extractAttempts_run llm row.text requestId tenantId jobType jobId _).mono ?_
          intro trace res _ _ hrun extraction hres
          obtain ⟨-, reply, -, -, rfl⟩ := hrun.returns extraction hres
          refine ⟨row.text, ⟨a, row, ?_, rfl⟩, citedPart_cited _ _⟩
          simp [htext]
      next => exact nofun
  next => exact nofun

theorem finish_performs (job : JobRow) (extraction : ObligationExtraction) (threshold : Rat) :
    (finish job extraction threshold).Performs (StoresOf job extraction) := by
  refine .bind (markCompleted_performs ⟨rfl, rfl⟩ trivial) fun _ =>
    .bind (routeForReview_performs ⟨rfl, rfl, fun item hitem => ?_⟩) fun _ => .ret _
  exact (List.mem_filter.mp hitem).1

theorem abandon_performs (kind : JobKind) (job : JobRow) (usageSink : UsageSink)
    (hsink : ∀ usage, TryProgram (usageSink usage)) (e : Exn) :
    (abandon kind job usageSink e).Performs fun o => Op.ships o = false := by
  unfold abandon
  split
  · refine .bind (markFailed_performs rfl rfl) fun _ => .bind ?_ fun _ => .ret _
    exact (TryProgram.accountRejectedOutput hsink e).mono fun _ _ => not_ships_of_ofTry
  · exact .raise _

theorem runClaimed_sourced (llm : OpenAiClient) (threshold : Rat) (job : JobRow) :
    Every exec env (runClaimed llm threshold job) l s fun trace _ _ _ =>
      ∀ entry ∈ trace, Op.ships entry.op = true → Sourced trace job entry.op := by
  unfold runClaimed
  split
  · exact fun _ hentry => absurd hentry List.not_mem_nil
  · have htry : (extract llm job (Usage.sink [] job.tenantId .extraction (some job.id))).Performs
        fun o => Op.ships o = false :=
      (TryProgram.extract llm job (.sink _ _ _ _)).mono fun _ _ => not_ships_of_ofTry
    refine Every.attempt_bind.mpr (((extract_cited llm job [] job.tenantId .extraction
      (some job.id)).and (Every.trace_of_performs htry)).mono ?_)
    rintro trace res l' t ⟨hcited, hquiet⟩
    cases res with
    | error e =>
      refine (Every.trace_of_performs (abandon_performs .extraction job _ (.sink _ _ _ _) e)).mono ?_
      intro more _ _ _ hmore entry hentry hships
      rcases List.mem_append.mp hentry with hentry | hentry
      · exact nomatch (hquiet entry hentry).symm.trans hships
      · exact nomatch (hmore entry hentry).symm.trans hships
    | ok extraction =>
      obtain ⟨text, ⟨a, row, hrow, htext⟩, hcited⟩ := hcited extraction rfl
      refine (Every.trace_of_performs (finish_performs job extraction threshold)).mono ?_
      intro more _ _ _ hmore entry hentry hships
      rcases List.mem_append.mp hentry with hentry | hentry
      · exact nomatch (hquiet entry hentry).symm.trans hships
      · exact .of_storesOf (hmore entry hentry) ⟨a, row, List.mem_append_left _ hrow, htext⟩ hcited

theorem Sourced.mono {trace more : List Entry} {job : JobRow} {o : Op}
    (hsub : trace ⊆ more) (h : Sourced trace job o) : Sourced more job o := by
  have hread : ∀ text, Read trace job text → Read more job text := by
    rintro text ⟨a, row, hrow, htext⟩
    exact ⟨a, row, hsub hrow, htext⟩
  cases o with
  | completeJob kind id result =>
    obtain ⟨hid, text, extraction, htext, hrest⟩ := h
    exact ⟨hid, text, extraction, hread text htext, hrest⟩
  | insertReviewItems tenantId source documentId jobId items =>
    obtain ⟨hdocument, hjob, text, htext, hitems⟩ := h
    exact ⟨hdocument, hjob, text, hread text htext, hitems⟩
  | _ => trivial

theorem runNextExtractionJob_sourced (llm : OpenAiClient) (threshold : Rat) :
    Every exec env (runNextExtractionJob llm threshold) l s fun trace _ _ _ =>
      ∀ entry ∈ trace, Op.ships entry.op = true →
        ∃ job, Claimed .extraction trace job ∧ Sourced trace job entry.op := by
  have hclaim : (claimNextQueued .extraction).Performs fun o => Op.ships o = false :=
    claimNextQueued_performs rfl fun _ => rfl
  refine Every.bind.mpr (((claimNextQueued_claimed .extraction).and
    (Every.trace_of_performs hclaim)).mono ?_)
  rintro trace res l' t ⟨hclaimed, hquiet⟩
  have hnone : ∀ entry ∈ trace, ¬ Op.ships entry.op = true := fun entry hentry hships =>
    nomatch (hquiet entry hentry).symm.trans hships
  cases res with
  | error e => exact fun entry hentry hships => absurd hships (hnone entry hentry)
  | ok found =>
    cases found with
    | none =>
      intro entry hentry hships
      rw [List.append_nil] at hentry
      exact absurd hships (hnone entry hentry)
    | some job =>
      obtain ⟨a, hread⟩ := hclaimed job rfl
      refine (runClaimed_sourced llm threshold job).mono fun more _ _ _ hmore entry hentry hships => ?_
      refine ⟨job, ⟨a, List.mem_append_left _ hread⟩, ?_⟩
      rcases List.mem_append.mp hentry with hentry | hentry
      · exact absurd hships (hnone entry hentry)
      · exact (hmore entry hentry hships).mono (List.subset_append_right _ _)

/-- `extract_obligations` asks at most twice, the second time only after a reply with an invalid
span; what it returns is the last reply without the items whose span is not in the text, and it
gives up exactly on two replies with invalid spans of which the second has no valid one. What a run
of the worker stores and routes for its job cites a text it read of the job's document. -/
theorem extraction_cites_text (llm : OpenAiClient) (text requestId : Str) (tenantId : Uuid)
    (jobType : UsageJobKind) (jobId : Option Uuid) (threshold : Rat) (l : Session) (s : Store) :
    (Every exec env (extractObligations llm text (Usage.sink requestId tenantId jobType jobId)) l s
      fun trace res _ _ =>
        let replied := replies .obligationExtraction trace
        (chats trace).length ≤ 2 ∧
        (2 ≤ (chats trace).length → ∃ first, replied.head? = some first ∧
          ∃ c ∈ citations first, ¬ InText text c) ∧
        (∀ extraction, res = .ok extraction → (∀ c ∈ citations extraction, InText text c) ∧
          ∃ reply, replied.getLast? = some reply ∧
            extraction.obligations = reply.obligations.filter (grounded text ·.citation) ∧
            extraction.definedTerms = reply.definedTerms.filter (grounded text ·.citation)) ∧
        ((∀ entry ∈ trace, Accounted entry) → (res = .error citationError ↔
          ∃ first second, replied = [first, second] ∧ (∃ c ∈ citations first, ¬ InText text c) ∧
            (∃ c ∈ citations second, ¬ InText text c) ∧
            ∀ c ∈ citations second, ¬ InText text c))) ∧
      Every exec env (runNextExtractionJob llm threshold) l s fun trace _ _ _ =>
        ∀ entry ∈ trace, Op.ships entry.op = true →
          ∃ job, Claimed .extraction trace job ∧ Sourced trace job entry.op := by
  refine ⟨?_, runNextExtractionJob_sourced llm threshold⟩
  refine (extractAttempts_run llm text requestId tenantId jobType jobId _).mono ?_
  intro trace res _ _ h
  have hexists : ∀ r, ¬ Cited text r ↔ ∃ c ∈ citations r, ¬ InText text c := by
    intro r
    simp only [Cited, not_forall, exists_prop]
  refine ⟨h.calls, fun hagain => ?_, fun extraction hres => ?_, fun haccounted => ?_⟩
  · obtain ⟨first, hfirst, hrejected⟩ := h.again 0 (by omega)
    exact ⟨first, List.head?_eq_getElem? .. ▸ hfirst, (hexists first).mp hrejected⟩
  · obtain ⟨before, reply, hreplies, -, rfl⟩ := h.returns extraction hres
    exact ⟨citedPart_cited _ _, reply, by rw [hreplies, List.getLast?_concat], rfl, rfl⟩
  · rw [h.givesUp haccounted]
    constructor
    · rintro ⟨before, second, hreplies, hlength, hcited, hnone⟩
      obtain ⟨first, rfl⟩ := List.length_eq_one_iff.mp (Nat.succ.inj hlength)
      exact ⟨first, second, hreplies, (hexists _).mp (hcited first (by simp)),
        (hexists _).mp (hcited second (by simp)), hnone⟩
    · rintro ⟨first, second, hreplies, hfirst, hsecond, hnone⟩
      refine ⟨[first], second, hreplies, rfl, fun r hr => (hexists r).mpr ?_, hnone⟩
      rcases List.mem_pair.mp hr with rfl | rfl
      · exact hfirst
      · exact hsecond

/-- A reply with these obligations, each citing a span. -/
def citing (spans : List (Int × Int)) : Answer :=
  let obligations := spans.map fun span => ⟨"1".toList, "Pay.".toList, none, ⟨span.1, span.2⟩, 1⟩
  { chat := .replied none 0 [some (.obligationExtraction ⟨obligations, []⟩)] }

/-- The first reply cites beyond the text, and so does one of the two obligations of the second. -/
theorem extraction_cites_text_retried : ∃ trace extraction l' t,
    Runs exec Eq (extractObligations ⟨"gpt-4o".toList, []⟩ "Pay.".toList
      (Usage.sink [] 1 .extraction (some 20))) ⟨false⟩ (.empty 0) trace (.ok extraction) l' t ∧
    (chats trace).length = 2 ∧ extraction.obligations.length = 1 ∧
    ∀ c ∈ citations extraction, InText "Pay.".toList c := by
  have hreplay : ((Lib.replay exec (extractObligations ⟨"gpt-4o".toList, []⟩ "Pay.".toList
      (Usage.sink [] 1 .extraction (some 20))) ⟨false⟩ (.empty 0)
      [citing [(0, 9)], {}, citing [(0, 4), (4, 9)], {}]).map fun r =>
        (r.2.1.toOption.map (·.obligations.length), (chats r.1).length)) = some (some 1, 2) := by
    decide +kernel
  obtain ⟨⟨trace, res, l', t⟩, hr, hend⟩ := Option.map_eq_some_iff.mp hreplay
  obtain ⟨hkept, hchats⟩ := Prod.mk.inj hend
  have hrun := Lib.runs_of_replay (fun s => Eq.refl s) hr
  cases res with
  | error e => cases hkept
  | ok extraction =>
    have hcites := (Lib.every_iff_runs _ _ _ _).mp
      (extraction_cites_text ⟨"gpt-4o".toList, []⟩ "Pay.".toList [] 1 .extraction (some 20) 0 _ _).1
      _ _ _ _ hrun
    exact ⟨trace, extraction, l', t, hrun, hchats, Option.some.inj hkept,
      (hcites.2.2.1 extraction rfl).1⟩

end ContractIntel.Extraction
