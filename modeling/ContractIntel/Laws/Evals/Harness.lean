import ContractIntel.Evals.Harness
import ContractIntel.Laws.Llm.Client
import ContractIntel.Laws.Services.Documents
import ContractIntel.Laws.Services.Impact
import Mathlib.Algebra.BigOperators.Group.Finset.Piecewise
import Mathlib.Algebra.Order.Field.Rat
import Mathlib.Tactic.FieldSimp
import Mathlib.Tactic.Linarith

/-!
# What the impact eval reports of a record

A record should score the mean over its detected changes, each once, and the expected changes that
were not detected, which score zero. The dictionary of the scores keeps one change of each rendered
key, the expected changes are looked up but never gone through, and a record without changes is
perfect whatever it expects. So the mean is the promised one for every sequence of replies only when
no two detected changes share a key and no expected change is missed, or when no reply can score at
all (`impact_scores_promised_iff`).
-/

namespace ContractIntel.Evals

open Diffing (Change detectChanges)
open Documents (onePdf)
open Impact (kindValue mapChangeImpacts mappingPrompt readMapping)
open Lib (Dict.get? Dict.ofPairs Dict.set Every Runs replay)
open Llm (OpenAiClient UsageSink heard replyOf)

variable {env : Store → Store → Prop} {l : Session} {s : Store}

/-! ## The texts -/

theorem decodeUtf8_encode (text : Str) : Parsing.decodeUtf8 (encode text) = some text := by
  unfold Parsing.decodeUtf8 encode String.fromUTF8?
  have hbytes : (⟨(String.ofList text).toUTF8.data.toList.toArray⟩ : ByteArray) =
      (String.ofList text).toByteArray := rfl
  rw [hbytes, dif_pos (String.ofList text).isValidUTF8]
  exact congrArg some String.toList_ofList

/-- What is encoded parses. -/
theorem parsedText_eq [Platform] (text : Str) :
    parsedText text = .ret (Parsing.parseText text).text := by
  have hparse : Parsing.parse Parsing.TEXT_MIME (encode text) = .ok (Parsing.parseText text) := by
    unfold Parsing.parse
    rw [if_neg (by decide), if_neg (by decide), if_pos rfl, decodeUtf8_encode]
  rw [parsedText, hparse]
  rfl

/-! ## Means -/

/-- The mean of scores, perfect when there are none. -/
def average (scores : List Scores) : Scores :=
  if scores = [] then ⟨1, 1⟩
  else ⟨(scores.map Scores.precision).sum / scores.length,
    (scores.map Scores.recalled).sum / scores.length⟩

theorem aggregate_getD (scores : List (Str × Scores)) :
    (aggregate scores).getD ⟨1, 1⟩ = average (scores.map Prod.snd) := by
  by_cases hnone : scores = []
  · subst hnone
    rfl
  · have hsome : scores.map Prod.snd ≠ [] := by simpa using hnone
    rw [aggregate, if_neg hnone, average, if_neg hsome]
    simp [Function.comp_def]

theorem precision_average {scores : List Scores} (hne : scores ≠ []) :
    (average scores).precision = (scores.map Scores.precision).sum / scores.length := by
  rw [average, if_neg hne]

theorem average_of_zero {scores : List Scores} (hne : scores ≠ [])
    (h : ∀ x ∈ scores, x = ⟨0, 0⟩) : average scores = ⟨0, 0⟩ := by
  rw [List.eq_replicate_of_mem h, average, if_neg (by simpa using hne)]
  simp

/-- A sum of zeros and ones counts the ones. -/
theorem sum_eq_countP {α : Type} {f : α → Rat} {xs : List α} (h : ∀ x ∈ xs, f x = 0 ∨ f x = 1) :
    (xs.map f).sum = xs.countP (f · = 1) := by
  induction xs with
  | nil => rfl
  | cons x xs ih =>
    obtain ⟨hhead, hrest⟩ := List.forall_mem_cons.mp h
    rw [List.map_cons, List.sum_cons, ih hrest, List.countP_cons]
    rcases hhead with hzero | hone
    · simp [hzero]
    · simp [hone, add_comm]

/-- All or nothing. -/
def full (b : Bool) : Scores := if b then ⟨1, 1⟩ else ⟨0, 0⟩

theorem average_full {bs : List Bool} (hne : bs ≠ []) : average (bs.map full) =
    ⟨bs.count true / bs.length, bs.count true / bs.length⟩ := by
  have hsum : ∀ f : Scores → Rat, f ⟨1, 1⟩ = 1 → f ⟨0, 0⟩ = 0 →
      ((bs.map full).map f).sum = bs.count true := by
    intro f hone hzero
    have hfull : ∀ b, f (full b) = 0 ∨ f (full b) = 1 := by
      intro b
      cases b
      · exact .inl hzero
      · exact .inr hone
    have hiff : ∀ b, f (full b) = 1 ↔ b = true := by
      intro b
      cases b <;> simp [full, hone, hzero]
    rw [List.map_map]
    refine (sum_eq_countP fun b _ => hfull b).trans (congrArg Nat.cast ?_)
    exact List.countP_congr fun b _ => by simp [hiff]
  rw [average, if_neg (by simpa using hne), hsum _ rfl rfl, hsum _ rfl rfl, List.length_map]

/-- Two shares are the same. -/
theorem average_full_eq_iff {bs cs : List Bool} (hbs : bs ≠ []) (hcs : cs ≠ []) :
    average (bs.map full) = average (cs.map full) ↔
      bs.count true * cs.length = cs.count true * bs.length := by
  have hb : (bs.length : Rat) ≠ 0 := by simpa using hbs
  have hc : (cs.length : Rat) ≠ 0 := by simpa using hcs
  rw [average_full hbs, average_full hcs, Scores.mk.injEq, and_self, div_eq_div_iff hb hc]
  norm_cast

/-- Of bindings one counts as one and the others as zero: the mean over the dictionary is that over
the bindings and `n` more zeros only if nothing is overwritten and there are no more. -/
theorem nodup_of_mean_eq {bindings : List (Str × Scores)} {f : Str × Scores → Rat} {n : Nat}
    (hvalues : ∀ binding ∈ bindings, f binding = 0 ∨ f binding = 1)
    (hsum : (bindings.map f).sum = 1)
    (h : ((Dict.ofPairs bindings).map f).sum / (Dict.ofPairs bindings).length =
      1 / ((bindings.length + n : Nat) : Rat)) :
    (bindings.map Prod.fst).Nodup ∧ n = 0 := by
  have hlength := (Lib.Dict.ofPairs_subperm bindings).length_le
  have hle : ((Dict.ofPairs bindings).map f).sum ≤ 1 := by
    rw [← hsum]
    refine Lib.Dict.sum_ofPairs_le fun binding hmem => ?_
    rcases hvalues binding hmem with hzero | hone
    · exact hzero.ge
    · exact hone ▸ zero_le_one
  have hpos : 0 < bindings.length := by
    refine List.length_pos_iff.mpr ?_
    rintro rfl
    cases hsum
  -- what the dictionary counts is a number, and at most one
  have hcount : ((Dict.ofPairs bindings).map f).sum = (Dict.ofPairs bindings).countP (f · = 1) := by
    refine sum_eq_countP fun binding hmem => ?_
    exact hvalues binding (Lib.Dict.ofPairs_subset bindings hmem)
  rw [hcount] at h hle
  have hcases : (Dict.ofPairs bindings).countP (f · = 1) = 0 ∨
      (Dict.ofPairs bindings).countP (f · = 1) = 1 := by
    have hnat : (Dict.ofPairs bindings).countP (f · = 1) ≤ 1 := by exact_mod_cast hle
    omega
  rcases hcases with hnone | hone
  · have hne : ((bindings.length + n : Nat) : Rat) ≠ 0 := Nat.cast_ne_zero.mpr (by omega)
    rw [hnone, Nat.cast_zero, zero_div] at h
    exact absurd h.symm (one_div_ne_zero hne)
  · rw [hone, Nat.cast_one, one_div, one_div, inv_inj, Nat.cast_inj] at h
    refine ⟨Lib.Dict.nodup_of_length_ofPairs (by omega), by omega⟩
section Scores

variable [Ucd]

/-! ## What a record should score -/

/-- The changes that are detected between the texts of a record. -/
def detected (record : GoldenRecord) : Except ValueError (List Change) :=
  detectChanges (Parsing.parseText record.baseText).text (Parsing.parseText record.amendedText).text

omit [Ucd] in
/-- What a change is expected to affect, nothing if the change is not expected. -/
def expectedOf (record : GoldenRecord) (change : Change) : List Affected :=
  (Dict.get? (expectedByKey record.changes) (kindValue change.kind, change.clauseRef)).getD []

omit [Ucd] in
/-- The expected changes that are not detected. -/
def missed (record : GoldenRecord) (changes : List Change) : List GoldenChange :=
  record.changes.filter fun expected => changes.all fun change =>
    (kindValue change.kind, change.clauseRef) ≠ (expected.kind, expected.clauseRef)

/-- The score of a detected change, off the reply to its call: zero if the reply fails its gate. -/
def graded (record : GoldenRecord) (change : Change) (call : Entry) : Scores :=
  match (replyOf .impactMapping call).bind fun data =>
      (readMapping (candidatesOf record.obligations) data []).toOption with
  | none => ⟨0, 0⟩
  | some mapped => impactPrecisionRecall (expectedOf record change)
      (mapped.map fun entry => (entry.1.clauseRef, entry.1.owner))

/-- The scores of the detected changes. Without candidates nothing is mapped. -/
def grades (record : GoldenRecord) (changes : List Change) (calls : List Entry) : List Scores :=
  if candidatesOf record.obligations = [] then
    changes.map fun change => impactPrecisionRecall (expectedOf record change) []
  else List.zipWith (graded record) changes calls

/-- The mean over the detected changes, each once, and the missed ones, which score zero. -/
def promised (record : GoldenRecord) (changes : List Change) (calls : List Entry) : Scores :=
  average (grades record changes calls ++ (missed record changes).map fun _ => ⟨0, 0⟩)

/-- What the loop over the changes stores, in its order. -/
def bindings (record : GoldenRecord) (changes : List Change) (calls : List Entry) :
    List (Str × Scores) :=
  (changes.map changeKey).zip (grades record changes calls)

/-- The mean over the dictionary of the scores. -/
def recorded (record : GoldenRecord) (changes : List Change) (calls : List Entry) : Scores :=
  average ((Dict.ofPairs (bindings record changes calls)).map Prod.snd)

/-! ## The calls of a record -/

/-- The mapping calls of a record: one for each detected change, none without candidates. -/
def callCount (record : GoldenRecord) : Nat :=
  if candidatesOf record.obligations = [] then 0
  else ((detected record).toOption.getD []).length

/-- The part of a run's trace that belongs to a record, which comes after some others. -/
def ownCalls (before : List GoldenRecord) (record : GoldenRecord) (trace : List Entry) :
    List Entry :=
  (trace.drop (before.map callCount).sum).take (callCount record)

omit [Ucd] in
/-- A mapping call and what the world answers to it. -/
def call (model user : Str) (a : Answer) : Entry :=
  ⟨.parseChat .impactMapping model user, a, chatReply .impactMapping a.chat⟩

omit [Ucd] in
/-- The call is answered, or its reply is refused as output. Other exceptions end the eval. -/
def Heard (model : Str) (a : Answer) : Prop :=
  match heard model (chatReply .impactMapping a.chat) with
  | .ok _ | .error (.llmOutputError ..) => True
  | .error _ => False

/-! ## Runs -/

section Runs

variable {record : GoldenRecord} {change : Change} {changes : List Change} {calls : List Entry}

omit [Ucd] in
/-- One mapping call without a usage sink: what is made of its reply is the answer. -/
theorem mapChangeImpacts_answers (llm : OpenAiClient) (change : Change)
    {candidates : List Obligation} (hsome : candidates ≠ []) (baseText amendedText : Str) :
    Every exec env (mapChangeImpacts llm change candidates baseText amendedText UsageSink.none) l s
      fun trace res _ _ => ∃ user a, trace = [call llm.model user a] ∧
        res = (heard llm.model (chatReply .impactMapping a.chat)).bind fun reply =>
          readMapping candidates reply.data [] := by
  unfold mapChangeImpacts
  rw [if_neg hsome]
  refine Every.bind.mpr ((Llm.completeStructured_answers llm _).mono ?_)
  rintro trace res l' t ⟨a, rfl, rfl, -⟩
  cases hheard : heard llm.model (chatReply .impactMapping a.chat) with
  | error e =>
    refine ⟨_, a, rfl, ?_⟩
    rw [hheard]
    rfl
  | ok reply =>
    refine Every.ofResult.mpr ⟨_, a, rfl, ?_⟩
    rw [hheard]
    rfl

theorem graded_call (record : GoldenRecord) (change : Change) (model user : Str) (a : Answer) :
    graded record change (call model user a) =
      match (heard model (chatReply .impactMapping a.chat)).bind fun reply =>
          readMapping (candidatesOf record.obligations) reply.data [] with
      | .error _ => ⟨0, 0⟩
      | .ok mapped => impactPrecisionRecall (expectedOf record change)
          (mapped.map fun entry => (entry.1.clauseRef, entry.1.owner)) := by
  unfold graded call
  rw [Llm.replyOf_heard]
  cases heard model (chatReply .impactMapping a.chat) with
  | error e => rfl
  | ok reply =>
    simp only [Except.toOption, Option.map_some, Option.bind_some, Except.bind]
    cases readMapping (candidatesOf record.obligations) reply.data [] <;> rfl

/-- Without candidates a change is scored without a call. -/
theorem scoreChange_of_none (hnone : candidatesOf record.obligations = []) (llm : OpenAiClient)
    (baseText amendedText : Str) (change : Change) :
    scoreChange llm (expectedByKey record.changes) (candidatesOf record.obligations) baseText
      amendedText change = .ret (impactPrecisionRecall (expectedOf record change) []) := by
  unfold scoreChange
  rw [if_pos hnone]
  rfl

/-- With candidates it makes one call, and is scored if that is heard. -/
theorem scoreChange_run (hsome : candidatesOf record.obligations ≠ []) (llm : OpenAiClient)
    (baseText amendedText : Str) (change : Change) :
    Every exec env (scoreChange llm (expectedByKey record.changes) (candidatesOf record.obligations)
      baseText amendedText change) l s fun trace res _ _ => ∃ user a,
        trace = [call llm.model user a] ∧
        (∀ scores, res = .ok scores → scores = graded record change (call llm.model user a)) ∧
        (Heard llm.model a → ∃ scores, res = .ok scores) := by
  unfold scoreChange
  rw [if_neg hsome]
  refine Every.attempt_bind.mpr ((mapChangeImpacts_answers llm change hsome _ _).mono ?_)
  rintro trace res l' t ⟨user, a, rfl, rfl⟩
  have hgraded := graded_call record change llm.model user a
  cases hheard : heard llm.model (chatReply .impactMapping a.chat) with
  | error e =>
    rw [hheard] at hgraded
    cases e with
    | llmOutputError message usage =>
      refine ⟨user, a, rfl, fun scores h => ?_, fun _ => ⟨_, rfl⟩⟩
      rw [hgraded]
      exact (Except.ok.inj h).symm
    | _ =>
      refine ⟨user, a, rfl, fun scores h => (by cases h), fun h => ?_⟩
      unfold Heard at h
      rw [hheard] at h
      exact h.elim
  | ok reply =>
    simp only [hheard, Except.bind] at hgraded ⊢
    cases hread : readMapping (candidatesOf record.obligations) reply.data [] with
    | error e =>
      obtain ⟨message, rfl⟩ := Impact.readMapping_error hread
      refine ⟨user, a, rfl, fun scores h => ?_, fun _ => ⟨_, rfl⟩⟩
      rw [hgraded, hread]
      exact (Except.ok.inj h).symm
    | ok mapped =>
      refine ⟨user, a, rfl, fun scores h => ?_, fun _ => ⟨_, rfl⟩⟩
      rw [hgraded, hread]
      exact (Except.ok.inj h).symm

/-- A run of the loop over some changes, from a dictionary on. -/
structure Scored (model : Str) (record : GoldenRecord) (changes : List Change)
    (perChange : List (Str × Scores)) (trace : List Entry)
    (res : Except Exn (List (Str × Scores))) : Prop where
  calls : ∀ entry ∈ trace, ∃ user a, entry = call model user a
  returns : (∀ entry ∈ trace, Heard model entry.answer) → ∃ final, res = .ok final
  length : ∀ final, res = .ok final →
    trace.length = if candidatesOf record.obligations = [] then 0 else changes.length
  final : ∀ final, res = .ok final → final =
    ((changes.map changeKey).zip (grades record changes trace)).foldl
      (fun d binding => Dict.set binding.1 binding.2 d) perChange

theorem scoreChanges_run (llm : OpenAiClient) (record : GoldenRecord) (baseText amendedText : Str)
    (changes : List Change) (perChange : List (Str × Scores)) :
    Every exec env (scoreChanges llm (expectedByKey record.changes) (candidatesOf record.obligations)
      baseText amendedText changes perChange) l s fun trace res _ _ =>
        Scored llm.model record changes perChange trace res := by
  induction changes generalizing perChange l s with
  | nil =>
    refine ⟨by simp, fun _ => ⟨_, rfl⟩, fun _ _ => by simp, fun final h => ?_⟩
    exact (Except.ok.inj h).symm
  | cons change rest ih =>
    unfold scoreChanges
    by_cases hnone : candidatesOf record.obligations = []
    · rw [scoreChange_of_none hnone]
      refine (ih _).mono fun trace res l' t h => ?_
      refine ⟨h.calls, h.returns, fun final hfinal => ?_, fun final hfinal => ?_⟩
      · simpa [hnone] using h.length final hfinal
      · rw [h.final final hfinal, grades, grades, if_pos hnone, if_pos hnone]
        rfl
    · refine Every.bind.mpr ((scoreChange_run hnone llm _ _ _).mono ?_)
      rintro trace res l' t ⟨user, a, rfl, hgraded, hheard⟩
      cases res with
      | error e =>
        refine ⟨by simp, fun h => ?_, fun final h => (by cases h), fun final h => (by cases h)⟩
        obtain ⟨scores, hscores⟩ := hheard (h _ (List.mem_singleton_self _))
        cases hscores
      | ok scores =>
        obtain rfl := hgraded scores rfl
        refine (ih _).mono fun more res l' t h => ?_
        refine ⟨?_, fun hall => ?_, fun final hfinal => ?_, fun final hfinal => ?_⟩
        · intro entry hentry
          rcases List.mem_cons.mp hentry with rfl | hentry
          · exact ⟨user, a, rfl⟩
          · exact h.calls entry hentry
        · exact h.returns fun entry hentry => hall entry (List.mem_cons_of_mem _ hentry)
        · have hlength := h.length final hfinal
          rw [if_neg hnone] at hlength ⊢
          simpa using hlength
        · rw [h.final final hfinal, grades, grades, if_neg hnone, if_neg hnone]
          rfl

/-- A run that scores a record: its calls, and what is stored for it. -/
structure Stored (model : Str) (record : GoldenRecord) (trace : List Entry)
    (res : Except Exn Scores) : Prop where
  calls : ∀ entry ∈ trace, ∃ user a, entry = call model user a
  returns : (∃ changes, detected record = .ok changes) →
    (∀ entry ∈ trace, Heard model entry.answer) → ∃ scores, res = .ok scores
  stored : ∀ scores, res = .ok scores → trace.length = callCount record ∧
    ∃ changes, detected record = .ok changes ∧ scores = recorded record changes trace

theorem scoreRecord_run [Platform] (llm : OpenAiClient) (record : GoldenRecord) :
    Every exec env (scoreRecord llm record) l s fun trace res _ _ =>
      Stored llm.model record trace res := by
  unfold scoreRecord
  rw [parsedText_eq, parsedText_eq]
  show Every exec env ((lift ((detected record).mapError ChangeReport.textError)).bind _) l s _
  cases hdetected : detected record with
  | error e =>
    refine ⟨by simp, ?_, fun scores h => (by cases h)⟩
    rintro ⟨changes, hchanges⟩
    cases hdetected.symm.trans hchanges
  | ok changes =>
    show Every exec env ((scoreChanges ..).bind fun final => .ret ((aggregate final).getD ⟨1, 1⟩)) l s _
    refine Every.bind.mpr ((scoreChanges_run llm record _ _ changes []).mono ?_)
    intro trace res l' t h
    cases res with
    | error e =>
      refine ⟨h.calls, fun _ hall => ?_, fun scores hscores => (by cases hscores)⟩
      obtain ⟨final, hfinal⟩ := h.returns hall
      cases hfinal
    | ok final =>
      show Stored llm.model record (trace ++ []) _
      rw [List.append_nil]
      refine ⟨h.calls, fun _ _ => ⟨_, rfl⟩, fun scores hscores => ⟨?_, changes, hdetected, ?_⟩⟩
      · rw [h.length final rfl, callCount, hdetected]
        rfl
      · rw [← Except.ok.inj hscores, aggregate_getD, h.final final rfl]
        rfl

section Records

variable [Platform]

theorem scoreRecords_append (llm : OpenAiClient) (before after : List GoldenRecord)
    (perRecord : List (Str × Scores)) : scoreRecords llm (before ++ after) perRecord =
      (scoreRecords llm before perRecord).bind (scoreRecords llm after) := by
  induction before generalizing perRecord with
  | nil => rfl
  | cons record before ih =>
    simp only [List.cons_append, scoreRecords, Lib.Prog.bind_eq, Lib.Prog.bind_assoc]
    exact congrArg (scoreRecord llm record).bind (funext fun scores => ih _)

/-- The records of a loop make their calls, and leave what is stored under other ids. -/
theorem scoreRecords_run (llm : OpenAiClient) (records : List GoldenRecord)
    (perRecord : List (Str × Scores)) :
    Every exec env (scoreRecords llm records perRecord) l s fun trace res _ _ =>
      ∀ final, res = .ok final → trace.length = (records.map callCount).sum ∧
        ∀ id, (∀ record ∈ records, record.id ≠ id) →
          Dict.get? final id = Dict.get? perRecord id := by
  induction records generalizing perRecord l s with
  | nil =>
    intro final h
    obtain rfl := Except.ok.inj h
    exact ⟨rfl, fun _ _ => rfl⟩
  | cons record records ih =>
    unfold scoreRecords
    refine Every.bind.mpr ((scoreRecord_run llm record).mono ?_)
    intro trace res l' t h
    cases res with
    | error e => exact fun final hfinal => by cases hfinal
    | ok scores =>
      obtain ⟨hlength, -⟩ := h.stored scores rfl
      refine (ih _).mono fun more res l' t hmore final hfinal => ?_
      obtain ⟨hrest, hkept⟩ := hmore final hfinal
      refine ⟨?_, fun id hid => ?_⟩
      · rw [List.length_append, List.map_cons, List.sum_cons, hlength, hrest]
      · rw [hkept id fun later hlater => hid later (List.mem_cons_of_mem _ hlater), Lib.Dict.get?_set,
          if_neg (hid record List.mem_cons_self)]

/-- What a report says of a record whose id no later one takes. -/
theorem runImpact_run (llm : OpenAiClient) (before after : List GoldenRecord)
    (record : GoldenRecord) (hlater : ∀ later ∈ after, later.id ≠ record.id) :
    Every exec env (runImpact llm (before ++ record :: after)) l s fun trace res _ _ =>
      ∀ report, res = .ok (some report) →
        (ownCalls before record trace).length = callCount record ∧
        ∃ changes, detected record = .ok changes ∧ Dict.get? report.perRecord record.id =
          some (recorded record changes (ownCalls before record trace)) := by
  unfold runImpact
  rw [scoreRecords_append]
  refine Every.bind.mpr (Every.bind.mpr ((scoreRecords_run llm before []).mono ?_))
  intro first res l' t hfirst
  cases res with
  | error e => exact fun report h => by cases h
  | ok perRecord =>
    unfold scoreRecords
    refine Every.bind.mpr ((scoreRecord_run llm record).mono ?_)
    intro own res l' t hown
    cases res with
    | error e => exact fun report h => by cases h
    | ok scores =>
      refine (scoreRecords_run llm after _).mono fun rest res l' t hrest => ?_
      cases res with
      | error e => exact fun report h => by cases h
      | ok final =>
        intro report h
        obtain ⟨hlength, changes, hdetected, rfl⟩ := hown.stored scores rfl
        have htrace : ownCalls before record (first ++ (own ++ rest) ++ []) = own := by
          rw [ownCalls, ← (hfirst perRecord rfl).1, ← hlength, List.append_nil, List.drop_left,
            List.take_left]
        rw [htrace]
        refine ⟨hlength, changes, hdetected, ?_⟩
        obtain ⟨metrics, -, rfl⟩ := Option.map_eq_some_iff.mp (Except.ok.inj h)
        show Dict.get? final record.id = _
        rw [(hrest final rfl).2 record.id hlater, Lib.Dict.get?_set, if_pos rfl]

/-- Whatever is answered to the calls of a record, as long as every call is heard, there is a run
that reports it. -/
theorem exists_report (llm : OpenAiClient) {record : GoldenRecord} {changes : List Change}
    (hdetected : detected record = .ok changes) (answers : Nat → Answer)
    (hheard : ∀ i, Heard llm.model (answers i)) :
    ∃ calls report l' t,
      Runs exec Eq (runImpact llm [record]) ⟨false⟩ (.empty 0) calls (.ok (some report)) l' t ∧
        calls.length = callCount record ∧
        ∀ i entry, calls[i]? = some entry → ∃ user, entry = call llm.model user (answers i) := by
  have hexists : ∃ calls res l' t,
      Runs exec Eq (runImpact llm [record]) ⟨false⟩ (.empty 0) calls res l' t ∧
        ∀ i entry, calls[i]? = some entry → entry.answer = answers i :=
    Lib.exists_runs (fun _ => rfl) _ _ _ answers
  obtain ⟨calls, res, l', t, hruns, hanswers⟩ := hexists
  have hrun : Every exec Eq (runImpact llm [record]) ⟨false⟩ (.empty 0) fun trace res _ _ =>
      (∀ entry ∈ trace, ∃ user a, entry = call llm.model user a) ∧
        ((∀ entry ∈ trace, Heard llm.model entry.answer) → ∃ report, res = .ok (some report) ∧
          trace.length = callCount record) := by
    refine Every.bind.mpr (Every.bind.mpr ((scoreRecord_run llm record).mono ?_))
    intro trace res l' t h
    cases res with
    | error e =>
      refine ⟨h.calls, fun hall => ?_⟩
      obtain ⟨scores, hscores⟩ := h.returns ⟨changes, hdetected⟩ hall
      cases hscores
    | ok scores =>
      show _ ∧ _
      simp only [List.append_nil]
      exact ⟨h.calls, fun _ => ⟨_, rfl, (h.stored scores rfl).1⟩⟩
  obtain ⟨hcalls, hreturns⟩ := (Lib.every_iff_runs _ _ _ _).mp hrun _ _ _ _ hruns
  have hall : ∀ entry ∈ calls, Heard llm.model entry.answer := by
    intro entry hentry
    obtain ⟨i, hi⟩ := List.mem_iff_getElem?.mp hentry
    rw [hanswers i entry hi]
    exact hheard i
  obtain ⟨report, rfl, hlength⟩ := hreturns hall
  refine ⟨calls, report, l', t, hruns, hlength, fun i entry hi => ?_⟩
  obtain ⟨user, a, rfl⟩ := hcalls entry (List.mem_of_getElem? hi)
  obtain rfl : a = answers i := hanswers i _ hi
  exact ⟨user, rfl⟩

end Records

end Runs

/-! ## When the mean is the promised one -/

section Conditions

variable {record : GoldenRecord} {change : Change} {changes : List Change} {calls : List Entry}

/-- No two detected changes share a key, and every expected change is detected. -/
def Unambiguous (record : GoldenRecord) (changes : List Change) : Prop :=
  (changes.map changeKey).Nodup ∧ missed record changes = []

/-- The change is expected to affect something, and nothing that is a candidate. -/
def Unmatchable (record : GoldenRecord) (change : Change) : Prop :=
  expectedOf record change ≠ [] ∧ ∀ o ∈ candidatesOf record.obligations,
    matchKey (o.clauseRef, o.owner) ∉ (expectedOf record change).map matchKey

/-- The change is expected to affect nothing. -/
def harmless (record : GoldenRecord) (change : Change) : Bool := (expectedOf record change).isEmpty

/-- As large a share of the keys is harmless as of the detected and the missed changes. -/
def SameShare (record : GoldenRecord) (changes : List Change) : Prop :=
  let byKey := Dict.ofPairs (changes.map fun change => (changeKey change, harmless record change))
  (byKey.map Prod.snd).count true * (changes.length + (missed record changes).length) =
    (changes.map (harmless record)).count true * byKey.length

/-- The changes are unambiguous; or some are detected, and no reply can score: without candidates
there is none, and the shares have to agree, and with candidates no change is matchable. -/
def Gradable (record : GoldenRecord) (changes : List Change) : Prop :=
  Unambiguous record changes ∨ changes ≠ [] ∧
    if candidatesOf record.obligations = [] then SameShare record changes
    else ∀ change ∈ changes, Unmatchable record change

theorem impactPrecisionRecall_of_unmatched {expected actual : List Affected} (hne : expected ≠ [])
    (h : ∀ pair ∈ actual, matchKey pair ∉ expected.map matchKey) :
    impactPrecisionRecall expected actual = ⟨0, 0⟩ := by
  have hinter : (expected.map matchKey).toFinset ∩ (actual.map matchKey).toFinset = ∅ := by
    refine Finset.eq_empty_of_forall_notMem fun key hkey => ?_
    obtain ⟨hexpected, hactual⟩ := Finset.mem_inter.mp hkey
    obtain ⟨pair, hpair, rfl⟩ := List.mem_map.mp (List.mem_toFinset.mp hactual)
    exact h pair hpair (List.mem_toFinset.mp hexpected)
  rw [impactPrecisionRecall, if_neg fun hnil => hne hnil.1, matchedPrecisionRecall, hinter]
  simp

/-- Mapping nothing is perfect for a harmless change, and worth nothing for any other. -/
theorem impactPrecisionRecall_nil (record : GoldenRecord) (change : Change) :
    impactPrecisionRecall (expectedOf record change) [] = full (harmless record change) := by
  by_cases hnil : expectedOf record change = []
  · rw [impactPrecisionRecall, if_pos ⟨hnil, rfl⟩, harmless, hnil]
    rfl
  · rw [impactPrecisionRecall_of_unmatched hnil (by simp), harmless, List.isEmpty_eq_false_iff.mpr hnil]
    rfl

theorem precision_of_matched {expected : List Affected} {pair : Affected}
    (h : matchKey pair ∈ expected.map matchKey) :
    (impactPrecisionRecall expected [pair]).precision = 1 := by
  have hinter : (expected.map matchKey).toFinset ∩ ([pair].map matchKey).toFinset =
      {matchKey pair} := by
    simpa using List.mem_map.mp h
  rw [impactPrecisionRecall, if_neg (by simp), matchedPrecisionRecall, hinter]
  simp

/-- Whatever is answered, an unmatchable change scores nothing. -/
theorem graded_of_unmatchable (h : Unmatchable record change) (entry : Entry) :
    graded record change entry = ⟨0, 0⟩ := by
  unfold graded
  split
  next => rfl
  next mapped hmapped =>
    obtain ⟨data, -, hread⟩ := Option.bind_eq_some_iff.mp hmapped
    have hok : readMapping (candidatesOf record.obligations) data [] = .ok mapped := by
      cases hres : readMapping (candidatesOf record.obligations) data [] with
      | error e =>
        rw [hres] at hread
        cases hread
      | ok found =>
        rw [hres] at hread
        exact congrArg Except.ok (Option.some.inj hread)
    obtain ⟨-, hreads⟩ := Impact.readMapping_eq_ok hok
    refine impactPrecisionRecall_of_unmatched h.1 fun pair hpair => ?_
    obtain ⟨found, hfound, rfl⟩ := List.mem_map.mp hpair
    obtain ⟨hlength, hat⟩ := List.forall₂_iff_get.mp hreads
    obtain ⟨i, hi, rfl⟩ := List.mem_iff_getElem.mp hfound
    exact h.2 _ (List.mem_of_getElem? (hat i (hlength ▸ hi) hi).1)

end Conditions

/-! ## Answers -/

section Answers

variable {record : GoldenRecord} {change : Change}

/-- A client whose model has a price. -/
def miniClient : OpenAiClient := ⟨"gpt-4o-mini".toList, []⟩

/-- A reply that fails the output gate. -/
def refused : Answer := { chat := .unusable }

/-- A reply with these impacts. -/
def answered (data : List MappedImpact) : Answer :=
  { chat := .replied none 0 [some (.impactMapping data)] }

omit [Ucd] in
theorem heard_refused : Heard miniClient.model refused := trivial

omit [Ucd] in
theorem heard_answered (data : List MappedImpact) : ∃ reply,
    heard miniClient.model (chatReply .impactMapping (answered data).chat) = .ok reply ∧
      reply.data = data.map fun m => { m with confidence := clampConfidence m.confidence } :=
  ⟨_, rfl, rfl⟩

theorem graded_refused (record : GoldenRecord) (change : Change) (user : Str) :
    graded record change (call miniClient.model user refused) = ⟨0, 0⟩ := rfl

/-- A change that is not unmatchable can be answered in full. -/
theorem exists_answer (h : ¬ Unmatchable record change) : ∃ a, Heard miniClient.model a ∧
    ∀ user, (graded record change (call miniClient.model user a)).precision = 1 := by
  -- the answer is nothing for a harmless change, and one matching candidate for any other
  have hanswer : ∃ (data : List MappedImpact) (mapped : List (Obligation × Rat)),
      readMapping (candidatesOf record.obligations)
        (data.map fun m => { m with confidence := clampConfidence m.confidence }) [] = .ok mapped ∧
      (impactPrecisionRecall (expectedOf record change)
        (mapped.map fun entry => (entry.1.clauseRef, entry.1.owner))).precision = 1 := by
    by_cases hnil : expectedOf record change = []
    · refine ⟨[], [], rfl, ?_⟩
      rw [hnil]
      rfl
    · have hmatch : ∃ o ∈ candidatesOf record.obligations,
          matchKey (o.clauseRef, o.owner) ∈ (expectedOf record change).map matchKey := by
        by_contra hnone
        exact h ⟨hnil, fun o ho hmem => hnone ⟨o, ho, hmem⟩⟩
      obtain ⟨o, ho, hmem⟩ := hmatch
      obtain ⟨i, hi⟩ := List.mem_iff_getElem?.mp ho
      refine ⟨[⟨i, 1⟩], [(o, clampConfidence 1)], ?_, precision_of_matched hmem⟩
      have hnat : ¬ ((i : Int) < 0) := by omega
      simp only [List.map_cons, List.map_nil, readMapping, if_neg hnat, Int.toNat_natCast, hi]
      rfl
  obtain ⟨data, mapped, hread, hprecision⟩ := hanswer
  obtain ⟨reply, hheard, hdata⟩ := heard_answered data
  refine ⟨answered data, ?_, fun user => ?_⟩
  · unfold Heard
    rw [hheard]
    trivial
  · have hbind : ((heard miniClient.model (chatReply .impactMapping (answered data).chat)).bind
        fun reply => readMapping (candidatesOf record.obligations) reply.data []) = .ok mapped := by
      rw [hheard]
      show readMapping _ reply.data [] = _
      rw [hdata, hread]
    rw [graded_call, hbind]
    exact hprecision

end Answers

/-! ## The promise -/

section Promise

variable {record : GoldenRecord} {changes : List Change} {calls : List Entry}

theorem length_grades (h : candidatesOf record.obligations ≠ [] → calls.length = changes.length) :
    (grades record changes calls).length = changes.length := by
  rw [grades]
  split
  next => rw [List.length_map]
  next hsome => rw [List.length_zipWith, h hsome, Nat.min_self]

section Bindings

variable (h : (grades record changes calls).length = changes.length)

include h

theorem length_bindings : (bindings record changes calls).length = changes.length := by
  simp [bindings, h]

theorem map_fst_bindings : (bindings record changes calls).map Prod.fst = changes.map changeKey :=
  List.map_fst_zip (by simp [h])

theorem map_snd_bindings :
    (bindings record changes calls).map Prod.snd = grades record changes calls :=
  List.map_snd_zip (by simp [h])

end Bindings

/-- Unambiguous changes are scored as promised. -/
theorem recorded_of_unambiguous (h : Unambiguous record changes)
    (hlength : (grades record changes calls).length = changes.length) :
    recorded record changes calls = promised record changes calls := by
  obtain ⟨hnodup, hmissed⟩ := h
  rw [← map_fst_bindings hlength] at hnodup
  rw [recorded, promised, Lib.Dict.ofPairs_of_nodup hnodup, map_snd_bindings hlength, hmissed,
    List.map_nil, List.append_nil]

/-- So are changes that score nothing. -/
theorem recorded_of_zero (hne : changes ≠ [])
    (hlength : (grades record changes calls).length = changes.length)
    (hzero : ∀ x ∈ grades record changes calls, x = ⟨0, 0⟩) :
    recorded record changes calls = promised record changes calls := by
  have hpos : 0 < changes.length := List.length_pos_iff.mpr hne
  rw [recorded, promised, average_of_zero, average_of_zero]
  · exact List.append_ne_nil_of_left_ne_nil (List.ne_nil_of_length_pos (hlength ▸ hpos)) _
  · intro x hx
    rcases List.mem_append.mp hx with hx | hx
    · exact hzero x hx
    · obtain ⟨-, -, rfl⟩ := List.mem_map.mp hx
      rfl
  · rw [ne_eq, List.map_eq_nil_iff, Lib.Dict.ofPairs_eq_nil_iff]
    exact List.ne_nil_of_length_pos (length_bindings hlength ▸ hpos)
  · intro x hx
    obtain ⟨binding, hmem, rfl⟩ := List.mem_map.mp hx
    exact hzero _ (List.of_mem_zip (Lib.Dict.ofPairs_subset _ hmem)).2

/-- Without candidates the scores are what the record expects, and the mean is the promised one
exactly when the shares agree. -/
theorem recorded_eq_promised_iff_of_none (hnone : candidatesOf record.obligations = [])
    (hne : changes ≠ []) :
    recorded record changes calls = promised record changes calls ↔ SameShare record changes := by
  have hgrades : grades record changes calls = changes.map fun change =>
      full (harmless record change) := by
    rw [grades, if_pos hnone]
    exact List.map_congr_left fun change _ => impactPrecisionRecall_nil record change
  have hbindings : bindings record changes calls =
      (changes.map fun change => (changeKey change, harmless record change)).map
        (Prod.map id full) := by
    rw [bindings, hgrades, List.zip_map', List.map_map]
    rfl
  have hpromised : grades record changes calls ++ (missed record changes).map (fun _ => ⟨0, 0⟩) =
      (changes.map (harmless record) ++ (missed record changes).map fun _ => false).map full := by
    rw [hgrades, List.map_append, List.map_map, List.map_map]
    rfl
  have hrecorded : (Dict.ofPairs (bindings record changes calls)).map Prod.snd =
      ((Dict.ofPairs (changes.map fun change =>
        (changeKey change, harmless record change))).map Prod.snd).map full := by
    rw [hbindings, Lib.Dict.ofPairs_map, List.map_map, List.map_map]
    rfl
  rw [recorded, promised, hpromised, hrecorded, average_full_eq_iff]
  · simp [SameShare, List.count_replicate]
  · simpa [Lib.Dict.ofPairs_eq_nil_iff] using hne
  · simp [hne]

/-- Gradable changes are scored as promised, whatever is answered to their calls. -/
theorem recorded_of_gradable (h : Gradable record changes)
    (hlength : candidatesOf record.obligations ≠ [] → calls.length = changes.length) :
    recorded record changes calls = promised record changes calls := by
  rcases h with hunambiguous | ⟨hne, hscores⟩
  · exact recorded_of_unambiguous hunambiguous (length_grades hlength)
  · split at hscores
    next hnone => exact (recorded_eq_promised_iff_of_none hnone hne).mpr hscores
    next hsome =>
      refine recorded_of_zero hne (length_grades hlength) fun x hx => ?_
      rw [grades, if_neg hsome] at hx
      obtain ⟨i, hi, rfl⟩ := List.mem_iff_getElem.mp hx
      rw [List.getElem_zipWith]
      exact graded_of_unmatchable (hscores _ (List.getElem_mem _)) _

theorem precision_recorded (hne : bindings record changes calls ≠ []) :
    (recorded record changes calls).precision =
      ((Dict.ofPairs (bindings record changes calls)).map (·.2.precision)).sum /
        (Dict.ofPairs (bindings record changes calls)).length := by
  rw [recorded, precision_average (by simpa [Lib.Dict.ofPairs_eq_nil_iff] using hne), List.map_map,
    List.length_map]
  rfl

theorem precision_promised (hne : bindings record changes calls ≠ [])
    (hlength : (grades record changes calls).length = changes.length) :
    (promised record changes calls).precision =
      ((bindings record changes calls).map (·.2.precision)).sum /
        (((bindings record changes calls).length + (missed record changes).length : Nat) : Rat) := by
  have hgrades : grades record changes calls ≠ [] := by
    rw [← map_snd_bindings hlength]
    simpa using hne
  rw [promised, precision_average (List.append_ne_nil_of_left_ne_nil hgrades _),
    ← map_snd_bindings hlength]
  simp [Function.comp_def]

/-- When one change is answered in full and no other at all, the mean is the promised one only if
the changes are unambiguous. -/
theorem unambiguous_of_answered {p : Nat} (hp : p < changes.length)
    (hsome : candidatesOf record.obligations ≠ []) (hlength : calls.length = changes.length)
    (hcalls : ∀ i change entry, changes[i]? = some change → calls[i]? = some entry →
      (graded record change entry).precision = if i = p then 1 else 0)
    (h : recorded record changes calls = promised record changes calls) :
    Unambiguous record changes := by
  have hgrades : (grades record changes calls).length = changes.length :=
    length_grades fun _ => hlength
  have hne : bindings record changes calls ≠ [] := by
    refine List.ne_nil_of_length_pos ?_
    rw [length_bindings hgrades]
    omega
  have hprecisions : (bindings record changes calls).map (·.2.precision) =
      (List.range changes.length).map fun i => if i = p then 1 else 0 := by
    refine List.ext_getElem (by simp [length_bindings hgrades]) fun i hi hi' => ?_
    have hlt : i < changes.length := by simpa using hi'
    have hentry : i < calls.length := hlength ▸ hlt
    have hscore := hcalls i _ _ (List.getElem?_eq_getElem hlt) (List.getElem?_eq_getElem hentry)
    simpa [bindings, grades, hsome] using hscore
  have hsum : ((bindings record changes calls).map (·.2.precision)).sum = 1 := by
    rw [hprecisions]
    show Finset.sum (Finset.range changes.length) (fun i => if i = p then (1 : Rat) else 0) = 1
    rw [Finset.sum_ite_eq', if_pos (Finset.mem_range.mpr hp)]
  have hvalues : ∀ binding ∈ bindings record changes calls,
      binding.2.precision = 0 ∨ binding.2.precision = 1 := by
    intro binding hmem
    have hvalue : binding.2.precision ∈ (bindings record changes calls).map (·.2.precision) :=
      List.mem_map.mpr ⟨binding, hmem, rfl⟩
    rw [hprecisions] at hvalue
    obtain ⟨i, -, heq⟩ := List.mem_map.mp hvalue
    rw [← heq]
    split
    · exact .inr rfl
    · exact .inl rfl
  have hprecision := congrArg Scores.precision h
  rw [precision_recorded hne, precision_promised hne hgrades, hsum] at hprecision
  obtain ⟨hnodup, hmissed⟩ := nodup_of_mean_eq hvalues hsum hprecision
  rw [map_fst_bindings hgrades] at hnodup
  exact ⟨hnodup, List.length_eq_zero_iff.mp hmissed⟩

theorem callCount_eq (hdetected : detected record = .ok changes)
    (hsome : candidatesOf record.obligations ≠ []) : callCount record = changes.length := by
  rw [callCount, if_neg hsome, hdetected]
  rfl

/-- What the report of some run says is promised of it. -/
theorem exists_recorded_eq_promised [Platform] (hdetected : detected record = .ok changes)
    (h : Every exec Eq (runImpact miniClient [record]) ⟨false⟩ (.empty 0) fun trace res _ _ =>
      ∀ report, res = .ok (some report) → Dict.get? report.perRecord record.id =
        some (promised record changes (ownCalls [] record trace)))
    (answers : Nat → Answer) (hheard : ∀ i, Heard miniClient.model (answers i)) :
    ∃ calls, calls.length = callCount record ∧
      (∀ i entry, calls[i]? = some entry →
        ∃ user, entry = call miniClient.model user (answers i)) ∧
      recorded record changes calls = promised record changes calls := by
  obtain ⟨calls, report, l', t, hruns, hlength, hcalls⟩ :=
    exists_report miniClient hdetected answers hheard
  have hown : ownCalls [] record calls = calls := List.take_of_length_le hlength.le
  have hpromised := (Lib.every_iff_runs _ _ _ _).mp h _ _ _ _ hruns report rfl
  have hrun : Every exec Eq (runImpact miniClient [record]) ⟨false⟩ (.empty 0) _ :=
    runImpact_run miniClient [] [] record (by simp)
  obtain ⟨-, found, hfound, hrecorded⟩ :=
    (Lib.every_iff_runs _ _ _ _).mp hrun _ _ _ _ hruns report rfl
  obtain rfl : changes = found := Except.ok.inj (hdetected.symm.trans hfound)
  rw [hown] at hpromised hrecorded
  exact ⟨calls, hlength, hcalls, Option.some.inj (hrecorded.symm.trans hpromised)⟩

/-- Among whatever records an eval runs, and whatever is answered: the scores reported of a record
are the promised ones if and only if the changes detected in it are gradable. -/
theorem impact_scores_promised_iff [Platform] (record : GoldenRecord) :
    (∀ (llm : OpenAiClient) (env : Store → Store → Prop) (before after : List GoldenRecord)
      (l : Session) (s : Store), (∀ later ∈ after, later.id ≠ record.id) →
      Every exec env (runImpact llm (before ++ record :: after)) l s fun trace res _ _ =>
        ∀ report, res = .ok (some report) → ∀ changes, detected record = .ok changes →
          Dict.get? report.perRecord record.id =
            some (promised record changes (ownCalls before record trace))) ↔
      ∀ changes, detected record = .ok changes → Gradable record changes := by
  constructor
  · intro h changes hdetected
    have hrun := exists_recorded_eq_promised hdetected
      ((h miniClient Eq [] [] ⟨false⟩ (.empty 0) (by simp)).mono
        fun _ _ _ _ hreport report hres => hreport report hres changes hdetected)
    obtain ⟨calls, -, -, hrefused⟩ := hrun (fun _ => refused) fun _ => heard_refused
    by_cases hnil : changes = []
    · -- nothing is detected: the report says perfect
      subst hnil
      refine .inl ⟨List.nodup_nil, ?_⟩
      by_contra hmissed
      have hgrades : grades record [] calls = [] := by
        rw [grades]
        split <;> rfl
      have hzero : promised record [] calls = ⟨0, 0⟩ := by
        rw [promised, hgrades]
        exact average_of_zero (by simpa using hmissed) (by simp)
      rw [hzero, recorded, bindings, hgrades] at hrefused
      exact absurd hrefused (by decide)
    · by_cases hnone : candidatesOf record.obligations = []
      · refine .inr ⟨hnil, ?_⟩
        rw [if_pos hnone]
        exact (recorded_eq_promised_iff_of_none hnone hnil).mp hrefused
      · by_cases hall : ∀ change ∈ changes, Unmatchable record change
        · refine .inr ⟨hnil, ?_⟩
          rw [if_neg hnone]
          exact hall
        · -- one change is answered in full, and no other at all
          push Not at hall
          obtain ⟨change, hmem, hmatchable⟩ := hall
          obtain ⟨p, hp, rfl⟩ := List.mem_iff_getElem.mp hmem
          obtain ⟨a, ha, hfull⟩ := exists_answer hmatchable
          obtain ⟨calls, hlength, hcalls, heq⟩ := hrun (fun i => if i = p then a else refused) (by
            intro i
            split
            · exact ha
            · exact heard_refused)
          rw [callCount_eq hdetected hnone] at hlength
          refine .inl (unambiguous_of_answered hp hnone hlength (fun i change entry hi hentry => ?_) heq)
          obtain ⟨user, rfl⟩ := hcalls i entry hentry
          by_cases hip : i = p
          · subst hip
            obtain rfl := Option.some.inj ((List.getElem?_eq_getElem hp).symm.trans hi)
            rw [if_pos rfl, if_pos rfl]
            exact hfull user
          · rw [if_neg hip, if_neg hip, graded_refused]
  · intro h llm env before after l s hlater
    refine (runImpact_run llm before after record hlater).mono fun trace res l' t hreport => ?_
    intro report hres changes hdetected
    obtain ⟨hlength, found, hfound, hget⟩ := hreport report hres
    obtain rfl : changes = found := Except.ok.inj (hdetected.symm.trans hfound)
    rw [hget, recorded_of_gradable (h changes hdetected)]
    exact fun hsome => hlength.trans (callCount_eq hdetected hsome)

end Promise

end Scores

/-- A record whose one expected change is missed: the texts are the same. -/
def unnoticed : GoldenRecord :=
  { id := "impact-001".toList
    baseText := "1. Pay.".toList
    amendedText := "1. Pay.".toList
    obligations := [⟨"1".toList, "pay".toList, none, ⟨0, 7⟩⟩]
    changes := [⟨"modified".toList, some "1".toList, [("1".toList, none)]⟩] }

/-- It is reported as perfect, and is promised to score nothing. -/
theorem missed_changes_score_perfect : ∃ trace report l' t,
    Runs exec Eq (@runImpact Ucd.ascii onePdf miniClient [unnoticed]) ⟨false⟩ (.empty 0) trace
      (.ok (some report)) l' t ∧
    @detected Ucd.ascii unnoticed = .ok [] ∧
    Dict.get? report.perRecord unnoticed.id = some ⟨1, 1⟩ ∧
    @promised Ucd.ascii unnoticed [] (@ownCalls Ucd.ascii [] unnoticed trace) = ⟨0, 0⟩ := by
  let := Ucd.ascii
  let := onePdf
  have hrun : (replay exec (runImpact miniClient [unnoticed]) ⟨false⟩ (.empty 0) []).map
      (fun r => (r.1.length, (r.2.1.toOption.bind id).map Report.perRecord)) =
        some (0, some [(unnoticed.id, ⟨1, 1⟩)]) := by decide +kernel
  obtain ⟨⟨trace, res, l', t⟩, hr, hend⟩ := Option.map_eq_some_iff.mp hrun
  obtain ⟨hlength, hreport⟩ := Prod.mk.inj hend
  obtain rfl := List.length_eq_zero_iff.mp hlength
  obtain ⟨report, hres, hper⟩ := Option.map_eq_some_iff.mp hreport
  cases res with
  | error e => cases hres
  | ok found =>
    obtain rfl : found = some report := hres
    refine ⟨[], report, l', t, Lib.runs_of_replay (fun _ => rfl) hr, ?_, ?_, ?_⟩
    · rfl
    · rw [hper]
      decide
    · decide +kernel

end ContractIntel.Evals
