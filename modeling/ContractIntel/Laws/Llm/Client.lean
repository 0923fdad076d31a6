import ContractIntel.Llm.Client
import ContractIntel.Services.Usage

/-!
# What a model call leaves in a trace

A call is one operation, and what its caller sees is a function of that operation's result. The
replies of a run are the data its structured calls came back with.
-/

namespace ContractIntel

/-- An operation of a run's trace. -/
abbrev Entry := Lib.Entry Op Op.Res Exn Answer

namespace Llm

open Lib (Every)

variable {schema : Schema} {env : Store → Store → Prop} {l : Session} {s : Store}

/-! ## Usage records -/

/-- The usage of a reply can be recorded: the model has a price, and both counts can be divided. -/
def Recordable (model : Str) (promptTokens completionTokens : Option Nat) : Prop :=
  priced model = true ∧ countable promptTokens = true ∧ countable completionTokens = true

instance (model : Str) (promptTokens completionTokens : Option Nat) :
    Decidable (Recordable model promptTokens completionTokens) :=
  inferInstanceAs (Decidable (_ ∧ _ ∧ _))

section Records

variable {model : Str} {promptTokens completionTokens tokens : Option Nat}

theorem exists_of_countable (h : countable tokens) :
    ∃ n : Nat, tokens = some n ∧ millions tokens = .ok (n / 1000000) := by
  obtain ⟨n, rfl, hn⟩ := (Option.any_eq_true _ _).mp h
  exact ⟨n, rfl, if_pos (of_decide_eq_true hn)⟩

theorem millions_of_not_countable (h : ¬ countable tokens) :
    ∃ error message, millions tokens = .error (.otherError error message) := by
  cases tokens with
  | none => exact ⟨_, _, rfl⟩
  | some n =>
    have hn : ¬ n < FLOAT_LIMIT := fun hlt => h (decide_eq_true hlt)
    exact ⟨_, _, if_neg hn⟩

theorem pricingFor_of_priced (h : priced model) :
    ∃ price, (model, price) ∈ PRICES ∧ pricingFor model = .ok price := by
  obtain ⟨entry, hentry⟩ := Option.isSome_iff_exists.mp
    (List.find?_isSome.mpr (List.any_eq_true.mp h))
  obtain rfl : entry.1 = model := of_decide_eq_true (List.find?_some hentry :)
  exact ⟨entry.2, List.mem_of_find?_eq_some hentry, by rw [pricingFor, hentry]⟩

theorem pricingFor_of_not_priced (h : ¬ priced model) :
    pricingFor model = .error (.keyError model) := by
  have hnone : PRICES.find? (·.1 = model) = none :=
    List.find?_eq_none.mpr (List.any_eq_false.mp (Bool.eq_false_iff.mpr h))
  rw [pricingFor, hnone]

/-- A record has the model, the counts and the time of its call, at the listed price. -/
theorem usageRecord_of_recordable (h : Recordable model promptTokens completionTokens)
    (latencyMs : Nat) : ∃ (price : ModelPricing) (p c : Nat),
      (model, price) ∈ PRICES ∧ promptTokens = some p ∧ completionTokens = some c ∧
        usageRecord model promptTokens completionTokens latencyMs =
          .ok ⟨model, p, c, p / 1000000 * price.inputPerMillion + c / 1000000 * price.outputPerMillion,
            latencyMs⟩ := by
  obtain ⟨price, hlisted, hprice⟩ := pricingFor_of_priced h.1
  obtain ⟨p, rfl, hp⟩ := exists_of_countable h.2.1
  obtain ⟨c, rfl, hc⟩ := exists_of_countable h.2.2
  refine ⟨price, p, c, hlisted, rfl, rfl, ?_⟩
  rw [usageRecord, costUsd, hprice, hp, hc]
  rfl

/-- Without a record the price lookup fails, or one of the divisions. -/
theorem usageRecord_of_not_recordable (h : ¬ Recordable model promptTokens completionTokens)
    (latencyMs : Nat) : ∃ e, usageRecord model promptTokens completionTokens latencyMs = .error e ∧
      (e = .keyError model ∨ ∃ error message, e = .otherError error message) := by
  by_cases hpriced : priced model
  · obtain ⟨price, -, hprice⟩ := pricingFor_of_priced hpriced
    rw [usageRecord, costUsd, hprice]
    by_cases hcounted : countable promptTokens
    · obtain ⟨p, -, hp⟩ := exists_of_countable hcounted
      obtain ⟨error, message, hc⟩ := millions_of_not_countable fun hc => h ⟨hpriced, hcounted, hc⟩
      rw [hp, hc]
      exact ⟨_, rfl, .inr ⟨error, message, rfl⟩⟩
    · obtain ⟨error, message, hp⟩ := millions_of_not_countable hcounted
      rw [hp]
      exact ⟨_, rfl, .inr ⟨error, message, rfl⟩⟩
  · rw [usageRecord, costUsd, pricingFor_of_not_priced hpriced]
    exact ⟨_, rfl, .inl rfl⟩

/-- A reply is read by its first choice once its usage is recorded. -/
theorem readReply_of_record {response : ChatReply schema} {usage : LlmUsage}
    (h : usageRecord model response.promptTokens response.completionTokens response.latencyMs =
      .ok usage) : readReply model response = readChoices model usage response.choices := by
  rw [readReply, h]
  rfl

theorem readReply_of_no_record {response : ChatReply schema} {e : Exn}
    (h : usageRecord model response.promptTokens response.completionTokens response.latencyMs =
      .error e) : readReply model response = .error e := by
  rw [readReply, h]
  rfl

/-- The vectors of a reply whose usage can be recorded, one for each item. -/
theorem readEmbeddings_of_recordable {response : EmbedReply}
    (h : Recordable model response.promptTokens (some 0)) :
    ∃ reply, readEmbeddings model response = .ok reply ∧
      reply.vectors.length = response.items.length := by
  obtain ⟨_, _, _, -, -, -, hrecord⟩ := usageRecord_of_recordable h response.latencyMs
  rw [readEmbeddings, hrecord]
  refine ⟨_, rfl, ?_⟩
  rw [List.length_map, List.length_insertionSort]

theorem readEmbeddings_of_not_recordable {response : EmbedReply}
    (h : ¬ Recordable model response.promptTokens (some 0)) :
    ∃ e, readEmbeddings model response = .error e ∧
      (e = .keyError model ∨ ∃ error message, e = .otherError error message) := by
  obtain ⟨e, hrecord, he⟩ := usageRecord_of_not_recordable h response.latencyMs
  rw [readEmbeddings, hrecord]
  exact ⟨e, rfl, he⟩

end Records

/-! ## Calls -/

/-- What the caller sees of a structured call. -/
def heard (model : Str) : Except Exn (ChatReply schema) → Except Exn (StructuredResult schema)
  | .ok response => readReply model response
  | .error e => .error (sdkError model e)

/-- What the caller sees of an embeddings call. -/
def embedded (model : Str) : Except Exn EmbedReply → Except Exn EmbeddingResult
  | .ok response => readEmbeddings model response
  | .error e => .error (sdkError model e)

/-- What the SDK raises: exceptions of its own, and those that strange bodies lead to. -/
def ofSdk : Exn → Bool
  | .unusableReply | .openAiError _ | .valueError _ | .otherError .. => true
  | _ => false

theorem ofSdk_strange (body : StrangeBody) : ofSdk body.exn := by
  cases body <;> rfl

theorem chatReply_error {outcome : ChatOutcome} {e : Exn}
    (h : chatReply schema outcome = .error e) : ofSdk e := by
  cases outcome with
  | unusable | failed =>
    cases h
    rfl
  | strange body =>
    cases h
    exact ofSdk_strange body
  | replied usage latencyMs choices =>
    simp only [chatReply] at h
    split at h
    · cases h
    · cases h
      rfl

theorem embedReply_error {outcome : EmbedOutcome} {e : Exn} (h : embedReply outcome = .error e) :
    ofSdk e ∧ e ≠ .unusableReply := by
  cases outcome with
  | failed =>
    cases h
    exact ⟨rfl, fun h => by cases h⟩
  | strange body =>
    cases h
    exact ⟨ofSdk_strange body, fun h => by cases body <;> cases h⟩
  | replied usage latencyMs items =>
    cases items with
    | nil =>
      cases h
      exact ⟨rfl, fun h => by cases h⟩
    | cons => cases h

/-- A structured call performs its one operation and returns what is heard of the answer. -/
theorem completeStructured_answers (llm : OpenAiClient) (user : Str) :
    Every exec env (completeStructured llm schema user) l s fun trace res l' _ =>
      ∃ a, trace = [⟨.parseChat schema llm.model user, a, chatReply schema a.chat⟩] ∧
        res = heard llm.model (chatReply schema a.chat) ∧ l' = l := by
  refine Every.bind.mpr (Every.tryCatch.mpr (Every.call.mpr fun moved a _ => ?_))
  simp only [exec]
  cases hreply : chatReply schema a.chat with
  | error e =>
    refine ⟨a, ?_, ?_, rfl⟩ <;> rw [hreply]
    · rfl
    · rfl
  | ok response =>
    refine Every.ofResult.mpr ⟨a, ?_, ?_, rfl⟩ <;> rw [hreply]
    · rfl
    · rfl

/-- An embeddings call does likewise. -/
theorem embed_answers (llm : OpenAiClient) (texts : List Str) :
    Every exec env (embed llm texts) l s fun trace res l' _ =>
      ∃ a, trace = [⟨.createEmbeddings llm.embeddingModel texts, a, embedReply a.embed⟩] ∧
        res = embedded llm.embeddingModel (embedReply a.embed) ∧ l' = l := by
  refine Every.bind.mpr (Every.tryCatch.mpr (Every.call.mpr fun moved a _ => ?_))
  simp only [exec]
  cases hreply : embedReply a.embed with
  | error e =>
    refine ⟨a, ?_, ?_, rfl⟩ <;> rw [hreply]
    · rfl
    · rfl
  | ok response =>
    refine Every.ofResult.mpr ⟨a, ?_, ?_, rfl⟩ <;> rw [hreply]
    · rfl
    · rfl

/-- What the call raises is an exception of the SDK. -/
theorem completeStructured_trace (llm : OpenAiClient) (user : Str) :
    Every exec env (completeStructured llm schema user) l s fun trace res l' _ =>
      ∃ a result, trace = [⟨.parseChat schema llm.model user, a, result⟩] ∧
        res = heard llm.model result ∧ l' = l ∧
        ∀ e, result = .error e → ofSdk e := by
  refine (completeStructured_answers llm user).mono ?_
  rintro trace res l' t ⟨a, htrace, hres, hl⟩
  exact ⟨a, _, htrace, hres, hl, fun e he => chatReply_error he⟩

/-! ## Replies -/

/-- The data of a reply that the client accepts. -/
def replyOf (schema : Schema) : Entry → Option schema.Data
  | ⟨.parseChat schema' model _, _, .ok response⟩ =>
    if h : schema' = schema then
      (readReply model response).toOption.map fun result => h ▸ result.data
    else none
  | _ => none

/-- The accepted replies of a run, in the order of its calls. -/
def replies (schema : Schema) (trace : List Entry) : List schema.Data :=
  trace.filterMap (replyOf schema)

/-- The structured calls of a run. -/
def chats (trace : List Entry) : List Entry :=
  trace.filter fun entry => match entry.op with
    | .parseChat .. => true
    | _ => false

@[simp] theorem replies_nil : replies schema [] = [] := rfl

@[simp] theorem replies_append (trace more : List Entry) :
    replies schema (trace ++ more) = replies schema trace ++ replies schema more :=
  List.filterMap_append

@[simp] theorem chats_nil : chats [] = [] := rfl

@[simp] theorem chats_append (trace more : List Entry) :
    chats (trace ++ more) = chats trace ++ chats more :=
  List.filter_append ..

/-- A call that is heard is a reply. -/
theorem replyOf_heard {model user : Str} {a : Answer} {result : Except Exn (ChatReply schema)} :
    replyOf schema ⟨.parseChat schema model user, a, result⟩ =
      (heard model result).toOption.map StructuredResult.data := by
  cases result with
  | error e => rfl
  | ok response => simp [replyOf, heard]

theorem replyOf_usage {tenantId : Uuid} {jobType : UsageJobKind} {jobId : Option Uuid}
    {usage : LlmUsage} {requestId : Str} {a : Answer} {result : Except Exn Unit} :
    replyOf schema ⟨.insertUsage tenantId jobType jobId usage requestId, a, result⟩ = none := rfl

/-! ## Accounted calls -/

/-- A usage row that is written, if the entry is one. -/
def Accounted : Entry → Prop
  | ⟨.insertUsage .., _, result⟩ => result.isOk
  | _ => True

/-- The trace of a call that is answered, and of its usage row. -/
inductive Asked (model user : Str) : StructuredResult schema → List Entry → Prop
  | intro {tenantId : Uuid} {jobType : UsageJobKind} {jobId : Option Uuid} {requestId : Str}
      {response : ChatReply schema} {reply : StructuredResult schema} (a b : Answer)
      (hread : readReply model response = .ok reply) :
      Asked model user reply
        [⟨.parseChat schema model user, a, .ok response⟩,
          ⟨.insertUsage tenantId jobType jobId reply.usage requestId, b, .ok ()⟩]

/-- The trace of a call that ends in an exception, its own or its usage row's. -/
inductive Declined (schema : Schema) (model user : Str) : Exn → List Entry → Prop
  | call {result : Except Exn (ChatReply schema)} {e : Exn} (a : Answer)
      (hresult : ∀ e', result = .error e' → ofSdk e') (hheard : heard model result = .error e) :
      Declined schema model user e [⟨.parseChat schema model user, a, result⟩]
  | usage {tenantId : Uuid} {jobType : UsageJobKind} {jobId : Option Uuid} {requestId : Str}
      {response : ChatReply schema} {reply : StructuredResult schema} {e : Exn} (a b : Answer)
      (hread : readReply model response = .ok reply) :
      Declined schema model user e
        [⟨.parseChat schema model user, a, .ok response⟩,
          ⟨.insertUsage tenantId jobType jobId reply.usage requestId, b, .error e⟩]

/-- A call, its usage row, and what follows. -/
theorem ask {β : Type} {llm : OpenAiClient} {user : Str} {requestId : Str} {tenantId : Uuid}
    {jobType : UsageJobKind} {jobId : Option Uuid} {f : StructuredResult schema → Service β}
    {Φ : List Entry → Except Exn β → Session → Store → Prop}
    (hdeclined : ∀ trace e l' t, Declined schema llm.model user e trace → Φ trace (.error e) l' t)
    (hasked : ∀ trace reply l' t, Asked llm.model user reply trace →
      Every exec env (f reply) l' t fun more => Φ (trace ++ more)) :
    Every exec env ((completeStructured llm schema user).bind fun reply =>
      (Usage.sink requestId tenantId jobType jobId reply.usage).bind fun _ => f reply) l s Φ := by
  refine Every.bind.mpr ((completeStructured_trace llm user).mono ?_)
  rintro trace res l' t ⟨a, result, rfl, rfl, rfl, hresult⟩
  cases hheard : heard llm.model result with
  | error e => exact hdeclined _ _ _ _ (.call a hresult hheard)
  | ok reply =>
    cases result with
    | error e => cases hheard
    | ok response =>
      refine Every.bind.mpr (Every.call.mpr fun moved b _ => ?_)
      cases (exec (.insertUsage tenantId jobType jobId reply.usage requestId) b l' moved).1 with
      | error e => exact hdeclined _ _ _ _ (.usage a b hheard)
      | ok _ =>
        exact hasked _ reply _ _ (@Asked.intro schema llm.model user tenantId jobType jobId requestId
          response reply a b hheard)

variable {model user : Str} {reply : StructuredResult schema} {trace : List Entry} {e : Exn}

theorem Asked.replies_eq (h : Asked model user reply trace) : replies schema trace = [reply.data] := by
  cases h with
  | @intro _ _ _ _ response _ a b hread =>
    have hreply := @replyOf_heard schema model user a (.ok response)
    rw [heard, hread] at hreply
    simp only [replies, List.filterMap_cons, hreply, replyOf_usage]
    rfl

theorem Asked.length_chats (h : Asked model user reply trace) : (chats trace).length = 1 := by
  cases h
  rfl

theorem Declined.length_chats (h : Declined schema model user e trace) :
    (chats trace).length = 1 := by
  cases h <;> rfl

/-- Of a declined call there is no reply, unless it is the usage row that failed. -/
theorem Declined.replies_eq (h : Declined schema model user e trace)
    (haccounted : ∀ entry ∈ trace, Accounted entry) : replies schema trace = [] := by
  cases h with
  | @call result _ a _ hheard =>
    have hreply := @replyOf_heard schema model user a result
    rw [hheard] at hreply
    simp only [replies, List.filterMap_cons, hreply]
    rfl
  | usage a b hread =>
    exact absurd (haccounted _ (List.mem_cons_of_mem _ (List.mem_singleton_self _))) nofun

/-! ## The sinks of the callers -/

/-- The sinks that callers hand down: none, or the usage rows of a surface. -/
inductive CallerSink : UsageSink → Prop
  | none : CallerSink UsageSink.none
  | account (requestId : Str) (tenantId : Uuid) (jobType : UsageJobKind) (jobId : Option Uuid) :
      CallerSink (Usage.sink requestId tenantId jobType jobId)

/-- A call with the sink of some caller: it raises, and then there is no reply unless a usage row
was refused, or its one reply goes on to what follows. -/
theorem ask_caller {β : Type} {llm : OpenAiClient} {user : Str} {usageSink : UsageSink}
    (hsink : CallerSink usageSink) {f : StructuredResult schema → Service β}
    {Φ : List Entry → Except Exn β → Session → Store → Prop}
    (hdeclined : ∀ trace e l' t,
      ((∀ entry ∈ trace, Accounted entry) → replies schema trace = []) → Φ trace (.error e) l' t)
    (hasked : ∀ trace reply l' t, replies schema trace = [reply.data] →
      Every exec env (f reply) l' t fun more => Φ (trace ++ more)) :
    Every exec env ((completeStructured llm schema user).bind fun reply =>
      (usageSink reply.usage).bind fun _ => f reply) l s Φ := by
  cases hsink with
  | account requestId tenantId jobType jobId =>
    exact ask (fun trace e l' t h => hdeclined trace e l' t h.replies_eq)
      fun trace reply l' t h => hasked trace reply l' t h.replies_eq
  | none =>
    refine Every.bind.mpr ((completeStructured_trace llm user).mono ?_)
    rintro trace res l' t ⟨a, result, rfl, rfl, rfl, -⟩
    have hreply := @replyOf_heard schema llm.model user a result
    cases hheard : heard llm.model result with
    | error e =>
      rw [hheard] at hreply
      refine hdeclined _ _ _ _ fun _ => ?_
      simp only [replies, List.filterMap_cons, hreply]
      rfl
    | ok reply =>
      rw [hheard] at hreply
      refine hasked _ reply _ _ ?_
      simp only [replies, List.filterMap_cons, hreply]
      rfl

end Llm

end ContractIntel
