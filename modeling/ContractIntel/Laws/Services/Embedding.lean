import ContractIntel.Laws.Services.Outcomes
import ContractIntel.Services.Ingestion
import Mathlib.Algebra.GroupWithZero.Nat

/-!
# What a run of `_ingest` leaves in its trace

Counted along the trace: the texts sent to the model and the vectors it returned. When `_ingest`
returns, every model call succeeded, every usage row was written, and it returns as many vectors as
the replies had; when it raises, some call or usage row failed, or no call was made.
-/

namespace ContractIntel.Ingestion

open Lib (Blamed Escapes Every)
open Llm (OpenAiClient Recordable UsageSink)

/-! ## Batches -/

theorem sum_length_batches (texts : List Str) :
    ((batches texts).map List.length).sum = texts.length := by
  fun_induction batches texts with
  | case1 => rfl
  | case2 texts hne ih =>
    rw [List.map_cons, List.sum_cons, ih, List.length_take, List.length_drop]
    omega

/-! ## Along a trace -/

/-- An entry at which `_ingest` does not fail for the model's sake: the call returns vectors under a
model with a price and with usage that can be counted, and its usage row is written. -/
def Embeds : Entry → Prop
  | ⟨.createEmbeddings model _, _, result⟩ =>
    ∃ response, result = .ok response ∧ Recordable model response.promptTokens (some 0)
  | ⟨.insertUsage .., _, result⟩ => result.isOk
  | _ => True

def sentBy : Entry → Nat
  | ⟨.createEmbeddings _ texts, _, _⟩ => texts.length
  | _ => 0

def receivedBy : Entry → Nat
  | ⟨.createEmbeddings .., _, .ok reply⟩ => reply.items.length
  | _ => 0

/-- The texts sent to the model in a run. -/
def sent (trace : List Entry) : Nat := (trace.map sentBy).sum

/-- The vectors the model returned in a run. -/
def received (trace : List Entry) : Nat := (trace.map receivedBy).sum

@[simp] theorem sent_append (trace more : List Entry) :
    sent (trace ++ more) = sent trace + sent more := by
  simp [sent]

@[simp] theorem received_append (trace more : List Entry) :
    received (trace ++ more) = received trace + received more := by
  simp [received]

@[simp] theorem sent_nil : sent [] = 0 := rfl

@[simp] theorem received_nil : received [] = 0 := rfl

@[simp] theorem sent_cons (entry : Entry) (more : List Entry) :
    sent (entry :: more) = sentBy entry + sent more := rfl

@[simp] theorem received_cons (entry : Entry) (more : List Entry) :
    received (entry :: more) = receivedBy entry + received more := rfl

/-- Operations that neither call the model nor account for a call. -/
def Op.silent : Op → Bool
  | .createEmbeddings .. | .insertUsage .. => false
  | _ => true

theorem embeds_of_silent {entry : Entry} (h : Op.silent entry.op) : Embeds entry := by
  obtain ⟨o, a, result⟩ := entry
  cases o <;> trivial

theorem counts_of_silent {entry : Entry} (h : Op.silent entry.op) :
    sentBy entry = 0 ∧ receivedBy entry = 0 := by
  obtain ⟨o, a, result⟩ := entry
  cases o <;> first | exact ⟨rfl, rfl⟩ | cases h

/-! ## Embedding -/

variable {env : Store → Store → Prop} {l : Session} {s : Store}

/-- A call counts its texts, and the vectors it returns. -/
theorem embed_counts (llm : OpenAiClient) (texts : List Str) :
    Every exec env (Llm.embed llm texts) l s fun trace res _ _ =>
      match res with
      | .ok reply => (∀ entry ∈ trace, Embeds entry) ∧ reply.vectors.length = received trace ∧
          texts.length = sent trace
      | .error _ => ∃ entry ∈ trace, ¬ Embeds entry := by
  refine (Llm.embed_answers llm texts).mono ?_
  rintro trace res - - ⟨a, rfl, rfl, -⟩
  cases embedReply a.embed with
  | error e => exact ⟨_, List.mem_singleton_self _, fun ⟨_, h, _⟩ => by cases h⟩
  | ok response =>
    rw [Llm.embedded]
    by_cases hrecorded : Recordable llm.embeddingModel response.promptTokens (some 0)
    · obtain ⟨reply, hread, hlength⟩ := Llm.readEmbeddings_of_recordable hrecorded
      rw [hread]
      refine ⟨?_, hlength, rfl⟩
      intro entry hentry
      cases List.mem_singleton.mp hentry
      exact ⟨response, rfl, hrecorded⟩
    · obtain ⟨e, hread, -⟩ := Llm.readEmbeddings_of_not_recordable hrecorded
      rw [hread]
      refine ⟨_, List.mem_singleton_self _, ?_⟩
      rintro ⟨_, hresponse, h⟩
      cases hresponse
      exact hrecorded h

theorem sink_counts (requestId : Str) (tenantId : Uuid) (jobId : Option Uuid) (usage : LlmUsage) :
    Every exec env (Usage.sink requestId tenantId .ingestion jobId usage) l s fun trace res _ _ =>
      sent trace = 0 ∧ received trace = 0 ∧
        match res with
        | .ok _ => ∀ entry ∈ trace, Embeds entry
        | .error _ => ∃ entry ∈ trace, ¬ Embeds entry := by
  refine Every.call.mpr fun moved a _ => ⟨by simp [sentBy], by simp [receivedBy], ?_⟩
  split
  next _ hok =>
    intro entry hentry
    cases List.mem_singleton.mp hentry
    rw [Embeds, hok]
    rfl
  next e herror =>
    refine ⟨_, List.mem_singleton_self _, ?_⟩
    rw [Embeds, herror]
    exact nofun

theorem embedBatches_counts (llm : OpenAiClient) (requestId : Str) (tenantId : Uuid)
    (jobId : Option Uuid) (batches : List (List Str)) :
    Every exec env (embedBatches llm (Usage.sink requestId tenantId .ingestion jobId) batches) l s
      fun trace res _ _ =>
        match res with
        | .ok vectors => (∀ entry ∈ trace, Embeds entry) ∧ vectors.length = received trace ∧
            (batches.map List.length).sum = sent trace
        | .error _ => ∃ entry ∈ trace, ¬ Embeds entry := by
  induction batches generalizing l s with
  | nil => exact ⟨fun _ h => absurd h List.not_mem_nil, rfl, rfl⟩
  | cons batch rest ih =>
    refine Every.bind.mpr ((embed_counts llm batch).mono fun trace₁ res l₁ t₁ hcall => ?_)
    cases res with
    | error e =>
      exact hcall
    | ok reply =>
      obtain ⟨hembeds₁, hreceived₁, hsent₁⟩ := hcall
      refine Every.bind.mpr ((sink_counts requestId tenantId jobId reply.usage).mono ?_)
      intro trace₂ res l₂ t₂ hsink
      obtain ⟨hsent₂, hreceived₂, hsink⟩ := hsink
      cases res with
      | error e =>
        obtain ⟨entry, hentry, hfailed⟩ := hsink
        exact ⟨entry, List.mem_append_right _ hentry, hfailed⟩
      | ok _ =>
        refine Every.bind.mpr (ih.mono fun trace₃ res l₃ t₃ hrest => ?_)
        cases res with
        | error e =>
          obtain ⟨entry, hentry, hfailed⟩ := hrest
          exact ⟨entry, by simp [hentry], hfailed⟩
        | ok vectors =>
          obtain ⟨hembeds₃, hreceived₃, hsent₃⟩ := hrest
          refine ⟨?_, ?_, ?_⟩
          · intro entry hentry
            rw [List.append_nil, List.mem_append, List.mem_append] at hentry
            rcases hentry with hentry | hentry | hentry
            · exact hembeds₁ entry hentry
            · exact hsink entry hentry
            · exact hembeds₃ entry hentry
          · simp only [List.length_append, received_append, received_nil]
            omega
          · simp only [List.map_cons, List.sum_cons, sent_append, sent_nil]
            omega

variable [Platform]

/-- The run read the stored bytes and they parsed. -/
def ReadAndParsed (trace : List Entry) : Prop :=
  ∃ (document : DocumentRow) (a : Answer) (content : Parsing.Bytes)
    (parsed : Parsing.ParsedDocument),
    ⟨.readFile document.tenantId document.sha256, a, .ok content⟩ ∈ trace ∧
      Parsing.parse document.mimeType content = .ok parsed

/-- A run of `_ingest` returns after a successful read, parse and embedding, with as many chunks
as it sent texts and as many vectors as it received; or it raises. -/
theorem ingest_counts (llm : OpenAiClient) (document : DocumentRow) (requestId : Str)
    (tenantId : Uuid) (jobId : Option Uuid) :
    Every exec env (ingest llm document (Usage.sink requestId tenantId .ingestion jobId)) l s
      fun trace res _ _ =>
        match res with
        | .ok ingested => ReadAndParsed trace ∧ (∀ entry ∈ trace, Embeds entry) ∧
            ingested.embeddings.length = received trace ∧ ingested.chunks.length = sent trace
        | .error _ => (∃ entry ∈ trace, ¬ Embeds entry) ∨ sent trace = received trace := by
  refine Every.bind.mpr (Every.call.mpr fun moved a _ => ?_)
  cases hread : (exec (.readFile document.tenantId document.sha256) a l moved).1 with
  | error e => exact .inr rfl
  | ok content =>
    dsimp only
    cases hparse : Parsing.parse document.mimeType content with
    | error e => exact .inr rfl
    | ok parsed =>
      refine Every.bind.mpr ?_
      change Every exec env ((embedBatches _ _ _).bind _) _ _ _
      refine Every.bind.mpr ((embedBatches_counts llm requestId tenantId jobId _).mono ?_)
      intro trace res l' t hembed
      cases res with
      | error e =>
        obtain ⟨entry, hentry, hfailed⟩ := hembed
        exact .inl ⟨entry, by simp [hentry], hfailed⟩
      | ok vectors =>
        obtain ⟨hembeds, hreceived, hsent⟩ := hembed
        refine ⟨⟨document, a, content, parsed, by simp, hparse⟩, ?_, ?_, ?_⟩
        · intro entry hentry
          rcases List.mem_cons.mp hentry with rfl | hentry
          · trivial
          · exact hembeds entry (by simpa using hentry)
        · simpa [receivedBy] using hreceived
        · rw [sum_length_batches] at hsent
          simpa [sentBy] using hsent

end ContractIntel.Ingestion
