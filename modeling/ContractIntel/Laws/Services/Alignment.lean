import ContractIntel.Laws.Services.IngestionHandler
import ContractIntel.Lib.Blocks
import Mathlib.Data.List.Forall2

/-!
# Embedding alignment

The texts of the chunks go to the model in batches, each reply is sorted by the indices of its items,
and the write puts the vectors beside the chunks by position. When the items of each reply are indexed
by the positions of their batch, in whatever order they arrive, the place of a vector is the place of
its text: vector `i` is item `i % EMBED_BATCH` of call `i / EMBED_BATCH`, and that call was sent the
text of chunk `i` at that place (`embedding_is_aligned`).
-/

namespace ContractIntel.Ingestion

open Chunking (Chunk chunkDocument)
open Documents (onePdf)
open Jobs (JobRow)
open Lib (Blocks Every Runs replay runs_of_replay)
open Lib.Prog (Performs)
open Llm (OpenAiClient)
open Parsing (ParsedDocument)
open Repositories

/-! ## Batches -/

theorem flatten_batches (texts : List Str) : (batches texts).flatten = texts := by
  fun_induction batches texts with
  | case1 => rfl
  | case2 texts hne ih => rw [List.flatten_cons, ih, List.take_append_drop]

theorem blocks_batches (texts : List Str) :
    Blocks EMBED_BATCH ((batches texts).map List.length) := by
  fun_induction batches texts with
  | case1 => exact .nil
  | case2 texts hne ih =>
    rw [List.map_cons, List.length_take]
    by_cases hlong : EMBED_BATCH ≤ texts.length
    · rw [Nat.min_eq_left hlong]
      exact .full ih
    · have hdrop : texts.drop EMBED_BATCH = [] := List.drop_eq_nil_of_le (by omega)
      rw [hdrop, batches, if_pos rfl, Nat.min_eq_right (by omega)]
      exact .last (List.length_pos_iff.mpr hne) (by omega)

/-! ## The calls of a run -/

/-- An embeddings call: the texts sent and the items of the reply, none when the call failed. -/
def callOf : Entry → Option (List Str × List (Int × Embedding))
  | ⟨.createEmbeddings _ texts, _, .ok reply⟩ => some (texts, reply.items)
  | ⟨.createEmbeddings _ texts, _, .error _⟩ => some (texts, [])
  | _ => none

/-- The embeddings calls of a run, in their order. -/
def calls (trace : List Entry) : List (List Str × List (Int × Embedding)) := trace.filterMap callOf

/-- The texts and items of a call that is answered. -/
def answeredOf : Entry → Option (List Str × List (Int × Embedding))
  | ⟨.createEmbeddings _ texts, _, .ok reply⟩ => some (texts, reply.items)
  | _ => none

/-- The items of a reply are indexed by the positions of the texts, in any order. -/
def Permuted (entry : Entry) : Prop :=
  ∀ call ∈ answeredOf entry,
    (call.2.map Prod.fst).Perm ((List.range call.1.length).map Nat.cast)

instance (entry : Entry) : Decidable (Permuted entry) :=
  inferInstanceAs (Decidable (∀ call ∈ answeredOf entry,
    (call.2.map Prod.fst).Perm ((List.range call.1.length).map Nat.cast)))

/-- The vector the endpoint computed for the text at a position: the item with the position's index in
the call for its batch, which was sent the text there. -/
def VectorFor (trace : List Entry) (i : Nat) (text : Str) (vector : Embedding) : Prop :=
  ∃ texts items, (calls trace)[i / EMBED_BATCH]? = some (texts, items) ∧
    texts[i % EMBED_BATCH]? = some text ∧ (((i % EMBED_BATCH : Nat) : Int), vector) ∈ items

/-- The vectors of a run for a list of texts. -/
structure EmbeddedAs (trace : List Entry) (texts : List Str) (vectors : List Embedding) : Prop where
  calls : (calls trace).length = (texts.length + EMBED_BATCH - 1) / EMBED_BATCH
  length : vectors.length = texts.length
  vector : ∀ i vector, vectors[i]? = some vector →
    ∃ text, texts[i]? = some text ∧ VectorFor trace i text vector

@[simp] theorem calls_append (trace more : List Entry) :
    calls (trace ++ more) = calls trace ++ calls more :=
  List.filterMap_append

/-- A call and the vectors made of its reply. -/
structure Answers (call : List Str × List (Int × Embedding)) (vectors : List Embedding) : Prop where
  length : vectors.length = call.1.length
  item : ∀ (j : Nat) (vector : Embedding), vectors[j]? = some vector → ((j : Int), vector) ∈ call.2

/-- Sorted by their indices the items stand at the positions they are indexed by. -/
theorem answers_of_perm {texts : List Str} {items : List (Int × Embedding)}
    (h : (items.map Prod.fst).Perm ((List.range texts.length).map Nat.cast)) :
    Answers (texts, items) ((items.insertionSort fun a b => a.1 ≤ b.1).map (·.2)) := by
  have hsorted : ((List.range texts.length).map (Nat.cast : Nat → Int)).Pairwise (· ≤ ·) :=
    List.pairwise_map.mpr (List.pairwise_lt_range.imp fun h => by exact_mod_cast Nat.le_of_lt h)
  have hkeys := Lib.map_insertionSort_of_perm hsorted h
  constructor
  · have hlength := congrArg List.length hkeys
    simpa using hlength
  · intro j vector hj
    rw [List.getElem?_map, Option.map_eq_some_iff] at hj
    obtain ⟨⟨index, _⟩, hitem, rfl⟩ := hj
    have hat : ((List.range texts.length).map (Nat.cast : Nat → Int))[j]? = some index := by
      rw [← hkeys, List.getElem?_map, hitem]
      rfl
    rw [List.getElem?_map, Option.map_eq_some_iff] at hat
    obtain ⟨position, hposition, rfl⟩ := hat
    obtain ⟨hlt, rfl⟩ := List.getElem?_eq_some_iff.mp hposition
    rw [List.getElem_range] at hitem
    exact (List.mem_insertionSort _).mp (List.mem_of_getElem? hitem)

theorem forall₂_getElem? {α β : Type} {R : α → β → Prop} {as : List α} {bs : List β}
    (h : List.Forall₂ R as bs) {i : Nat} {b : β} (hb : bs[i]? = some b) :
    ∃ a, as[i]? = some a ∧ R a b := by
  induction h generalizing i with
  | nil => cases hb
  | cons hR _ ih =>
    cases i with
    | zero =>
      cases hb
      exact ⟨_, rfl, hR⟩
    | succ i => exact ih hb

/-- Vectors laid end to end stand where the texts of their calls stand. -/
theorem embeddedAs_of_answers {trace : List Entry} {texts : List Str}
    {blocks : List (List Embedding)} (hsent : (calls trace).map Prod.fst = batches texts)
    (hanswers : List.Forall₂ Answers (calls trace) blocks) :
    EmbeddedAs trace texts blocks.flatten := by
  have hpos : 0 < EMBED_BATCH := by decide
  have hsizes : blocks.map List.length = (batches texts).map List.length := by
    rw [← hsent, List.map_map, ← List.forall₂_eq_eq_eq, List.forall₂_map_left_iff,
      List.forall₂_map_right_iff]
    exact hanswers.flip.imp fun _ _ hanswer => hanswer.length
  have hbatches := blocks_batches texts
  have hblocks := hsizes ▸ hbatches
  refine ⟨?_, ?_, fun i vector hi => ?_⟩
  · have hcount : (calls trace).length = ((batches texts).map List.length).length := by
      rw [List.length_map, ← hsent, List.length_map]
    rw [hcount, ← sum_length_batches texts]
    exact hbatches.length_eq hpos
  · rw [List.length_flatten, hsizes, sum_length_batches]
  · rw [hblocks.getElem?_flatten hpos, Option.bind_eq_some_iff] at hi
    obtain ⟨block, hblock, hvector⟩ := hi
    obtain ⟨⟨batch, items⟩, hcall, hanswer⟩ := forall₂_getElem? hanswers hblock
    have hbatch : (batches texts)[i / EMBED_BATCH]? = some batch := by
      rw [← hsent, List.getElem?_map, hcall]
      rfl
    obtain ⟨hlt, -⟩ := List.getElem?_eq_some_iff.mp hvector
    rw [hanswer.length] at hlt
    have htext : texts[i]? = batch[i % EMBED_BATCH]? := by
      calc texts[i]? = (batches texts).flatten[i]? := by rw [flatten_batches]
        _ = ((batches texts)[i / EMBED_BATCH]?).bind (·[i % EMBED_BATCH]?) :=
          hbatches.getElem?_flatten hpos i
        _ = batch[i % EMBED_BATCH]? := by rw [hbatch, Option.bind_some]
    rw [List.getElem?_eq_getElem hlt] at htext
    exact ⟨_, htext, batch, items, hcall, List.getElem?_eq_getElem hlt, hanswer.item _ _ hvector⟩

theorem embeddedAs_congr {trace other : List Entry} (h : calls other = calls trace)
    {texts : List Str} {vectors : List Embedding} (hembedded : EmbeddedAs trace texts vectors) :
    EmbeddedAs other texts vectors where
  calls := by rw [h, hembedded.calls]
  length := hembedded.length
  vector i vector hi := by
    obtain ⟨text, htext, hfor⟩ := hembedded.vector i vector hi
    exact ⟨text, htext, by rwa [VectorFor, h]⟩

/-! ## Embedding -/

section Runs

variable {env : Store → Store → Prop} {l : Session} {s : Store}

theorem readEmbeddings_vectors {model : Str} {response : EmbedReply} {reply : Llm.EmbeddingResult}
    (h : Llm.readEmbeddings model response = .ok reply) :
    reply.vectors = (response.items.insertionSort fun a b => a.1 ≤ b.1).map (·.2) := by
  unfold Llm.readEmbeddings at h
  cases husage : Llm.usageRecord model response.promptTokens (some 0) response.latencyMs with
  | error e =>
    rw [husage] at h
    cases h
  | ok usage =>
    rw [husage] at h
    cases h
    rfl

theorem embed_answers (llm : OpenAiClient) (texts : List Str) :
    Every exec env (Llm.embed llm texts) l s fun trace res _ _ =>
      (∀ entry ∈ trace, Permuted entry) → ∀ reply, res = .ok reply →
        ∃ call, calls trace = [call] ∧ call.1 = texts ∧ Answers call reply.vectors := by
  refine (Llm.embed_answers llm texts).mono ?_
  rintro trace res - - ⟨a, rfl, rfl, -⟩ hpermuted reply hres
  cases hreply : embedReply a.embed with
  | error e =>
    rw [hreply] at hres
    cases hres
  | ok response =>
    rw [hreply] at hres hpermuted
    refine ⟨(texts, response.items), rfl, rfl, ?_⟩
    rw [readEmbeddings_vectors hres]
    exact answers_of_perm (hpermuted _ (List.mem_singleton_self _) (texts, response.items) rfl)

theorem calls_of_sink (requestId : Str) (tenantId : Uuid) (jobId : Option Uuid) (usage : LlmUsage) :
    Every exec env (Usage.sink requestId tenantId .ingestion jobId usage) l s fun trace _ _ _ =>
      calls trace = [] :=
  Every.call.mpr fun _ _ _ => rfl

theorem embedBatches_answers (llm : OpenAiClient) (requestId : Str) (tenantId : Uuid)
    (jobId : Option Uuid) (batches : List (List Str)) :
    Every exec env (embedBatches llm (Usage.sink requestId tenantId .ingestion jobId) batches) l s
      fun trace res _ _ => (∀ entry ∈ trace, Permuted entry) → ∀ vectors, res = .ok vectors →
        (calls trace).map Prod.fst = batches ∧
          ∃ blocks, vectors = blocks.flatten ∧ List.Forall₂ Answers (calls trace) blocks := by
  induction batches generalizing l s with
  | nil =>
    intro _ vectors hres
    cases hres
    exact ⟨rfl, [], rfl, .nil⟩
  | cons batch rest ih =>
    refine Every.bind.mpr ((embed_answers llm batch).mono fun trace₁ res l₁ t₁ hcall => ?_)
    cases res with
    | error e => exact fun _ vectors h => by cases h
    | ok reply =>
      refine Every.bind.mpr ((calls_of_sink requestId tenantId jobId reply.usage).mono ?_)
      intro trace₂ res l₂ t₂ hsink
      cases res with
      | error e => exact fun _ vectors h => by cases h
      | ok _ =>
        refine Every.bind.mpr (ih.mono fun trace₃ res l₃ t₃ hrest => ?_)
        cases res with
        | error e => exact fun _ vectors h => by cases h
        | ok vectors =>
          intro hpermuted _ hres
          cases hres
          obtain ⟨call, hone, hsent, hanswers⟩ :=
            hcall (fun entry h => hpermuted entry (by simp [h])) reply rfl
          obtain ⟨hsents, blocks, rfl, hblocks⟩ :=
            hrest (fun entry h => hpermuted entry (by simp [h])) vectors rfl
          have hcalls : calls (trace₁ ++ (trace₂ ++ (trace₃ ++ []))) = call :: calls trace₃ := by
            simp [hone, hsink]
          rw [hcalls, List.map_cons, hsent, hsents]
          exact ⟨rfl, reply.vectors :: blocks, rfl, .cons hanswers hblocks⟩

end Runs

/-! ## Rows -/

/-- The rows of a document for a list of chunks. -/
structure EmbeddedRows (trace : List Entry) (chunks : List Chunk) (rows : List ChunkRow) : Prop where
  calls : (calls trace).length = (chunks.length + EMBED_BATCH - 1) / EMBED_BATCH
  length : rows.length = chunks.length
  row : ∀ i row, rows[i]? = some row → row.ordinal = i ∧ ∃ chunk vector, chunks[i]? = some chunk ∧
    row.text = chunk.text ∧ row.charStart = chunk.charStart ∧ row.charEnd = chunk.charEnd ∧
      row.embedding = some vector ∧ VectorFor trace i chunk.text vector

/-- In an open session, and as long as the document is there, the write goes through, and leaves the
document the rows of the chunks. -/
def WritesRows (trace : List Entry) (chunks : List Chunk) (embeddings : List Embedding) : Prop :=
  ∀ tenantId documentId text pageMap a l s, l.failed = false → a.refusal = none →
    (s.document? documentId).isSome →
      ∃ t, exec (.replaceTextAndChunks tenantId documentId text pageMap chunks embeddings) a l s =
        (.ok (), l, t) ∧ EmbeddedRows trace chunks (chunksOf documentId t)

theorem chunkRows_getElem? {tenantId documentId : Uuid} {chunks : List Chunk}
    {embeddings : List Embedding} {ids : List Uuid} {i : Nat} {row : ChunkRow}
    (h : (Store.chunkRows tenantId documentId chunks embeddings ids)[i]? = some row) :
    ∃ chunk vector id, chunks[i]? = some chunk ∧ embeddings[i]? = some vector ∧
      row = ⟨id, tenantId, documentId, i, chunk.text, chunk.charStart, chunk.charEnd,
        some vector⟩ := by
  rw [Store.chunkRows, List.getElem?_map, Option.map_eq_some_iff] at h
  obtain ⟨⟨⟨⟨chunk, vector⟩, id⟩, ordinal⟩, hentry, rfl⟩ := h
  rw [List.getElem?_zipIdx, Option.map_eq_some_iff] at hentry
  obtain ⟨_, hzip, heq⟩ := hentry
  obtain ⟨rfl, rfl⟩ := Prod.mk.inj heq
  obtain ⟨hpair, -⟩ := List.getElem?_zip_eq_some.mp hzip
  obtain ⟨hchunk, hvector⟩ := List.getElem?_zip_eq_some.mp hpair
  rw [Nat.zero_add]
  exact ⟨chunk, vector, id, hchunk, hvector, rfl⟩

theorem length_chunkRows {tenantId documentId : Uuid} {chunks : List Chunk}
    {embeddings : List Embedding} {ids : List Uuid} (hlength : chunks.length = embeddings.length)
    (hids : ids.length = chunks.length) :
    (Store.chunkRows tenantId documentId chunks embeddings ids).length = chunks.length := by
  rw [Store.chunkRows, List.length_map, List.length_zipIdx, List.length_zip, List.length_zip]
  omega

theorem writesRows_of_embeddedAs {trace : List Entry} {chunks : List Chunk}
    {embeddings : List Embedding} (h : EmbeddedAs trace (chunks.map Chunk.text) embeddings) :
    WritesRows trace chunks embeddings := by
  intro tenantId documentId text pageMap a l s hopen hanswered hdocument
  have hlength : chunks.length = embeddings.length := by
    rw [h.length, List.length_map]
  have hids := length_drawMany chunks.length s.issued a.ids
  have hthere : (s.document? documentId).isNone = false := by
    rwa [← Option.not_isSome, Bool.not_eq_false']
  have hwrite : ∃ t, s.replaceTextAndChunks tenantId documentId text pageMap chunks embeddings a.ids =
      .ok ((), t) := by
    simp [Store.replaceTextAndChunks, Store.replaceText, Store.replaceWithEmbeddings, hthere, hlength,
      bind, Except.bind, pure, Except.pure]
  obtain ⟨t, hwrite⟩ := hwrite
  obtain ⟨-, -, rfl⟩ := Store.replaceTextAndChunks_eq_ok hwrite
  refine ⟨_, by simp only [exec, statement, hopen, hanswered, hwrite]; rfl, ?_⟩
  have hrows : ∀ row ∈ Store.chunkRows tenantId documentId chunks embeddings
      (drawMany chunks.length s.issued a.ids), row.documentId = documentId := by
    intro row hrow
    obtain ⟨entry, -, rfl⟩ := List.mem_map.mp hrow
    rfl
  rw [chunksOf, filter_replace ChunkRow.documentId documentId documentId _ _ hrows, if_pos rfl]
  refine ⟨by simpa using h.calls, length_chunkRows hlength hids, fun i row hrow => ?_⟩
  obtain ⟨chunk, vector, id, hchunk, hvector, rfl⟩ := chunkRows_getElem? hrow
  obtain ⟨_, htext, hfor⟩ := h.vector i vector hvector
  rw [List.getElem?_map, hchunk] at htext
  cases htext
  exact ⟨rfl, chunk, vector, hchunk, rfl, rfl, rfl, rfl, hfor⟩

/-! ## The handler -/

/-- The chunks and vectors of a replacement. -/
def writeOf : Entry → Option (List Chunk × List Embedding)
  | ⟨.replaceTextAndChunks _ _ _ _ chunks embeddings, _, _⟩ => some (chunks, embeddings)
  | _ => none

/-- What a run has written, or tried to. -/
def written (trace : List Entry) : List (List Chunk × List Embedding) := trace.filterMap writeOf

@[simp] theorem written_append (trace more : List Entry) :
    written (trace ++ more) = written trace ++ written more :=
  List.filterMap_append

/-- Operations that neither read the stored bytes nor write text and chunks. -/
def Op.unread : Op → Bool
  | .readFile .. | .replaceTextAndChunks .. => false
  | _ => true

/-- Of these, the ones that neither find the document nor call the model. -/
def Op.aside (o : Op) : Bool :=
  Op.unread o && match o with
    | .findDocument .. | .createEmbeddings .. => false
    | _ => true

def Op.finds : Op → Bool
  | .findDocument .. => true
  | _ => false

/-- The document a run goes on with. -/
def Found (trace : List Entry) (document : DocumentRow) : Prop :=
  ∃ tenantId documentId a, ⟨.findDocument tenantId documentId, a, .ok (some document)⟩ ∈ trace

variable [Platform]

/-- The run read the stored bytes of the document, and they parsed. -/
def ReadAs (document : DocumentRow) (trace : List Entry) (parsed : ParsedDocument) : Prop :=
  ∃ a content, ⟨.readFile document.tenantId document.sha256, a, .ok content⟩ ∈ trace ∧
    Parsing.parse document.mimeType content = .ok parsed

/-- The run writes the chunks of the document it found, with their vectors, and does so unless the
document is not read or a call or a usage row fails. -/
structure Ingests (trace : List Entry) : Prop where
  written : ∀ write ∈ written trace, ∃ document parsed, Found trace document ∧
    ReadAs document trace parsed ∧ write.1 = chunkDocument parsed ∧
      WritesRows trace write.1 write.2
  writes : ∀ document parsed, Found trace document → ReadAs document trace parsed →
    (∀ entry ∈ trace, Embeds entry) → ∃ write ∈ Ingestion.written trace,
      write.1 = chunkDocument parsed

/-- The same of a run on a document that is found already. -/
structure IngestsAs (document : DocumentRow) (trace : List Entry) : Prop where
  written : ∀ write ∈ written trace, ∃ parsed, ReadAs document trace parsed ∧
    write.1 = chunkDocument parsed ∧ WritesRows trace write.1 write.2
  writes : ∀ parsed, ReadAs document trace parsed → (∀ entry ∈ trace, Embeds entry) →
    ∃ write ∈ Ingestion.written trace, write.1 = chunkDocument parsed

section Traces

variable {trace more : List Entry} {document : DocumentRow}

omit [Platform] in
theorem unread_of_aside (h : ∀ entry ∈ trace, Op.aside entry.op) :
    ∀ entry ∈ trace, Op.unread entry.op := fun entry hentry =>
  (Bool.and_eq_true_iff.mp (h entry hentry)).1

omit [Platform] in
theorem calls_of_aside (h : ∀ entry ∈ trace, Op.aside entry.op) : calls trace = [] := by
  refine List.filterMap_eq_nil_iff.mpr fun entry hentry => ?_
  obtain ⟨o, a, result⟩ := entry
  have haside := h _ hentry
  cases o <;> first | rfl | cases haside

omit [Platform] in
theorem written_of_unread (h : ∀ entry ∈ trace, Op.unread entry.op) : written trace = [] := by
  refine List.filterMap_eq_nil_iff.mpr fun entry hentry => ?_
  obtain ⟨o, a, result⟩ := entry
  have hunread := h _ hentry
  cases o <;> first | rfl | cases hunread

theorem not_readAs_of_unread (h : ∀ entry ∈ trace, Op.unread entry.op) {parsed : ParsedDocument} :
    ¬ ReadAs document trace parsed := by
  rintro ⟨a, content, hentry, -⟩
  cases h _ hentry

omit [Platform] in
theorem writesRows_congr {other : List Entry} (h : calls other = calls trace) {chunks : List Chunk}
    {embeddings : List Embedding} (hwrites : WritesRows trace chunks embeddings) :
    WritesRows other chunks embeddings := by
  intro tenantId documentId text pageMap a l s hopen hanswered hdocument
  obtain ⟨t, heq, hcalls, hlength, hrow⟩ :=
    hwrites tenantId documentId text pageMap a l s hopen hanswered hdocument
  refine ⟨t, heq, by rwa [h], hlength, fun i row hi => ?_⟩
  obtain ⟨hordinal, chunk, vector, hchunk, htext, hstart, hend, hvector, hfor⟩ := hrow i row hi
  refine ⟨hordinal, chunk, vector, hchunk, htext, hstart, hend, hvector, ?_⟩
  rwa [VectorFor, h]

omit [Platform] in
theorem found_append_iff (h : ∀ entry ∈ trace, Op.aside entry.op) :
    Found (trace ++ more) document ↔ Found more document := by
  constructor
  · rintro ⟨tenantId, documentId, a, hentry⟩
    rcases List.mem_append.mp hentry with hentry | hentry
    · cases h _ hentry
    · exact ⟨tenantId, documentId, a, hentry⟩
  · rintro ⟨tenantId, documentId, a, hentry⟩
    exact ⟨tenantId, documentId, a, List.mem_append_right _ hentry⟩

theorem readAs_append_iff (h : ∀ entry ∈ trace, Op.aside entry.op) {parsed : ParsedDocument} :
    ReadAs document (trace ++ more) parsed ↔ ReadAs document more parsed := by
  constructor
  · rintro ⟨a, content, hentry, hparse⟩
    rcases List.mem_append.mp hentry with hentry | hentry
    · cases h _ hentry
    · exact ⟨a, content, hentry, hparse⟩
  · rintro ⟨a, content, hentry, hparse⟩
    exact ⟨a, content, List.mem_append_right _ hentry, hparse⟩

/-- A run that comes to a document after operations of no account. -/
theorem Ingests.after (h : ∀ entry ∈ trace, Op.aside entry.op) (hmore : Ingests more) :
    Ingests (trace ++ more) := by
  have hcalls : calls (trace ++ more) = calls more := by rw [calls_append, calls_of_aside h,
    List.nil_append]
  have hwritten : Ingestion.written (trace ++ more) = Ingestion.written more := by
    rw [written_append, written_of_unread (unread_of_aside h), List.nil_append]
  constructor
  · intro write hwrite
    rw [hwritten] at hwrite
    obtain ⟨document, parsed, hfound, hread, hchunks, hwrites⟩ := hmore.written write hwrite
    exact ⟨document, parsed, (found_append_iff h).mpr hfound, (readAs_append_iff h).mpr hread,
      hchunks, writesRows_congr hcalls hwrites⟩
  · intro document parsed hfound hread hembeds
    rw [hwritten]
    exact hmore.writes document parsed ((found_append_iff h).mp hfound)
      ((readAs_append_iff h).mp hread) fun entry hentry =>
        hembeds entry (List.mem_append_right _ hentry)

/-- A run that neither reads nor writes. -/
theorem Ingests.of_unread (h : ∀ entry ∈ trace, Op.unread entry.op) : Ingests trace := by
  constructor
  · rw [written_of_unread h]
    exact fun _ hwrite => absurd hwrite List.not_mem_nil
  · exact fun document parsed _ hread => absurd hread (not_readAs_of_unread h)

/-- The query that finds the document, and a run on it. -/
theorem Ingests.found {tenantId documentId : Uuid} {a : Answer}
    (hnone : ∀ document, ¬ Found trace document) (h : IngestsAs document trace) :
    Ingests (⟨.findDocument tenantId documentId, a, .ok (some document)⟩ :: trace) := by
  have hread : ∀ (other : DocumentRow) parsed,
      ReadAs other (⟨.findDocument tenantId documentId, a, .ok (some document)⟩ :: trace) parsed ↔
        ReadAs other trace parsed := by
    intro other parsed
    constructor
    · rintro ⟨b, content, hentry, hparse⟩
      rcases List.mem_cons.mp hentry with heq | hentry
      · cases congrArg Lib.Entry.op heq
      · exact ⟨b, content, hentry, hparse⟩
    · rintro ⟨b, content, hentry, hparse⟩
      exact ⟨b, content, List.mem_cons_of_mem _ hentry, hparse⟩
  constructor
  · intro write hwrite
    obtain ⟨parsed, hreads, hchunks, hwrites⟩ := h.written write hwrite
    exact ⟨document, parsed, ⟨tenantId, documentId, a, List.mem_cons_self⟩,
      (hread document parsed).mpr hreads, hchunks, writesRows_congr (List.filterMap_cons_none rfl) hwrites⟩
  · rintro other parsed ⟨tenantId', documentId', b, hentry⟩ hreads hembeds
    rcases List.mem_cons.mp hentry with heq | hentry
    · cases heq
      exact h.writes parsed ((hread document parsed).mp hreads) fun entry hentry =>
        hembeds entry (List.mem_cons_of_mem _ hentry)
    · exact absurd ⟨tenantId', documentId', b, hentry⟩ (hnone other)

end Traces

section Handler

variable {env : Store → Store → Prop} {l : Session} {s : Store}

omit [Platform] in
theorem embedBatches_unread (llm : OpenAiClient) (requestId : Str) (tenantId : Uuid)
    (jobId : Option Uuid) (batches : List (List Str)) :
    (embedBatches llm (Usage.sink requestId tenantId .ingestion jobId) batches).Performs
      fun o => Op.unread o = true := by
  refine embedBatches_performs (fun _ => ?_) (fun _ => sink_performs ?_) batches <;> rfl

/-- A run of `_ingest` reads the document and embeds its chunks; when it raises, it did not read it,
or a call or a usage row failed. -/
theorem ingest_embeds (llm : OpenAiClient) (document : DocumentRow) (requestId : Str)
    (tenantId : Uuid) (jobId : Option Uuid) :
    Every exec env (ingest llm document (Usage.sink requestId tenantId .ingestion jobId)) l s
      fun trace res _ _ => written trace = [] ∧
        match res with
        | .ok ingested => (∀ parsed, ReadAs document trace parsed →
            ingested.chunks = chunkDocument parsed) ∧ (∃ parsed, ReadAs document trace parsed) ∧
          ((∀ entry ∈ trace, Permuted entry) →
            EmbeddedAs trace (ingested.chunks.map Chunk.text) ingested.embeddings)
        | .error _ => ∀ parsed, ReadAs document trace parsed → ∃ entry ∈ trace, ¬ Embeds entry := by
  refine Every.bind.mpr (Every.call.mpr fun moved a _ => ?_)
  cases hread : (exec (.readFile document.tenantId document.sha256) a l moved).1 with
  | error e =>
    refine ⟨rfl, ?_⟩
    rintro parsed ⟨b, content, hentry, -⟩
    cases List.mem_singleton.mp hentry
  | ok content =>
    dsimp only
    -- what is read of the document is what this entry read
    have hone : ∀ {more : List Entry}, (∀ entry ∈ more, Op.unread entry.op) → ∀ parsed,
        ReadAs document (⟨.readFile document.tenantId document.sha256, a, .ok content⟩ :: more)
          parsed → Parsing.parse document.mimeType content = .ok parsed := by
      rintro more hmore parsed ⟨b, other, hentry, hparse⟩
      rcases List.mem_cons.mp hentry with heq | hentry
      · cases heq
        exact hparse
      · cases hmore _ hentry
    cases hparse : Parsing.parse document.mimeType content with
    | error e =>
      refine ⟨rfl, fun parsed hreads => ?_⟩
      cases (hone (fun _ h => absurd h List.not_mem_nil) parsed hreads).symm.trans hparse
    | ok parsed =>
      refine Every.bind.mpr ?_
      change Every exec env ((embedBatches _ _ _).bind _) _ _ _
      refine Every.bind.mpr (((embedBatches_answers llm requestId tenantId jobId _).and
        ((embedBatches_counts llm requestId tenantId jobId _).and (Every.trace_of_performs
          (embedBatches_unread llm requestId tenantId jobId _)))).mono ?_)
      rintro trace res l' t ⟨hanswers, hcounts, hunread⟩
      have hwritten := written_of_unread hunread
      have hreads := hone hunread
      cases res with
      | error e =>
        obtain ⟨entry, hentry, hfailed⟩ := hcounts
        exact ⟨hwritten, fun _ _ => ⟨entry, List.mem_cons_of_mem _ hentry, hfailed⟩⟩
      | ok vectors =>
        simp only [Lib.Prog.pure_eq, Every, List.append_nil, List.nil_append, List.singleton_append]
        refine ⟨hwritten, ?_, ⟨parsed, a, content, List.mem_cons_self, hparse⟩, fun hpermuted => ?_⟩
        · intro other hother
          cases (hreads other hother).symm.trans hparse
          rfl
        · obtain ⟨hsent, blocks, rfl, hblocks⟩ :=
            hanswers (fun entry hentry => hpermuted entry (List.mem_cons_of_mem _ hentry)) vectors rfl
          exact embeddedAs_congr (List.filterMap_cons_none rfl) (embeddedAs_of_answers hsent hblocks)

omit [Platform] in
theorem abandon_aside (job : JobRow) (document : DocumentRow) (e : Exn) :
    (abandon job document e).Performs fun o => Op.aside o = true :=
  .bind (markFailed_performs rfl rfl) fun _ => .bind (setStatus_performs rfl rfl) fun _ => .ret _

omit [Platform] in
/-- The replacement is the first of the writes, and nothing after it counts. -/
theorem persist_writes (job : JobRow) (document : DocumentRow) (ingested : Ingested) :
    Every exec env (persist job document ingested) l s fun trace _ _ _ =>
      ∃ a result rest, trace = ⟨.replaceTextAndChunks job.tenantId document.id ingested.parsed.text
        ingested.parsed.pageMap ingested.chunks ingested.embeddings, a, result⟩ :: rest ∧
          ∀ entry ∈ rest, Op.aside entry.op := by
  refine Every.bind.mpr (Every.call.mpr fun moved a _ => ?_)
  cases hwrite : (exec (.replaceTextAndChunks job.tenantId document.id ingested.parsed.text
      ingested.parsed.pageMap ingested.chunks ingested.embeddings) a l moved).1 with
  | error e => exact ⟨a, _, [], rfl, fun _ h => absurd h List.not_mem_nil⟩
  | ok r =>
    have haside : (markCompleted .ingestion job
        (.obj [("chunk_count".toList, .num ingested.chunks.length)]) >>= fun _ =>
          setStatus document .parsed >>= fun _ => (return true)).Performs
        fun o => Op.aside o = true :=
      .bind (markCompleted_performs rfl rfl) fun _ => .bind (setStatus_performs rfl rfl) fun _ =>
        .ret _
    exact (Every.trace_of_performs haside).mono fun rest _ _ _ h => ⟨a, _, rest, rfl, h⟩

theorem runClaimed_found_ingests (llm : OpenAiClient) (job : JobRow) (document : DocumentRow) :
    Every exec env ((ingest llm document
        (Usage.sink [] job.tenantId .ingestion (some job.id))).attempt.bind fun attempt =>
          match attempt with
          | .error e => abandon job document e
          | .ok ingested => persist job document ingested) l s fun trace _ _ _ =>
      (∀ entry ∈ trace, Permuted entry) → IngestsAs document trace := by
  refine Every.attempt_bind.mpr ((ingest_embeds llm document [] job.tenantId (some job.id)).mono ?_)
  rintro trace res l' t ⟨hwritten, hingested⟩
  cases res with
  | error e =>
    refine (Every.trace_of_performs (abandon_aside job document e)).mono ?_
    intro more _ _ _ haside _
    have hnone : Ingestion.written (trace ++ more) = [] := by
      rw [written_append, hwritten, written_of_unread (unread_of_aside haside), List.append_nil]
    refine ⟨fun write hwrite => absurd hwrite (hnone ▸ List.not_mem_nil), ?_⟩
    rintro parsed ⟨a, content, hentry, hparse⟩ hembeds
    rcases List.mem_append.mp hentry with hentry | hentry
    · obtain ⟨entry, hfailed, hnot⟩ := hingested parsed ⟨a, content, hentry, hparse⟩
      exact absurd (hembeds entry (List.mem_append_left _ hfailed)) hnot
    · cases haside _ hentry
  | ok ingested =>
    obtain ⟨honly, ⟨parsed, a, content, hread, hparse⟩, hembedded⟩ := hingested
    refine (persist_writes job document ingested).mono ?_
    rintro more _ _ _ ⟨b, result, rest, rfl, haside⟩ hpermuted
    have hwrite : Ingestion.written (trace ++ ⟨.replaceTextAndChunks job.tenantId document.id
        ingested.parsed.text ingested.parsed.pageMap ingested.chunks ingested.embeddings, b, result⟩ ::
          rest) = [(ingested.chunks, ingested.embeddings)] := by
      rw [written_append, hwritten, List.nil_append]
      exact congrArg (_ :: ·) (written_of_unread (unread_of_aside haside))
    have hcalls : calls (trace ++ ⟨.replaceTextAndChunks job.tenantId document.id
        ingested.parsed.text ingested.parsed.pageMap ingested.chunks ingested.embeddings, b, result⟩ ::
          rest) = calls trace := by
      rw [calls_append]
      exact (congrArg (calls trace ++ ·) (calls_of_aside haside)).trans (List.append_nil _)
    have hchunks := honly parsed ⟨a, content, hread, hparse⟩
    constructor
    · rw [hwrite]
      intro write hmem
      cases List.mem_singleton.mp hmem
      refine ⟨parsed, ⟨a, content, List.mem_append_left _ hread, hparse⟩, hchunks,
        writesRows_congr hcalls (writesRows_of_embeddedAs (hembedded fun entry hentry => ?_))⟩
      exact hpermuted entry (List.mem_append_left _ hentry)
    · rintro other ⟨c, content', hentry, hparse'⟩ _
      refine ⟨_, hwrite ▸ List.mem_singleton_self _, honly other ?_⟩
      rcases List.mem_append.mp hentry with hentry | hentry
      · exact ⟨c, content', hentry, hparse'⟩
      · rcases List.mem_cons.mp hentry with heq | hentry
        · cases congrArg Lib.Entry.op heq
        · cases haside _ hentry

/-- No other document is looked up. -/
theorem runClaimed_found_unfound (llm : OpenAiClient) (job : JobRow) (document : DocumentRow) :
    ((ingest llm document (Usage.sink [] job.tenantId .ingestion (some job.id))).attempt.bind
      fun attempt =>
        match attempt with
        | .error e => abandon job document e
        | .ok ingested => persist job document ingested).Performs fun o => Op.finds o = false := by
  have hembed : ∀ batches, (embedBatches llm (Usage.sink [] job.tenantId .ingestion (some job.id))
      batches).Performs fun o => Op.finds o = false := by
    refine embedBatches_performs (fun _ => ?_) fun _ => sink_performs ?_ <;> rfl
  refine .bind (.attempt (.bind (.call rfl) fun content => .bind (.ofResult _) fun parsed =>
    .bind (hembed _) fun _ => .ret _)) fun attempt => ?_
  cases attempt with
  | error e =>
    exact .bind (markFailed_performs rfl rfl) fun _ => .bind (setStatus_performs rfl rfl) fun _ =>
      .ret _
  | ok ingested =>
    exact .bind (.call rfl) fun _ => .bind (markCompleted_performs rfl rfl) fun _ =>
      .bind (setStatus_performs rfl rfl) fun _ => .ret _

theorem runClaimed_ingests (llm : OpenAiClient) (job : JobRow) :
    Every exec env (runClaimed llm job) l s fun trace _ _ _ =>
      (∀ entry ∈ trace, Permuted entry) → Ingests trace := by
  unfold runClaimed
  split
  · refine (Every.trace_of_performs (P := fun o => Op.unread o = true) ?_).mono
      fun _ _ _ _ h _ => .of_unread h
    refine .bind (.call rfl) fun found => ?_
    cases found with
    | none => exact .ret _
    | some document => exact .bind (setStatus_performs rfl rfl) fun _ => .ret _
  · refine Every.bind.mpr (Every.call.mpr fun moved a _ => ?_)
    cases hfound : (exec (.findDocument job.tenantId job.documentId) a l moved).1 with
    | error e =>
      refine fun _ => .of_unread fun entry hentry => ?_
      cases List.mem_singleton.mp hentry
      rfl
    | ok found =>
      cases found with
      | none =>
        have haside : (markFailed .ingestion job ("document ".toList ++ Uuid.str job.documentId ++
            " vanished after enqueue".toList) >>= fun _ => (return true)).Performs
              fun o => Op.unread o = true :=
          .bind (markFailed_performs rfl rfl) fun _ => .ret _
        refine (Every.trace_of_performs haside).mono fun more _ _ _ h _ => .of_unread ?_
        intro entry hentry
        rcases List.mem_append.mp hentry with hentry | hentry
        · cases List.mem_singleton.mp hentry
          rfl
        · exact h entry hentry
      | some document =>
        refine ((runClaimed_found_ingests llm job document).and (Every.trace_of_performs
          (runClaimed_found_unfound llm job document))).mono ?_
        rintro more _ _ _ ⟨hingests, hunfound⟩ hpermuted
        refine .found ?_ (hingests fun entry hentry => hpermuted entry (List.mem_cons_of_mem _ hentry))
        rintro other ⟨tenantId, documentId, b, hentry⟩
        cases hunfound _ hentry

theorem runNextIngestionJob_ingests (llm : OpenAiClient) :
    Every exec env (runNextIngestionJob llm) l s fun trace _ _ _ =>
      (∀ entry ∈ trace, Permuted entry) → Ingests trace := by
  refine Every.bind.mpr ((Every.trace_of_performs
    (claimNextQueued_performs (P := fun o => Op.aside o = true) rfl fun _ => rfl)).mono ?_)
  intro trace res l' t haside
  cases res with
  | error e => exact fun _ => .of_unread (unread_of_aside haside)
  | ok claimed =>
    cases claimed with
    | none => exact fun _ => .of_unread (by simpa using unread_of_aside haside)
    | some job =>
      refine (runClaimed_ingests llm job).mono fun more _ _ _ hmore hpermuted => ?_
      exact .after haside (hmore fun entry hentry =>
        hpermuted entry (List.mem_append_right _ hentry))

end Handler

/-- For any list of chunks: when each reply has one item for each text, indexed in any order, the run
makes as many calls as there are batches, and the rows it writes carry, each at its place, the chunk's
text and span and the vector the endpoint computed for that text. The handler writes in this way, and
writes nothing else. -/
theorem embedding_is_aligned (llm : OpenAiClient) (env : Store → Store → Prop) (l : Session)
    (s : Store) :
    (∀ (requestId : Str) (tenantId : Uuid) (jobId : Option Uuid) (chunks : List Chunk) trace res l' t,
      Runs exec env (embedChunkTexts llm (chunks.map Chunk.text)
        (Usage.sink requestId tenantId .ingestion jobId)) l s trace res l' t →
      (∀ entry ∈ trace, Permuted entry) →
        (∀ vectors, res = .ok vectors →
          EmbeddedAs trace (chunks.map Chunk.text) vectors ∧ WritesRows trace chunks vectors) ∧
        ((∀ entry ∈ trace, Embeds entry) → ∃ vectors, res = .ok vectors)) ∧
    ∀ trace res l' t, Runs exec env (runNextIngestionJob llm) l s trace res l' t →
      (∀ entry ∈ trace, Permuted entry) → Ingests trace := by
  constructor
  · intro requestId tenantId jobId chunks trace res l' t hrun hpermuted
    have hanswers := (Lib.every_iff_runs _ _ _ _).mp
      (embedBatches_answers llm requestId tenantId jobId (batches (chunks.map Chunk.text)))
      _ _ _ _ hrun hpermuted
    have hcounts := (Lib.every_iff_runs _ _ _ _).mp
      (embedBatches_counts llm requestId tenantId jobId (batches (chunks.map Chunk.text)))
      _ _ _ _ hrun
    constructor
    · intro vectors hres
      obtain ⟨hsent, blocks, rfl, hblocks⟩ := hanswers vectors hres
      have hembedded := embeddedAs_of_answers hsent hblocks
      exact ⟨hembedded, writesRows_of_embeddedAs hembedded⟩
    · intro hembeds
      cases res with
      | ok vectors => exact ⟨vectors, rfl⟩
      | error e =>
        obtain ⟨entry, hentry, hfailed⟩ := hcounts
        exact absurd (hembeds entry hentry) hfailed
  · exact fun trace res l' t hrun => (Lib.every_iff_runs _ _ _ _).mp
      (runNextIngestionJob_ingests llm) _ _ _ _ hrun

/-- Two chunks. -/
def twoChunks : List Chunk := [⟨"first".toList, 0, 5⟩, ⟨"second".toList, 5, 11⟩]

/-- A reply that lists the second item first. -/
def backToFront : List Answer := [{ embed := .replied none 0 [(1, [2]), (0, [1])] }, {}]

omit [Platform] in
theorem embedding_is_aligned_two :
    (∃ trace, EmbeddedAs trace (twoChunks.map Chunk.text) [[1], [2]] ∧
      WritesRows trace twoChunks [[1], [2]]) ∧
      ∃ trace, @Ingests onePdf trace ∧ (written trace).length = 1 := by
  let := onePdf
  constructor
  · have hend : ((replay exec (embedChunkTexts smallEmbeddings (twoChunks.map Chunk.text)
        (Usage.sink [] 1 .ingestion none)) ⟨false⟩ (.empty 0) backToFront).map fun r =>
          (r.1.all fun entry => decide (Permuted entry), r.2.1.toOption)) =
            some (true, some [[1], [2]]) := by
      decide +kernel
    obtain ⟨⟨trace, res, l', t⟩, hreplay, heq⟩ := Option.map_eq_some_iff.mp hend
    obtain ⟨hpermuted, hres⟩ := Prod.mk.inj heq
    cases res with
    | error e => cases hres
    | ok vectors =>
      cases hres
      exact ⟨trace, ((embedding_is_aligned smallEmbeddings Eq _ _).1 [] 1 none twoChunks trace _ _ _
        (runs_of_replay (fun _ => rfl) hreplay) (by simpa using hpermuted)).1 _ rfl⟩
  · have hend : ((replay exec (runNextIngestionJob smallEmbeddings) ⟨false⟩ oneQueued
        ({} :: oneVector)).map fun r =>
          (r.1.all fun entry => decide (Permuted entry), (written r.1).length)) = some (true, 1) := by
      decide +kernel
    obtain ⟨⟨trace, res, l', t⟩, hreplay, heq⟩ := Option.map_eq_some_iff.mp hend
    obtain ⟨hpermuted, hwritten⟩ := Prod.mk.inj heq
    exact ⟨trace, (embedding_is_aligned smallEmbeddings Eq _ _).2 trace res l' t
      (runs_of_replay (fun _ => rfl) hreplay) (by simpa using hpermuted), hwritten⟩

end ContractIntel.Ingestion
