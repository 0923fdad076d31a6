import ContractIntel.Laws.Api.Authority
import ContractIntel.Laws.Services.Derivation
import ContractIntel.Laws.Services.Fusion

/-!
# What a client can rely on

A deployment at work: uploads, deletes, enqueues, resolutions and searches next to any number of worker
processes, their operations in any order, with crashes anywhere. What is stored of a document comes from
bytes that were uploaded for its tenant and have its digest, and what a search quotes can be checked
against such bytes.

## What is proved

- `traced`: every text, chunk, result and review item of a reached store.
- `traced_now`: what is stored of a document goes with the text that is stored of it now.
- `search_quotes`: every hit of every search that ends.
-/

namespace ContractIntel.Api

open Auth (Identity)
open Chunking (Chunk chunkDocument)
open Ingestion (Aligned chunksOf)
open Lib (Safe run)
open Parsing (ParsedDocument)
open Search (SearchHit hitOf)

variable {Key : Type} [Identity Key] [Ucd] [Platform] {l : Session} {s : Store} {settings : Settings}
  {Saved : Uuid → Parsing.Bytes → Prop} {Sent : Incoming Key → Prop}

/-! ## Members -/

theorem serve_derived {incoming : Incoming Key} (hsent : Sent incoming)
    (hsaved : ∀ tenantId content, Uploaded settings Sent tenantId content → Saved tenantId content) :
    Safe (provenance Saved).discipline (serve settings incoming) l s fun _ _ _ => True := by
  obtain ⟨e, hrefused, -⟩ | ⟨principal, action, hresolved, hprincipal, hrole, haction⟩ :=
    resolve_cases settings incoming
  · rw [serve_of_error hrefused]
    trivial
  · rw [serve_of_ok hresolved]
    refine Safe.attempt_bind.mpr (Safe.mono (Q := fun _ _ _ => True) ?_ fun _ _ _ _ => trivial)
    cases action with
    | call work =>
      have hacts : Acts settings incoming principal work :=
        ⟨bears_of_getPrincipal hprincipal, (of_action haction).1 ▸ hrole, haction⟩
      refine bind_safe (Call.program_derived fun content huploads => ?_) fun _ _ _ _ => trivial
      exact hsaved _ _ ⟨work, ⟨incoming, principal, hsent, hacts, rfl⟩, huploads⟩
    | search requestId query limit =>
      refine free_kept (.bind ((search_performs _ _ _ _).mono fun o _ hasks => ?_) fun _ => .ret _)
      cases o <;> first | rfl | cases hasks

theorem Member.derived (worker : Worker.Settings) (member : Member Key)
    (hsent : ∀ incoming, member = .request incoming → Sent incoming)
    (hsaved : ∀ tenantId content, Uploaded settings Sent tenantId content → Saved tenantId content) :
    Safe (provenance Saved).discipline (member.program settings worker) l s fun _ _ _ => True := by
  cases member with
  | request incoming =>
    exact bind_safe (serve_derived (hsent incoming rfl) hsaved) fun _ _ _ _ => trivial
  | worker rounds turn =>
    exact loop_kept (fun _ _ => free_kept (.call rfl)) (runQueue_derived worker) rounds turn l s

/-- In every run of a deployment, what is stored is derived from what was saved before and what is
uploaded. -/
theorem derived_of_run {ι : Type} [DecidableEq ι] {Before : Uuid → Parsing.Bytes → Prop}
    {worker : Worker.Settings} {members : ι → Option (Member Key)} {turns : List (Turn ι)}
    {c : System ι} (hderived : Derived Before s)
    (hrun : run System.step (deployment settings worker s members) turns = some c) :
    Derived (SavedBy Before settings fun incoming => ∃ i, members i = some (.request incoming))
      c.store := by
  let Saved := SavedBy Before settings fun incoming => ∃ i, members i = some (.request incoming)
  have hstart : (provenance Saved).discipline.Holds (deployment settings worker s members) := by
    refine ⟨hderived.mono fun _ _ => .inl, fun i l p hi => ?_⟩
    obtain ⟨program, hprogram, heq⟩ := Option.map_eq_some_iff.mp hi
    obtain ⟨member, hmember, rfl⟩ := Option.map_eq_some_iff.mp hprogram
    cases heq
    exact member.derived worker (fun incoming h => ⟨i, h ▸ hmember⟩) fun _ _ => .inr
  exact ((provenance Saved).holds_run hstart hrun).1

variable (Saved) in
/-- A document that is there parses so, and has a text. -/
def Origin (s : Store) (documentId : Uuid) (parsed : ParsedDocument) : Prop :=
  ∃ d ∈ s.documents, d.id = documentId ∧ ParseOf Saved d parsed ∧
    ∃ row ∈ s.texts, row.documentId = documentId

/-- Whatever the members of a deployment do, in whatever order: every text and chunk in the store is one
of a parse of bytes with its document's digest that were uploaded on the authority of a token of the
document's tenant, every extraction cites such a text, every report compares two of them, and every item
to be reviewed comes from one. -/
theorem traced {ι : Type} [DecidableEq ι] {Before : Uuid → Parsing.Bytes → Prop}
    {worker : Worker.Settings} {members : ι → Option (Member Key)} {turns : List (Turn ι)}
    {c : System ι} (hderived : Derived Before s)
    (hrun : run System.step (deployment settings worker s members) turns = some c) :
    Traced (Origin (SavedBy Before settings fun incoming => ∃ i, members i = some (.request incoming))
      c.store) c.store := by
  have hreached := derived_of_run hderived hrun
  refine hreached.traced.mono hreached.linked fun d hd parsed hreads => ?_
  obtain ⟨row, hrow⟩ := List.exists_mem_of_ne_nil _ (hreads.stored d hd rfl)
  obtain ⟨hmem, hdocument⟩ := List.mem_filter.mp hrow
  exact ⟨d, hd, rfl, hreads.rows d hd rfl, row, hmem, of_decide_eq_true hdocument⟩

/-- A platform on which one text is ever hashed. -/
@[reducible] def onePaymentText : Platform where
  pdfPages _ := .ok []
  docxParagraphs _ := .ok []
  decodeMessage _ := []
  sha256 content :=
    if content = [80, 97, 121, 46] then
      "7086b69b01110f91d65d9e99a1fae2fff2783ea95ac070aa87b5575eb06573fd".toList
    else []
  zipNames _ := .error .badZipFile
  validateExtraction _ := none

/-- Settings with a model. -/
def modelSettings : Settings := { oneSettings with openaiApiKey := "sk".toList }

def modelWorker : Worker.Settings :=
  ⟨⟨"gpt-4o-mini".toList, "text-embedding-3-small".toList⟩, 1 / 2, 1 / 2⟩

/-- An upload of a text, the request that it be ingested and a worker. -/
def oneIngestion : Fin 3 → Option (Member Unit)
  | 0 => some (.request { oneUpload with
      endpoint := .postDocuments (some "a.txt".toList) (some Parsing.TEXT_MIME) [[80, 97, 121, 46]] none })
  | 1 => some (.request { oneUpload with endpoint := .postDocumentIngestion (some 10) })
  | 2 => some (.worker 1 1)

/-- One after the other, to their ends. -/
def oneByOne : List (Turn (Fin 3)) :=
  [.act 0 {}, .act 0 {}, .act 0 { ids := [10] }, .act 0 {}, .act 0 {},
    .act 1 {}, .act 1 {}, .act 1 { ids := [20] }, .act 1 {}, .act 1 {},
    .act 2 {}, .act 2 {}, .act 2 {}, .act 2 {}, .act 2 {},
    .act 2 { embed := .replied none 0 [(0, [1])] }, .act 2 {}, .act 2 { ids := [30] }, .act 2 {},
    .act 2 {}, .act 2 {}, .act 2 {}]

omit [Identity Key] [Ucd] [Platform] in
theorem traced_ingestion : ∃ c, run System.step
    (@deployment Unit (Fin 3) oneToken Ucd.ascii onePaymentText modelSettings modelWorker (.empty 0)
      oneIngestion) oneByOne = some c ∧ c.store.texts.map TextRow.text = ["Pay.".toList] ∧
    @Traced Ucd.ascii (@Origin onePaymentText (@SavedBy Unit oneToken onePaymentText (fun _ _ => False)
      modelSettings fun incoming => ∃ i, oneIngestion i = some (.request incoming)) c.store)
      c.store := by
  have hruns : ((run System.step
      (@deployment Unit (Fin 3) oneToken Ucd.ascii onePaymentText modelSettings modelWorker (.empty 0)
        oneIngestion) oneByOne).map fun c => c.store.texts.map TextRow.text) =
        some ["Pay.".toList] := by decide +kernel
  obtain ⟨c, hc, htexts⟩ := Option.map_eq_some_iff.mp hruns
  exact ⟨c, hc, htexts, @traced Unit oneToken Ucd.ascii onePaymentText _ _ _ _ _ _ _ _ _
    (@Derived.empty onePaymentText _ Ucd.ascii 0) hc⟩

/-- The stored text of the document is that of the parse. -/
def Current (s : Store) (documentId : Uuid) (parsed : ParsedDocument) : Prop :=
  ∃ row ∈ s.texts, row.documentId = documentId ∧ row.text = parsed.text

/-- While no two contents that a tenant had saved have one digest, nothing that is stored goes stale, in
whatever order documents are ingested again, extracted and compared: an extraction cites the text that
is stored of its document now, a report compares the two that are, and the chunks are cut from it. -/
theorem traced_now {ι : Type} [DecidableEq ι] {Before : Uuid → Parsing.Bytes → Prop}
    {worker : Worker.Settings} {members : ι → Option (Member Key)} {turns : List (Turn ι)}
    {c : System ι} (hderived : Derived Before s)
    (hdigests : ∀ tenantId x y, SavedBy Before settings
      (fun incoming => ∃ i, members i = some (.request incoming)) tenantId x →
      SavedBy Before settings (fun incoming => ∃ i, members i = some (.request incoming)) tenantId y →
      Platform.sha256 x = Platform.sha256 y → x = y)
    (hrun : run System.step (deployment settings worker s members) turns = some c) :
    Traced (Current c.store) c.store := by
  have hreached := derived_of_run hderived hrun
  refine hreached.traced.mono hreached.linked fun d hd parsed hreads => ?_
  obtain ⟨hnone, -⟩ | ⟨parsed', row, hreads', htexts, htext, -⟩ := hreached.traced.rows d.id
  · exact absurd hnone (hreads.stored d hd rfl)
  · have hrow : row ∈ Ingestion.textsOf d.id c.store := htexts ▸ List.mem_singleton_self row
    obtain ⟨hmem, hdocument⟩ := List.mem_filter.mp hrow
    refine ⟨row, hmem, of_decide_eq_true hdocument, htext.trans ?_⟩
    -- both parses are of the one content with the document's digest
    obtain ⟨x, hx, hsavedx, hparsex⟩ := hreads.rows d hd rfl
    obtain ⟨y, hy, hsavedy, hparsey⟩ := hreads'.rows d hd rfl
    obtain rfl := hdigests d.tenantId x y hsavedx hsavedy (hx.trans hy.symm)
    rw [Except.ok.inj (hparsex.symm.trans hparsey)]

omit [Identity Key] [Ucd] [Platform] in
/-- The members upload one content. -/
theorem eq_of_uploaded {tenantId : Uuid} {content : Parsing.Bytes}
    (h : @SavedBy Unit oneToken onePaymentText (fun _ _ => False) modelSettings
      (fun incoming => ∃ i, oneIngestion i = some (.request incoming)) tenantId content) :
    content = [80, 97, 121, 46] := by
  let := oneToken
  let := onePaymentText
  have hparties : ∀ i : Fin 3, i = 0 ∨ i = 1 ∨ i = 2 := by decide
  obtain h | ⟨work, ⟨incoming, principal, ⟨i, hi⟩, hacts, -⟩, context, request, sha256, hwork, hcheck⟩ := h
  · exact h.elim
  · have haction := hacts.action
    rw [hwork] at haction
    obtain rfl | rfl | rfl := hparties i
    · cases hi
      cases haction
      have hread : (Documents.checkUpload ⟨0, some "a.txt".toList, some Parsing.TEXT_MIME,
          [[80, 97, 121, 46]], modelSettings.maxUploadMb * 1024 * 1024, none⟩).toOption.map Prod.snd =
          some [80, 97, 121, 46] := by decide +kernel
      have hsame := (congrArg (fun r => r.toOption.map Prod.snd) hcheck).symm.trans hread
      exact Option.some.inj hsame
    · cases hi
      cases haction
    · cases hi

omit [Identity Key] [Ucd] [Platform] in
theorem traced_now_ingestion : ∃ c, run System.step
    (@deployment Unit (Fin 3) oneToken Ucd.ascii onePaymentText modelSettings modelWorker (.empty 0)
      oneIngestion) oneByOne = some c ∧ c.store.texts.map TextRow.text = ["Pay.".toList] ∧
    @Traced Ucd.ascii (Current c.store) c.store := by
  have hruns : ((run System.step
      (@deployment Unit (Fin 3) oneToken Ucd.ascii onePaymentText modelSettings modelWorker (.empty 0)
        oneIngestion) oneByOne).map fun c => c.store.texts.map TextRow.text) =
        some ["Pay.".toList] := by decide +kernel
  obtain ⟨c, hc, htexts⟩ := Option.map_eq_some_iff.mp hruns
  exact ⟨c, hc, htexts, @traced_now Unit oneToken Ucd.ascii onePaymentText _ _ _ _ _ _ _ _ _
    (@Derived.empty onePaymentText _ Ucd.ascii 0)
    (fun _ _ _ hx hy _ => (eq_of_uploaded hx).trans (eq_of_uploaded hy).symm) hc⟩

/-! ## Searches -/

variable (Saved) in
/-- The hit quotes a document of the tenant: bytes that the tenant had saved and that have the digest
the hit names parse to a text that has the quote between its offsets, as the chunk of its ordinal. -/
def Quotes (tenantId : Uuid) (hit : SearchHit) : Prop :=
  ∃ mimeType content parsed, Platform.sha256 content = hit.documentSha256 ∧
    Saved tenantId content ∧ Parsing.parse mimeType content = .ok parsed ∧
    (chunkDocument parsed)[hit.ordinal]? = some ⟨hit.text, hit.charStart, hit.charEnd⟩ ∧
    hit.text = Str.slice parsed.text hit.charStart hit.charEnd

omit [Ucd] [Platform] [Identity Key] in
/-- A row's place among its document's chunks is its ordinal. -/
theorem chunk_of_aligned {parsed : ParsedDocument} {rows : List ChunkRow} (h : Aligned parsed rows)
    {row : ChunkRow} (hrow : row ∈ rows) :
    (chunkDocument parsed)[row.ordinal]? = some ⟨row.text, row.charStart, row.charEnd⟩ := by
  obtain ⟨i, hi⟩ := List.mem_iff_getElem?.mp hrow
  obtain ⟨hlt, -⟩ := List.getElem?_eq_some_iff.mp hi
  have hordinal : row.ordinal = i := by
    have hat := congrArg (·[i]?) h.ordinals
    simp only [List.getElem?_map, hi, Option.map_some, List.getElem?_range hlt] at hat
    exact Option.some.inj hat
  rw [← h.chunks, List.getElem?_map, hordinal, hi]
  rfl

theorem quotes_of_rankedRows {tenantId : Uuid} {documentId : Option Uuid} {limit : Nat}
    {ranking : List Uuid} (hderived : Derived Saved s) {row : ChunkRow × DocumentRow}
    (hrow : row ∈ s.rankedRows tenantId documentId limit ranking) (score : Rat) :
    Quotes Saved tenantId (hitOf row score) := by
  obtain ⟨id, -, hid⟩ := List.mem_filterMap.mp (List.mem_of_mem_take hrow)
  obtain ⟨chunk, hchunk, hid⟩ := Option.bind_eq_some_iff.mp hid
  obtain ⟨document, hdocument, hid⟩ := Option.bind_eq_some_iff.mp hid
  cases hid
  have hfound := List.mem_of_find?_eq_some hchunk
  have hmem : chunk ∈ chunksOf chunk.documentId s :=
    List.mem_filter.mpr ⟨hfound, decide_eq_true rfl⟩
  have hdocumentMem := List.mem_of_find?_eq_some hdocument
  have hkey := List.find?_some hdocument
  have htenant : document.tenantId = tenantId := by
    obtain ⟨d, hd, hid, howner⟩ := hderived.linked.chunks chunk hfound
    rw [hderived.linked.document_eq hdocumentMem hd ((of_decide_eq_true hkey).trans hid.symm), howner]
    have hscope := List.find?_some hchunk
    simp only [Bool.and_eq_true, decide_eq_true_eq] at hscope
    exact hscope.1.2
  obtain ⟨-, hnone⟩ | ⟨parsed, _, hreads, -, -, -, haligned⟩ :=
    hderived.traced.rows chunk.documentId
  · rw [hnone] at hmem
    cases hmem
  · obtain ⟨content, hdigest, hsaved, hparse⟩ :=
      hreads.rows document hdocumentMem (of_decide_eq_true hkey)
    exact ⟨document.mimeType, content, parsed, hdigest, htenant ▸ hsaved, hparse,
      chunk_of_aligned haligned hmem, haligned.slices chunk hmem⟩

variable (Saved) in
/-- The hits that a program returns are quotes. -/
def Quoting (tenantId : Uuid) (res : Except Exn (List SearchHit)) : Prop :=
  ∀ hits, res = .ok hits → ∀ hit ∈ hits, Quotes Saved tenantId hit

/-- What follows in a search once an earlier part of it is done. -/
theorem bind_hits {α : Type} {tenantId : Uuid} {p : Service α} {f : α → Service (List SearchHit)}
    {P : Except Exn α → Session → Store → Prop} (hp : Safe (provenance Saved).discipline p l s P)
    (hf : ∀ x l' u, P (.ok x) l' u →
      Safe (provenance Saved).discipline (f x) l' u fun res _ _ => Quoting Saved tenantId res) :
    Safe (provenance Saved).discipline (p.bind f) l s fun res _ _ => Quoting Saved tenantId res := by
  refine Safe.bind.mpr (hp.mono fun res l' u hres => ?_)
  cases res with
  | error e => exact nofun
  | ok x => exact hf x l' u hres

theorem search_derived (requestId : Str) (llm : Llm.OpenAiClient) (tenantId : Uuid) (query : Str)
    (limit : Nat) :
    Safe (provenance Saved).discipline (Search.search requestId llm tenantId query limit) l s
      fun res _ _ => Quoting Saved tenantId res := by
  let depth := limit * Search.CANDIDATE_DEPTH_FACTOR
  refine bind_hits (free_safe (TryProgram.embed llm [query]).free) fun reply _ _ _ => ?_
  refine bind_hits (free_safe (TryProgram.sink _ _ _ _ _).free) fun _ _ _ _ => ?_
  refine bind_hits (free_safe (.ofResult _)) fun embedding _ _ _ => ?_
  refine bind_hits (query_safe (fun a => Store.rankedRows tenantId none depth a.ranking) rfl
    fun _ _ _ => rfl) fun vectorRanked _ u hvector => ?_
  refine bind_hits (query_safe (fun a => Store.rankedRows tenantId none depth a.ranking) rfl
    fun _ _ _ => rfl) fun ftsRanked l' v hfts => ?_
  obtain ⟨-, hderived, hvector⟩ := hvector
  obtain ⟨-, hderived', hfts⟩ := hfts
  have hrows : ∀ row ∈ vectorRanked ++ ftsRanked, ∀ score,
      Quotes Saved tenantId (hitOf row score) := by
    obtain ⟨a, rfl⟩ := hvector _ rfl
    obtain ⟨b, rfl⟩ := hfts _ rfl
    intro row hrow score
    rcases List.mem_append.mp hrow with hrow | hrow
    · exact quotes_of_rankedRows hderived hrow score
    · exact quotes_of_rankedRows hderived' hrow score
  cases hfused : Search.fuseRows vectorRanked ftsRanked limit with
  | error e => exact nofun
  | ok hits =>
    rintro _ ⟨⟩ hit hhit
    obtain ⟨entry, -, hentry⟩ := Lib.exists_of_mem_mapM hfused hhit
    obtain ⟨row, hrow, -, rfl⟩ := Search.toHit_eq_ok hentry
    exact hrows row hrow entry.2

/-- A member of a deployment, or a search whose hits are kept. -/
inductive Watched (Key : Type) where
  | member (work : Member Key)
  | search (requestId : Str) (tenantId : Uuid) (query : Str) (limit : Nat)

def Watched.program (settings : Settings) (worker : Worker.Settings) :
    Watched Key → Service (List SearchHit)
  | .member work => do
    work.program settings worker
    return []
  | .search requestId tenantId query limit =>
    Search.search requestId ⟨settings.openaiModel, settings.openaiEmbeddingModel⟩ tenantId query limit

/-- A deployment some of whose searches keep their hits. -/
def watch {ι : Type} (settings : Settings) (worker : Worker.Settings) (s : Store)
    (parties : ι → Option (Watched Key)) : Lib.Pool ι Session Store Op Op.Res Exn (List SearchHit) :=
  ⟨s, fun i => (parties i).map fun party => (⟨false⟩, party.program settings worker)⟩

/-- A party that is a search of the tenant returns quotes. -/
theorem Watched.derived (worker : Worker.Settings) (party : Watched Key)
    (hsent : ∀ incoming, party = .member (.request incoming) → Sent incoming)
    (hsaved : ∀ tenantId content, Uploaded settings Sent tenantId content → Saved tenantId content) :
    Safe (provenance Saved).discipline (party.program settings worker) l s fun res _ _ =>
      ∀ requestId tenantId query limit, party = .search requestId tenantId query limit →
        Quoting Saved tenantId res := by
  cases party with
  | member work =>
    refine Safe.mono (Q := fun _ _ _ => True) ?_ fun _ _ _ _ => nofun
    exact bind_safe (work.derived worker (fun incoming h => hsent incoming (h ▸ rfl)) hsaved)
      fun _ _ _ _ => trivial
  | search requestId tenantId query limit =>
    refine (search_derived requestId _ tenantId query limit).mono ?_
    rintro res _ _ hquoting _ _ _ _ ⟨⟩
    exact hquoting

/-- Whatever goes on while a tenant's search is made (re-ingestions, deletes, uploads of the same bytes):
what it returns quotes, word for word and at the offsets it gives, bytes that were uploaded for the
tenant and have the digest it names. -/
theorem search_quotes {ι : Type} [DecidableEq ι] {Before : Uuid → Parsing.Bytes → Prop}
    {worker : Worker.Settings} {parties : ι → Option (Watched Key)} {turns : List (Turn ι)}
    {c : Lib.Pool ι Session Store Op Op.Res Exn (List SearchHit)} (hderived : Derived Before s)
    (hrun : run (Lib.Pool.step exec Store.tick) (watch settings worker s parties) turns = some c)
    {i : ι} {requestId query : Str} {tenantId : Uuid} {limit : Nat} {hits : List SearchHit}
    (hsearch : parties i = some (.search requestId tenantId query limit))
    (hdone : c.parties i = some (l, .ret hits)) :
    ∀ hit ∈ hits, Quotes (SavedBy Before settings
      fun incoming => ∃ j, parties j = some (.member (.request incoming))) tenantId hit := by
  let Saved := SavedBy Before settings fun incoming => ∃ j, parties j = some (.member (.request incoming))
  let post : ι → Except Exn (List SearchHit) → Session → Store → Prop := fun j res _ _ =>
    ∀ requestId tenantId query limit, parties j = some (.search requestId tenantId query limit) →
      Quoting Saved tenantId res
  have hstart : (provenance Saved).discipline.Ends post (watch settings worker s parties) := by
    refine ⟨hderived.mono fun _ _ => .inl, fun j l p hj => ?_⟩
    obtain ⟨party, hparty, heq⟩ := Option.map_eq_some_iff.mp hj
    cases heq
    refine (party.derived worker (fun incoming h => ⟨j, h ▸ hparty⟩) fun _ _ => .inr).mono ?_
    intro res _ _ hquoting requestId tenantId query limit hsearch
    exact hquoting requestId tenantId query limit (Option.some.inj (hparty.symm.trans hsearch))
  have hlasting : ∀ j, (provenance Saved).discipline.Lasting (post j) :=
    fun _ => ⟨fun _ _ _ _ _ _ _ _ _ h => h, fun _ _ _ _ _ h => h⟩
  have hends := hstart.run hlasting (Lib.along_of_forall (provenance Saved).undisturbed _ _) hrun
  exact hends.2 i l _ hdone _ _ _ _ hsearch hits rfl

/-- The same members, and a search after them. -/
def searchedIngestion : Fin 4 → Option (Watched Unit)
  | 0 => (oneIngestion 0).map .member
  | 1 => (oneIngestion 1).map .member
  | 2 => (oneIngestion 2).map .member
  | 3 => some (.search [] 1 "pay".toList 5)

def thenSearch : List (Turn (Fin 4)) :=
  (oneByOne.map fun
    | .act i a => .act i.castSucc a
    | .drift elapsed => .drift elapsed
    | .crash i => .crash i.castSucc) ++
  [.act 3 { embed := .replied none 0 [(0, [1])] }, .act 3 {}, .act 3 { ranking := [30] },
    .act 3 { ranking := [30] }]

/-- What the last party has returned. -/
def found (c : Lib.Pool (Fin 4) Session Store Op Op.Res Exn (List SearchHit)) :
    Option (Session × List SearchHit) :=
  match c.parties 3 with
  | some (l, .ret hits) => some (l, hits)
  | _ => none

omit [Identity Key] [Ucd] [Platform] in
theorem search_quotes_one : ∃ c l hits, run (Lib.Pool.step exec Store.tick)
    (@watch Unit oneToken Ucd.ascii onePaymentText (Fin 4) modelSettings modelWorker (.empty 0)
      searchedIngestion) thenSearch = some c ∧ c.parties 3 = some (l, .ret hits) ∧
    hits.map SearchHit.text = ["Pay.".toList] ∧ ∀ hit ∈ hits, @Quotes onePaymentText
      (@SavedBy Unit oneToken onePaymentText (fun _ _ => False) modelSettings
        fun incoming => ∃ j, searchedIngestion j = some (.member (.request incoming))) 1 hit := by
  have hruns : (((run (Lib.Pool.step exec Store.tick)
      (@watch Unit oneToken Ucd.ascii onePaymentText (Fin 4) modelSettings modelWorker (.empty 0)
        searchedIngestion) thenSearch).bind found).map fun r => r.2.map SearchHit.text) =
        some ["Pay.".toList] := by decide +kernel
  obtain ⟨⟨l, hits⟩, hfound, htexts⟩ := Option.map_eq_some_iff.mp hruns
  obtain ⟨c, hc, hfound⟩ := Option.bind_eq_some_iff.mp hfound
  have hdone : c.parties 3 = some (l, .ret hits) := by
    unfold found at hfound
    split at hfound
    next hparty =>
      cases hfound
      exact hparty
    · cases hfound
  exact ⟨c, l, hits, hc, hdone, htexts, @search_quotes Unit oneToken Ucd.ascii onePaymentText _ _ _ _ _ _
    _ _ _ _ (@Derived.empty onePaymentText _ Ucd.ascii 0) hc _ _ _ _ _ _ rfl hdone⟩

end ContractIntel.Api
