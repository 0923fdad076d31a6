import ContractIntel.Laws.Services.Extraction
import ContractIntel.Laws.Services.ReviewQueue
import ContractIntel.Lib.Dict
import ContractIntel.Lib.Fallible

/-!
# What a change report says

The impacts of a report hang on the base document's newest extraction job, which is not always its
newest completed one (`base_obligations_iff`). Of a job that is completed, the result and the review
items are read off one list of rows, a row being a change with the explanation the model gave for
its index and the impacts that were mapped for it (`report_is_aligned`). Entries and items are described
by their fields (`EntryOf`, `ItemOf`).
-/

namespace ContractIntel.ChangeReport

open Diffing (Change detectChanges)
open Jobs (JobRow findLatestForDocument latestCompleted)
open Lib (Every Runs)
open Lib.Prog (Performs)
open Llm (OpenAiClient UsageSink ask chats replies)
open Repositories

variable {env : Store → Store → Prop} {l : Session} {s : Store}

/-! ## The obligations of the base document -/

section Obligations

variable [Platform]

/-- The obligations in a job's stored result, none if it does not validate. -/
def resultObligations (job : JobRow) : List Obligation :=
  ((job.result.bind Platform.validateExtraction).map ObligationExtraction.obligations).getD []

/-- What the worker makes of the newest extraction job. -/
def obligationsOf : Option JobRow → List Obligation
  | none => []
  | some latest => if latest.status = .completed then resultObligations latest else []

/-- One query, and what is made of its answer. -/
theorem baseObligations_eq (documentId : Uuid) : baseObligations documentId =
    (perform (.findLatestJob .extraction documentId)).bind fun latest => .ret (obligationsOf latest) := by
  unfold baseObligations
  congr 1
  ext latest
  cases latest with
  | none => rfl
  | some latest =>
    by_cases hcompleted : latest.status = .completed
    · simp only [hcompleted, obligationsOf, resultObligations]
      cases latest.result with
      | none => rfl
      | some result => cases h : Platform.validateExtraction result <;> simp [h]
    · simp [obligationsOf, hcompleted]

theorem baseObligations_served (documentId : Uuid) :
    Every exec env (baseObligations documentId) l s fun trace res _ t =>
      ∀ obligations, res = .ok obligations → ∃ a latest,
        trace = [⟨.findLatestJob .extraction documentId, a, .ok latest⟩] ∧
        latest = findLatestForDocument documentId (t.jobs .extraction) ∧
        obligations = obligationsOf latest := by
  rw [baseObligations_eq]
  refine Every.bind.mpr (Every.call.mpr fun moved a _ => ?_)
  split
  next latest hlatest =>
    intro obligations hres
    cases hres
    obtain ⟨hread, hserved⟩ := query_eq_ok hlatest
    refine ⟨a, latest, ?_, ?_, rfl⟩
    · rw [hlatest]
      rfl
    · rw [exec, hserved]
      exact hread.symm
  next => exact fun _ h => by cases h

/-- Whether the document's newest extraction job is a completed one. -/
def NewestCompleted (documentId : Uuid) (s : Store) : Prop :=
  ∃ job, findLatestForDocument documentId (s.jobs .extraction) = some job ∧ job.status = .completed

/-- Whether the document has a completed extraction with a result that validates. -/
def HasExtraction (documentId : Uuid) (s : Store) : Prop :=
  ∃ job ∈ s.jobs .extraction, job.documentId = documentId ∧ job.status = .completed ∧
    ∃ result extraction, job.result = some result ∧
      Platform.validateExtraction result = some extraction

omit [Platform] in
theorem obligationsOf_eq_nil [Platform] {documentId : Uuid} (h : ¬ NewestCompleted documentId s) :
    obligationsOf (findLatestForDocument documentId (s.jobs .extraction)) = [] := by
  cases hlatest : findLatestForDocument documentId (s.jobs .extraction) with
  | none => rfl
  | some latest => exact if_neg fun hcompleted => h ⟨latest, hlatest, hcompleted⟩

/-- Nothing is mapped, and no model asked, while the newest extraction is not completed. -/
theorem mapImpacts_of_not_completed (llm : OpenAiClient) (tenantId documentId : Uuid)
    (changes : List Change) (baseText amendedText : Str) (usageSink : UsageSink)
    (h : ¬ NewestCompleted documentId s) :
    Every exec Eq (mapImpacts llm tenantId documentId changes baseText amendedText usageSink) l s
      fun trace res _ _ => ∀ impacts, res = .ok impacts →
        impacts = changes.map (fun _ => []) ∧ chats trace = [] := by
  unfold mapImpacts
  rw [baseObligations_eq]
  refine Every.bind.mpr (Every.bind.mpr (Every.call.mpr fun moved a hmoved => ?_))
  cases hmoved
  split
  next latest hlatest =>
    have hread := (query_eq_ok hlatest).1
    rw [← hread, obligationsOf_eq_nil h]
    intro impacts hres
    cases hres
    exact ⟨rfl, rfl⟩
  next => exact nofun

/-- Where the base document has a completed extraction, the report reads the newest completed one
exactly when no newer job stands before it, or it holds no obligations anyway; while the newest job
is not completed every change maps to no impacts. -/
theorem base_obligations_iff (documentId : Uuid) (s : Store) (h : HasExtraction documentId s) :
    ((Every exec Eq (baseObligations documentId) ⟨false⟩ s fun _ res _ _ =>
        ∀ obligations, res = .ok obligations → ∃ job,
          latestCompleted documentId (s.jobs .extraction) = some job ∧
          obligations = resultObligations job) ↔
      NewestCompleted documentId s ∨ ∃ job,
        latestCompleted documentId (s.jobs .extraction) = some job ∧ resultObligations job = []) ∧
    (¬ NewestCompleted documentId s → ∀ llm tenantId changes baseText amendedText usageSink,
      Every exec Eq (mapImpacts llm tenantId documentId changes baseText amendedText usageSink)
        ⟨false⟩ s fun trace res _ _ => ∀ impacts, res = .ok impacts →
          impacts = changes.map (fun _ => []) ∧ chats trace = []) := by
  refine ⟨?_, fun hnewest llm tenantId changes baseText amendedText usageSink =>
    mapImpacts_of_not_completed llm tenantId documentId changes baseText amendedText usageSink hnewest⟩
  obtain ⟨completed, hmem, hdocument, hcompleted, -⟩ := h
  obtain ⟨latest, hlatest⟩ := Jobs.latestCompleted_isSome hmem hdocument hcompleted
  constructor
  · intro hevery
    by_contra hneither
    obtain ⟨hnewest, hsome⟩ := not_or.mp hneither
    rw [baseObligations_eq] at hevery
    have hserved := Every.call.mp (Every.bind.mp hevery) s {} rfl
    rw [exec, query_served _ rfl rfl] at hserved
    obtain ⟨job, hjob, hobligations⟩ := hserved _ rfl
    rw [obligationsOf_eq_nil hnewest] at hobligations
    exact hsome ⟨job, hjob, hobligations.symm⟩
  · intro hor
    rw [baseObligations_eq]
    refine Every.bind.mpr (Every.call.mpr fun moved a hmoved => ?_)
    cases hmoved
    split
    next found hfound =>
      have hread := (query_eq_ok hfound).1
      intro obligations hres
      cases hres
      by_cases hnewest : NewestCompleted documentId s
      · obtain ⟨job, hjob, hstatus⟩ := hnewest
        refine ⟨job, Jobs.latestCompleted_of_findLatest hjob hstatus, ?_⟩
        rw [← hread, hjob]
        exact if_pos hstatus
      · obtain ⟨job, hjob, hnone⟩ := hor.resolve_left hnewest
        refine ⟨job, hjob, ?_⟩
        rw [← hread, obligationsOf_eq_nil hnewest, hnone]
    next => exact fun _ h => by cases h

end Obligations

/-- An extraction of one obligation. -/
def onePayment : ObligationExtraction := ⟨[⟨"1".toList, "Pay.".toList, none, ⟨0, 4⟩, 1⟩], []⟩

/-- A platform on which one stored extraction validates. -/
@[reducible] def onePaymentPlatform : Platform where
  pdfPages _ := .ok []
  docxParagraphs _ := .ok []
  decodeMessage _ := []
  sha256 _ := []
  zipNames _ := .error .badZipFile
  validateExtraction
    | .obj [(_, .arr [_]), (_, .arr [])] => some onePayment
    | _ => none

/-- A completed extraction of document 10, and jobs behind it. -/
def extracted (newer : List JobRow) : Store :=
  { Store.empty 2 with
    jobs := fun _ =>
      { JobRow.create 20 1 10 none 0 with
        status := .completed, result := some onePayment.modelDump } :: newer }

theorem base_obligations_iff_extracted :
    @HasExtraction onePaymentPlatform 10 (extracted []) ∧
    Every exec Eq (@baseObligations onePaymentPlatform 10) ⟨false⟩ (extracted []) fun _ res _ _ =>
      ∀ obligations, res = .ok obligations → ∃ job,
        latestCompleted 10 ((extracted []).jobs .extraction) = some job ∧
        obligations = @resultObligations onePaymentPlatform job := by
  have hextraction : @HasExtraction onePaymentPlatform 10 (extracted []) :=
    ⟨_, List.mem_singleton_self _, rfl, rfl, _, onePayment, rfl, rfl⟩
  have hnewest : NewestCompleted 10 (extracted []) := ⟨_, rfl, rfl⟩
  exact ⟨hextraction, (@base_obligations_iff onePaymentPlatform 10 _ hextraction).1.mpr (.inl hnewest)⟩

/-- With a re-extraction behind the completed job, the obligation is lost. -/
theorem reextraction_hides_obligations :
    @HasExtraction onePaymentPlatform 10 (extracted [.create 21 1 10 none 1]) ∧
    ¬ Every exec Eq (@baseObligations onePaymentPlatform 10) ⟨false⟩
      (extracted [.create 21 1 10 none 1]) fun _ res _ _ =>
        ∀ obligations, res = .ok obligations → ∃ job,
          latestCompleted 10 ((extracted [.create 21 1 10 none 1]).jobs .extraction) = some job ∧
          obligations = @resultObligations onePaymentPlatform job := by
  refine ⟨⟨_, List.mem_cons_self, rfl, rfl, _, onePayment, rfl, rfl⟩, fun hevery => ?_⟩
  rw [@baseObligations_eq onePaymentPlatform] at hevery
  have hserved := Every.call.mp (Every.bind.mp hevery) _ {} rfl
  obtain ⟨job, hjob, hobligations⟩ := hserved [] rfl
  cases hjob
  cases hobligations

/-! ## Explanations -/

/-- The explanation a reply gives for an index: the last one with that index. -/
def GivenFor (reply : List ChangeExplanation) (index : Nat) (explanation : ChangeExplanation) : Prop :=
  ∃ before after, reply = before ++ explanation :: after ∧ explanation.index = index ∧
    ∀ later ∈ after, later.index ≠ index

section Explanations

variable {reply : List ChangeExplanation} {n : Nat}

theorem explanationAt_eq_ok {index : Nat} {explanation : ChangeExplanation}
    (h : explanationAt reply index = .ok explanation) : GivenFor reply index explanation := by
  unfold explanationAt at h
  split at h
  next found hfound =>
    cases h
    obtain ⟨hindex, after, before, hsplit, hafter⟩ := List.find?_eq_some_iff_append.mp hfound
    refine ⟨before.reverse, after.reverse, ?_, of_decide_eq_true hindex, fun later hlater => ?_⟩
    · rw [← List.reverse_reverse reply, hsplit]
      simp
    · have := hafter later (List.mem_reverse.mp hlater)
      simpa using this
  next => cases h

/-- A reply that covers the indices has an explanation for each. -/
theorem explanationAt_isOk {index : Nat} (h : coversIndices reply n) (hindex : index < n) :
    ∃ explanation, explanationAt reply index = .ok explanation := by
  obtain ⟨-, hall⟩ := Bool.and_eq_true_iff.mp h
  have hany := List.all_eq_true.mp hall index (List.mem_range.mpr hindex)
  obtain ⟨explanation, hmem, heq⟩ := List.any_eq_true.mp hany
  have hsome : (reply.reverse.find? (·.index = (index : Int))).isSome :=
    List.find?_isSome.mpr ⟨explanation, List.mem_reverse.mpr hmem, heq⟩
  obtain ⟨found, hfound⟩ := Option.isSome_iff_exists.mp hsome
  exact ⟨found, by simp [explanationAt, hfound]⟩

theorem readExplanations_eq_ok {explanations : List ChangeExplanation}
    (h : readExplanations reply n = .ok explanations) : explanations.length = n ∧
      ∀ i explanation, explanations[i]? = some explanation → GivenFor reply i explanation := by
  unfold readExplanations at h
  split at h
  next =>
    have hall := Lib.mapM_eq_ok_iff.mp h
    refine ⟨by rw [← hall.length_eq, List.length_range], fun i explanation hi => ?_⟩
    obtain ⟨hlength, hget⟩ := List.forall₂_iff_get.mp hall
    obtain ⟨hlt, hat⟩ := List.getElem?_eq_some_iff.mp hi
    have := hget i (hlength ▸ hlt) hlt
    simp only [List.get_eq_getElem, List.getElem_range, hat] at this
    exact explanationAt_eq_ok this
  next => cases h

theorem readExplanations_error {e : Exn} (h : readExplanations reply n = .error e) :
    ∃ message, e = .llmOutputError message none := by
  unfold readExplanations at h
  split at h
  next hcovers =>
    obtain ⟨index, hindex, herror⟩ := Lib.mapM_error h
    obtain ⟨explanation, hok⟩ := explanationAt_isOk hcovers (List.mem_range.mp hindex)
    cases hok.symm.trans herror
  next =>
    cases h
    exact ⟨_, rfl⟩

end Explanations

/-- The explanations of a run: the ones the reply gives for the indices of the changes. -/
theorem explainChanges_given (llm : OpenAiClient) (changes : List Change)
    (baseText amendedText requestId : Str) (tenantId : Uuid) (jobType : UsageJobKind)
    (jobId : Option Uuid) :
    Every exec env (explainChanges llm changes baseText amendedText
      (Usage.sink requestId tenantId jobType jobId)) l s fun trace res _ _ =>
        ∀ explanations, res = .ok explanations → explanations.length = changes.length ∧
          ∃ reply, (changes = [] ∨ reply ∈ replies .changeExplanations trace) ∧
            ∀ i explanation, explanations[i]? = some explanation → GivenFor reply i explanation := by
  unfold explainChanges
  split
  next hnone =>
    intro explanations hres
    cases hres
    exact ⟨by rw [hnone]; rfl, [], .inl hnone, nofun⟩
  next =>
    refine ask (fun trace e l' t hdeclined => nofun) fun trace reply l' t hasked => ?_
    have hreplies := hasked.replies_eq
    cases hread : readExplanations reply.data changes.length with
    | error e => exact nofun
    | ok found =>
      intro explanations hres
      cases hres
      obtain ⟨hlength, hgiven⟩ := readExplanations_eq_ok hread
      refine ⟨hlength, reply.data, .inr ?_, hgiven⟩
      rw [Llm.replies_append, hreplies]
      exact List.mem_append_left _ (List.mem_singleton_self _)

/-! ## Impacts -/

/-- Impacts that a part of the run returned for a change. -/
def MapsTo (env : Store → Store → Prop) (map : Change → Service (List ImpactEntry))
    (trace : List Entry) (change : Change) (impacts : List ImpactEntry) : Prop :=
  ∃ part l s l' t, part <:+: trace ∧ Runs exec env (map change) l s part (.ok impacts) l' t

theorem MapsTo.mono {map : Change → Service (List ImpactEntry)} {trace more : List Entry}
    {change : Change} {impacts : List ImpactEntry} (hsub : trace <:+: more)
    (h : MapsTo env map trace change impacts) : MapsTo env map more change impacts := by
  obtain ⟨part, l, s, l', t, hpart, hruns⟩ := h
  exact ⟨part, l, s, l', t, hpart.trans hsub, hruns⟩

/-- The loop maps every change, in order. -/
theorem mapEach_mapsTo (map : Change → Service (List ImpactEntry)) (changes : List Change) :
    Every exec env (mapEach map changes) l s fun trace res _ _ => ∀ impacts, res = .ok impacts →
      List.Forall₂ (MapsTo env map trace) changes impacts := by
  induction changes generalizing l s with
  | nil =>
    intro impacts hres
    cases hres
    exact .nil
  | cons change rest ih =>
    refine Every.bind.mpr ((Every.runs (map change) l s).mono fun part res l' t hpart => ?_)
    cases res with
    | error e => exact nofun
    | ok first =>
      refine Every.bind.mpr (ih.mono fun more res l'' t' hmore => ?_)
      cases res with
      | error e => exact nofun
      | ok others =>
        intro impacts hres
        cases hres
        rw [List.append_nil]
        have hfirst : MapsTo env map (part ++ more) change first :=
          ⟨part, l, s, l', t, (List.prefix_append _ _).isInfix, hpart⟩
        exact .cons hfirst ((hmore others rfl).imp fun _ _ h =>
          h.mono (List.suffix_append _ _).isInfix)

section Impacts

variable [Platform]

/-- The impacts of a change: none when the base document has no obligations, and otherwise what the
mapping of the change returned. -/
def ImpactsOf (env : Store → Store → Prop) (llm : OpenAiClient) (job : JobRow)
    (baseText amendedText : Str) (trace : List Entry) (obligations : List Obligation)
    (change : Change) (impacts : List ImpactEntry) : Prop :=
  if obligations = [] then impacts = []
  else MapsTo env (mapChange llm job.tenantId job.documentId obligations baseText amendedText
    (Usage.sink [] job.tenantId .changeReport (some job.id))) trace change impacts

omit [Platform] in
theorem ImpactsOf.mono {llm : OpenAiClient} {job : JobRow} {baseText amendedText : Str}
    {trace more : List Entry} {obligations : List Obligation} {change : Change}
    {impacts : List ImpactEntry} (hsub : trace <:+: more)
    (h : ImpactsOf env llm job baseText amendedText trace obligations change impacts) :
    ImpactsOf env llm job baseText amendedText more obligations change impacts := by
  unfold ImpactsOf at *
  split
  next hnone => rwa [if_pos hnone] at h
  next hsome =>
    rw [if_neg hsome] at h
    exact h.mono hsub

/-- The obligations that a run read off the newest extraction job of the base document. -/
def FoundObligations (trace : List Entry) (documentId : Uuid) (obligations : List Obligation) :
    Prop :=
  ∃ a latest, ⟨.findLatestJob .extraction documentId, a, .ok latest⟩ ∈ trace ∧
    obligations = obligationsOf latest

theorem mapImpacts_impactsOf (llm : OpenAiClient) (job : JobRow) (changes : List Change)
    (baseText amendedText : Str) :
    Every exec env (mapImpacts llm job.tenantId job.documentId changes baseText amendedText
      (Usage.sink [] job.tenantId .changeReport (some job.id))) l s fun trace res _ _ =>
        ∀ impacts, res = .ok impacts → ∃ obligations,
          FoundObligations trace job.documentId obligations ∧
          List.Forall₂ (ImpactsOf env llm job baseText amendedText trace obligations) changes
            impacts := by
  refine Every.bind.mpr ((baseObligations_served job.documentId).mono fun trace res l' t hfound => ?_)
  cases res with
  | error e => exact nofun
  | ok obligations =>
    obtain ⟨a, latest, rfl, -, hobligations⟩ := hfound obligations rfl
    have hread : ∀ more, FoundObligations ([⟨.findLatestJob .extraction job.documentId, a,
        .ok latest⟩] ++ more) job.documentId obligations := fun more =>
      ⟨a, latest, List.mem_cons_self, hobligations⟩
    dsimp only
    split
    next hnone =>
      intro impacts hres
      cases hres
      refine ⟨obligations, hread [], List.forall₂_map_right_iff.mpr ?_⟩
      refine List.forall₂_same.mpr fun change _ => ?_
      unfold ImpactsOf
      rw [if_pos hnone]
    next hsome =>
      refine (mapEach_mapsTo _ changes).mono fun more res l'' t' hmapped => ?_
      intro impacts hres
      refine ⟨obligations, hread more, (hmapped impacts hres).imp fun change impacts h => ?_⟩
      unfold ImpactsOf
      rw [if_neg hsome]
      exact h.mono (List.suffix_append _ _).isInfix

end Impacts

/-! ## The rows of a report -/

theorem zipStrict_of_length_eq {α β : Type} {xs : List α} {ys : List β}
    (h : xs.length = ys.length) : zipStrict xs ys = .ok (xs.zip ys) := by
  induction xs generalizing ys with
  | nil =>
    cases List.length_eq_zero_iff.mp h.symm
    rfl
  | cons x xs ih =>
    cases ys with
    | nil => cases h
    | cons y ys =>
      rw [zipStrict, ih (Nat.succ.inj h)]
      rfl

/-- The strict zips of aligned findings succeed. -/
theorem zipped_of_aligned {f : Findings} (hexplanations : f.explanations.length = f.changes.length)
    (himpacts : f.impacts.length = f.changes.length) :
    f.zipped = .ok (f.changes.zip (f.explanations.zip f.impacts)) := by
  unfold Findings.zipped
  rw [zipStrict_of_length_eq (hexplanations.trans himpacts.symm)]
  refine zipStrict_of_length_eq ?_
  rw [List.length_zip, hexplanations, himpacts, Nat.min_self]

/-- A text that the run read of a document. -/
def ReadText (trace : List Entry) (documentId : Uuid) (text : Str) : Prop :=
  ∃ a row, ⟨.findText documentId, a, .ok (some row)⟩ ∈ trace ∧ row.text = text

theorem ReadText.mono {trace more : List Entry} {documentId : Uuid} {text : Str}
    (hsub : trace ⊆ more) (h : ReadText trace documentId text) : ReadText more documentId text := by
  obtain ⟨a, row, hrow, htext⟩ := h
  exact ⟨a, row, hsub hrow, htext⟩

theorem parsedText_read (documentId : Uuid) :
    Every exec env (parsedText documentId) l s fun trace res _ _ =>
      ∀ text, res = .ok text → ReadText trace documentId text := by
  refine Every.bind.mpr (Every.call.mpr fun moved a _ => ?_)
  split
  next found hfound =>
    cases found with
    | none => exact nofun
    | some row =>
      intro text hres
      cases hres
      exact ⟨a, row, by simp [hfound], rfl⟩
  next => exact nofun

section Rows

variable [Ucd] [Platform]

/-- What the rows of a report come from: the two texts, the one reply and the mapped impacts. -/
structure Aligned (env : Store → Store → Prop) (llm : OpenAiClient) (job : JobRow)
    (trace : List Entry) (baseText amendedText : Str)
    (rows : List (Change × ChangeExplanation × List ImpactEntry)) : Prop where
  base : ReadText trace job.documentId baseText
  amended : ReadText trace (job.amendedDocumentId.getD 0) amendedText
  changes : detectChanges baseText amendedText = .ok (rows.map (·.1))
  explanations : ∃ reply, (rows = [] ∨ reply ∈ replies .changeExplanations trace) ∧
    ∀ i row, rows[i]? = some row → GivenFor reply i row.2.1
  impacts : ∃ obligations, FoundObligations trace job.documentId obligations ∧ ∀ row ∈ rows,
    ImpactsOf env llm job baseText amendedText trace obligations row.1 row.2.2

/-- What the `try` block finds zips into the rows of a report. -/
theorem examine_aligned (llm : OpenAiClient) (job : JobRow) :
    Every exec env (examine llm job (Usage.sink [] job.tenantId .changeReport (some job.id))) l s
      fun trace res _ _ => ∀ f, res = .ok f → ∃ rows, f.zipped = .ok rows ∧
        Aligned env llm job trace f.baseText f.amendedText rows := by
  refine Every.bind.mpr ((parsedText_read job.documentId).mono fun first res l₁ t₁ hbase => ?_)
  cases res with
  | error e => exact nofun
  | ok baseText =>
  refine Every.bind.mpr ((parsedText_read _).mono fun second res l₂ t₂ hamended => ?_)
  cases res with
  | error e => exact nofun
  | ok amendedText =>
  cases hchanges : (detectChanges baseText amendedText).mapError textError with
  | error e =>
    simp only [hchanges, lift, Lib.Prog.ofResult_error]
    exact nofun
  | ok changes =>
  simp only [hchanges, lift, Lib.Prog.ofResult_ok, Lib.Prog.bind_eq, Lib.Prog.ret_bind]
  refine Every.bind.mpr ((explainChanges_given llm changes baseText amendedText [] job.tenantId
    .changeReport (some job.id)).mono fun third res l₃ t₃ hexplained => ?_)
  cases res with
  | error e => exact nofun
  | ok explanations =>
  refine Every.bind.mpr ((mapImpacts_impactsOf llm job changes baseText amendedText).mono
    fun fourth res l₄ t₄ hmapped => ?_)
  cases res with
  | error e => exact nofun
  | ok impacts =>
  intro f hf
  cases hf
  obtain ⟨hlength, reply, hreply, hgiven⟩ := hexplained explanations rfl
  obtain ⟨obligations, hobligations, himpacts⟩ := hmapped impacts rfl
  refine ⟨_, zipped_of_aligned hlength himpacts.length_eq.symm, ?_⟩
  have hzip : changes.length ≤ (explanations.zip impacts).length := by
    rw [List.length_zip, hlength, ← himpacts.length_eq, Nat.min_self]
  constructor
  · exact (hbase baseText rfl).mono (List.subset_append_left _ _)
  · exact ((hamended amendedText rfl).mono (List.subset_append_left _ _)).mono
      (List.subset_append_right _ _)
  · rw [List.map_fst_zip hzip]
    cases hdetect : detectChanges baseText amendedText with
    | error e =>
      rw [hdetect] at hchanges
      cases hchanges
    | ok found =>
      rw [hdetect] at hchanges
      cases hchanges
      rfl
  · refine ⟨reply, hreply.imp (fun hnone => by rw [hnone]; rfl) fun hmem => ?_, fun i row hrow => ?_⟩
    · simp [hmem]
    · obtain ⟨-, hrest⟩ := List.getElem?_zip_eq_some.mp hrow
      exact hgiven i _ (List.getElem?_zip_eq_some.mp hrest).1
  · obtain ⟨a, latest, hlatest, hread⟩ := hobligations
    refine ⟨obligations, ⟨a, latest, by simp [hlatest], hread⟩, fun row hrow => ?_⟩
    obtain ⟨i, hi⟩ := List.mem_iff_getElem?.mp hrow
    obtain ⟨hchange, hrest⟩ := List.getElem?_zip_eq_some.mp hi
    obtain ⟨hlt, hat⟩ := List.getElem?_eq_some_iff.mp hchange
    obtain ⟨hlt', hat'⟩ := List.getElem?_eq_some_iff.mp (List.getElem?_zip_eq_some.mp hrest).2
    have himpact := (List.forall₂_iff_get.mp himpacts).2 i hlt hlt'
    rw [List.get_eq_getElem, List.get_eq_getElem, hat, hat'] at himpact
    refine himpact.mono ⟨first ++ (second ++ third), [], ?_⟩
    simp

theorem Aligned.mono {llm : OpenAiClient} {job : JobRow} {trace more : List Entry}
    {baseText amendedText : Str} {rows : List (Change × ChangeExplanation × List ImpactEntry)}
    (hsub : trace <:+: more) (h : Aligned env llm job trace baseText amendedText rows) :
    Aligned env llm job more baseText amendedText rows := by
  obtain ⟨reply, hreply, hgiven⟩ := h.explanations
  obtain ⟨obligations, ⟨a, latest, hlatest, hread⟩, himpacts⟩ := h.impacts
  constructor
  · exact h.base.mono hsub.subset
  · exact h.amended.mono hsub.subset
  · exact h.changes
  · refine ⟨reply, hreply.imp_right fun hmem => ?_, hgiven⟩
    exact (hsub.sublist.filterMap _).subset hmem
  · exact ⟨obligations, ⟨a, latest, hsub.subset hlatest, hread⟩, fun row hrow =>
      (himpacts row hrow).mono hsub⟩

end Rows

/-! ## What a run stores -/

/-- The result that is stored for the rows. -/
def reportResult (baseText amendedText : Str)
    (rows : List (Change × ChangeExplanation × List ImpactEntry)) : Json :=
  .obj [("changes".toList, .arr (rows.map fun row =>
    reportEntry baseText amendedText row.1 row.2.1 row.2.2))]

/-- The one completion that a program may perform. -/
def CompletesWith (job : JobRow) (stored : Json) (o : Op) : Prop :=
  ∀ id result, o = .completeJob .changeReport id result → id = job.id ∧ result = stored

theorem not_routes_of_not_ships {o : Op} (h : Extraction.Op.ships o = false) :
    ReviewQueue.routes o = false := by
  cases o <;> first | rfl | cases h

theorem finish_stores (job : JobRow) (f : Findings) (threshold : Rat)
    {rows : List (Change × ChangeExplanation × List ImpactEntry)} (hrows : f.zipped = .ok rows) :
    Every exec env (finish job f threshold) l s fun trace res _ _ =>
      (∀ entry ∈ trace, CompletesWith job (reportResult f.baseText f.amendedText rows) entry.op) ∧
      ∀ r, res = .ok r → ReviewQueue.Routed job.tenantId .impactMapping job.documentId job.id
        ((rows.flatMap fun row => reviewCandidates row.1 row.2.1 row.2.2).filter
          fun c => c.2.2 < threshold) (ReviewQueue.created trace) := by
  have hmark : (markCompleted .changeReport job (reportResult f.baseText f.amendedText rows)).Performs
      fun o => CompletesWith job (reportResult f.baseText f.amendedText rows) o ∧
        ReviewQueue.routes o = false := by
    refine markCompleted_performs ⟨fun id result h => ?_, rfl⟩ ⟨nofun, rfl⟩
    cases h
    exact ⟨rfl, rfl⟩
  have hroute : (ReviewQueue.routeForReview job.tenantId .impactMapping job.documentId job.id
      (rows.flatMap fun row => reviewCandidates row.1 row.2.1 row.2.2) threshold).Performs
      fun o => CompletesWith job (reportResult f.baseText f.amendedText rows) o :=
    routeForReview_performs nofun
  unfold finish
  simp only [hrows, lift, Lib.Prog.ofResult_ok, Lib.Prog.bind_eq, Lib.Prog.ret_bind]
  refine Every.bind.mpr ((Every.trace_of_performs hmark).mono fun trace res l' t htrace => ?_)
  have hcompletes := fun entry hentry => (htrace entry hentry).1
  have hnone := ReviewQueue.created_eq_nil fun entry hentry => (htrace entry hentry).2
  cases res with
  | error e => exact ⟨hcompletes, nofun⟩
  | ok row =>
    refine Every.bind.mpr (((Every.trace_of_performs hroute).and
      (ReviewQueue.routeForReview_created _ _ _ _ _ _)).mono fun more res l'' t' hmore => ?_)
    obtain ⟨hquiet, hrouted⟩ := hmore
    have hall : ∀ entry ∈ trace ++ more,
        CompletesWith job (reportResult f.baseText f.amendedText rows) entry.op := fun entry hentry =>
      (List.mem_append.mp hentry).elim (hcompletes entry) (hquiet entry)
    cases res with
    | error e => exact ⟨hall, nofun⟩
    | ok n =>
      show (∀ entry ∈ trace ++ (more ++ []), _) ∧ _
      rw [List.append_nil]
      refine ⟨hall, fun _ _ => ?_⟩
      rw [ReviewQueue.created_append, hnone, List.nil_append]
      exact hrouted n rfl

/-! ## What the result and the review items say -/

/-- The field of an object. -/
def field? (value : Json) (name : String) : Option Json :=
  match value with
  | .obj fields => Lib.Dict.get? fields name.toList
  | _ => none

/-- The offsets of a span, or null. -/
def Locates (value : Option Json) : Option Diffing.Span → Prop
  | none => value = some .null
  | some span => ∃ offsets, value = some offsets ∧
      field? offsets "char_start" = some (.num span.charStart) ∧
      field? offsets "char_end" = some (.num span.charEnd)

/-- The first characters of exactly the span, or null. -/
def QuotesSpan (text : Str) (value : Option Json) : Option Diffing.Span → Prop
  | none => value = some .null
  | some span => value =
      some (.str (((text.take span.charEnd).drop span.charStart).take Impact.EXCERPT_LIMIT))

/-- An impact's own fields. -/
structure ImpactFields (impact : ImpactEntry) (value : Json) : Prop where
  clauseRef : field? value "clause_ref" = some (.str impact.clauseRef)
  description : field? value "description" = some (.str impact.description)
  owner : field? value "owner" = some (impact.owner.elim .null .str)
  confidence : field? value "confidence" = some (.num impact.confidence)

/-- What a change and its explanation put into an entry, and into a review item. -/
structure ChangeFields (change : Change) (explanation : ChangeExplanation) (value : Json) :
    Prop where
  kind : field? value "kind" = some (.str (Impact.kindValue change.kind))
  clauseRef : field? value "clause_ref" = some (change.clauseRef.elim .null .str)
  description : field? value "description" = some (.str explanation.description)
  severity : field? value "severity" = some (.str explanation.severity.value)

/-- The entry of a change. -/
structure EntryOf (baseText amendedText : Str)
    (row : Change × ChangeExplanation × List ImpactEntry) (entry : Json) : Prop extends
    ChangeFields row.1 row.2.1 entry where
  baseSpan : Locates (field? entry "base_span") row.1.baseSpan
  amendedSpan : Locates (field? entry "amended_span") row.1.amendedSpan
  baseExcerpt : QuotesSpan baseText (field? entry "base_excerpt") row.1.baseSpan
  amendedExcerpt : QuotesSpan amendedText (field? entry "amended_excerpt") row.1.amendedSpan
  impacts : ∃ values, field? entry "impacts" = some (.arr values) ∧
    List.Forall₂ ImpactFields row.2.2 values

/-- The pending review item of an impact. -/
structure ItemOf (job : JobRow) (doubt : Change × ChangeExplanation × ImpactEntry)
    (item : ReviewItemRow) : Prop where
  itemType : item.itemType = "impact".toList
  impact : ImpactFields doubt.2.2 item.payload
  change : ∃ shown, field? item.payload "change" = some shown ∧ ChangeFields doubt.1 doubt.2.1 shown
  confidence : item.confidence = doubt.2.2.confidence
  pending : item.status = .pending ∧ item.correctedValues = none ∧ item.resolvedAt = none
  labels : item.tenantId = job.tenantId ∧ item.source = .impactMapping ∧
    item.documentId = job.documentId ∧ item.jobId = job.id

/-- The impacts of all rows that are strictly below the threshold, each with its change and its
explanation. -/
def doubts (threshold : Rat) (rows : List (Change × ChangeExplanation × List ImpactEntry)) :
    List (Change × ChangeExplanation × ImpactEntry) :=
  rows.flatMap fun row =>
    (row.2.2.filter fun impact => impact.confidence < threshold).map fun impact =>
      (row.1, row.2.1, impact)

section Fields

variable {baseText amendedText : Str} {change : Change} {explanation : ChangeExplanation}

theorem locates_spanJson (span : Option Diffing.Span) : Locates (some (spanJson span)) span := by
  cases span with
  | none => rfl
  | some span => exact ⟨_, rfl, rfl, rfl⟩

theorem quotesSpan_excerpt (text : Str) (span : Option Diffing.Span) :
    QuotesSpan text (some (.ofOption (span.map (Impact.excerpt text)))) span := by
  cases span <;> rfl

theorem ofOption_eq (text : Option Str) : Json.ofOption text = text.elim .null .str := by
  cases text <;> rfl

theorem impactFields_json (impact : ImpactEntry) (more : List (Str × Json)) :
    ImpactFields impact (.obj (impact.json ++ more)) :=
  ⟨rfl, rfl, congrArg some (ofOption_eq _), rfl⟩

theorem entryOf_reportEntry (row : Change × ChangeExplanation × List ImpactEntry) :
    EntryOf baseText amendedText row (reportEntry baseText amendedText row.1 row.2.1 row.2.2) where
  kind := rfl
  clauseRef := congrArg some (ofOption_eq _)
  description := rfl
  severity := rfl
  baseSpan := locates_spanJson _
  amendedSpan := locates_spanJson _
  baseExcerpt := quotesSpan_excerpt _ _
  amendedExcerpt := quotesSpan_excerpt _ _
  impacts := by
    refine ⟨_, rfl, List.forall₂_map_right_iff.mpr (List.forall₂_same.mpr fun impact _ => ?_)⟩
    simpa using impactFields_json impact []

/-- The entries of the stored result. -/
theorem entries_reportResult (rows : List (Change × ChangeExplanation × List ImpactEntry)) :
    ∃ entries, field? (reportResult baseText amendedText rows) "changes" = some (.arr entries) ∧
      List.Forall₂ (EntryOf baseText amendedText) rows entries :=
  ⟨_, rfl, List.forall₂_map_right_iff.mpr (List.forall₂_same.mpr fun row _ =>
    entryOf_reportEntry row)⟩

theorem changeFields_reviewChange (change : Change) (explanation : ChangeExplanation) :
    ChangeFields change explanation (reviewChange change explanation) :=
  ⟨rfl, congrArg some (ofOption_eq _), rfl, rfl⟩

/-- The candidate that a doubtful impact is. -/
def candidateOf (doubt : Change × ChangeExplanation × ImpactEntry) : Str × Json × Rat :=
  ("impact".toList,
    .obj (doubt.2.2.json ++ [("change".toList, reviewChange doubt.1 doubt.2.1)]),
    doubt.2.2.confidence)

theorem candidates_eq (threshold : Rat)
    (rows : List (Change × ChangeExplanation × List ImpactEntry)) :
    ((rows.flatMap fun row => reviewCandidates row.1 row.2.1 row.2.2).filter
      fun c => c.2.2 < threshold) = (doubts threshold rows).map candidateOf := by
  rw [doubts, List.filter_flatMap, List.map_flatMap]
  refine List.flatMap_congr fun row _ => ?_
  rw [reviewCandidates, List.filter_map, List.map_map]
  rfl

/-- The items that were routed are those of the doubtful impacts. -/
theorem itemsOf_routed {job : JobRow} {threshold : Rat}
    {rows : List (Change × ChangeExplanation × List ImpactEntry)} {items : List ReviewItemRow}
    (h : ReviewQueue.Routed job.tenantId .impactMapping job.documentId job.id
      ((rows.flatMap fun row => reviewCandidates row.1 row.2.1 row.2.2).filter
        fun c => c.2.2 < threshold) items) :
    List.Forall₂ (ItemOf job) (doubts threshold rows) items := by
  have hcontents : List.Forall₂ (fun item doubt => ReviewQueue.content item = candidateOf doubt)
      items (doubts threshold rows) := by
    have heq := h.contents.trans (candidates_eq threshold rows)
    rw [← List.forall₂_eq_eq_eq, List.forall₂_map_left_iff, List.forall₂_map_right_iff] at heq
    exact heq
  have hall : ∀ item ∈ items, (item.status = .pending ∧ item.correctedValues = none ∧
      item.resolvedAt = none) ∧ item.tenantId = job.tenantId ∧ item.source = .impactMapping ∧
        item.documentId = job.documentId ∧ item.jobId = job.id :=
    fun item hitem => ⟨h.pending item hitem, h.labels item hitem⟩
  refine ((List.forall₂_and_left _ _).mpr ⟨hall, hcontents⟩).flip.imp fun doubt item hitem => ?_
  obtain ⟨⟨hpending, hlabels⟩, hcontent⟩ := hitem
  obtain ⟨htype, hpayload, hconfidence⟩ : item.itemType = _ ∧ item.payload = _ ∧
      item.confidence = _ := by simpa [ReviewQueue.content, candidateOf] using hcontent
  constructor
  · exact htype
  · rw [hpayload]
    exact impactFields_json _ _
  · rw [hpayload]
    exact ⟨_, rfl, changeFields_reviewChange _ _⟩
  · exact hconfidence
  · exact hpending
  · exact hlabels

end Fields

section Runs

variable [Ucd] [Platform]

/-- What a run that completes the job `id` with `result` found and routed. -/
def Reports (env : Store → Store → Prop) (llm : OpenAiClient) (threshold : Rat) (trace : List Entry)
    (res : Except Exn Bool) (id : Uuid) (result : Json) : Prop :=
  ∃ job baseText amendedText rows, Claimed .changeReport trace job ∧ id = job.id ∧
    Aligned env llm job trace baseText amendedText rows ∧
    (∃ entries, field? result "changes" = some (.arr entries) ∧
      List.Forall₂ (EntryOf baseText amendedText) rows entries) ∧
    (res = .ok true →
      List.Forall₂ (ItemOf job) (doubts threshold rows) (ReviewQueue.created trace))

theorem runClaimed_reports (llm : OpenAiClient) (threshold : Rat) (job : JobRow) :
    Every exec env (runClaimed llm threshold job) l s fun trace res _ _ =>
      ∀ entry ∈ trace, ∀ id result, entry.op = .completeJob .changeReport id result →
        id = job.id ∧ ∃ baseText amendedText rows,
          Aligned env llm job trace baseText amendedText rows ∧
          result = reportResult baseText amendedText rows ∧
          (res = .ok true → ReviewQueue.Routed job.tenantId .impactMapping job.documentId job.id
            ((rows.flatMap fun row => reviewCandidates row.1 row.2.1 row.2.2).filter
              fun c => c.2.2 < threshold) (ReviewQueue.created trace)) := by
  unfold runClaimed
  split
  · exact fun _ hentry => absurd hentry List.not_mem_nil
  have htry : (examine llm job (Usage.sink [] job.tenantId .changeReport (some job.id))).Performs
      fun o => Extraction.Op.ships o = false :=
    (TryProgram.examine llm job (.sink _ _ _ _)).mono fun _ _ => Extraction.not_ships_of_ofTry
  refine Every.attempt_bind.mpr (((examine_aligned llm job).and
    (Every.trace_of_performs htry)).mono ?_)
  rintro trace res l' t ⟨haligned, hquiet⟩
  have hsilent : ∀ entry ∈ trace, ∀ id result, entry.op ≠ .completeJob .changeReport id result := by
    intro entry hentry id result hop
    have := hquiet entry hentry
    rw [hop] at this
    cases this
  cases res with
  | error e =>
    refine (Every.trace_of_performs (Extraction.abandon_performs .changeReport job _
      (.sink _ _ _ _) e)).mono fun more _ _ _ hmore entry hentry id result hop => ?_
    rcases List.mem_append.mp hentry with hentry | hentry
    · exact absurd hop (hsilent entry hentry id result)
    · have := hmore entry hentry
      rw [hop] at this
      cases this
  | ok f =>
    obtain ⟨rows, hrows, hrest⟩ := haligned f rfl
    refine (finish_stores job f threshold hrows).mono ?_
    rintro more res - - ⟨hcompletes, hrouted⟩ entry hentry id result hop
    rcases List.mem_append.mp hentry with hentry | hentry
    · exact absurd hop (hsilent entry hentry id result)
    · obtain ⟨hid, hresult⟩ := hcompletes entry hentry id result hop
      refine ⟨hid, f.baseText, f.amendedText, rows, hrest.mono (List.prefix_append _ _).isInfix,
        hresult, fun hres => ?_⟩
      rw [ReviewQueue.created_append, ReviewQueue.created_eq_nil fun entry hentry =>
        not_routes_of_not_ships (hquiet entry hentry), List.nil_append]
      exact hrouted true hres

/-- Every run of `run_next_change_report_job` that completes its job stores one entry for each
detected change, in order, with the explanation the model gave for its index and the impacts mapped
for it, and routes exactly the impacts below the threshold, in the entries' order. -/
theorem report_is_aligned (llm : OpenAiClient) (threshold : Rat) (l : Session) (s : Store) :
    Every exec env (runNextChangeReportJob llm threshold) l s fun trace res _ _ =>
      ∀ a id result outcome, ⟨.completeJob .changeReport id result, a, outcome⟩ ∈ trace →
        Reports env llm threshold trace res id result := by
  have hclaim : (claimNextQueued .changeReport).Performs fun o => Extraction.Op.ships o = false :=
    claimNextQueued_performs rfl fun _ => rfl
  refine Every.bind.mpr (((claimNextQueued_claimed .changeReport).and
    (Every.trace_of_performs hclaim)).mono ?_)
  rintro trace res l' t ⟨hclaimed, hquiet⟩
  have hsilent : ∀ a id result outcome,
      ⟨.completeJob .changeReport id result, a, outcome⟩ ∉ trace := by
    intro a id result outcome hentry
    cases hquiet _ hentry
  cases res with
  | error e => exact fun a id result outcome hentry => absurd hentry (hsilent a id result outcome)
  | ok found =>
    cases found with
    | none =>
      intro a id result outcome hentry
      rw [List.append_nil] at hentry
      exact absurd hentry (hsilent a id result outcome)
    | some job =>
      obtain ⟨b, hread⟩ := hclaimed job rfl
      refine (runClaimed_reports llm threshold job).mono
        fun more res _ _ hmore a id result outcome hentry => ?_
      rcases List.mem_append.mp hentry with hentry | hentry
      · exact absurd hentry (hsilent a id result outcome)
      · obtain ⟨hid, baseText, amendedText, rows, haligned, hresult, hrouted⟩ :=
          hmore _ hentry id result rfl
        refine ⟨job, baseText, amendedText, rows, ⟨b, List.mem_append_left _ hread⟩, hid,
          haligned.mono (List.suffix_append _ _).isInfix, hresult ▸ entries_reportResult _,
          fun hres => itemsOf_routed ?_⟩
        rw [ReviewQueue.created_append, ReviewQueue.created_eq_nil fun entry hentry =>
          not_routes_of_not_ships (hquiet entry hentry), List.nil_append]
        exact hrouted hres

end Runs

/-- Two versions of two clauses, the base extracted and in one chunk, and a report to be made. -/
def twoVersions : Store :=
  { Store.empty 9 with
    documents := [⟨10, 1, [], Parsing.TEXT_MIME, [], none, .parsed, 0⟩,
      ⟨11, 1, [], Parsing.TEXT_MIME, [], some 10, .parsed, 0⟩]
    texts := [⟨10, 1, "1. Pay.\n\n2. Ship.".toList, []⟩,
      ⟨11, 1, "1. Pay now.\n\n2. Ship now.".toList, []⟩]
    chunks := [⟨30, 1, 10, 0, "1. Pay.\n\n2. Ship.".toList, 0, 17, some [1]⟩]
    jobs := fun
      | .ingestion => []
      | .extraction => [{ JobRow.create 20 1 10 none 0 with
          status := .completed, result := some onePayment.modelDump }]
      | .changeReport => [.create 21 1 10 (some 11) 1]
    issued := [10, 11, 20, 21, 30] }

/-- The search and the mapping for one change, with this confidence for the one candidate. -/
def mappedWith (confidence : Rat) : List Answer :=
  [{ embed := .replied (some (some 1)) 0 [(0, [1])] }, {}, { ranking := [30] }, { ranking := [30] },
    { chat := .replied none 0 [some (.impactMapping [⟨0, confidence⟩])] }, {}]

/-- The explanations come in the other order than the changes. -/
def reportAnswers : List Answer :=
  let explanations : List ChangeExplanation :=
    [⟨1, "later".toList, .high⟩, ⟨0, "sooner".toList, .low⟩]
  let explained : List Answer := [{}, {}, {}, {},
    { chat := .replied none 0 [some (.changeExplanations explanations)] }, {}, {}]
  let finished : List Answer := [{}, {}, { ids := [40] }]
  explained ++ mappedWith (1 / 2) ++ mappedWith (9 / 10) ++ finished

def completes : Op → Bool
  | .completeJob .changeReport _ _ => true
  | _ => false

/-- A report of two changes with an impact each, one of which is doubtful. -/
theorem report_is_aligned_two : ∃ trace l' t id result,
    Runs exec Eq (@runNextChangeReportJob Ucd.ascii onePaymentPlatform
      ⟨"gpt-4o".toList, "text-embedding-3-small".toList⟩ (3 / 4)) ⟨false⟩ twoVersions trace
      (.ok true) l' t ∧
    (ReviewQueue.created trace).length = 1 ∧
    @Reports Ucd.ascii onePaymentPlatform Eq
      ⟨"gpt-4o".toList, "text-embedding-3-small".toList⟩ (3 / 4) trace (.ok true) id result := by
  have hreplay : ((Lib.replay exec (@runNextChangeReportJob Ucd.ascii onePaymentPlatform
      ⟨"gpt-4o".toList, "text-embedding-3-small".toList⟩ (3 / 4)) ⟨false⟩ twoVersions
      reportAnswers).map fun r => (r.2.1.toOption, (ReviewQueue.created r.1).length,
        r.1.any fun entry => completes entry.op)) = some (some true, 1, true) := by
    decide +kernel
  obtain ⟨⟨trace, res, l', t⟩, hr, hend⟩ := Option.map_eq_some_iff.mp hreplay
  obtain ⟨hres, hcreated⟩ := Prod.mk.inj hend
  obtain ⟨hlength, hcompletes⟩ := Prod.mk.inj hcreated
  have hrun := Lib.runs_of_replay (fun s => Eq.refl s) hr
  cases res with
  | error e => cases hres
  | ok ran =>
    cases hres
    obtain ⟨⟨o, a, outcome⟩, hentry, ho⟩ := List.any_eq_true.mp hcompletes
    cases o with
    | completeJob kind id result =>
      cases kind with
      | changeReport =>
        let := Ucd.ascii
        let := onePaymentPlatform
        exact ⟨trace, l', t, id, result, hrun, hlength,
          (Lib.every_iff_runs _ _ _ _).mp (report_is_aligned _ _ _ _) _ _ _ _ hrun a id result
            outcome hentry⟩
      | _ => cases ho
    | _ => cases ho

end ContractIntel.ChangeReport
