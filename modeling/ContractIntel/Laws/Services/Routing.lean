import ContractIntel.Laws.Services.Orphans
import ContractIntel.Laws.Services.Custody
import ContractIntel.Laws.Services.ReviewQueue
import Mathlib.Data.Fintype.Basic

/-!
# Routing once

The extraction and change report workers complete a job and then route its doubtful items, two
commits. Nothing repairs a completed job that was not routed, and nothing keeps a worker whose lease
has passed from routing what its successor routes. `routed_once` says that these are the ways in
which the items of a job are not the doubtful ones of its result, each once, and
`routed_never_or_twice` that they are.
-/

namespace ContractIntel

/-! ## Equality of JSON values -/

mutual

def Json.decEq : (a b : Json) → Decidable (a = b)
  | .null, .null => .isTrue rfl
  | .bool x, .bool y => decidable_of_iff (x = y) ⟨congrArg _, Json.bool.inj⟩
  | .num x, .num y => decidable_of_iff (x = y) ⟨congrArg _, Json.num.inj⟩
  | .str x, .str y => decidable_of_iff (x = y) ⟨congrArg _, Json.str.inj⟩
  | .arr xs, .arr ys =>
    have := Json.decEqItems xs ys
    decidable_of_iff (xs = ys) ⟨congrArg _, Json.arr.inj⟩
  | .obj xs, .obj ys =>
    have := Json.decEqFields xs ys
    decidable_of_iff (xs = ys) ⟨congrArg _, Json.obj.inj⟩
  | .null, .bool _ | .null, .num _ | .null, .str _ | .null, .arr _ | .null, .obj _
  | .bool _, .null | .bool _, .num _ | .bool _, .str _ | .bool _, .arr _ | .bool _, .obj _
  | .num _, .null | .num _, .bool _ | .num _, .str _ | .num _, .arr _ | .num _, .obj _
  | .str _, .null | .str _, .bool _ | .str _, .num _ | .str _, .arr _ | .str _, .obj _
  | .arr _, .null | .arr _, .bool _ | .arr _, .num _ | .arr _, .str _ | .arr _, .obj _
  | .obj _, .null | .obj _, .bool _ | .obj _, .num _ | .obj _, .str _ | .obj _, .arr _ =>
    .isFalse nofun

def Json.decEqItems : (xs ys : List Json) → Decidable (xs = ys)
  | [], [] => .isTrue rfl
  | [], _ :: _ | _ :: _, [] => .isFalse nofun
  | x :: xs, y :: ys =>
    have := Json.decEq x y
    have := Json.decEqItems xs ys
    decidable_of_iff (x = y ∧ xs = ys) ⟨fun ⟨h, h'⟩ => h ▸ h' ▸ rfl, List.cons.inj⟩

def Json.decEqFields : (xs ys : List (Str × Json)) → Decidable (xs = ys)
  | [], [] => .isTrue rfl
  | [], _ :: _ | _ :: _, [] => .isFalse nofun
  | (k, x) :: xs, (k', y) :: ys =>
    have := Json.decEq x y
    have := Json.decEqFields xs ys
    decidable_of_iff (k = k' ∧ x = y ∧ xs = ys)
      ⟨fun ⟨h, h', h''⟩ => h ▸ h' ▸ h'' ▸ rfl, by simp +contextual⟩

end

instance : DecidableEq Json := Json.decEq

namespace ReviewQueue

open Jobs (JobRow JobStatus)
open Lib (Along Custody Safe run)
open Lib.Prog (Performs)
open Llm (OpenAiClient)
open Repositories

variable {source : ReviewItemSource} {jobId : Uuid} {job : JobRow}
  {threshold : ReviewItemSource → Rat} {o : Op} {a : Answer} {l l' : Session} {s t u : Store}

/-! ## The items of a stored result -/

/-- `value[key]`, `null` when there is none. -/
def field (key : Str) : Json → Json
  | .obj fields => ((fields.find? (·.1 = key)).map Prod.snd).getD .null
  | _ => .null

/-- The elements of a list, the fields of a dict. -/
def elements : Json → List Json
  | .arr items => items
  | _ => []

def fields : Json → List (Str × Json)
  | .obj fields => fields
  | _ => []

/-- The confidence an item of a result carries. -/
def confidence (item : Json) : Rat :=
  match field "confidence".toList item with
  | .num value => value
  | _ => 0

/-- An impact as a reviewer is shown it, with the change it is an impact of. -/
def shown (change impact : Json) : Json :=
  .obj (fields impact ++ [("change".toList, .obj
    (["kind".toList, "clause_ref".toList, "severity".toList, "description".toList].map fun key =>
      (key, field key change)))])

/-- The items of a job's result: obligations and defined terms, or the impacts of the changes. -/
def resultItems : ReviewItemSource → Json → List (Str × Json × Rat)
  | .extraction, result =>
    ((elements (field "obligations".toList result)).map fun item =>
        ("obligation".toList, item, confidence item)) ++
      (elements (field "defined_terms".toList result)).map fun item =>
        ("defined_term".toList, item, confidence item)
  | .impactMapping, result =>
    (elements (field "changes".toList result)).flatMap fun change =>
      (elements (field "impacts".toList change)).map fun impact =>
        ("impact".toList, shown change impact, confidence impact)

theorem resultItems_extraction (extraction : ObligationExtraction) :
    resultItems .extraction extraction.modelDump = Extraction.reviewCandidates extraction := by
  unfold Extraction.reviewCandidates
  refine congrArg₂ (· ++ ·) ?_ ?_
  · exact List.map_map ..
  · exact List.map_map ..

theorem resultItems_report (baseText amendedText : Str)
    (rows : List (Diffing.Change × ChangeExplanation × List ChangeReport.ImpactEntry)) :
    resultItems .impactMapping (.obj [("changes".toList, .arr (rows.map fun row =>
      ChangeReport.reportEntry baseText amendedText row.1 row.2.1 row.2.2))]) =
      rows.flatMap fun row => ChangeReport.reviewCandidates row.1 row.2.1 row.2.2 := by
  refine (List.flatMap_map ..).trans ?_
  refine congrArg (rows.flatMap ·) (funext fun row => ?_)
  exact List.map_map ..

/-! ## Routed jobs -/

/-- What the review items of a job show. -/
def itemsOf (jobId : Uuid) (s : Store) : List (Str × Json × Rat) :=
  (s.reviewItems.filter (·.jobId = jobId)).map content

/-- The items of a job that are for review: once it is completed, those of its result whose
confidence is strictly below the threshold of the queue. -/
def due (threshold : ReviewItemSource → Rat) (source : ReviewItemSource) (job : JobRow) :
    List (Str × Json × Rat) :=
  if job.status = .completed then
    (resultItems source (job.result.getD .null)).filter fun c =>
      belowThreshold c.2.2 (threshold source)
  else []

/-- The review items of the job are those that are due, each once. -/
def AllRouted (threshold : ReviewItemSource → Rat) (jobId : Uuid) (s : Store) : Prop :=
  ∀ source : ReviewItemSource, ∀ job ∈ s.jobs source.kind, job.id = jobId →
    (itemsOf jobId s).Perm (due threshold source job)

/-- The queues whose workers route. -/
def routedQueue (kind : JobKind) : Bool := kind ≠ .ingestion

theorem routedQueue_kind (source : ReviewItemSource) : routedQueue source.kind = true := by
  cases source <;> rfl

theorem due_of_not_completed (h : job.status ≠ .completed) : due threshold source job = [] :=
  if_neg h

/-! ## What others leave alone -/

/-- The others' part of a job: its row and its items are as they were, or it is a new one. -/
structure Calm (jobId : Uuid) (s t : Store) : Prop where
  later : Later s t
  rows : ∀ source : ReviewItemSource, ∀ job ∈ t.jobs source.kind, job.id = jobId →
    job ∈ s.jobs source.kind ∧ itemsOf jobId t = itemsOf jobId s ∨
      jobId ∉ s.issued ∧ job.status = .queued ∧ itemsOf jobId t = []

namespace Calm

theorem refl (jobId : Uuid) (s : Store) : Calm jobId s s :=
  ⟨.refl s, fun _ _ hjob _ => .inl ⟨hjob, rfl⟩⟩

theorem trans (h : Calm jobId s t) (h' : Calm jobId t u) : Calm jobId s u := by
  refine ⟨h.later.trans h'.later, fun source job hjob hid => ?_⟩
  rcases h'.rows source job hjob hid with ⟨hjob, hitems⟩ | ⟨hnew, hqueued, hitems⟩
  · rw [hitems]
    exact h.rows source job hjob hid
  · exact .inr ⟨fun hissued => hnew (h.later.issued _ hissued), hqueued, hitems⟩

theorem tick (jobId : Uuid) (elapsed : Time) (s : Store) : Calm jobId s (s.tick elapsed) :=
  ⟨later_tick elapsed s, fun _ _ hjob _ => .inl ⟨hjob, rfl⟩⟩

theorem allRouted (h : Calm jobId s t) (hrouted : AllRouted threshold jobId s) :
    AllRouted threshold jobId t := by
  intro source job hjob hid
  rcases h.rows source job hjob hid with ⟨hjob, hitems⟩ | ⟨-, hqueued, hitems⟩
  · rw [hitems]
    exact hrouted source job hjob hid
  · rw [hitems, due_of_not_completed (by simp [hqueued])]

/-- Whatever keeps the jobs' rows and the items of this one. -/
theorem of_same (hlater : Later s t)
    (hjobs : ∀ source : ReviewItemSource, t.jobs source.kind = s.jobs source.kind)
    (hitems : itemsOf jobId t = itemsOf jobId s) : Calm jobId s t :=
  ⟨hlater, fun source _ hjob _ => .inl ⟨hjobs source ▸ hjob, hitems⟩⟩

end Calm

theorem itemsOf_append (jobId : Uuid) (s : Store) (rows : List ReviewItemRow) (ids : List Uuid) :
    itemsOf jobId { s with reviewItems := s.reviewItems ++ rows, issued := ids } =
      itemsOf jobId s ++ (rows.filter (·.jobId = jobId)).map content := by
  simp [itemsOf]

/-- A job that survives a delete of a document is no report of it. -/
theorem not_mem_reportsOfAmendment {documentId : Uuid} (hswept : Swept documentId s t) (hs : Linked s)
    (hjob : job ∈ t.jobs source.kind) : job.id ∉ s.reportsOfAmendment documentId := by
  intro hmem
  obtain ⟨report, hreport, hid⟩ := List.mem_map.mp hmem
  obtain ⟨hreport, hamended⟩ := List.mem_filter.mp hreport
  have hold := (hswept.mem_jobs hjob).1
  have hkind := hs.jobKinds _ report hreport _ job hold hid
  rw [← hkind] at hold hjob
  rw [Jobs.eq_of_id_eq (hs.jobKeys _).1 hreport hold hid] at hamended
  rw [hswept.reports, List.mem_filter] at hjob
  simp_all

/-- The items of a job that survives a delete survive it. -/
theorem itemsOf_swept {documentId : Uuid} (hswept : Swept documentId s t) (hs : Linked s)
    (hjob : job ∈ t.jobs source.kind) : itemsOf job.id t = itemsOf job.id s := by
  obtain ⟨hold, hdocument⟩ := hswept.mem_jobs hjob
  have hreport := not_mem_reportsOfAmendment hswept hs hjob
  unfold itemsOf
  rw [hswept.reviewItems, List.filter_filter]
  congr 1
  refine List.filter_congr fun item hitem => ?_
  by_cases hid : item.jobId = job.id
  · have hsame := ((hs.items item hitem).2.rows _ job hold hid.symm).2.2
    simp [hid, hreport, ← hsame, hdocument]
  · simp [hid]

/-- A resolution shows a reviewer what was shown before. -/
theorem itemsOf_resolved {tenantId itemId : Uuid} {status : ReviewItemStatus}
    {correctedValues : Option Json} (jobId : Uuid) (s : Store) :
    itemsOf jobId
      { s with reviewItems := s.reviewItems.map fun item =>
          if Store.resolvable tenantId itemId item then
            Store.resolved status correctedValues s.now item
          else item } = itemsOf jobId s := by
  unfold itemsOf
  dsimp only
  rw [List.filter_map, List.map_map]
  refine (List.map_congr_left fun item _ => ?_).trans
    (congrArg _ (List.filter_congr fun item _ => ?_))
  · rw [Function.comp_apply]
    split <;> rfl
  · rw [Function.comp_apply]
    split <;> rfl

/-- What writes for no job of the two queues leaves every job alone. -/
theorem calm_of_effect (h : Effect o a s t) (hs : Linked s) (ho : o.advances routedQueue = false)
    (jobId : Uuid) : Calm jobId s t := by
  have hlater := h.later
  cases h with
  | deleteSweep hok =>
    have hswept := Store.swept_of_deleteSweep hok
    refine ⟨hlater, fun source job hjob hid => .inl ⟨(hswept.mem_jobs hjob).1, ?_⟩⟩
    rw [← hid]
    exact itemsOf_swept hswept hs hjob
  | insertJob hnew =>
    refine ⟨hlater, fun source job hjob hid => ?_⟩
    rcases of_mem_insertJob hjob with hold | ⟨-, rfl⟩
    · exact .inl ⟨hold, rfl⟩
    · -- no item carries an id that was not in use
      have hnew : jobId ∉ s.issued := hid ▸ hnew ▸ draw_not_mem _ _
      refine .inr ⟨hnew, rfl, ?_⟩
      refine List.map_eq_nil_iff.mpr (List.filter_eq_nil_iff.mpr fun item hitem => ?_)
      rw [decide_eq_true_eq]
      rintro rfl
      exact hnew (hs.items item hitem).2.issued
  | resolveReviewItem => exact .of_same hlater (fun _ => rfl) (itemsOf_resolved jobId s)
  | insertReviewItems =>
    simp only [Op.advances, routedQueue_kind] at ho
    cases ho
  | claimJob | completeJob | failJob =>
    refine .of_same hlater (fun source => ?_) rfl
    rw [withJobs_jobs, if_neg]
    rintro rfl
    simp only [Op.advances, routedQueue_kind] at ho
    cases ho
  | _ => exact .of_same hlater (fun _ => rfl) rfl

/-- A write to the row of a job leaves the other jobs alone. -/
theorem calm_updateRow {f : JobRow → JobRow} (kind : JobKind)
    (hlater : Later s (s.withJobs kind (Jobs.updateRow jobId f (s.jobs kind))))
    (hf : ∀ job, (f job).id = job.id) {other : Uuid} (hother : jobId ≠ other) :
    Calm other s (s.withJobs kind (Jobs.updateRow jobId f (s.jobs kind))) := by
  refine ⟨hlater, fun source row hrow hid => .inl ⟨?_, rfl⟩⟩
  rw [withJobs_jobs] at hrow
  split at hrow
  next hkind =>
    obtain ⟨old, hold, rfl⟩ := List.mem_map.mp hrow
    by_cases hmine : old.id = jobId
    · rw [if_pos hmine, hf] at hid
      exact absurd (hmine.symm.trans hid) hother
    · rw [if_neg hmine, hkind]
      exact hold
  next => exact hrow

/-- What a worker owes that holds a job: its review items. -/
def routingCustody (threshold : ReviewItemSource → Rat) : Custody exec Store.tick JobRow Uuid where
  Inv := Linked
  takes := handedOut routedQueue
  Taking o := ∃ kind, routedQueue kind = true ∧ o = .claimJob kind
  Fit _ _ := True
  Concerns job jobId := job.id = jobId
  Good := AllRouted threshold
  Calm := Calm
  Served a := a.refusal = none
  taking_of_takes _ _ _ h := exists_of_handedOut h
  calm_refl := .refl
  calm_trans _ _ _ _ := .trans
  calm_drift jobId elapsed s := .tick jobId elapsed s
  good_of_calm _ _ _ _ _ h := h.allRouted

/-! ## The job in hand -/

/-- The job a worker holds: what its row and its items are, if it still has a row. -/
structure Stage (source : ReviewItemSource) (job : JobRow)
    (P : JobRow → List (Str × Json × Rat) → Prop) (s : Store) : Prop where
  known : Known source.kind job s
  row : ∀ row ∈ s.jobs source.kind, row.id = job.id → P row (itemsOf job.id s)

/-- The job is not completed and nothing is routed. -/
def Open (row : JobRow) (items : List (Str × Json × Rat)) : Prop :=
  row.status ≠ .completed ∧ items = []

/-- The job is completed with this result, and nothing is routed. -/
def Unrouted (result : Json) (row : JobRow) (items : List (Str × Json × Rat)) : Prop :=
  row.status = .completed ∧ row.result = some result ∧ items = []

/-- The items are those that are due. -/
def Closed (threshold : ReviewItemSource → Rat) (source : ReviewItemSource) (row : JobRow)
    (items : List (Str × Json × Rat)) : Prop :=
  items.Perm (due threshold source row)

theorem kind_injective {source source' : ReviewItemSource} (h : source'.kind = source.kind) :
    source' = source := by
  cases source <;> cases source' <;> first | rfl | cases h

namespace Stage

variable {P P' : JobRow → List (Str × Json × Rat) → Prop}

theorem calm (h : Stage source job P s) (hcalm : Calm job.id s t) : Stage source job P t := by
  refine ⟨h.known.later hcalm.later, fun row hrow hid => ?_⟩
  rcases hcalm.rows source row hrow hid with ⟨hold, hitems⟩ | ⟨hnew, -, -⟩
  · rw [hitems]
    exact h.row row hold hid
  · exact absurd h.known.ofJob.issued hnew

theorem mono (h : Stage source job P s) (hP : ∀ row items, P row items → P' row items) :
    Stage source job P' s :=
  ⟨h.known, fun row hrow hid => hP _ _ (h.row row hrow hid)⟩

theorem allRouted (h : Stage source job (Closed threshold source) s) :
    AllRouted threshold job.id s := by
  intro source' row hrow hid
  obtain rfl := kind_injective (h.known.ofJob.rows _ row hrow hid).1
  exact h.row row hrow hid

theorem allRouted_open (h : Stage source job Open s) : AllRouted threshold job.id s := by
  have hclosed : Stage source job (Closed threshold source) s :=
    h.mono fun row items ⟨hopen, hnone⟩ => by rw [Closed, hnone, due_of_not_completed hopen]
  exact hclosed.allRouted

/-- A job whose row is gone has nothing due. -/
theorem allRouted_gone (h : Stage source job P s)
    (hgone : ∀ row ∈ s.jobs source.kind, row.id ≠ job.id) : AllRouted threshold job.id s :=
  allRouted ⟨h.known, fun row hrow hid => absurd hid (hgone row hrow)⟩

/-- A write to the row of the job in hand. -/
theorem updateRow {f : JobRow → JobRow} (h : Stage source job P s)
    (hlater : Later s (s.withJobs source.kind (Jobs.updateRow job.id f (s.jobs source.kind))))
    (hP : ∀ row items, P row items → P' (f row) items) :
    Stage source job P'
      (s.withJobs source.kind (Jobs.updateRow job.id f (s.jobs source.kind))) := by
  refine ⟨h.known.later hlater, fun row hrow hid => ?_⟩
  rw [withJobs_jobs, if_pos rfl] at hrow
  obtain ⟨old, hold, rfl⟩ := List.mem_map.mp hrow
  by_cases hmine : old.id = job.id
  · rw [if_pos hmine]
    exact hP old _ (h.row old hold hmine)
  · rw [if_neg hmine] at hid
    exact absurd hid hmine

end Stage

/-! ## What a worker owes -/

/-- The worker that holds the job, among others that leave it alone. -/
abbrev Owing {α : Type} (threshold : ReviewItemSource → Rat) (job : JobRow) (p : Service α)
    (l : Session) (s : Store) (Q : Except Exn α → Session → Store → Prop) : Prop :=
  Safe ((routingCustody threshold).holding job) p l s Q

section Owing

variable {P : JobRow → List (Str × Json × Rat) → Prop}

/-- One operation of the holder: what it finds, and that it leaves other jobs alone. -/
theorem call_owing {Q : Except Exn o.Res → Session → Store → Prop} (h : Stage source job P s)
    (htaking : ∀ kind, o ≠ .claimJob kind)
    (hop : ∀ t a, Linked t → (a.refusal = none ∨ AllRouted threshold job.id t) →
      Stage source job P t → (∀ other, job.id ≠ other → Calm other t (exec o a l t).2.2) ∧
        Q (exec o a l t).1 (exec o a l t).2.1 (exec o a l t).2.2) :
    Owing threshold job (perform o) l s Q := by
  refine Safe.call.mpr ?_
  rintro t a hrely - ⟨hlinked, hallowed⟩
  obtain ⟨hothers, hQ⟩ := hop t a hlinked (hallowed.imp_right fun h => h _ rfl)
    (h.calm (hrely _ rfl))
  exact ⟨trivial, ⟨fun ⟨kind, _, ho⟩ => htaking kind ho, fun other hother => hothers other hother⟩,
    hQ⟩

/-- Operations that write for no job leave what the worker knows. -/
theorem aloof_owing {α : Type} {p : Service α} (hp : Aloof routedQueue p)
    (h : Stage source job P s) :
    Owing threshold job p l s fun _ _ t => Stage source job P t := by
  refine Safe.of_performs hp (fun _ _ _ hrely h => h.calm (hrely _ rfl)) ?_ h
  intro o t a l ho _ hallowed hstage
  have hcalm := calm_of_effect (exec_effect o a l t) hallowed.1 ho
  refine ⟨trivial, ⟨?_, fun other _ => hcalm other⟩, hstage.calm (hcalm _)⟩
  rintro ⟨kind, htracked, rfl⟩
  cases ho.symm.trans htracked

/-- `refresh` of the job in hand, on a live session or while nothing is due. -/
theorem refreshJob_owing (hgood : l.failed = false ∨ ∀ t, Stage source job P t →
      AllRouted threshold job.id t) (h : Stage source job P s) :
    Owing threshold job (refreshJob source.kind job.id) l s fun res l' t =>
      (∀ row, res = .ok row → l' = l ∧ Stage source job P t ∧ row ∈ t.jobs source.kind ∧
        row.id = job.id) ∧
      ∀ e, res = .error e → AllRouted threshold job.id t := by
  have hread : Owing threshold job (perform (.readJob source.kind job.id)) l s fun res l' t =>
      Stage source job P t ∧
      (∀ found, res = .ok found → l' = l ∧ Jobs.row? job.id (t.jobs source.kind) = found) ∧
      ∀ e, res = .error e → AllRouted threshold job.id t := by
    refine call_owing h (fun _ h => by cases h) fun t a hlinked hallowed hstage => ?_
    refine ⟨fun other _ => calm_of_effect (exec_effect _ a l t) hlinked rfl other, ?_⟩
    rw [exec]
    rcases query_cases (fun s => Jobs.row? job.id (s.jobs source.kind)) a l t with ⟨e, heq⟩ | heq
    · rw [heq]
      refine ⟨hstage, (fun _ h => by cases h), fun _ _ => ?_⟩
      rcases hgood with hl | hgood
      · refine hallowed.resolve_left fun hserved => ?_
        rw [query_served _ hl hserved] at heq
        cases heq
      · exact hgood t hstage
    · rw [heq]
      refine ⟨hstage, ?_, fun _ h => by cases h⟩
      rintro _ ⟨⟩
      exact ⟨rfl, rfl⟩
  refine Safe.bind.mpr (hread.mono ?_)
  rintro res l' t ⟨hstage, hok, herror⟩
  cases res with
  | error e => exact ⟨(fun _ h => by cases h), fun _ _ => herror e rfl⟩
  | ok found =>
    obtain ⟨rfl, hread⟩ := hok found rfl
    cases found with
    | none =>
      refine ⟨(fun _ h => by cases h), fun _ _ => hstage.allRouted_gone fun row hrow hid => ?_⟩
      exact List.find?_eq_none.mp hread row hrow (decide_eq_true hid)
    | some row =>
      refine ⟨?_, fun _ h => by cases h⟩
      rintro _ ⟨⟩
      exact ⟨rfl, hstage, Jobs.row?_mem hread⟩

/-- A terminal write and the `refresh` after it. -/
theorem marked_owing {f : JobRow → JobRow} {r : o.Res}
    {P' : JobRow → List (Str × Json × Rat) → Prop} (htaking : ∀ kind, o ≠ .claimJob kind)
    (hcases : ∀ a t, (∃ e, exec o a l t = (.error e, ⟨true⟩, t)) ∨ l.failed = false ∧
      exec o a l t = (.ok r, l,
        t.withJobs source.kind (Jobs.updateRow job.id f (t.jobs source.kind))))
    (hf : ∀ row, (f row).id = row.id) (hP : ∀ row items, Open row items → P' (f row) items)
    (h : Stage source job Open s) :
    Owing threshold job ((perform o).bind fun _ => refreshJob source.kind job.id) l s
      fun res l' t => (∀ row, res = .ok row → l' = l ∧ l.failed = false ∧
        Stage source job P' t ∧ row ∈ t.jobs source.kind ∧ row.id = job.id) ∧
      ∀ e, res = .error e → AllRouted threshold job.id t := by
  have hwrite : Owing threshold job (perform o) l s fun res l' t =>
      (∀ r, res = .ok r → l' = l ∧ l.failed = false ∧ Stage source job P' t) ∧
      ∀ e, res = .error e → AllRouted threshold job.id t := by
    refine call_owing h htaking fun t a _ _ hstage => ?_
    have heffect := exec_effect o a l t
    rcases hcases a t with ⟨e, heq⟩ | ⟨hl, heq⟩
    · rw [heq]
      exact ⟨fun other _ => .refl other t, nofun, fun _ _ => hstage.allRouted_open⟩
    · rw [heq] at heffect ⊢
      refine ⟨fun other hother => ?_, fun _ _ => ⟨rfl, hl, ?_⟩, nofun⟩
      · exact calm_updateRow source.kind heffect.later hf hother
      · exact hstage.updateRow heffect.later hP
  refine Safe.bind_of hwrite (fun _ l' t hmarked => ?_) fun e l' t hrouted => ?_
  · obtain ⟨rfl, hl, hstage⟩ := hmarked
    refine (refreshJob_owing (.inl hl) hstage).mono ?_
    rintro res l'' u ⟨hok, herror⟩
    refine ⟨fun row hrow => ?_, herror⟩
    obtain ⟨rfl, hstage, hmem⟩ := hok row hrow
    exact ⟨rfl, hl, hstage, hmem⟩
  · exact ⟨(fun _ h => by cases h), fun _ _ => hrouted⟩

theorem markCompleted_owing {row : JobRow} (hid : row.id = job.id) (result : Json)
    (h : Stage source job Open s) :
    Owing threshold job (markCompleted source.kind row result) l s fun res l' t =>
      (∀ row, res = .ok row → l' = l ∧ l.failed = false ∧ Stage source job (Unrouted result) t ∧
        row ∈ t.jobs source.kind ∧ row.id = job.id) ∧
      ∀ e, res = .error e → AllRouted threshold job.id t := by
  unfold markCompleted
  rw [hid]
  exact marked_owing (fun _ => nofun)
    (fun a t => completeJob_cases source.kind job.id result a l t) (fun _ => rfl)
    (fun row items h => ⟨rfl, rfl, h.2⟩) h

theorem markFailed_owing {row : JobRow} (hid : row.id = job.id) (error : Str)
    (h : Stage source job Open s) :
    Owing threshold job (markFailed source.kind row error) l s fun res l' t =>
      (∀ row, res = .ok row → l' = l ∧ l.failed = false ∧ Stage source job Open t ∧
        row ∈ t.jobs source.kind ∧ row.id = job.id) ∧
      ∀ e, res = .error e → AllRouted threshold job.id t := by
  unfold markFailed
  rw [hid]
  exact marked_owing (fun _ => nofun) (fun a t => failJob_cases source.kind job.id error a l t)
    (fun _ => rfl) (fun row items h => ⟨nofun, h.2⟩) h

/-- What a pass owes, whatever it ends in. -/
abbrev Settles {α : Type} (threshold : ReviewItemSource → Rat) (job : JobRow) (p : Service α)
    (l : Session) (s : Store) : Prop :=
  Owing threshold job p l s fun _ _ t => AllRouted threshold job.id t

/-- Inserting the doubtful items of a completed job routes it. -/
theorem stage_insertReviewItems {tenantId documentId : Uuid} {result : Json}
    {items : List (Str × Json × Rat)} {rows : List ReviewItemRow} {drawn : List Uuid}
    {began : Time}
    (h : Stage source job (Unrouted result) s)
    (hitems : items = (resultItems source result).filter fun c =>
      belowThreshold c.2.2 (threshold source))
    (hlater : Later s t)
    (hok : s.insertReviewItems tenantId source documentId job.id items drawn began = .ok (rows, t)) :
    Stage source job (Closed threshold source) t ∧
      ∀ other, job.id ≠ other → Calm other s t := by
  have hrouted := routed_insertReviewItems hok
  have hitemsOf : ∀ other, itemsOf other t =
      itemsOf other s ++ (rows.filter (·.jobId = other)).map content := by
    intro other
    simp only [Store.insertReviewItems] at hok
    split at hok
    · cases hok
    · cases hok
      exact itemsOf_append ..
  have hjobs : t.jobs = s.jobs := by
    simp only [Store.insertReviewItems] at hok
    split at hok
    · cases hok
    · cases hok
      rfl
  refine ⟨⟨h.known.later hlater, fun row hrow hid => ?_⟩, fun other hother =>
    .of_same hlater (fun _ => by rw [hjobs]) ?_⟩
  · rw [hjobs] at hrow
    obtain ⟨hcompleted, hresult, hnone⟩ := h.row row hrow hid
    have hall : rows.filter (·.jobId = job.id) = rows :=
      List.filter_eq_self.mpr fun item hitem => decide_eq_true (hrouted.labels item hitem).2.2.2
    rw [Closed, hitemsOf, hnone, List.nil_append, hall, hrouted.contents, hitems, due,
      if_pos hcompleted, hresult]
    rfl
  · have hothers : rows.filter (·.jobId = other) = [] :=
      List.filter_eq_nil_iff.mpr fun item hitem => by
        rw [decide_eq_true_eq, (hrouted.labels item hitem).2.2.2]
        exact hother
    rw [hitemsOf, hothers, List.map_nil, List.append_nil]

theorem routeForReview_owing {row : JobRow} {result : Json} (hid : row.id = job.id)
    (hdocument : row.documentId = job.documentId) (hl : l.failed = false)
    (h : Stage source job (Unrouted result) s) :
    Settles threshold job (routeForReview row.tenantId source row.documentId row.id
      (resultItems source result) (threshold source)) l s := by
  unfold routeForReview
  dsimp only
  split
  next hnone =>
    have hclosed : Stage source job (Closed threshold source) s :=
      h.mono fun row items ⟨hcompleted, hresult, hitems⟩ => by
        rw [Closed, hitems, due, if_pos hcompleted, hresult, Option.getD_some, hnone]
    exact hclosed.allRouted
  next =>
    rw [hid, hdocument]
    refine Safe.bind_ret (call_owing h (fun _ => nofun) fun t a hlinked hallowed hstage => ?_)
    have heffect := exec_effect (.insertReviewItems row.tenantId source job.documentId job.id
      ((resultItems source result).filter fun c => belowThreshold c.2.2 (threshold source))) a l t
    rw [exec] at heffect ⊢
    rcases statement_cases (Store.insertReviewItems row.tenantId source job.documentId job.id
      ((resultItems source result).filter fun c => belowThreshold c.2.2 (threshold source)) a.ids
      a.began) a l t with
      ⟨e, heq, -⟩ | ⟨rows, u, -, -, hok, heq⟩
    · rw [heq]
      refine ⟨fun other _ => .refl other t, ?_⟩
      refine hallowed.elim (fun hserved => ?_) id
      -- the document is gone, and its jobs with it
      have hbody := statement_served hl hserved (congrArg Prod.fst heq)
      refine hstage.allRouted_gone fun row hrow hsame => ?_
      obtain ⟨d, hd, hid, -⟩ := hlinked.jobs _ row hrow
      rw [(hstage.known.ofJob.rows _ row hrow hsame).2.2] at hid
      simp only [Store.insertReviewItems] at hbody
      split at hbody
      next hnone =>
        rw [Option.isNone_iff_eq_none] at hnone
        exact List.find?_eq_none.mp hnone d hd (decide_eq_true hid)
      · cases hbody
    · rw [heq] at heffect ⊢
      obtain ⟨hclosed, hothers⟩ := stage_insertReviewItems hstage rfl heffect.later hok
      exact ⟨hothers, hclosed.allRouted⟩

/-- After the `try`: the job, then the review items. -/
theorem finish_owing {row : JobRow} {result : Json} {candidates : List (Str × Json × Rat)}
    (hid : row.id = job.id) (hdocument : row.documentId = job.documentId)
    (hcandidates : resultItems source result = candidates) (h : Stage source job Open s) :
    Settles threshold job (do
      let _job ← markCompleted source.kind row result
      let _count ← routeForReview row.tenantId source row.documentId row.id candidates
        (threshold source)
      return true) l s := by
  refine Safe.bind_of (markCompleted_owing hid result h) (fun _ l' t hmarked => ?_)
    fun _ _ _ hrouted => hrouted
  obtain ⟨rfl, hl, hstage, -⟩ := hmarked
  rw [← hcandidates]
  exact (routeForReview_owing hid hdocument hl hstage).bind_ret

theorem abandon_owing {row : JobRow} (hid : row.id = job.id) {usageSink : Llm.UsageSink}
    (hsink : ∀ usage, TryProgram (usageSink usage)) (e : Exn) (h : Stage source job Open s) :
    Settles threshold job (Extraction.abandon source.kind row usageSink e) l s := by
  unfold Extraction.abandon
  split
  · refine Safe.bind_of (markFailed_owing hid e.str h) (fun _ l' t hmarked => ?_)
      fun _ _ _ hrouted => hrouted
    obtain ⟨-, -, hstage, -⟩ := hmarked
    exact Safe.bind_ret ((aloof_owing (TryProgram.accountRejectedOutput hsink e).aloof
      hstage).mono fun _ _ _ hopen => hopen.allRouted_open)
  · exact h.allRouted_open

end Owing

/-! ## Passes -/

section Passes

/-- A claim opens a job that had nothing due. -/
theorem stage_claim {locked : List Uuid} (hlinked : Linked s)
    (hnext : Jobs.nextRunnable s.now locked (s.jobs source.kind) = some job)
    (hlater : Later s (s.withJobs source.kind
      (Jobs.updateRow job.id (Jobs.claim s.now) (s.jobs source.kind))))
    (hgood : AllRouted threshold (Jobs.claim s.now job).id s) :
    Stage source (Jobs.claim s.now job) Open (s.withJobs source.kind
      (Jobs.updateRow job.id (Jobs.claim s.now) (s.jobs source.kind))) := by
  obtain ⟨hjob, heligible, -⟩ := Jobs.nextRunnable_mem hnext
  have hlink := JobRow.link_eq_iff.mp (link_claim s.now job)
  have hopen : Stage source (Jobs.claim s.now job) (fun _ items => items = []) s := by
    refine ⟨⟨?_, ?_⟩, fun row hrow hid => ?_⟩
    · rw [hlink.1, hlink.2.1, hlink.2.2.1]
      exact hlinked.jobOf hjob
    · rw [hlink.2.1, hlink.2.2.1]
      exact hlinked.owned (hlinked.jobs _ job hjob)
    · have hsame := Jobs.eq_of_id_eq (hlinked.jobKeys _).1 hrow hjob (hid.trans hlink.1)
      have hnone : due threshold source row = [] := by
        refine due_of_not_completed fun hcompleted => Jobs.not_terminal_of_eligible heligible ?_
        simp [JobRow.terminal, ← hsame, hcompleted]
      exact (hnone ▸ hgood source row hrow hid).eq_nil
  rw [← hlink.1] at hlater ⊢
  refine hopen.updateRow hlater fun row items hitems => ⟨?_, hitems⟩
  unfold Jobs.claim
  split <;> exact fun h => by cases h

/-- A worker over one of the queues. -/
theorem worker_idle (source : ReviewItemSource) (f : JobRow → Service Bool)
    (hsettles : ∀ job row l s, row.id = job.id → row.documentId = job.documentId →
      Stage source job Open s → Settles threshold job (f row) l s) :
    (routingCustody threshold).Idle ((do
      match ← claimNextQueued source.kind with
      | none => return false
      | some job => f job) >>= fun _ => (return () : Service Unit)) := by
  rw [Lib.Prog.bind_eq, Lib.Prog.bind_eq, Lib.Prog.bind_assoc]
  refine claim_idle rfl (routedQueue_kind source) trivial ?_
  rintro locked l s _ job hlinked hl hnext rfl hlater - hgood
  have hstage := stage_claim hlinked hnext hlater (hgood _ rfl)
  refine ⟨fun other hother => calm_updateRow source.kind hlater (fun _ => Jobs.claim_id) fun hid =>
    hother (Jobs.claim_id.trans hid), ?_⟩
  refine Safe.bind_of (refreshJob_owing (.inl hl) hstage) (fun row l' t hread => ?_)
    fun e l' t hrouted => ?_
  · obtain ⟨-, hstage, hrow, hid⟩ := hread
    have hdocument := (hstage.known.ofJob.rows _ row hrow hid).2.2
    refine Safe.mono (Safe.bind_ret (hsettles _ row l' t hid hdocument hstage)) ?_
    rintro _ _ u hrouted - _ rfl
    exact hrouted
  · rintro - _ rfl
    exact hrouted

theorem extractionWorker_idle (llm : OpenAiClient) : (routingCustody threshold).Idle
    (Extraction.runNextExtractionJob llm (threshold .extraction) >>= fun _ =>
      (return () : Service Unit)) := by
  refine worker_idle .extraction (Extraction.runClaimed llm (threshold .extraction))
    fun job row l s hid hdocument h => ?_
  unfold Extraction.runClaimed
  split
  · exact Stage.allRouted_open h
  · refine Safe.attempt_bind.mpr ((aloof_owing (TryProgram.extract llm row
      (.sink _ _ _ _)).aloof h).mono fun res l' t hstage => ?_)
    cases res with
    | error e => exact abandon_owing hid (.sink _ _ _ _) e hstage
    | ok extraction => exact finish_owing hid hdocument (resultItems_extraction _) hstage

theorem changeReportWorker_idle [Ucd] [Platform] (llm : OpenAiClient) :
    (routingCustody threshold).Idle (ChangeReport.runNextChangeReportJob llm (threshold .impactMapping) >>= fun _ =>
      (return () : Service Unit)) := by
  refine worker_idle .impactMapping (ChangeReport.runClaimed llm (threshold .impactMapping))
    fun job row l s hid hdocument h => ?_
  unfold ChangeReport.runClaimed
  split
  · exact Stage.allRouted_open h
  · refine Safe.attempt_bind.mpr ((aloof_owing (TryProgram.examine llm row
      (.sink _ _ _ _)).aloof h).mono fun res l' t hstage => ?_)
    cases res with
    | error e => exact abandon_owing hid (.sink _ _ _ _) e hstage
    | ok findings =>
      have hzipped : Aloof routedQueue (lift findings.zipped) := .ofResult _
      refine Safe.bind.mpr ((aloof_owing hzipped hstage).mono fun res l'' u hstage => ?_)
      cases res with
      | error e => exact hstage.allRouted_open
      | ok rows => exact finish_owing hid hdocument (resultItems_report _ _ rows) hstage

/-- Only the workers of the two queues have anything to do with the routing. -/
theorem party_idle [Ucd] [Platform] (party : Party)
    (hthreshold : ∀ source value, party.reviewThreshold = some (source, value) →
      value = threshold source) :
    (routingCustody threshold).Idle party.program := by
  have haside (h : ∀ k, party.queue = some k → routedQueue k = false) :
      (routingCustody threshold).Idle party.program := by
    refine Custody.Idle.of_performs (Aloof.party h) fun o ho => ⟨?_, fun a l s hlinked jobId =>
      calm_of_effect (exec_effect o a l s) hlinked ho jobId⟩
    rintro ⟨kind, htracked, rfl⟩
    cases ho.symm.trans htracked
  match party with
  | .activity (.extractionWorker llm value) =>
    exact hthreshold _ value rfl ▸ extractionWorker_idle llm
  | .changeReportWorker llm value => exact hthreshold _ value rfl ▸ changeReportWorker_idle llm
  | .documents _ | .activity (.enqueueIngestion ..) | .activity (.enqueueExtraction ..)
  | .enqueueChangeReport .. | .resolveReviewItem .. => exact haside nofun
  | .activity (.ingestionWorker ..) =>
    refine haside fun k hk => ?_
    cases hk
    rfl

end Passes

/-! ## Runs -/

section Runs

instance : Decidable (AllRouted threshold jobId s) :=
  decidable_of_iff
    ((∀ job ∈ s.jobs .extraction, job.id = jobId →
        (itemsOf jobId s).Perm (due threshold .extraction job)) ∧
      ∀ job ∈ s.jobs .changeReport, job.id = jobId →
        (itemsOf jobId s).Perm (due threshold .impactMapping job))
    ⟨fun h source => match source with
      | .extraction => h.1
      | .impactMapping => h.2,
    fun h => ⟨h .extraction, h .impactMapping⟩⟩

variable {ι : Type} {w : Watched ι}

/-- The turns that route once. No job is handed out that another worker has in hand; and no worker
crashes, or is refused a statement, while the job it holds is completed and not routed. -/
def RoutesOnce (threshold : ReviewItemSource → Rat) (w : Watched ι) : Turn ι → Prop
  | .act i a => (∀ row ∈ nextJob routedQueue w i a, ∀ j, ∀ job ∈ w.held j, job.id ≠ row.id) ∧
      (a.refusal = none ∨ ∀ job ∈ w.held i, AllRouted threshold job.id w.pool.store)
  | .drift _ => True
  | .crash i => ∀ job ∈ w.held i, AllRouted threshold job.id w.pool.store

instance [Fintype ι] (w : Watched ι) : (turn : Turn ι) → Decidable (RoutesOnce threshold w turn)
  | .act i a => inferInstanceAs (Decidable
      ((∀ row ∈ nextJob routedQueue w i a, ∀ j, ∀ job ∈ w.held j, job.id ≠ row.id) ∧
        (a.refusal = none ∨ ∀ job ∈ w.held i, AllRouted threshold job.id w.pool.store)))
  | .drift _ => .isTrue trivial
  | .crash i =>
    inferInstanceAs (Decidable (∀ job ∈ w.held i, AllRouted threshold job.id w.pool.store))

theorem RoutesOnce.orderly {turn : Turn ι} (h : RoutesOnce threshold w turn) :
    (routingCustody threshold).Orderly w turn := by
  cases turn with
  | act i a =>
    intro l o next hi
    refine ⟨fun job htakes => ?_, fun job hheld => h.2.imp_right fun hrouted => ?_⟩
    · obtain ⟨row, hrow, rfl⟩ := mem_nextJob hi htakes
      refine ⟨trivial, fun j job hj jobId hid hid' => ?_⟩
      exact h.1 row hrow j job hj (hid'.trans (hid.symm.trans Jobs.claim_id))
    · rintro _ rfl
      exact hrouted job hheld
  | drift elapsed => trivial
  | crash i =>
    rintro job hheld _ rfl
    exact h job hheld

/-- In every run of any parties, one threshold for each queue, whose turns route once, the review items of a
job that no worker has in hand are those that are due, each once. -/
theorem routed_once [DecidableEq ι] [Ucd] [Platform] {members : ι → Option Party}
    {turns : List (Turn ι)}
    (hthreshold : ∀ i party, members i = some party →
      ∀ source value, party.reviewThreshold = some (source, value) → value = threshold source)
    (hlinked : Linked s) (hstart : ∀ jobId, AllRouted threshold jobId s)
    (honce : Along (Watched.step routedQueue) (RoutesOnce threshold) (watch s members) turns)
    (hrun : run (Watched.step routedQueue) (watch s members) turns = some w)
    (hfree : ∀ i, ∀ job ∈ w.held i, job.id ≠ jobId) : AllRouted threshold jobId w.pool.store :=
  (custody_of_run rfl rfl (fun i party hi => party_idle party (hthreshold i party hi)) hlinked
    hstart (honce.mono fun _ _ => RoutesOnce.orderly) hrun).2.free jobId hfree

end Runs

/-! ## A crash between the two commits, and a worker past its lease -/

/-- Two workers over the reports. -/
def reportWorkers : Fin 2 → Option Party
  | _ => some (.changeReportWorker ⟨"gpt-4o".toList, "text-embedding-3-small".toList⟩ 1)

/-- A worker's examination of the report, from the claim to one doubtful impact. -/
def reportExamined (i : Fin 2) : List (Turn (Fin 2)) :=
  [.act i {}, .act i {}, .act i {}, .act i {},
    .act i { chat := .replied none 0 [some (.changeExplanations [⟨0, [], .low⟩])] },
    .act i {}, .act i {}, .act i { embed := .replied none 0 [(0, [])] }, .act i {},
    .act i { ranking := [40] }, .act i {},
    .act i { chat := .replied none 0 [some (.impactMapping [⟨0, 1 / 2⟩])] }, .act i {}]

/-- The first commit and its `refresh`, and the second commit. -/
def reportCompleted (i : Fin 2) : List (Turn (Fin 2)) := [.act i {}, .act i {}]

def reportRouted (i : Fin 2) (id : Uuid) : List (Turn (Fin 2)) := [.act i { ids := [id] }]

theorem reportQueued_allRouted (jobId : Uuid) : AllRouted (fun _ => 1) jobId reportQueued := by
  intro source job hjob hid
  cases source <;> cases List.mem_singleton.mp hjob <;> exact .nil

/-- One worker crashes during its examination; after the lease the other completes and routes. -/
theorem routed_once_reclaimed :
    ∃ w, run (Watched.step routedQueue) (@watch (Fin 2) Ucd.ascii ChangeReport.onePaymentPlatform
        reportQueued reportWorkers) (reportExamined 0 ++ [.crash 0, .drift (seconds Jobs.LEASE_SECONDS)]
          ++ reportExamined 1 ++ reportCompleted 1 ++ reportRouted 1 50) = some w ∧
      AllRouted (fun _ => 1) 30 w.pool.store := by
  have hruns : (run (Watched.step routedQueue) (@watch (Fin 2) Ucd.ascii
      ChangeReport.onePaymentPlatform reportQueued reportWorkers) (reportExamined 0 ++
        [.crash 0, .drift (seconds Jobs.LEASE_SECONDS)] ++ reportExamined 1 ++ reportCompleted 1 ++
          reportRouted 1 50)).map (fun w => decide (∀ i, w.held i = none)) = some true := by
    decide +kernel
  obtain ⟨w, hw, hfree⟩ := Option.map_eq_some_iff.mp hruns
  refine ⟨w, hw, @routed_once 30 (fun _ => 1) reportQueued (Fin 2) w _ Ucd.ascii
    ChangeReport.onePaymentPlatform _ _ ?_ reportQueued_linked reportQueued_allRouted
    (by decide +kernel) hw fun i job hjob => ?_⟩
  · rintro i party ⟨⟩ source value ⟨⟩
    rfl
  · rw [of_decide_eq_true hfree i] at hjob
    cases hjob

/-- A crash after the first commit leaves a completed report with nothing routed; a worker whose
lease passes during its examination routes the impact a second time. -/
theorem routed_never_or_twice :
    Linked reportQueued ∧ (∀ jobId, AllRouted (fun _ => 1) jobId reportQueued) ∧
    (∃ w, run (Watched.step routedQueue) (@watch (Fin 2) Ucd.ascii ChangeReport.onePaymentPlatform
        reportQueued reportWorkers) (reportExamined 0 ++ reportCompleted 0 ++ [.crash 0]) = some w ∧
      (∀ i, w.held i = none) ∧ ¬ AllRouted (fun _ => 1) 30 w.pool.store) ∧
    ∃ w, run (Watched.step routedQueue) (@watch (Fin 2) Ucd.ascii ChangeReport.onePaymentPlatform
        reportQueued reportWorkers) (reportExamined 0 ++ [.drift (seconds Jobs.LEASE_SECONDS)] ++
          reportExamined 1 ++ reportCompleted 0 ++ reportRouted 0 50 ++ reportCompleted 1 ++
          reportRouted 1 51) = some w ∧
      (∀ i, w.held i = none) ∧ ¬ AllRouted (fun _ => 1) 30 w.pool.store := by
  refine ⟨reportQueued_linked, reportQueued_allRouted, ?_, ?_⟩
  · have hruns : (run (Watched.step routedQueue) (@watch (Fin 2) Ucd.ascii
        ChangeReport.onePaymentPlatform reportQueued reportWorkers)
          (reportExamined 0 ++ reportCompleted 0 ++ [.crash 0])).map
        (fun w => decide ((∀ i, w.held i = none) ∧ ¬ AllRouted (fun _ => 1) 30 w.pool.store)) =
      some true := by decide +kernel
    obtain ⟨w, hw, hend⟩ := Option.map_eq_some_iff.mp hruns
    exact ⟨w, hw, of_decide_eq_true hend⟩
  · have hruns : (run (Watched.step routedQueue) (@watch (Fin 2) Ucd.ascii
        ChangeReport.onePaymentPlatform reportQueued reportWorkers) (reportExamined 0 ++
          [.drift (seconds Jobs.LEASE_SECONDS)] ++ reportExamined 1 ++ reportCompleted 0 ++
          reportRouted 0 50 ++ reportCompleted 1 ++ reportRouted 1 51)).map
        (fun w => decide ((∀ i, w.held i = none) ∧ ¬ AllRouted (fun _ => 1) 30 w.pool.store)) =
      some true := by decide +kernel
    obtain ⟨w, hw, hend⟩ := Option.map_eq_some_iff.mp hruns
    exact ⟨w, hw, of_decide_eq_true hend⟩

end ReviewQueue

end ContractIntel
