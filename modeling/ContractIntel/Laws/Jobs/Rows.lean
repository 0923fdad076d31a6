import ContractIntel.Jobs.Rows
import ContractIntel.Lib.First
import Mathlib.Data.List.Nodup

/-!
# What the job table functions do to one row

Claiming picks an eligible unlocked row whenever there is one, and the update of one row by id is
seen by a read of that id and by no other.
-/

namespace ContractIntel.Jobs

variable {rows : List JobRow} {job row : JobRow} {now : Time} {locked : List Uuid}

/-! ## Reads and updates by id -/

theorem row?_mem {id : Uuid} (h : row? id rows = some row) : row ∈ rows ∧ row.id = id :=
  ⟨List.mem_of_find?_eq_some h, by simpa using List.find?_some h⟩

/-- With distinct ids, a row is what a read of its id returns. -/
theorem row?_of_mem (hids : (rows.map JobRow.id).Nodup) (h : row ∈ rows) :
    row? row.id rows = some row := by
  induction rows with
  | nil => cases h
  | cons first rest ih =>
    obtain ⟨hfirst, hrest⟩ := List.nodup_cons.mp hids
    rcases List.mem_cons.mp h with rfl | h
    · exact List.find?_cons_of_pos (decide_eq_true rfl)
    · have hne : first.id ≠ row.id := by
        intro heq
        exact hfirst (heq ▸ List.mem_map_of_mem h)
      rw [row?, List.find?_cons_of_neg (by simpa using hne)]
      exact ih hrest h

theorem eq_of_id_eq (hids : (rows.map JobRow.id).Nodup) (hjob : job ∈ rows) (hrow : row ∈ rows)
    (h : job.id = row.id) : job = row := by
  have hj := row?_of_mem hids hjob
  rw [h, row?_of_mem hids hrow] at hj
  exact (Option.some.inj hj).symm

theorem row?_append_single {id : Uuid} (h : row? job.id rows = none) :
    row? id (rows ++ [job]) = if job.id = id then some job else row? id rows := by
  unfold row? at *
  rw [List.find?_append]
  by_cases hid : job.id = id
  · subst hid
    simp [h]
  · simp [hid]

section Update

variable {id : Uuid} {f : JobRow → JobRow}

theorem mem_updateRow : row ∈ updateRow id f rows ↔
    ∃ old ∈ rows, (old.id = id ∧ row = f old) ∨ (old.id ≠ id ∧ row = old) := by
  unfold updateRow
  rw [List.mem_map]
  refine exists_congr fun old => and_congr_right fun _ => ?_
  by_cases hid : old.id = id <;> simp [hid, eq_comm]

theorem map_id_updateRow (hf : ∀ job, (f job).id = job.id) :
    (updateRow id f rows).map JobRow.id = rows.map JobRow.id := by
  rw [updateRow, List.map_map]
  refine List.map_congr_left fun job _ => ?_
  by_cases hid : job.id = id <;> simp [hid, hf]

theorem row?_updateRow (hf : ∀ job, (f job).id = job.id) (id' : Uuid) :
    row? id' (updateRow id f rows) =
      (row? id' rows).map fun job => if job.id = id then f job else job := by
  rw [row?, updateRow, List.find?_map, row?]
  congr 2
  funext job
  by_cases hid : job.id = id <;> simp [hid, hf]

end Update

@[simp] theorem claim_id : (claim now job).id = job.id := by
  unfold claim
  split <;> rfl

theorem claim_documentId : (claim now job).documentId = job.documentId := by
  unfold claim
  split <;> rfl

@[simp] theorem complete_id {result : Json} : (complete result job).id = job.id := rfl

@[simp] theorem fail_id {error : Str} : (fail error job).id = job.id := rfl

/-! ## Claiming -/

/-- A claim locks an eligible row that nobody else holds. -/
theorem nextRunnable_mem (h : nextRunnable now locked rows = some job) :
    job ∈ rows ∧ eligible now job ∧ job.id ∉ locked := by
  have hmem := List.mem_of_mem_head? h
  rw [List.mem_insertionSort, List.mem_filter, Bool.and_eq_true, decide_eq_true_eq] at hmem
  exact ⟨hmem.1, hmem.2⟩

/-- Nothing to claim means that nothing is both eligible and unlocked. -/
theorem nextRunnable_isSome (hjob : job ∈ rows) (heligible : eligible now job)
    (hlocked : job.id ∉ locked) : (nextRunnable now locked rows).isSome := by
  by_contra hnone
  unfold nextRunnable at hnone
  rw [List.isSome_head?, not_not] at hnone
  have hmem : job ∈ (rows.filter fun job => eligible now job && job.id ∉ locked).insertionSort
      claimsBefore := by
    rw [List.mem_insertionSort, List.mem_filter, Bool.and_eq_true, decide_eq_true_eq]
    exact ⟨hjob, heligible, hlocked⟩
  rw [hnone] at hmem
  cases hmem

/-- The two answers of `claim_next`. -/
theorem claimNext_cases (now : Time) (locked : List Uuid) (rows : List JobRow) :
    claimNext now locked rows = (none, rows) ∨
      ∃ job ∈ rows, eligible now job ∧ job.id ∉ locked ∧
        claimNext now locked rows = (some (claim now job), updateRow job.id (claim now) rows) := by
  unfold claimNext
  cases hnext : nextRunnable now locked rows with
  | none => exact .inl rfl
  | some job =>
    obtain ⟨hjob, heligible, hlocked⟩ := nextRunnable_mem hnext
    exact .inr ⟨job, hjob, heligible, hlocked, rfl⟩

theorem claimNext_isSome (hjob : job ∈ rows) (heligible : eligible now job)
    (hlocked : job.id ∉ locked) : (claimNext now locked rows).1.isSome := by
  obtain ⟨next, hnext⟩ := Option.isSome_iff_exists.mp (nextRunnable_isSome hjob heligible hlocked)
  unfold claimNext
  rw [hnext]
  rfl

/-- An eligible row is queued, or running on a lease that has lapsed. -/
theorem eligible_iff : eligible now job ↔ job.status = .queued ∨
    (job.status = .running ∧ ∃ lease, job.leaseExpiresAt = some lease ∧ lease ≤ now) := by
  unfold eligible
  rw [Bool.or_eq_true, Bool.and_eq_true, decide_eq_true_eq, decide_eq_true_eq, Option.any_eq_true]
  simp only [decide_eq_true_eq]

theorem not_terminal_of_eligible (h : eligible now job) : ¬ job.terminal := by
  unfold JobRow.terminal
  rcases eligible_iff.mp h with h | ⟨h, -⟩ <;> simp [h]

/-! ## Recorded outcomes -/

/-- Every terminal row of the earlier table is in the later one with its outcome. -/
def Keeps (rows rows' : List JobRow) : Prop :=
  ∀ id row, row? id rows = some row → row.terminal →
    ∃ row', row? id rows' = some row' ∧ row'.outcome = row.outcome

theorem Keeps.refl (rows : List JobRow) : Keeps rows rows := fun _ row hrow _ => ⟨row, hrow, rfl⟩

theorem terminal_of_outcome {row' : JobRow} (h : row'.outcome = row.outcome)
    (hterminal : row.terminal) : row'.terminal := by
  have hstatus : row'.status = row.status := congrArg Prod.fst h
  rw [JobRow.terminal, hstatus]
  exact hterminal

theorem Keeps.trans (rows rows' rows'' : List JobRow) (h : Keeps rows rows')
    (h' : Keeps rows' rows'') : Keeps rows rows'' := by
  intro id row hrow hterminal
  obtain ⟨row', hrow', houtcome⟩ := h id row hrow hterminal
  obtain ⟨row'', hrow'', houtcome'⟩ := h' id row' hrow' (terminal_of_outcome houtcome hterminal)
  exact ⟨row'', hrow'', houtcome'.trans houtcome⟩

/-- A write to one row keeps the outcomes exactly when it keeps that row's. -/
theorem keeps_updateRow_iff {id : Uuid} {f : JobRow → JobRow} (hf : ∀ job, (f job).id = job.id) :
    Keeps rows (updateRow id f rows) ↔
      ∀ row ∈ row? id rows, row.terminal → (f row).outcome = row.outcome := by
  constructor
  · intro h row hrow hterminal
    obtain ⟨row', hrow', houtcome⟩ := h id row hrow hterminal
    rw [row?_updateRow hf, Option.mem_def.mp hrow, Option.map_some, if_pos (row?_mem hrow).2]
      at hrow'
    exact Option.some.inj hrow' ▸ houtcome
  · intro h id' row hrow hterminal
    refine ⟨if row.id = id then f row else row, ?_, ?_⟩
    · rw [row?_updateRow hf, hrow, Option.map_some]
    · split
      next hid =>
        obtain rfl : id = id' := hid.symm.trans (row?_mem hrow).2
        exact h row hrow hterminal
      next => rfl

theorem keeps_append (h : row? job.id rows = none) : Keeps rows (rows ++ [job]) := by
  intro id row hrow _
  have hne : job.id ≠ id := by
    rintro rfl
    rw [h] at hrow
    cases hrow
  exact ⟨row, by rw [row?_append_single h, if_neg hne, hrow], rfl⟩

theorem keeps_claim (hids : (rows.map JobRow.id).Nodup) (hjob : job ∈ rows)
    (heligible : eligible now job) : Keeps rows (updateRow job.id (claim now) rows) := by
  rw [keeps_updateRow_iff fun _ => claim_id]
  intro row hrow hterminal
  obtain ⟨hrow, hid⟩ := row?_mem hrow
  obtain rfl := eq_of_id_eq hids hrow hjob hid
  exact absurd hterminal (not_terminal_of_eligible heligible)

/-! ## The newest job -/

instance : Std.Total newerFirst := ⟨fun a b => by unfold newerFirst; grind⟩

instance : IsTrans JobRow newerFirst := ⟨fun a b c hab hbc => by unfold newerFirst at *; grind⟩

theorem findLatest_eq (documentId : Uuid) (rows : List JobRow) :
    findLatestForDocument documentId rows =
      Lib.first newerFirst (rows.filter fun job => job.documentId = documentId) := rfl

theorem findLatest_mem {documentId : Uuid} (h : findLatestForDocument documentId rows = some job) :
    job ∈ rows ∧ job.documentId = documentId := by
  obtain ⟨hmem, hdocument⟩ := List.mem_filter.mp (Lib.mem_of_first h)
  exact ⟨hmem, of_decide_eq_true hdocument⟩

/-- The newest job of a document is the newest of any part of its jobs that it is in. -/
theorem findLatest_of_subset {documentId : Uuid} {rows' : List JobRow}
    (hids : (rows.map JobRow.id).Nodup) (h : findLatestForDocument documentId rows = some job)
    (hjob : job ∈ rows') (hsub : ∀ row ∈ rows', row.documentId = documentId → row ∈ rows) :
    findLatestForDocument documentId rows' = some job := by
  obtain ⟨hmem, hdocument⟩ := findLatest_mem h
  refine Lib.first_of_subset h (List.mem_filter.mpr ⟨hjob, decide_eq_true hdocument⟩)
    (fun row hrow => ?_) fun row hrow hle hle' => ?_
  · obtain ⟨hrow, hsame⟩ := List.mem_filter.mp hrow
    exact List.mem_filter.mpr ⟨hsub row hrow (of_decide_eq_true hsame), hsame⟩
  · refine eq_of_id_eq hids hmem (List.mem_of_mem_filter hrow) ?_
    unfold newerFirst at hle hle'
    grind

/-- An update of a row that leaves its place in the order. -/
theorem findLatest_updateRow {id documentId : Uuid} {f : JobRow → JobRow}
    (hf : ∀ job, (f job).id = job.id ∧ (f job).documentId = job.documentId ∧
      (f job).createdAt = job.createdAt) :
    findLatestForDocument documentId (updateRow id f rows) =
      (findLatestForDocument documentId rows).map fun job => if job.id = id then f job else job := by
  have hplace : ∀ job : JobRow, (if job.id = id then f job else job).id = job.id ∧
      (if job.id = id then f job else job).documentId = job.documentId ∧
        (if job.id = id then f job else job).createdAt = job.createdAt := by
    intro job
    split
    · exact hf job
    · exact ⟨rfl, rfl, rfl⟩
  rw [findLatest_eq, findLatest_eq, updateRow, List.filter_map]
  have hsame : ((fun job : JobRow => decide (job.documentId = documentId)) ∘
      fun job => if job.id = id then f job else job) =
        fun job => decide (job.documentId = documentId) := by
    funext job
    rw [Function.comp_apply, (hplace job).2.1]
  rw [hsame]
  refine Lib.first_map fun a b => ?_
  unfold newerFirst
  rw [(hplace a).1, (hplace a).2.2, (hplace b).1, (hplace b).2.2]

/-- The most recently created completed job of a document. -/
def latestCompleted (documentId : Uuid) (rows : List JobRow) : Option JobRow :=
  Lib.first newerFirst (rows.filter fun job => job.documentId = documentId && job.status = .completed)

/-- The newest job of a document is its newest completed one if it is completed at all. -/
theorem latestCompleted_of_findLatest {documentId : Uuid}
    (h : findLatestForDocument documentId rows = some job) (hcompleted : job.status = .completed) :
    latestCompleted documentId rows = some job := by
  have hfilter := Lib.first_filter (p := fun job => decide (job.status = .completed)) h
    (decide_eq_true hcompleted)
  rw [List.filter_filter] at hfilter
  rw [← hfilter, latestCompleted]
  congr 2
  ext job
  rw [Bool.and_comm]

theorem latestCompleted_isSome {documentId : Uuid} (hjob : job ∈ rows)
    (hdocument : job.documentId = documentId) (hcompleted : job.status = .completed) :
    ∃ latest, latestCompleted documentId rows = some latest := by
  cases hlatest : latestCompleted documentId rows with
  | some latest => exact ⟨latest, rfl⟩
  | none =>
    have hnone := Lib.first_eq_none_iff.mp hlatest
    have hmem : job ∈ rows.filter fun job =>
        job.documentId = documentId && job.status = .completed := by
      simp [hjob, hdocument, hcompleted]
    rw [hnone] at hmem
    cases hmem

end ContractIntel.Jobs
