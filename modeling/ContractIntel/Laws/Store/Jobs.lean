import ContractIntel.Laws.Jobs.Rows
import ContractIntel.Laws.Store.Ops
import Mathlib.Data.List.Count

/-!
# The job tables of the store

Ids are keys, and of the operations only an insert makes a document's unfinished jobs more.
-/

namespace ContractIntel

open Jobs (JobRow)

variable {o : Op} {a : Answer} {s t : Store} {kind : JobKind} {documentId : Uuid}

/-! ## Keys -/

/-- Job ids are distinct and in use. -/
def Keyed (s : Store) : Prop :=
  ∀ kind, ((s.jobs kind).map JobRow.id).Nodup ∧ ∀ job ∈ s.jobs kind, job.id ∈ s.issued

theorem le_foldr_max {x : Uuid} {issued : List Uuid} (h : x ∈ issued) : x ≤ issued.foldr max 0 := by
  induction issued with
  | nil => cases h
  | cons y ys ih =>
    rcases List.mem_cons.mp h with rfl | h
    · exact Nat.le_max_left _ _
    · exact Nat.le_trans (ih h) (Nat.le_max_right _ _)

/-- A drawn identifier is new. -/
theorem draw_not_mem (issued : List Uuid) (drawn : Uuid) : draw issued drawn ∉ issued := by
  unfold draw
  split
  · exact fun hmem => Nat.not_succ_le_self _ (le_foldr_max hmem)
  next hnew => exact hnew

theorem length_drawMany (n : Nat) (issued drawn : List Uuid) :
    (drawMany n issued drawn).length = n := by
  induction n generalizing issued drawn with
  | zero => rfl
  | succ n ih => rw [drawMany, List.length_cons, ih]

/-- Identifiers drawn one after the other are new and distinct. -/
theorem drawMany_fresh (n : Nat) (issued drawn : List Uuid) :
    (drawMany n issued drawn).Nodup ∧ ∀ id ∈ drawMany n issued drawn, id ∉ issued := by
  induction n generalizing issued drawn with
  | zero => exact ⟨List.nodup_nil, fun _ hid => absurd hid List.not_mem_nil⟩
  | succ n ih =>
    obtain ⟨hnodup, hfresh⟩ := ih (draw issued (drawn.headD 0) :: issued) drawn.tail
    refine ⟨List.nodup_cons.mpr ⟨fun hmem => ?_, hnodup⟩, fun id hid => ?_⟩
    · exact hfresh _ hmem List.mem_cons_self
    · rcases List.mem_cons.mp hid with rfl | hid
      · exact draw_not_mem _ _
      · exact fun hissued => hfresh id hid (List.mem_cons_of_mem _ hissued)

@[simp] theorem withJobs_jobs (rows : List JobRow) (k : JobKind) :
    (s.withJobs kind rows).jobs k = if k = kind then rows else s.jobs k := rfl

theorem withJobs_self (kind : JobKind) (s : Store) : s.withJobs kind (s.jobs kind) = s := by
  unfold Store.withJobs
  congr 1
  funext k
  split
  next h => rw [h]
  next => rfl

/-- Rewriting a table without touching ids keeps the keys. -/
theorem Keyed.withJobs {rows : List JobRow} (h : Keyed s)
    (hids : rows.map JobRow.id = (s.jobs kind).map JobRow.id) : Keyed (s.withJobs kind rows) := by
  intro k
  rw [withJobs_jobs]
  split
  next hk =>
    subst hk
    refine ⟨hids ▸ (h k).1, fun job hjob => ?_⟩
    have hid : job.id ∈ (s.jobs k).map JobRow.id := hids ▸ List.mem_map_of_mem hjob
    obtain ⟨old, hold, heq⟩ := List.mem_map.mp hid
    exact heq ▸ (h k).2 old hold
  · exact h k

theorem map_id_claimNext (now : Time) (locked : List Uuid) (rows : List JobRow) :
    (Jobs.claimNext now locked rows).2.map JobRow.id = rows.map JobRow.id := by
  rcases Jobs.claimNext_cases now locked rows with heq | ⟨job, -, -, -, heq⟩
  · rw [heq]
  · rw [heq]
    exact Jobs.map_id_updateRow fun _ => Jobs.claim_id

/-- Identifiers once in use stay in use. -/
theorem Effect.issued (h : Effect o a s t) : ∀ id ∈ s.issued, id ∈ t.issued := by
  intro id hid
  cases h with
  | deleteSweep hswept =>
    simp only [Store.deleteSweep] at hswept
    split at hswept
    · cases hswept
    · cases hswept
      exact hid
  | insertDocument => exact List.mem_cons_of_mem _ hid
  | insertJob => exact List.mem_cons_of_mem _ hid
  | replaceTextAndChunks => exact List.mem_append_right _ hid
  | insertReviewItems => exact List.mem_append_right _ hid
  | _ => exact hid

theorem Keyed.effect (hkeyed : Keyed s) (h : Effect o a s t) : Keyed t := by
  have hissued := h.issued
  cases h with
  | deleteSweep hswept =>
    intro k
    have hsub := (Store.deleteSweep_eq_ok hswept).2.2.2.2 k
    exact ⟨(hkeyed k).1.sublist (hsub.map _), fun job hjob =>
      hissued _ ((hkeyed k).2 job (hsub.subset hjob))⟩
  | @insertJob kind' tenantId documentId amended _ _ id hnew =>
    intro k
    have hfresh : id ∉ s.issued := hnew ▸ draw_not_mem _ _
    by_cases hk : k = kind'
    · subst hk
      simp only [withJobs_jobs, if_true, List.map_append, List.map_cons, List.map_nil]
      refine ⟨List.nodup_append.mpr ⟨(hkeyed k).1, List.nodup_singleton _, ?_⟩, ?_⟩
      · rintro _ hold _ hnewid rfl
        obtain ⟨old, hold, heq⟩ := List.mem_map.mp hold
        have heq : old.id = id := heq.trans (List.mem_singleton.mp hnewid)
        exact hfresh (heq ▸ (hkeyed k).2 old hold)
      · intro job hjob
        rcases List.mem_append.mp hjob with hjob | hjob
        · exact List.mem_cons_of_mem _ ((hkeyed k).2 job hjob)
        · rw [List.mem_singleton.mp hjob]
          exact List.mem_cons_self
    · simp only [withJobs_jobs, if_neg hk]
      exact ⟨(hkeyed k).1, fun job hjob => List.mem_cons_of_mem _ ((hkeyed k).2 job hjob)⟩
  | claimJob => exact hkeyed.withJobs (map_id_claimNext _ _ _)
  | completeJob => exact hkeyed.withJobs (Jobs.map_id_updateRow fun _ => rfl)
  | failJob => exact hkeyed.withJobs (Jobs.map_id_updateRow fun _ => rfl)
  | _ => exact fun k => ⟨(hkeyed k).1, fun job hjob => hissued _ ((hkeyed k).2 job hjob)⟩

/-! ## Unfinished jobs -/

/-- The unfinished jobs of a document. -/
def activeJobs (kind : JobKind) (documentId : Uuid) (s : Store) : List JobRow :=
  (s.jobs kind).filter fun job => job.documentId = documentId && job.active

/-- An update of a row that neither moves it to another document nor revives it. -/
theorem length_active_updateRow {id : Uuid} {f : JobRow → JobRow} {rows : List JobRow}
    (hf : ∀ job ∈ rows, job.id = id →
      (f job).documentId = job.documentId ∧ ((f job).active → job.active)) :
    ((Jobs.updateRow id f rows).filter fun job => job.documentId = documentId && job.active).length ≤
      (rows.filter fun job => job.documentId = documentId && job.active).length := by
  rw [← List.countP_eq_length_filter, ← List.countP_eq_length_filter, Jobs.updateRow,
    List.countP_map]
  refine List.countP_mono_left fun job hjob h => ?_
  simp only [Function.comp_apply, Bool.and_eq_true, decide_eq_true_eq] at h ⊢
  by_cases hid : job.id = id
  · rw [if_pos hid] at h
    obtain ⟨hdocument, hactive⟩ := hf job hjob hid
    exact ⟨hdocument ▸ h.1, hactive h.2⟩
  · rwa [if_neg hid] at h

theorem length_active_claimNext {now : Time} {locked : List Uuid} {rows : List JobRow}
    (hids : (rows.map JobRow.id).Nodup) :
    ((Jobs.claimNext now locked rows).2.filter
        fun job => job.documentId = documentId && job.active).length ≤
      (rows.filter fun job => job.documentId = documentId && job.active).length := by
  rcases Jobs.claimNext_cases now locked rows with heq | ⟨job, hjob, heligible, -, heq⟩
  · rw [heq]
  · rw [heq]
    apply length_active_updateRow
    intro row hrow hid
    cases Jobs.eq_of_id_eq hids hrow hjob hid
    refine ⟨Jobs.claim_documentId, fun _ => ?_⟩
    rcases Jobs.eligible_iff.mp heligible with hqueued | ⟨hrunning, -⟩
    · simp [JobRow.active, hqueued]
    · simp [JobRow.active, hrunning]

/-- An operation makes the unfinished jobs of a document more only by inserting one. -/
theorem activeJobs_effect (hkeyed : Keyed s) (h : Effect o a s t) :
    (activeJobs kind documentId t).length ≤ (activeJobs kind documentId s).length ∨
      (∃ tenantId amended, o = .insertJob kind tenantId documentId amended) ∧ a.refusal = none ∧
        (activeJobs kind documentId t).length = (activeJobs kind documentId s).length + 1 := by
  by_cases hjobs : o.writesJobs kind
  · cases h with
    | nothing => exact .inl (Nat.le_refl _)
    | deleteSweep hswept =>
      exact .inl (((Store.deleteSweep_eq_ok hswept).2.2.2.2 kind).filter _).length_le
    | @insertJob k tenantId document amended _ _ id hnew hserved =>
      obtain rfl : k = kind := by simpa [Op.writesJobs] using hjobs
      simp only [activeJobs, withJobs_jobs, if_true, List.filter_append, List.length_append]
      by_cases hdocument : document = documentId
      · subst hdocument
        exact .inr ⟨⟨_, _, rfl⟩, hserved, by simp [JobRow.create, JobRow.active]⟩
      · exact .inl (by simp [JobRow.create, hdocument])
    | @claimJob k =>
      obtain rfl : k = kind := by simpa [Op.writesJobs] using hjobs
      rw [activeJobs, withJobs_jobs, if_pos rfl]
      exact .inl (length_active_claimNext (hkeyed k).1)
    | @completeJob k =>
      obtain rfl : k = kind := by simpa [Op.writesJobs] using hjobs
      rw [activeJobs, withJobs_jobs, if_pos rfl]
      exact .inl (length_active_updateRow fun _ _ _ => ⟨rfl, fun h => by cases h⟩)
    | @failJob k =>
      obtain rfl : k = kind := by simpa [Op.writesJobs] using hjobs
      rw [activeJobs, withJobs_jobs, if_pos rfl]
      exact .inl (length_active_updateRow fun _ _ _ => ⟨rfl, fun h => by cases h⟩)
    | _ => cases hjobs
  · rw [activeJobs, h.jobs (by simpa using hjobs)]
    exact .inl (Nat.le_refl _)

end ContractIntel
