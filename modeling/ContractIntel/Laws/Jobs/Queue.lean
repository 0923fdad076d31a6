import ContractIntel.Jobs.Queue
import ContractIntel.Laws.Jobs.Rows

/-!
# A job table under any interleaving

One inversion lemma says what a step can do to the table and the hand-out log (`step_cases`), and
one invariant ties them together (`Sound`): the columns of a row fit its status, every hand-out of
a running row lies a whole lease before the row's lease ends, and a row was handed out as often as
it was attempted within the cap.

## What is proved

- `handouts_lease_apart`: two hand-outs of one job are a lease apart, and a terminal job is never
  handed out again.
- `rows_fit_status`: the columns of every row fit its status, a job is handed out at most
  `MAX_ATTEMPTS` times, and an unfinished row can be claimed from some time on.
- `outcomes_frozen_iff`: recorded outcomes survive a run exactly when every terminal write of it
  lands on an unfinished row or repeats what is recorded. The write itself looks at neither the
  status nor the lease, so this is a condition on the run (`overwritten_after_lease`).
-/

namespace ContractIntel.Jobs

open Lib (run Along)

/-- The columns that go with each status. -/
def FitsStatus (row : JobRow) : Prop :=
  match row.status with
  | .queued => row.attempts = 0 ∧ row.leaseExpiresAt = none ∧ row.result = none ∧ row.error = none
  | .running => 1 ≤ row.attempts ∧ row.attempts ≤ MAX_ATTEMPTS ∧ row.leaseExpiresAt.isSome ∧
      row.result = none ∧ row.error = none
  | .completed => row.result.isSome ∧ row.error = none ∧ row.leaseExpiresAt = none
  | .failed => row.result = none ∧ row.error.isSome ∧ row.leaseExpiresAt = none

/-- The two terminal writes. -/
inductive IsMark : (JobRow → JobRow) → Prop
  | complete (result : Json) : IsMark (complete result)
  | fail (error : Str) : IsMark (fail error)

theorem IsMark.id_eq {f : JobRow → JobRow} (h : IsMark f) (job : JobRow) : (f job).id = job.id := by
  cases h <;> rfl

theorem IsMark.attempts_eq {f : JobRow → JobRow} (h : IsMark f) (job : JobRow) :
    (f job).attempts = job.attempts := by
  cases h <;> rfl

theorem IsMark.terminal {f : JobRow → JobRow} (h : IsMark f) (job : JobRow) :
    (f job).terminal := by
  cases h <;> simp [JobRow.terminal, Jobs.complete, Jobs.fail]

theorem IsMark.fitsStatus {f : JobRow → JobRow} (h : IsMark f) (job : JobRow) :
    FitsStatus (f job) := by
  cases h <;> simp [FitsStatus, Jobs.complete, Jobs.fail]

theorem not_terminal_of_running {row : JobRow} (h : row.status = .running) : ¬ row.terminal := by
  simp [JobRow.terminal, h]

namespace Queue

variable {Worker : Type} {s t : Queue Worker} {e : Event Worker}

/-- How often a job was handed out. -/
def runsOf (id : Uuid) (handouts : List (Uuid × Time)) : Nat :=
  (handouts.filter fun h => h.1 = id).length

theorem runsOf_append (id : Uuid) (g h : List (Uuid × Time)) :
    runsOf id (g ++ h) = runsOf id g + runsOf id h := by
  simp [runsOf]

/-! ## What a step can do -/

/-- The change a step makes to the table and the log. -/
inductive Change (s : Queue Worker) : List JobRow → List (Uuid × Time) → Prop
  | quiet : Change s s.rows s.handouts
  | inserted (id tenantId documentId : Uuid) (amendedDocumentId : Option Uuid) (createdAt : Time)
      (hnew : row? id s.rows = none) :
      Change s (s.rows ++ [JobRow.create id tenantId documentId amendedDocumentId createdAt])
        s.handouts
  | handedOut (job : JobRow) (hjob : job ∈ s.rows) (heligible : eligible s.now job)
      (hcap : job.attempts < MAX_ATTEMPTS) :
      Change s (updateRow job.id (claim s.now) s.rows) (s.handouts ++ [(job.id, s.now)])
  | capped (job : JobRow) (hjob : job ∈ s.rows) (heligible : eligible s.now job)
      (hcap : MAX_ATTEMPTS ≤ job.attempts) :
      Change s (updateRow job.id (claim s.now) s.rows) s.handouts
  | marked (id : Uuid) (f : JobRow → JobRow) (hf : IsMark f) :
      Change s (updateRow id f s.rows) s.handouts

theorem claim_status_of_lt {now : Time} {job : JobRow} (h : job.attempts < MAX_ATTEMPTS) :
    (claim now job).status = .running := by
  rw [claim, if_neg (by omega)]

theorem claim_status_of_le {now : Time} {job : JobRow} (h : MAX_ATTEMPTS ≤ job.attempts) :
    (claim now job).status = .failed := by
  rw [claim, if_pos (by omega)]

theorem handOut_change [DecidableEq Worker] (s : Queue Worker) (worker : Worker) (locked : List Uuid) :
    let t := s.handOut worker (claimNext s.now locked s.rows)
    Change s t.rows t.handouts := by
  rcases claimNext_cases s.now locked s.rows with hnone | ⟨job, hjob, heligible, -, hsome⟩
  · rw [hnone]
    exact .quiet
  · rw [hsome]
    by_cases hcap : job.attempts < MAX_ATTEMPTS
    · have hstatus : (claim s.now job).status = .running := claim_status_of_lt hcap
      simp only [handOut, hstatus, reduceCtorEq, if_false, claim_id]
      exact .handedOut job hjob heligible hcap
    · have hstatus : (claim s.now job).status = .failed := claim_status_of_le (Nat.not_lt.mp hcap)
      simp only [handOut, hstatus, if_true]
      exact .capped job hjob heligible (Nat.not_lt.mp hcap)

theorem step_cases [DecidableEq Worker] (h : step s e = some t) : Change s t.rows t.handouts := by
  cases e with
  | tick elapsed =>
    cases h
    exact .quiet
  | create id tenantId documentId amendedDocumentId began =>
    simp only [step] at h
    split at h
    · cases h
    next hnew =>
      cases h
      exact .inserted id tenantId documentId amendedDocumentId _ (by simpa using hnew)
  | claim worker locked =>
    simp only [step] at h
    split at h
    · cases h
    · cases h
      exact handOut_change s worker locked
  | complete worker result =>
    obtain ⟨id, -, rfl⟩ := Option.map_eq_some_iff.mp h
    exact .marked id _ (.complete result)
  | fail worker error =>
    obtain ⟨id, -, rfl⟩ := Option.map_eq_some_iff.mp h
    exact .marked id _ (.fail error)
  | crash worker =>
    cases h
    exact .quiet

/-! ## The invariant -/

/-- The table and the log fit together. -/
structure Sound (s : Queue Worker) : Prop where
  /-- `id` is the primary key. -/
  ids : (s.rows.map JobRow.id).Nodup
  fits : ∀ row ∈ s.rows, FitsStatus row
  cap : ∀ row ∈ s.rows, row.attempts ≤ MAX_ATTEMPTS + 1
  runs : ∀ row ∈ s.rows, runsOf row.id s.handouts = min row.attempts MAX_ATTEMPTS
  known : ∀ h ∈ s.handouts, ∃ row ∈ s.rows, row.id = h.1
  /-- A running row's lease outlasts each of its hand-outs by a whole lease. -/
  leased : ∀ h ∈ s.handouts, ∀ row ∈ s.rows, row.id = h.1 → row.status = .running →
    ∀ lease ∈ row.leaseExpiresAt, h.2 + seconds LEASE_SECONDS ≤ lease
  apart : s.handouts.Pairwise fun g h => g.1 = h.1 → g.2 + seconds LEASE_SECONDS ≤ h.2

theorem runsOf_eq_zero {id : Uuid} {handouts : List (Uuid × Time)} :
    runsOf id handouts = 0 ↔ ∀ h ∈ handouts, h.1 ≠ id := by
  simp [runsOf]

theorem Sound.empty (now : Time) : Sound (Queue.empty now : Queue Worker) := by
  constructor <;> simp [Queue.empty]

/-- A job that can be claimed at `now` was last handed out a lease before. -/
theorem Sound.handout_le (h : Sound s) {job : JobRow} (hjob : job ∈ s.rows)
    (heligible : eligible s.now job) :
    ∀ g ∈ s.handouts, g.1 = job.id → g.2 + seconds LEASE_SECONDS ≤ s.now := by
  intro g hg hid
  rcases eligible_iff.mp heligible with hqueued | ⟨hrunning, lease, hlease, hlapsed⟩
  · have hfits := h.fits job hjob
    have hruns := h.runs job hjob
    simp only [FitsStatus, hqueued] at hfits
    rw [hfits.1, Nat.zero_min, runsOf_eq_zero] at hruns
    exact absurd hid (hruns g hg)
  · exact Nat.le_trans (h.leased g hg job hjob hid.symm hrunning lease hlease) hlapsed

theorem row?_eq_none {id : Uuid} {rows : List JobRow} (h : row? id rows = none) :
    ∀ row ∈ rows, row.id ≠ id := by
  simpa [row?] using h

/-- An inserted row has a new id, no attempts and no hand-outs. -/
theorem Sound.inserted (h : Sound s) {id : Uuid} (hnew : row? id s.rows = none)
    (tenantId documentId : Uuid) (amendedDocumentId : Option Uuid) (createdAt now : Time)
    (held : Worker → Option Uuid) :
    Sound ⟨s.rows ++ [JobRow.create id tenantId documentId amendedDocumentId createdAt], now, held,
      s.handouts⟩ := by
  have hfresh := row?_eq_none hnew
  constructor
  · rw [List.map_append, List.map_singleton, List.nodup_append]
    refine ⟨h.ids, List.nodup_singleton _, ?_⟩
    intro old_id hold new_id hnew_id heq
    obtain ⟨old, hmem, rfl⟩ := List.mem_map.mp hold
    exact hfresh old hmem (heq.trans (List.mem_singleton.mp hnew_id))
  · intro r hr
    rcases List.mem_append.mp hr with hr | hr
    · exact h.fits r hr
    · rw [List.mem_singleton.mp hr]
      exact ⟨rfl, rfl, rfl, rfl⟩
  · intro r hr
    rcases List.mem_append.mp hr with hr | hr
    · exact h.cap r hr
    · rw [List.mem_singleton.mp hr]
      exact Nat.zero_le _
  · intro r hr
    rcases List.mem_append.mp hr with hr | hr
    · exact h.runs r hr
    · rw [List.mem_singleton.mp hr]
      show runsOf id s.handouts = 0
      rw [runsOf_eq_zero]
      intro g hg hid
      obtain ⟨old, hold, hold_id⟩ := h.known g hg
      exact hfresh old hold (hold_id.trans hid)
  · intro g hg
    obtain ⟨old, hold, hid⟩ := h.known g hg
    exact ⟨old, List.mem_append_left _ hold, hid⟩
  · intro g hg r hr hid hrunning
    rcases List.mem_append.mp hr with hr | hr
    · exact h.leased g hg r hr hid hrunning
    · rw [List.mem_singleton.mp hr] at hrunning
      cases hrunning
  · exact h.apart

/-- Updating one row keeps the ids and the other rows. -/
theorem Sound.updated (h : Sound s) {id : Uuid} {f : JobRow → JobRow} {more : List (Uuid × Time)}
    (hid : ∀ job, (f job).id = job.id) (hmore : ∀ g ∈ more, g.1 = id ∧ ∃ row ∈ s.rows, row.id = id)
    (hfits : ∀ job ∈ s.rows, job.id = id → FitsStatus (f job))
    (hcap : ∀ job ∈ s.rows, job.id = id → (f job).attempts ≤ MAX_ATTEMPTS + 1)
    (hruns : ∀ job ∈ s.rows, job.id = id → runsOf id s.handouts + more.length =
      min (f job).attempts MAX_ATTEMPTS)
    (hleased : ∀ job ∈ s.rows, job.id = id → (f job).status = .running →
      ∀ g ∈ s.handouts ++ more, g.1 = id →
        ∀ lease ∈ (f job).leaseExpiresAt, g.2 + seconds LEASE_SECONDS ≤ lease)
    (hapart : (s.handouts ++ more).Pairwise fun g h => g.1 = h.1 → g.2 + seconds LEASE_SECONDS ≤ h.2)
    (now : Time) (held : Worker → Option Uuid) :
    Sound ⟨updateRow id f s.rows, now, held, s.handouts ++ more⟩ := by
  have hmine : runsOf id more = more.length := by
    rw [runsOf, List.filter_eq_self.mpr]
    exact fun g hg => decide_eq_true (hmore g hg).1
  have hothers : ∀ id', id' ≠ id → runsOf id' more = 0 := by
    intro id' hne
    rw [runsOf_eq_zero]
    exact fun g hg hid' => hne (hid'.symm.trans (hmore g hg).1)
  constructor
  · rw [map_id_updateRow hid]
    exact h.ids
  · intro r hr
    obtain ⟨old, hold, ⟨hold_id, rfl⟩ | ⟨-, rfl⟩⟩ := mem_updateRow.mp hr
    · exact hfits old hold hold_id
    · exact h.fits r hold
  · intro r hr
    obtain ⟨old, hold, ⟨hold_id, rfl⟩ | ⟨-, rfl⟩⟩ := mem_updateRow.mp hr
    · exact hcap old hold hold_id
    · exact h.cap r hold
  · intro r hr
    show runsOf r.id (s.handouts ++ more) = _
    rw [runsOf_append]
    obtain ⟨old, hold, ⟨hold_id, rfl⟩ | ⟨hne, rfl⟩⟩ := mem_updateRow.mp hr
    · rw [hid, hold_id, hmine]
      exact hruns old hold hold_id
    · rw [hothers r.id hne, Nat.add_zero]
      exact h.runs r hold
  · intro g hg
    have hold : ∃ row ∈ s.rows, row.id = g.1 := by
      rcases List.mem_append.mp hg with hg | hg
      · exact h.known g hg
      · obtain ⟨hgid, row, hrow, hrow_id⟩ := hmore g hg
        exact ⟨row, hrow, hrow_id.trans hgid.symm⟩
    obtain ⟨old, hold, hold_id⟩ := hold
    by_cases hne : old.id = id
    · exact ⟨f old, mem_updateRow.mpr ⟨old, hold, .inl ⟨hne, rfl⟩⟩, (hid old).trans hold_id⟩
    · exact ⟨old, mem_updateRow.mpr ⟨old, hold, .inr ⟨hne, rfl⟩⟩, hold_id⟩
  · intro g hg r hr hgid hrunning lease hlease
    obtain ⟨old, hold, ⟨hold_id, rfl⟩ | ⟨hne, rfl⟩⟩ := mem_updateRow.mp hr
    · have hg_id : g.1 = id := by rw [← hgid, hid, hold_id]
      exact hleased old hold hold_id hrunning g hg hg_id lease hlease
    · rcases List.mem_append.mp hg with hg | hg
      · exact h.leased g hg r hold hgid hrunning lease hlease
      · exact absurd (hgid.trans (hmore g hg).1) hne
  · exact hapart

/-- Every change keeps the invariant. -/
theorem Sound.change (h : Sound s) {rows : List JobRow} {handouts : List (Uuid × Time)}
    (hc : Change s rows handouts) (now : Time) (held : Worker → Option Uuid) :
    Sound ⟨rows, now, held, handouts⟩ := by
  cases hc with
  | quiet => exact ⟨h.ids, h.fits, h.cap, h.runs, h.known, h.leased, h.apart⟩
  | inserted id tenantId documentId amendedDocumentId createdAt hnew =>
    exact h.inserted hnew tenantId documentId amendedDocumentId createdAt now held
  | handedOut job hjob heligible hcap =>
    have hone : ∀ row ∈ s.rows, row.id = job.id → row = job := fun row hrow hid =>
      eq_of_id_eq h.ids hrow hjob hid
    have hlast := h.handout_le hjob heligible
    refine h.updated (fun _ => claim_id) ?_ ?_ ?_ ?_ ?_ ?_ now held
    · intro g hg
      obtain rfl := List.mem_singleton.mp hg
      exact ⟨rfl, job, hjob, rfl⟩
    · intro row hrow hid
      obtain rfl := hone row hrow hid
      have hresult : row.result = none ∧ row.error = none := by
        have hfits := h.fits row hrow
        rcases eligible_iff.mp heligible with hs | ⟨hs, -⟩ <;> simp only [FitsStatus, hs] at hfits
        · exact hfits.2.2
        · exact hfits.2.2.2
      rw [claim, if_neg (by omega)]
      exact ⟨Nat.succ_pos _, hcap, rfl, hresult⟩
    · intro row hrow hid
      obtain rfl := hone row hrow hid
      rw [claim, if_neg (by omega)]
      exact Nat.le_succ_of_le hcap
    · intro row hrow hid
      obtain rfl := hone row hrow hid
      rw [h.runs row hrow, claim, if_neg (by omega)]
      show min row.attempts MAX_ATTEMPTS + 1 = min (row.attempts + 1) MAX_ATTEMPTS
      omega
    · intro row hrow hid hrunning g hg hgid lease hlease
      obtain rfl := hone row hrow hid
      rw [claim, if_neg (by omega)] at hlease
      obtain rfl : s.now + seconds LEASE_SECONDS = lease := Option.some.inj hlease
      rcases List.mem_append.mp hg with hg | hg
      · exact Nat.le_trans (hlast g hg hgid) (Nat.le_add_right _ _)
      · obtain rfl := List.mem_singleton.mp hg
        exact Nat.le_refl _
    · rw [List.pairwise_append]
      refine ⟨h.apart, List.pairwise_singleton _ _, ?_⟩
      intro g hg g' hg' hid
      obtain rfl := List.mem_singleton.mp hg'
      exact hlast g hg hid
  | capped job hjob heligible hcap =>
    have hone : ∀ row ∈ s.rows, row.id = job.id → row = job := fun row hrow hid =>
      eq_of_id_eq h.ids hrow hjob hid
    have hattempts : job.attempts = MAX_ATTEMPTS := by
      have hfits := h.fits job hjob
      rcases eligible_iff.mp heligible with hs | ⟨hs, -⟩ <;> simp only [FitsStatus, hs] at hfits
      · rw [hfits.1] at hcap
        cases hcap
      · exact Nat.le_antisymm hfits.2.1 hcap
    rw [← List.append_nil s.handouts]
    refine h.updated (fun _ => claim_id) (fun g hg => by cases hg) ?_ ?_ ?_ ?_ ?_ now held
    · intro row hrow hid
      obtain rfl := hone row hrow hid
      rw [claim, if_pos (by omega)]
      exact ⟨rfl, rfl, rfl⟩
    · intro row hrow hid
      obtain rfl := hone row hrow hid
      rw [claim, if_pos (by omega)]
      exact Nat.le_of_eq (congrArg (· + 1) hattempts)
    · intro row hrow hid
      obtain rfl := hone row hrow hid
      rw [h.runs row hrow, claim, if_pos (by omega)]
      show min row.attempts MAX_ATTEMPTS + 0 = min (row.attempts + 1) MAX_ATTEMPTS
      omega
    · intro row hrow hid hrunning
      obtain rfl := hone row hrow hid
      rw [claim_status_of_le hcap] at hrunning
      cases hrunning
    · rw [List.append_nil]
      exact h.apart
  | marked id f hf =>
    rw [← List.append_nil s.handouts]
    refine h.updated hf.id_eq (fun g hg => by cases hg) (fun job _ _ => hf.fitsStatus job) ?_ ?_ ?_
      ?_ now held
    · intro job hjob _
      rw [hf.attempts_eq]
      exact h.cap job hjob
    · intro job hjob hid
      rw [hf.attempts_eq, ← hid]
      exact h.runs job hjob
    · intro job hjob _ hrunning
      exact absurd (hf.terminal job) (not_terminal_of_running hrunning)
    · rw [List.append_nil]
      exact h.apart

section Runs

variable [DecidableEq Worker]

theorem Sound.step (h : Sound s) (hs : step s e = some t) : Sound t :=
  h.change (step_cases hs) t.now t.held

/-- Every reachable table is sound. -/
theorem sound_of_run {now : Time} {events : List (Event Worker)}
    (h : run step (empty now) events = some s) : Sound s :=
  Lib.run_invariant (fun _ _ _ hs he => hs.step he) (Sound.empty now) h

/-! ## Hand-outs -/

/-- The log only grows, and not by a job that was terminal; terminal jobs stay terminal. -/
def Settled (s t : Queue Worker) : Prop :=
  ∃ later, t.handouts = s.handouts ++ later ∧ ∀ row ∈ s.rows, row.terminal →
    (∀ h ∈ later, h.1 ≠ row.id) ∧ ∃ row' ∈ t.rows, row'.id = row.id ∧ row'.terminal

omit [DecidableEq Worker] in
theorem Settled.refl (s : Queue Worker) : Settled s s :=
  ⟨[], (List.append_nil _).symm, fun row hrow hterminal =>
    ⟨fun _ hh => absurd hh List.not_mem_nil, row, hrow, rfl, hterminal⟩⟩

omit [DecidableEq Worker] in
theorem Settled.trans (s t u : Queue Worker) (hst : Settled s t) (htu : Settled t u) :
    Settled s u := by
  obtain ⟨first, hfirst, hs⟩ := hst
  obtain ⟨second, hsecond, ht⟩ := htu
  refine ⟨first ++ second, by rw [hsecond, hfirst, List.append_assoc], ?_⟩
  intro row hrow hterminal
  obtain ⟨hnew, row', hrow', hid, hterminal'⟩ := hs row hrow hterminal
  obtain ⟨hnew', row'', hrow'', hid', hterminal''⟩ := ht row' hrow' hterminal'
  refine ⟨?_, row'', hrow'', hid'.trans hid, hterminal''⟩
  intro h hh
  rcases List.mem_append.mp hh with hh | hh
  · exact hnew h hh
  · exact hid ▸ hnew' h hh

/-- A claim passes over terminal rows, and a mark leaves a row terminal. -/
theorem Sound.settled (h : Sound s) (hs : Queue.step s e = some t) : Settled s t := by
  have hchange := step_cases hs
  obtain ⟨rows, now, held, handouts⟩ := t
  have hclaim : ∀ job ∈ s.rows, eligible s.now job → ∀ row ∈ s.rows, row.terminal →
      row.id ≠ job.id := by
    intro job hjob heligible row hrow hterminal hid
    obtain rfl := eq_of_id_eq h.ids hrow hjob hid
    exact not_terminal_of_eligible heligible hterminal
  cases hchange with
  | quiet =>
    refine ⟨[], (List.append_nil _).symm, fun row hrow hterminal => ?_⟩
    exact ⟨fun _ hh => absurd hh List.not_mem_nil, row, hrow, rfl, hterminal⟩
  | inserted id tenantId documentId amendedDocumentId createdAt hnew =>
    refine ⟨[], (List.append_nil _).symm, fun row hrow hterminal => ?_⟩
    exact ⟨fun _ hh => absurd hh List.not_mem_nil, row, List.mem_append_left _ hrow, rfl, hterminal⟩
  | handedOut job hjob heligible hcap =>
    refine ⟨[(job.id, s.now)], rfl, fun row hrow hterminal => ?_⟩
    have hne := hclaim job hjob heligible row hrow hterminal
    refine ⟨fun g hg => ?_, row, mem_updateRow.mpr ⟨row, hrow, .inr ⟨hne, rfl⟩⟩, rfl, hterminal⟩
    rw [List.mem_singleton.mp hg]
    exact hne.symm
  | capped job hjob heligible hcap =>
    refine ⟨[], (List.append_nil _).symm, fun row hrow hterminal => ?_⟩
    have hne := hclaim job hjob heligible row hrow hterminal
    exact ⟨fun _ hh => absurd hh List.not_mem_nil, row, mem_updateRow.mpr ⟨row, hrow, .inr ⟨hne, rfl⟩⟩, rfl,
      hterminal⟩
  | marked id f hf =>
    refine ⟨[], (List.append_nil _).symm, fun row hrow hterminal => ?_⟩
    refine ⟨fun _ hh => absurd hh List.not_mem_nil, ?_⟩
    by_cases hid : row.id = id
    · exact ⟨f row, mem_updateRow.mpr ⟨row, hrow, .inl ⟨hid, rfl⟩⟩, hf.id_eq row, hf.terminal row⟩
    · exact ⟨row, mem_updateRow.mpr ⟨row, hrow, .inr ⟨hid, rfl⟩⟩, rfl, hterminal⟩

/-- In every run, two hand-outs of one job to be run are at least a lease apart, and no later run
hands out a job that is completed or failed. -/
theorem handouts_lease_apart {now : Time} {events : List (Event Worker)}
    (h : run step (empty now) events = some s) :
    (s.handouts.Pairwise fun g h => g.1 = h.1 → g.2 + seconds LEASE_SECONDS ≤ h.2) ∧
      ∀ more t, run step s more = some t → ∃ later, t.handouts = s.handouts ++ later ∧
        ∀ row ∈ s.rows, row.terminal → ∀ g ∈ later, g.1 ≠ row.id := by
  have hsound := sound_of_run h
  refine ⟨hsound.apart, fun more t hmore => ?_⟩
  obtain ⟨later, hlater, hsettled⟩ := Lib.run_rel Settled.refl Settled.trans
    (fun _ _ _ hs he => Sound.step hs he) (fun _ _ _ hs he => Sound.settled hs he) hsound hmore
  exact ⟨later, hlater, fun row hrow hterminal => (hsettled row hrow hterminal).1⟩

/-- A worker that outlives its lease: the second hand-out comes with the lease's end, and the first
worker's late failure does not bring the job back. -/
def overrun : List (Event Nat) :=
  [.create 1 7 5 none 0, .claim 0 [], .tick (seconds LEASE_SECONDS), .claim 1 [],
    .complete 1 (.obj []), .fail 0 "late".toList]

theorem handouts_lease_apart_overrun :
    ∃ s, run step (empty 0) overrun = some s ∧
      s.handouts.Pairwise fun g h => g.1 = h.1 → g.2 + seconds LEASE_SECONDS ≤ h.2 := by
  obtain ⟨s, hs⟩ : ∃ s, run step (empty 0) overrun = some s := Option.isSome_iff_exists.mp rfl
  exact ⟨s, hs, (handouts_lease_apart hs).1⟩

/-! ## Columns and statuses -/

/-- In every reachable table the columns of each row fit its status and the attempts stay within
one of the cap, a job has been handed out at most `MAX_ATTEMPTS` times, and for every unfinished
row there is a time from which on it is eligible and `claim_next` answers with a job. -/
theorem rows_fit_status {now : Time} {events : List (Event Worker)}
    (h : run step (empty now) events = some s) :
    (∀ row ∈ s.rows, FitsStatus row ∧ row.attempts ≤ MAX_ATTEMPTS + 1) ∧
      (∀ id, runsOf id s.handouts ≤ MAX_ATTEMPTS) ∧
      ∀ row ∈ s.rows, ¬ row.terminal → ∃ lapse, (∀ lease ∈ row.leaseExpiresAt, lapse = lease) ∧
        ∀ later, lapse ≤ later → eligible later row ∧ (claimNext later [] s.rows).1.isSome := by
  have hsound := sound_of_run h
  refine ⟨fun row hrow => ⟨hsound.fits row hrow, hsound.cap row hrow⟩, fun id => ?_, ?_⟩
  · by_cases hknown : ∃ row ∈ s.rows, row.id = id
    · obtain ⟨row, hrow, rfl⟩ := hknown
      rw [hsound.runs row hrow]
      exact Nat.min_le_right _ _
    · have hnone : runsOf id s.handouts = 0 := by
        rw [runsOf_eq_zero]
        intro g hg hid
        obtain ⟨row, hrow, hrow_id⟩ := hsound.known g hg
        exact hknown ⟨row, hrow, hrow_id.trans hid⟩
      rw [hnone]
      exact Nat.zero_le _
  · intro row hrow hactive
    have hfits := hsound.fits row hrow
    have hclaimable : ∀ later, eligible later row →
        eligible later row ∧ (claimNext later [] s.rows).1.isSome := fun later heligible =>
      ⟨heligible, claimNext_isSome hrow heligible List.not_mem_nil⟩
    cases hstatus : row.status with
    | queued =>
      simp only [FitsStatus, hstatus] at hfits
      refine ⟨0, fun lease hlease => ?_, fun later _ => hclaimable later ?_⟩
      · rw [hfits.2.1] at hlease
        cases hlease
      · exact eligible_iff.mpr (.inl hstatus)
    | running =>
      simp only [FitsStatus, hstatus] at hfits
      obtain ⟨lapse, hlapse⟩ := Option.isSome_iff_exists.mp hfits.2.2.1
      refine ⟨lapse, fun lease hlease => ?_, fun later hlater => hclaimable later ?_⟩
      · rw [hlapse] at hlease
        exact Option.some.inj hlease
      · exact eligible_iff.mpr (.inr ⟨hstatus, lapse, hlapse, hlater⟩)
    | completed => exact absurd (by simp [JobRow.terminal, hstatus]) hactive
    | failed => exact absurd (by simp [JobRow.terminal, hstatus]) hactive

theorem rows_fit_status_overrun :
    ∃ s, run step (empty 0) overrun = some s ∧
      (∀ row ∈ s.rows, FitsStatus row ∧ row.attempts ≤ MAX_ATTEMPTS + 1) ∧
      ∀ id, runsOf id s.handouts ≤ MAX_ATTEMPTS := by
  obtain ⟨s, hs⟩ : ∃ s, run step (empty 0) overrun = some s := Option.isSome_iff_exists.mp rfl
  obtain ⟨hfits, hruns, -⟩ := rows_fit_status hs
  exact ⟨s, hs, hfits, hruns⟩

/-! ## Recorded outcomes -/

/-- A terminal write that lands on an unfinished row, or repeats the outcome on record. -/
def MarkLands (s : Queue Worker) : Event Worker → Prop
  | .complete worker result => ∀ id ∈ s.held worker, ∀ row ∈ row? id s.rows, row.terminal →
      (complete result row).outcome = row.outcome
  | .fail worker error => ∀ id ∈ s.held worker, ∀ row ∈ row? id s.rows, row.terminal →
      (fail error row).outcome = row.outcome
  | _ => True

theorem handOut_rows (s : Queue Worker) (worker : Worker) (answer : Option JobRow × List JobRow) :
    (s.handOut worker answer).rows = answer.2 := by
  unfold handOut
  split
  · rfl
  · split <;> rfl

/-- Only a terminal write can change a recorded outcome. -/
theorem Sound.keeps_iff (h : Sound s) (e : Event Worker) :
    (∀ t, Queue.step s e = some t → Keeps s.rows t.rows) ↔ MarkLands s e := by
  cases e with
  | tick elapsed =>
    refine iff_of_true (fun t ht => ?_) trivial
    cases ht
    exact Keeps.refl s.rows
  | crash worker =>
    refine iff_of_true (fun t ht => ?_) trivial
    cases ht
    exact Keeps.refl s.rows
  | create id tenantId documentId amendedDocumentId began =>
    refine iff_of_true (fun t ht => ?_) trivial
    simp only [Queue.step] at ht
    split at ht
    · cases ht
    next hnew =>
      cases ht
      exact keeps_append (Option.not_isSome_iff_eq_none.mp hnew)
  | claim worker locked =>
    refine iff_of_true (fun t ht => ?_) trivial
    simp only [Queue.step] at ht
    split at ht
    · cases ht
    · cases ht
      rw [handOut_rows]
      rcases claimNext_cases s.now locked s.rows with hnone | ⟨job, hjob, heligible, -, hsome⟩
      · rw [hnone]
        exact Keeps.refl s.rows
      · rw [hsome]
        exact keeps_claim h.ids hjob heligible
  | complete worker result =>
    simp only [Queue.step, mark, Option.map_eq_some_iff, MarkLands]
    constructor
    · intro hall id hheld
      exact (keeps_updateRow_iff fun _ => complete_id).mp (hall _ ⟨id, hheld, rfl⟩)
    · rintro hall t ⟨id, hheld, rfl⟩
      exact (keeps_updateRow_iff fun _ => complete_id).mpr (hall id hheld)
  | fail worker error =>
    simp only [Queue.step, mark, Option.map_eq_some_iff, MarkLands]
    constructor
    · intro hall id hheld
      exact (keeps_updateRow_iff fun _ => fail_id).mp (hall _ ⟨id, hheld, rfl⟩)
    · rintro hall t ⟨id, hheld, rfl⟩
      exact (keeps_updateRow_iff fun _ => fail_id).mpr (hall id hheld)

/-- Along a run from the empty table, no step after a terminal write changes that row's status,
result or error, exactly when every terminal write of the run lands on an unfinished row or
repeats the outcome on record. -/
theorem outcomes_frozen_iff (now : Time) (events : List (Event Worker)) :
    (∀ before between after s t, events = before ++ between ++ after →
      run step (empty now) before = some s → run step s between = some t →
      Keeps s.rows t.rows) ↔ Along step MarkLands (empty now) events := by
  rw [← Lib.along_iff_rel (R := fun s t : Queue Worker => Keeps s.rows t.rows)
    (fun s => Keeps.refl s.rows) fun s t u => Keeps.trans s.rows t.rows u.rows]
  exact Lib.along_congr (fun _ _ _ hs he => Sound.step hs he) (fun _ e hs => hs.keeps_iff e)
    (Sound.empty now)

/-- The first worker's late failure overwrites the result that the second one recorded. -/
theorem overwritten_after_lease :
    ¬ ∀ (before after : List (Event Nat)) (s t : Queue Nat),
      run step (empty 0) before = some s → run step s after = some t → Keeps s.rows t.rows := by
  intro h
  obtain ⟨row, hrow, houtcome⟩ := h (overrun.take 5) (overrun.drop 5) _ _ rfl rfl 1 _ rfl rfl
  obtain rfl := Option.some.inj hrow
  exact absurd (congrArg Prod.fst houtcome) (by decide)

end Runs

end Queue

end ContractIntel.Jobs
