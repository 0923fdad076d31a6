import ContractIntel.Laws.Jobs.Queue
import ContractIntel.Laws.Services.Custody
import ContractIntel.Laws.Services.Isolation
import ContractIntel.Lib.Tally
import Mathlib.Algebra.Order.BigOperators.Group.List
import Mathlib.Algebra.Order.Ring.Nat

/-!
# How long a job waits

A claim takes the oldest row it may run, and every claim uses up one of the attempts of the row it
takes. The attempts that the rows before a job have left (`budget`, of the rows `ahead` of it) are
therefore a potential: each claim that passes the job over lowers it, and only a row that is
inserted ahead of the job raises it.

## What is proved

- `budget_exec`: what one operation does to a budget.
- `overtaken_at_most`: in every run, a job that could be claimed is passed over at most as often as
  the rows ahead of it have attempts left, and those that are inserted ahead of it.
- `claims_at_most`: in every run, the jobs handed out are no more than the attempts that were left
  and those of the jobs inserted.
-/

namespace ContractIntel

open Jobs (JobRow claimsBefore eligible nextRunnable MAX_ATTEMPTS)
open Lib (run)
open Lib.Pool (count count_mono)

variable {o : Op} {a : Answer} {l : Session} {s t : Store} {kind : JobKind}

/-! ## Budgets -/

/-- The claims that some rows of a table have left, the one past the cap counted. -/
def budget (p : JobRow → Bool) (rows : List JobRow) : Nat :=
  (rows.map fun row => if p row then MAX_ATTEMPTS + 1 - row.attempts else 0).sum

/-- A choice of rows by their place in the queue, which no write moves. -/
def ByPlace (p : JobRow → Bool) : Prop :=
  ∀ row row', row.id = row'.id → row.createdAt = row'.createdAt → p row = p row'

/-- The attempts of an unfinished job are within the cap. -/
def Capped (s : Store) : Prop :=
  ∀ kind, ∀ row ∈ s.jobs kind, ¬ row.terminal → row.attempts ≤ MAX_ATTEMPTS

section Budget

variable {p : JobRow → Bool} {rows rows' : List JobRow} {f : JobRow → JobRow} {id : Uuid}

theorem budget_sublist (h : rows'.Sublist rows) : budget p rows' ≤ budget p rows :=
  (h.map _).sum_le_sum fun _ _ => Nat.zero_le _

theorem budget_append_single (rows : List JobRow) (row : JobRow) :
    budget p (rows ++ [row]) =
      budget p rows + if p row then MAX_ATTEMPTS + 1 - row.attempts else 0 := by
  simp [budget]

/-- A write that keeps a row's place and gives it no attempt back. -/
theorem budget_updateRow (hp : ByPlace p) (hplace : ∀ job, (f job).id = job.id ∧
    (f job).createdAt = job.createdAt ∧ job.attempts ≤ (f job).attempts) :
    budget p (Jobs.updateRow id f rows) ≤ budget p rows := by
  unfold budget Jobs.updateRow
  rw [List.map_map]
  refine List.sum_le_sum fun job _ => ?_
  rw [Function.comp_apply]
  split
  · obtain ⟨hid, hcreated, hattempts⟩ := hplace job
    rw [hp (f job) job hid hcreated]
    split <;> omega
  · exact Nat.le_refl _

/-- A write that uses up an attempt of a row that has one left. -/
theorem budget_updateRow_lt (hp : ByPlace p) (hplace : ∀ job, (f job).id = job.id ∧
    (f job).createdAt = job.createdAt ∧ (f job).attempts = job.attempts + 1) {job : JobRow}
    (hjob : job ∈ rows) (hchosen : p job) (hleft : job.attempts ≤ MAX_ATTEMPTS) :
    budget p (Jobs.updateRow job.id f rows) + 1 ≤ budget p rows := by
  unfold budget Jobs.updateRow
  rw [List.map_map]
  refine Nat.succ_le_of_lt (List.sum_lt_sum _ _ (fun row _ => ?_) ⟨job, hjob, ?_⟩)
  · rw [Function.comp_apply]
    split
    · obtain ⟨hid, hcreated, hattempts⟩ := hplace row
      rw [hp (f row) row hid hcreated]
      split <;> omega
    · exact Nat.le_refl _
  · obtain ⟨hid, hcreated, hattempts⟩ := hplace job
    rw [Function.comp_apply, if_pos rfl, hp (f job) job hid hcreated, hattempts]
    simp only [hchosen, if_true]
    omega

end Budget

theorem claim_place (now : Time) (job : JobRow) : (Jobs.claim now job).id = job.id ∧
    (Jobs.claim now job).createdAt = job.createdAt ∧
      (Jobs.claim now job).attempts = job.attempts + 1 := by
  unfold Jobs.claim
  split <;> exact ⟨rfl, rfl, rfl⟩

theorem Capped.empty (now : Time) : Capped (.empty now) :=
  fun _ _ hrow => absurd hrow List.not_mem_nil

theorem Capped.withJobs {rows : List JobRow} (h : Capped s)
    (hrows : ∀ row ∈ rows, ¬ row.terminal → row.attempts ≤ MAX_ATTEMPTS) :
    Capped (s.withJobs kind rows) := by
  intro k row hrow
  rw [withJobs_jobs] at hrow
  split at hrow
  · exact hrows row hrow
  · exact h k row hrow

theorem Capped.updateRow {id : Uuid} {f : JobRow → JobRow} (h : Capped s)
    (hf : ∀ job, ¬ (f job).terminal → (f job).attempts ≤ MAX_ATTEMPTS) :
    Capped (s.withJobs kind (Jobs.updateRow id f (s.jobs kind))) := by
  refine h.withJobs fun row hrow hactive => ?_
  obtain ⟨old, hold, ⟨-, rfl⟩ | ⟨-, rfl⟩⟩ := Jobs.mem_updateRow.mp hrow
  · exact hf old hactive
  · exact h kind row hold hactive

/-- A claim beyond the cap fails the job. -/
theorem Capped.effect (hcapped : Capped s) (h : Effect o a s t) : Capped t := by
  cases h with
  | deleteSweep hswept =>
    intro k row hrow
    exact hcapped k row (((Store.deleteSweep_eq_ok hswept).2.2.2.2 k).subset hrow)
  | @insertJob k tenantId documentId amended =>
    apply Capped.withJobs hcapped
    intro row hrow hactive
    rcases List.mem_append.mp hrow with hrow | hrow
    · exact hcapped k row hrow hactive
    · rw [List.mem_singleton.mp hrow]
      exact Nat.zero_le _
  | @claimJob k =>
    rcases Jobs.claimNext_cases s.now a.locked (s.jobs k) with heq | ⟨job, -, -, -, heq⟩
    · rw [heq, withJobs_self]
      exact hcapped
    · rw [heq]
      refine hcapped.updateRow fun row hactive => ?_
      by_cases hcap : row.attempts < MAX_ATTEMPTS
      · rw [(claim_place _ row).2.2]
        exact hcap
      · exact absurd (by simp [JobRow.terminal, Jobs.Queue.claim_status_of_le (Nat.not_lt.mp hcap)])
          hactive
  | completeJob => exact hcapped.updateRow fun row hactive => absurd rfl hactive
  | failJob => exact hcapped.updateRow fun row hactive => absurd rfl hactive
  | _ => exact hcapped

/-! ## What one operation does to a budget -/

section Operation

variable {p : JobRow → Bool}

/-- The row that an operation inserted. -/
def insertedRow (kind : JobKind) : (o : Op) → Except Exn o.Res → Option JobRow
  | .insertJob k .., .ok row => if k = kind then some row else none
  | _, _ => none

/-- A claim takes an attempt from the row it claims, wherever that is. -/
theorem budget_claim (hp : ByPlace p) (now : Time) (id : Uuid) (rows : List JobRow) :
    budget p (Jobs.updateRow id (Jobs.claim now) rows) ≤ budget p rows := by
  apply budget_updateRow hp
  intro job
  obtain ⟨hid, hcreated, hattempts⟩ := claim_place now job
  exact ⟨hid, hcreated, hattempts ▸ Nat.le_succ _⟩

/-- Nothing but an insert adds to a budget. -/
theorem budget_effect (hp : ByPlace p) (h : Effect o a s t)
    (ho : ∀ tenantId documentId amended, o ≠ .insertJob kind tenantId documentId amended) :
    budget p (t.jobs kind) ≤ budget p (s.jobs kind) := by
  by_cases hjobs : o.writesJobs kind
  · cases h with
    | nothing => exact Nat.le_refl _
    | deleteSweep hswept => exact budget_sublist ((Store.deleteSweep_eq_ok hswept).2.2.2.2 kind)
    | @insertJob k tenantId documentId amended =>
      obtain rfl : k = kind := by simpa [Op.writesJobs] using hjobs
      exact absurd rfl (ho tenantId documentId amended)
    | @claimJob k =>
      obtain rfl : k = kind := by simpa [Op.writesJobs] using hjobs
      rw [withJobs_jobs, if_pos rfl]
      rcases Jobs.claimNext_cases s.now a.locked (s.jobs k) with heq | ⟨job, -, -, -, heq⟩
      · rw [heq]
      · rw [heq]
        exact budget_claim hp _ _ _
    | @completeJob k =>
      obtain rfl : k = kind := by simpa [Op.writesJobs] using hjobs
      rw [withJobs_jobs, if_pos rfl]
      exact budget_updateRow hp fun _ => ⟨rfl, rfl, Nat.le_refl _⟩
    | @failJob k =>
      obtain rfl : k = kind := by simpa [Op.writesJobs] using hjobs
      rw [withJobs_jobs, if_pos rfl]
      exact budget_updateRow hp fun _ => ⟨rfl, rfl, Nat.le_refl _⟩
    | _ => cases hjobs
  · rw [h.jobs (by simpa using hjobs)]

/-- A claim is paid for by the attempts of the row it hands out. -/
theorem budget_claimJob (hp : ByPlace p) (hcapped : Capped s) :
    ((handedOut (· = kind) (.claimJob kind) (exec (.claimJob kind) a l s).1).any p).toNat +
      budget p ((exec (.claimJob kind) a l s).2.2.jobs kind) ≤ budget p (s.jobs kind) := by
  rcases claimJob_cases kind a l s with ⟨e, heq⟩ | ⟨-, heq⟩ | ⟨job, hjob, -, -, hnext, heq⟩
  · rw [heq]
    exact Nat.le_of_eq (Nat.zero_add _)
  · rw [heq, withJobs_self]
    exact Nat.le_of_eq (Nat.zero_add _)
  · obtain ⟨-, heligible, -⟩ := Jobs.nextRunnable_mem hnext
    obtain ⟨hid, hcreated, -⟩ := claim_place s.now job
    rw [heq]
    simp only [handedOut, decide_true, if_true, Option.any_some, withJobs_jobs]
    rw [hp _ job hid hcreated]
    cases hchosen : p job with
    | false =>
      rw [Bool.toNat_false, Nat.zero_add]
      exact budget_claim hp _ _ _
    | true =>
      have hleft := hcapped kind job hjob (Jobs.not_terminal_of_eligible heligible)
      have hlt := budget_updateRow_lt hp (claim_place s.now) hjob hchosen hleft
      rw [Bool.toNat_true]
      omega

/-- An insert brings the new row's attempts in. -/
theorem budget_insertJob {tenantId documentId : Uuid} {amended : Option Uuid} :
    let outcome := exec (.insertJob kind tenantId documentId amended) a l s
    budget p (outcome.2.2.jobs kind) ≤ budget p (s.jobs kind) + (MAX_ATTEMPTS + 1) *
      ((insertedRow kind (.insertJob kind tenantId documentId amended) outcome.1).any p).toNat := by
  dsimp only
  rcases statement_cases (Store.insertJob kind tenantId documentId amended (a.ids.headD 0) a.began) a
    l s with ⟨e, heq, -⟩ | ⟨row, t, -, -, hok, heq⟩
  · rw [exec, heq]
    exact Nat.le_add_right _ _
  · obtain ⟨-, -, hrow, rfl⟩ := Store.insertJob_eq_ok hok
    rw [exec, heq]
    simp only [insertedRow, withJobs_jobs, if_true, budget_append_single, Option.any_some]
    rw [hrow]
    cases p (JobRow.create _ _ _ _ _) <;> simp [JobRow.create]

/-- Each claim is paid for, and only an insert adds to a budget. -/
theorem budget_exec (kind : JobKind) (hp : ByPlace p) (hcapped : Capped s) :
    ((handedOut (· = kind) o (exec o a l s).1).any p).toNat +
      budget p ((exec o a l s).2.2.jobs kind) ≤
        budget p (s.jobs kind) +
          (MAX_ATTEMPTS + 1) * ((insertedRow kind o (exec o a l s).1).any p).toNat := by
  cases hout : handedOut (· = kind) o (exec o a l s).1 with
  | some job =>
    obtain ⟨k, hk, rfl⟩ := exists_of_handedOut hout
    obtain rfl : k = kind := of_decide_eq_true hk
    rw [← hout]
    exact Nat.le_add_right_of_le (budget_claimJob hp hcapped)
  | none =>
    rw [Option.any_none, Bool.toNat_false, Nat.zero_add]
    by_cases hinsert : ∃ tenantId documentId amended, o = .insertJob kind tenantId documentId amended
    · obtain ⟨tenantId, documentId, amended, rfl⟩ := hinsert
      exact budget_insertJob
    · refine Nat.le_add_right_of_le (budget_effect hp (exec_effect o a l s) ?_)
      exact fun tenantId documentId amended h => hinsert ⟨_, _, _, h⟩

end Operation

/-! ## Runs -/

instance : Std.Total claimsBefore := ⟨fun a b => by unfold claimsBefore; grind⟩

instance : IsTrans JobRow claimsBefore := ⟨fun a b c hab hbc => by unfold claimsBefore at *; grind⟩

/-- The rows that are claimed before a job while they can be. -/
def ahead (job row : JobRow) : Bool := claimsBefore row job && row.id ≠ job.id

theorem ahead_byPlace (job : JobRow) : ByPlace (ahead job) := by
  intro row row' hid hcreated
  have hplace : claimsBefore row job ↔ claimsBefore row' job := by
    unfold claimsBefore
    rw [hid, hcreated]
  rw [ahead, ahead, decide_eq_decide.mpr hplace, hid]

/-- A claim passes a job over: the job's row could be claimed, and another one is. -/
def passesOver (kind : JobKind) (job : JobRow) (o : Op) (a : Answer) (l : Session) (s : Store) :
    Bool :=
  (handedOut (· = kind) o (exec o a l s).1).any (·.id ≠ job.id) && job.id ∉ a.locked &&
    (s.jobs kind).any fun row =>
      row.id = job.id && row.createdAt = job.createdAt && eligible s.now row

/-- A job is passed over for a row that is ahead of it. -/
theorem ahead_of_passesOver {job : JobRow} (h : passesOver kind job o a l s) :
    (handedOut (· = kind) o (exec o a l s).1).any (ahead job) := by
  simp only [passesOver, Bool.and_eq_true, decide_eq_true_eq, List.any_eq_true] at h
  obtain ⟨⟨hother, hlocked⟩, row, hrow, ⟨hid, hcreated⟩, heligible⟩ := h
  obtain ⟨claimed, hclaimed, hne⟩ := Option.any_eq_true _ _ |>.mp hother
  obtain ⟨k, hk, rfl⟩ := exists_of_handedOut hclaimed
  obtain rfl : k = kind := of_decide_eq_true hk
  rcases claimJob_cases k a l s with ⟨e, heq⟩ | ⟨-, heq⟩ | ⟨next, -, -, -, hnext, heq⟩
  · rw [heq] at hclaimed
    cases hclaimed
  · rw [heq] at hclaimed
    cases hclaimed
  · rw [heq] at hclaimed ⊢
    obtain rfl : Jobs.claim s.now next = claimed := by simpa [handedOut] using hclaimed
    obtain ⟨hnextId, hnextCreated, -⟩ := claim_place s.now next
    rw [hclaimed, Option.any_some, ahead_byPlace job _ next hnextId hnextCreated]
    have hfirst : Lib.first claimsBefore
        ((s.jobs k).filter fun job => eligible s.now job && job.id ∉ a.locked) = some next := hnext
    have hbefore := Lib.first_le hfirst row (List.mem_filter.mpr ⟨hrow, by
      simp [heligible, hid, hlocked]⟩)
    have hplace : claimsBefore next job := by
      unfold claimsBefore at hbefore ⊢
      rwa [hid, hcreated] at hbefore
    simpa [ahead, hplace, hnextId] using hne

/-- Whether an operation inserts a row that lines up ahead of a job. The row is stamped with the
start of its transaction, so it may be stamped before rows that were there already. -/
def insertsAhead (kind : JobKind) (job : JobRow) (o : Op) (a : Answer) (l : Session) (s : Store) :
    Nat :=
  ((insertedRow kind o (exec o a l s).1).any (ahead job)).toNat

/-- The claims on rows ahead of a job are paid for, and only an insert ahead of it adds attempts. -/
theorem budget_ahead (job : JobRow) (hcapped : Capped s) (kind : JobKind) :
    ((handedOut (· = kind) o (exec o a l s).1).any (ahead job)).toNat +
      budget (ahead job) ((exec o a l s).2.2.jobs kind) ≤
        budget (ahead job) (s.jobs kind) + (MAX_ATTEMPTS + 1) * insertsAhead kind job o a l s :=
  budget_exec kind (ahead_byPlace job) hcapped

section Runs

variable {ι : Type} [DecidableEq ι] {c c' : System ι} {turns : List (Turn ι)}

/-- The states that runs lead to, from an empty store, of parties that run any programs at all. -/
def Underway (c : System ι) : Prop :=
  ∃ now programs turns, run System.step (System.start (.empty now) programs) turns = some c

theorem Underway.capped (h : Underway c) : Capped c.store := by
  obtain ⟨now, programs, turns, hrun⟩ := h
  refine Lib.run_invariant (I := fun c : System ι => Capped c.store) ?_ (Capped.empty now) hrun
  exact Lib.Pool.step_store (fun o a l s h => h.effect (exec_effect o a l s)) fun _ _ h => h

theorem Capped.exec (o : Op) (a : Answer) (l : Session) (s : Store) (h : Capped s) :
    Capped (exec o a l s).2.2 :=
  h.effect (exec_effect o a l s)

/-- In every run of any programs, the claims that pass a job over while it could be claimed are at
most as many as the attempts that the rows ahead of it have left, and those of the rows that are
inserted ahead of it meanwhile. -/
theorem overtaken_at_most (hunderway : Underway c) (hrun : run System.step c turns = some c')
    (kind : JobKind) (job : JobRow) :
    count exec Store.tick (fun o a l s => (passesOver kind job o a l s).toNat) c turns ≤
      budget (ahead job) (c.store.jobs kind) +
        (MAX_ATTEMPTS + 1) * count exec Store.tick (insertsAhead kind job) c turns := by
  have hticked : ∀ (elapsed : Time) (s : Store), Capped s → Capped (s.tick elapsed) :=
    fun _ _ h => h
  have hpaid := Lib.Pool.tally_add_le
    (g := fun o a l s => (MAX_ATTEMPTS + 1) * insertsAhead kind job o a l s)
    (fun s => budget (ahead job) (s.jobs kind)) Capped.exec hticked
    (fun _ _ _ _ h => budget_ahead job h kind) (fun _ _ _ => Nat.le_refl _) hunderway.capped hrun
  rw [Lib.Pool.count_mul] at hpaid
  refine Nat.le_trans (count_mono Capped.exec hticked (fun o a l s _ => ?_) hunderway.capped hrun)
    (Nat.le_trans (Nat.le_add_right _ _) hpaid)
  exact Bool.toNat_le_toNat ahead_of_passesOver

/-- Two jobs on one document, and a party that claims. -/
def twoJobs : Fin 2 → Option (Service Unit)
  | 0 => some do
    let document ← perform (.insertDocument 1 [] [] [] none)
    let _first ← perform (.insertJob .ingestion 1 document.id none)
    let _second ← perform (.insertJob .ingestion 1 document.id none)
  | 1 => some do
    let _job ← perform (.claimJob .ingestion)

/-- The second job is inserted by a transaction that began before the first one, then claimed. -/
def lateInsert : List (Turn (Fin 2)) := [.act 0 { ids := [21], began := 1 }, .act 1 {}]

/-- The claim takes the second job, which was inserted ahead of the first. -/
theorem overtaken_at_most_two : ∃ c c',
    run System.step (System.start (.empty 5) twoJobs)
      [.act 0 { ids := [10] }, .act 0 { ids := [20] }] = some c ∧
    run System.step c lateInsert = some c' ∧
    let job := JobRow.create 20 1 10 none 5
    let passed := count exec Store.tick (fun o a l s => (passesOver .ingestion job o a l s).toNat) c
      lateInsert
    passed = 1 ∧ passed ≤ budget (ahead job) (c.store.jobs .ingestion) +
      (MAX_ATTEMPTS + 1) * count exec Store.tick (insertsAhead .ingestion job) c lateInsert := by
  obtain ⟨c, hc⟩ : ∃ c, run System.step (System.start (.empty 5) twoJobs)
      [.act 0 { ids := [10] }, .act 0 { ids := [20] }] = some c := ⟨_, rfl⟩
  have hunderway : Underway c := ⟨5, twoJobs, _, hc⟩
  cases hc
  exact ⟨_, _, rfl, rfl, by decide, overtaken_at_most hunderway rfl _ _⟩

/-- The inserts, and some time. -/
def twoQueued : List (Turn (Fin 2)) :=
  [.act 0 { ids := [10] }, .act 0 { ids := [20] }, .act 0 { ids := [21] }, .drift 1]

/-- In every run of any programs, the jobs that claims on a queue hand out, and the attempts its rows
have left in the end, are no more than the attempts they had left in the beginning and those of the
jobs inserted meanwhile. -/
theorem claims_at_most (hunderway : Underway c) (hrun : run System.step c turns = some c')
    (kind : JobKind) :
    count exec Store.tick
        (fun o a l s => (handedOut (· = kind) o (exec o a l s).1).isSome.toNat) c turns +
      budget (fun _ => true) (c'.store.jobs kind) ≤
    budget (fun _ => true) (c.store.jobs kind) + (MAX_ATTEMPTS + 1) *
      count exec Store.tick (fun o a l s => (insertedRow kind o (exec o a l s).1).isSome.toNat) c
        turns := by
  have hticked : ∀ (elapsed : Time) (s : Store), Capped s → Capped (s.tick elapsed) :=
    fun _ _ h => h
  have hpaid := Lib.Pool.tally_add_le
    (f := fun o a l s => (handedOut (· = kind) o (exec o a l s).1).isSome.toNat)
    (g := fun o a l s => (MAX_ATTEMPTS + 1) * (insertedRow kind o (exec o a l s).1).isSome.toNat)
    (fun s => budget (fun _ => true) (s.jobs kind)) Capped.exec hticked (fun o a l s h => ?_)
    (fun _ _ _ => Nat.le_refl _) hunderway.capped hrun
  · rwa [Lib.Pool.count_mul] at hpaid
  · simpa using budget_exec (o := o) (a := a) (l := l) (p := fun _ => true) kind
      (fun _ _ _ _ => rfl) h

/-- One of two jobs is handed out. -/
theorem claims_at_most_two : ∃ c c',
    run System.step (System.start (.empty 0) twoJobs) twoQueued = some c ∧
    run System.step c [.act 1 {}] = some c' ∧
    count exec Store.tick
        (fun o a l s => (handedOut (· = .ingestion) o (exec o a l s).1).isSome.toNat) c
        [.act (1 : Fin 2) ({} : Answer)] +
      budget (fun _ => true) (c'.store.jobs .ingestion) ≤ 8 := by
  obtain ⟨c, hc⟩ : ∃ c, run System.step (System.start (.empty 0) twoJobs) twoQueued = some c :=
    ⟨_, rfl⟩
  have hunderway : Underway c := ⟨0, twoJobs, twoQueued, hc⟩
  cases hc
  exact ⟨_, _, rfl, rfl, claims_at_most hunderway rfl .ingestion⟩

end Runs

end ContractIntel
