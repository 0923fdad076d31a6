import ContractIntel.Laws.Services.Overtaking
import ContractIntel.Laws.Services.Settling
import ContractIntel.Laws.Services.Workers
import ContractIntel.Lib.Endings
import ContractIntel.Services.Worker

/-!
# The worker's rotation

Whatever the other parties do, a queued job is reached. Every third pass of a worker tries the job's
queue first. Then the claim takes the job, or one that is ahead of it, and the attempts of those run
out (`Overtaking`).

## What is proved

- `pass_claims`: the claims of a pass, whatever happens between its operations.
- `reached_by_worker`: a worker that makes enough rounds reaches every queued job.
-/

namespace ContractIntel

open Jobs (JobRow MAX_ATTEMPTS)
open Lib (Along Every Safe run)
open Lib.Pool (count)
open Lib.Prog (Performs)
open Repositories
open Worker (QUEUE_COUNT queueAt runNextJob runQueue tryQueues)

variable {kind : JobKind} {id : Uuid} {o : Op} {a : Answer} {l : Session} {s t : Store}

/-! ## A pass -/

/-- The operations of a worker that runs a job. -/
def Op.ofHandler (o : Op) : Bool := o.ofIngestion && !o matches .claimJob _

/-- A handler claims nothing more, and reports a job when it returns. -/
structure Handles (p : Service Bool) : Prop where
  performs : p.Performs fun o => o.ofHandler = true
  returns : p.Returns (· = true)

namespace Handles

theorem ret : Handles (.ret true) := ⟨trivial, rfl⟩

theorem raise (e : Exn) : Handles (.raise e) := ⟨trivial, trivial⟩

theorem bind {α : Type} {p : Service α} {f : α → Service Bool}
    (hp : p.Performs fun o => o.ofHandler = true) (hf : ∀ r, Handles (f r)) : Handles (p.bind f) :=
  ⟨hp.bind fun r => (hf r).performs, .bind p fun r => (hf r).returns⟩

/-- A `try` block before the rest of a handler. -/
theorem attempt {α : Type} {p : Service α} {f : Except Exn α → Service Bool} (hp : TryProgram p)
    (hf : ∀ res, Handles (f res)) : Handles (p.attempt.bind f) := by
  refine bind (Lib.Prog.Performs.attempt (hp.mono fun o _ ho => ?_)) hf
  cases o <;> first | rfl | cases ho

theorem abandon (kind : JobKind) (job : JobRow) {usageSink : Llm.UsageSink}
    (hsink : ∀ usage, (usageSink usage).Performs fun o => o.ofHandler = true) (e : Exn) :
    Handles (Extraction.abandon kind job usageSink e) := by
  unfold Extraction.abandon
  split
  · refine bind (markFailed_performs rfl rfl) fun _ => bind ?_ fun _ => ret
    unfold Usage.accountRejectedOutput
    split
    · exact hsink _
    · exact .ret _
  · exact raise e

theorem extraction (llm : Llm.OpenAiClient) (threshold : Rat) (job : JobRow) :
    Handles (Extraction.runClaimed llm threshold job) := by
  unfold Extraction.runClaimed
  split
  · exact ret
  · refine attempt (.extract llm job (.sink _ _ _ _)) fun res => ?_
    cases res with
    | error e => exact abandon _ _ (fun _ => sink_performs rfl) e
    | ok extraction =>
      exact bind (markCompleted_performs rfl rfl) fun _ =>
        bind (routeForReview_performs rfl) fun _ => ret

variable [Platform]

theorem ingestion (llm : Llm.OpenAiClient) (job : JobRow) : Handles (Ingestion.runClaimed llm job) := by
  unfold Ingestion.runClaimed
  split
  · refine bind (.call rfl) fun found => ?_
    cases found with
    | none => exact ret
    | some document => exact bind (setStatus_performs rfl rfl) fun _ => ret
  · refine bind (.call rfl) fun found => ?_
    cases found with
    | none => exact bind (markFailed_performs rfl rfl) fun _ => ret
    | some document =>
      refine attempt (.ingest llm document (.sink _ _ _ _)) fun res => ?_
      cases res with
      | error e =>
        exact bind (markFailed_performs rfl rfl) fun _ => bind (setStatus_performs rfl rfl) fun _ => ret
      | ok ingested =>
        exact bind (.call rfl) fun _ => bind (markCompleted_performs rfl rfl) fun _ =>
          bind (setStatus_performs rfl rfl) fun _ => ret

variable [Ucd]

theorem changeReport (llm : Llm.OpenAiClient) (threshold : Rat) (job : JobRow) :
    Handles (ChangeReport.runClaimed llm threshold job) := by
  unfold ChangeReport.runClaimed
  split
  · exact ret
  · refine attempt (.examine llm job (.sink _ _ _ _)) fun res => ?_
    cases res with
    | error e => exact abandon _ _ (fun _ => sink_performs rfl) e
    | ok findings =>
      exact bind (.ofResult _) fun _ => bind (markCompleted_performs rfl rfl) fun _ =>
        bind (routeForReview_performs rfl) fun _ => ret

end Handles

/-- The queue that an operation claims from, with the answer. -/
def claimOf : Entry → Option (JobKind × Except Exn (Option JobRow))
  | ⟨.claimJob kind, _, answer⟩ => some (kind, answer)
  | _ => none

/-- What the claims of a trace were answered. -/
def claimAnswers (trace : List Entry) : List (JobKind × Except Exn (Option JobRow)) :=
  trace.filterMap claimOf

theorem claimAnswers_append (trace more : List Entry) :
    claimAnswers (trace ++ more) = claimAnswers trace ++ claimAnswers more :=
  List.filterMap_append

theorem claimAnswers_eq_nil {trace : List Entry} (h : ∀ entry ∈ trace, entry.op.ofHandler = true) :
    claimAnswers trace = [] := by
  refine List.filterMap_eq_nil_iff.mpr fun entry hentry => ?_
  obtain ⟨o, a, answer⟩ := entry
  have ho := h _ hentry
  cases o <;> first | rfl | cases ho

section Pass

variable {env : Store → Store → Prop}

/-- What a worker's attempt at a queue comes to, by the answer of its claim. -/
def Tried : Except Exn (Option JobRow) → Except Exn Bool → Prop
  | .error e, res => res = .error e
  | .ok none, res => res = .ok false
  | .ok (some _), res => res ≠ .ok false

/-- One claim, and with a job the handler. -/
theorem tried_of_handles {p : Service Bool} {body : JobRow → Service Bool}
    (hp : p = passOf kind body) (hbody : ∀ job, Handles (body job)) :
    Every exec env p l s fun trace res _ _ =>
      ∃ answer, claimAnswers trace = [(kind, answer)] ∧ Tried answer res := by
  subst hp
  have hrest : ∀ job : JobRow, Handles ((refreshJob kind job.id).bind body) :=
    fun job => .bind (refreshJob_performs rfl) hbody
  show Every exec env ((claimNextQueued kind).bind _) l s _
  rw [claimNextQueued, Lib.Prog.bind_eq, Lib.Prog.bind_assoc]
  refine Every.bind.mpr (Every.call.mpr fun moved a _ => ?_)
  cases (exec (.claimJob kind) a l moved).1 with
  | error e => exact ⟨.error e, rfl, rfl⟩
  | ok found =>
    cases found with
    | none => exact ⟨.ok none, rfl, rfl⟩
    | some job =>
      show Every exec env (((refreshJob kind job.id).bind fun row => .ret (some row)).bind _) _ _ _
      rw [Lib.Prog.bind_assoc]
      refine ((Every.trace_of_performs (hrest job).performs).and
        (Every.of_returns (hrest job).returns)).mono fun trace res _ _ ⟨hops, hres⟩ => ?_
      refine ⟨.ok (some job), ?_, fun hidle => ?_⟩
      · rw [claimAnswers_append, claimAnswers_eq_nil hops]
        rfl
      · cases hres false hidle

variable [Ucd] [Platform] {settings : Worker.Settings} {first : Nat}

theorem tried_of_runQueue (settings : Worker.Settings) (kind : JobKind) :
    Every exec env (runQueue settings kind) l s fun trace res _ _ =>
      ∃ answer, claimAnswers trace = [(kind, answer)] ∧ Tried answer res := by
  cases kind with
  | extraction => exact tried_of_handles rfl (.extraction _ _)
  | ingestion => exact tried_of_handles rfl (.ingestion _)
  | changeReport => exact tried_of_handles rfl (.changeReport _ _)

theorem tried_of_tryQueues (settings : Worker.Settings) (first : Nat) {offsets : List Nat}
    (hoffsets : offsets ≠ []) :
    Every exec env (tryQueues settings first offsets) l s fun trace res _ _ =>
      ∃ before offset after answer, offsets = before ++ offset :: after ∧
        claimAnswers trace = before.map (fun offset => (queueAt (first + offset), .ok none)) ++
          [(queueAt (first + offset), answer)] ∧
        Tried answer res ∧ (answer = .ok none → after = []) := by
  induction offsets generalizing l s with
  | nil => exact absurd rfl hoffsets
  | cons offset rest ih =>
    refine Every.bind.mpr ((tried_of_runQueue settings _).mono fun trace res l' t htried => ?_)
    obtain ⟨answer, hanswers, htried⟩ := htried
    cases res with
    | error e =>
      refine ⟨[], offset, rest, answer, rfl, hanswers, htried, fun hidle => ?_⟩
      subst hidle
      cases htried
    | ok ran =>
      cases ran with
      | true =>
        refine ⟨[], offset, rest, answer, rfl, ?_, htried, fun hidle => ?_⟩
        · rw [List.append_nil]
          exact hanswers
        · subst hidle
          cases htried
      | false =>
        -- the queue had no job, which only the answer `none` leads to
        obtain rfl : answer = .ok none := by
          rcases answer with e | _ | job
          · cases htried
          · rfl
          · exact absurd rfl htried
        by_cases hrest : rest = []
        · subst hrest
          exact ⟨[], offset, [], .ok none, rfl, by rw [List.append_nil]; exact hanswers, rfl, fun _ => rfl⟩
        · refine (ih hrest).mono fun more res l' t hmore => ?_
          obtain ⟨before, next, after, answer, rfl, hmore, htried, hidle⟩ := hmore
          refine ⟨offset :: before, next, after, answer, rfl, ?_, htried, hidle⟩
          rw [claimAnswers_append, hanswers, hmore]
          rfl

/-- Whatever happens between its operations, a pass claims from the queues in the order of the
rotation, each at most once, and goes on to the next one only when there was no job to claim: the
last answer decides what the pass comes to, and a pass is idle only when all three had none. -/
theorem pass_claims (settings : Worker.Settings) (first : Nat) :
    Every exec env (runNextJob settings first) l s fun trace res _ _ =>
      ∃ before offset after answer, List.range QUEUE_COUNT = before ++ offset :: after ∧
        claimAnswers trace = before.map (fun offset => (queueAt (first + offset), .ok none)) ++
          [(queueAt (first + offset), answer)] ∧
        Tried answer res ∧ (answer = .ok none → after = []) :=
  tried_of_tryQueues settings first (by decide)

end Pass

/-! ## Queued jobs -/

/-- A row is what became of another one: in its place, and queued only if that one was. -/
def ComesFrom (old row : JobRow) : Prop :=
  old.id = row.id ∧ old.createdAt = row.createdAt ∧ (row.status = .queued → old.status = .queued)

theorem comesFrom_claim (now : Time) (job : JobRow) : ComesFrom job (Jobs.claim now job) := by
  unfold Jobs.claim
  split <;> exact ⟨rfl, rfl, fun h => by cases h⟩

theorem claim_not_queued (now : Time) (job : JobRow) : (Jobs.claim now job).status ≠ .queued := by
  unfold Jobs.claim
  split <;> simp

theorem exists_of_updateRow {k : JobKind} {f : JobRow → JobRow} {row : JobRow}
    (hf : ∀ job, ComesFrom job (f job))
    (h : row ∈ (s.withJobs k (Jobs.updateRow id f (s.jobs k))).jobs kind) :
    ∃ old ∈ s.jobs kind, ComesFrom old row := by
  rw [withJobs_jobs] at h
  split at h
  next hk =>
    subst hk
    obtain ⟨old, hold, ⟨-, rfl⟩ | ⟨-, rfl⟩⟩ := Jobs.mem_updateRow.mp h
    · exact ⟨old, hold, hf old⟩
    · exact ⟨row, hold, rfl, rfl, fun hqueued => hqueued⟩
  next => exact ⟨row, h, rfl, rfl, fun hqueued => hqueued⟩

/-- A row under an id in use was there before: an insert draws a new id. -/
theorem exists_of_effect {row : JobRow} (hissued : row.id ∈ s.issued) (h : Effect o a s t)
    (hrow : row ∈ t.jobs kind) : ∃ old ∈ s.jobs kind, ComesFrom old row := by
  have hsame : row ∈ s.jobs kind → ∃ old ∈ s.jobs kind, ComesFrom old row :=
    fun h => ⟨row, h, rfl, rfl, fun hqueued => hqueued⟩
  cases h with
  | deleteSweep hswept =>
    exact hsame (((Store.deleteSweep_eq_ok hswept).2.2.2.2 kind).subset hrow)
  | @insertJob k tenantId documentId amended _ _ new hnew =>
    simp only [withJobs_jobs] at hrow
    split at hrow
    next hk =>
      subst hk
      rcases List.mem_append.mp hrow with hrow | hrow
      · exact hsame hrow
      · have hid : row.id = new := by
          rw [List.mem_singleton.mp hrow]
          rfl
        exact absurd (hid ▸ hissued) (hnew ▸ draw_not_mem _ _)
    next => exact hsame hrow
  | @claimJob k =>
    rcases Jobs.claimNext_cases s.now a.locked (s.jobs k) with heq | ⟨job, -, -, -, heq⟩
    · rw [heq, withJobs_self] at hrow
      exact hsame hrow
    · rw [heq] at hrow
      exact exists_of_updateRow (comesFrom_claim s.now) hrow
  | completeJob =>
    exact exists_of_updateRow (f := Jobs.complete _) (fun _ => ⟨rfl, rfl, fun h => by cases h⟩) hrow
  | failJob =>
    exact exists_of_updateRow (f := Jobs.fail _) (fun _ => ⟨rfl, rfl, fun h => by cases h⟩) hrow
  | _ => exact hsame hrow

/-- The job has a row that waits for its first claim. -/
def Queued (kind : JobKind) (id : Uuid) (s : Store) : Prop :=
  ∃ row ∈ s.jobs kind, row.id = id ∧ row.status = .queued

/-! ## Waiting -/

/-- The attempts that the rows ahead of a job have left, less those that were inserted ahead of it:
the store is beside a counter of the latter. -/
def Within (kind : JobKind) (job : JobRow) (m k : Nat) (s : Store × Nat) : Prop :=
  budget (ahead job) (s.1.jobs kind) + m ≤ k + (MAX_ATTEMPTS + 1) * s.2

/-- While the job is queued, the rows ahead of it have `m` attempts fewer left than `k`, and than
those that were inserted ahead of it. -/
def Waits (kind : JobKind) (job : JobRow) (m k : Nat) (s : Store × Nat) : Prop :=
  Queued kind job.id s.1 → Within kind job m k s

/-- What is known of the store while a job waits: the rows under its id are its own. -/
structure Awaited (kind : JobKind) (job : JobRow) (s : Store) : Prop where
  keyed : Keyed s
  capped : Capped s
  issued : job.id ∈ s.issued
  own : ∀ row ∈ s.jobs kind, row.id = job.id → row.createdAt = job.createdAt

/-- What becomes of a store while a job waits: nobody puts the job back into the queue, and the rows
ahead of it get attempts by inserts only. -/
def Recedes (kind : JobKind) (job : JobRow) (s t : Store × Nat) : Prop :=
  (Queued kind job.id t.1 → Queued kind job.id s.1) ∧
    ∀ m k, Within kind job m k s → Within kind job m k t

/-- Operations beside a counter of the rows inserted ahead of a job. -/
abbrev counted (kind : JobKind) (job : JobRow) :
    Lib.Exec Op Op.Res Exn Answer Session (Store × Nat) :=
  Lib.Pool.counting (insertsAhead kind job) exec

variable {job : JobRow} {m k n : Nat} {u v : Store × Nat}

theorem Recedes.refl (u : Store × Nat) : Recedes kind job u u := ⟨fun h => h, fun _ _ h => h⟩

theorem Recedes.trans {w : Store × Nat} (h : Recedes kind job u v) (h' : Recedes kind job v w) :
    Recedes kind job u w :=
  ⟨fun hqueued => h.1 (h'.1 hqueued), fun m k hwithin => h'.2 m k (h.2 m k hwithin)⟩

theorem Waits.recedes (h : Waits kind job m k u) (hrecedes : Recedes kind job u v) :
    Waits kind job m k v :=
  fun hqueued => hrecedes.2 m k (h (hrecedes.1 hqueued))

theorem Awaited.effect (h : Awaited kind job s) (heffect : Effect o a s t) : Awaited kind job t where
  keyed := h.keyed.effect heffect
  capped := h.capped.effect heffect
  issued := heffect.issued _ h.issued
  own row hrow hid := by
    obtain ⟨old, hold, hsame, hcreated, -⟩ := exists_of_effect (hid ▸ h.issued) heffect hrow
    exact hcreated ▸ h.own old hold (hsame.trans hid)

theorem recedes_counted (h : Awaited kind job u.1) :
    Recedes kind job u (counted kind job o a l u).2.2 := by
  constructor
  · intro ⟨row, hrow, hid, hqueued⟩
    obtain ⟨old, hold, hsame, -, hstatus⟩ :=
      exists_of_effect (hid ▸ h.issued) (exec_effect o a l u.1) hrow
    exact ⟨old, hold, hsame.trans hid, hstatus hqueued⟩
  · intro m k hwithin
    have hpaid := budget_ahead (o := o) (a := a) (l := l) job h.capped kind
    unfold Within at hwithin ⊢
    dsimp only [counted, Lib.Pool.counting]
    rw [Nat.mul_add]
    omega

/-- A claim that is answered, and does not find the job's row locked, takes the job or one that is
ahead of it. -/
theorem Waits.claim {found : Option JobRow} (hawaited : Awaited kind job u.1)
    (hlocked : job.id ∉ a.locked) (h : Waits kind job m k u)
    (hok : (exec (.claimJob kind) a l u.1).1 = .ok found) :
    Waits kind job (m + 1) k (counted kind job (.claimJob kind) a l u).2.2 := by
  intro hafter
  obtain ⟨row, hrow, hid, hqueued⟩ := (recedes_counted hawaited).1 hafter
  have heligible : Jobs.eligible u.1.now row := Jobs.eligible_iff.mpr (.inl hqueued)
  have hpaid := budget_ahead (o := .claimJob kind) (a := a) (l := l) job hawaited.capped kind
  suffices hover : passesOver kind job (.claimJob kind) a l u.1 by
    rw [ahead_of_passesOver hover, Bool.toNat_true] at hpaid
    have hleft := h ⟨row, hrow, hid, hqueued⟩
    unfold Within at hleft ⊢
    dsimp only [counted, Lib.Pool.counting]
    rw [Nat.mul_add]
    omega
  have hready : (u.1.jobs kind).any fun row =>
      row.id = job.id && row.createdAt = job.createdAt && Jobs.eligible u.1.now row := by
    simp only [List.any_eq_true, Bool.and_eq_true, decide_eq_true_eq]
    exact ⟨row, hrow, ⟨hid, hawaited.own row hrow hid⟩, heligible⟩
  rw [passesOver, hready, Bool.and_true, Bool.and_eq_true]
  refine ⟨?_, by simpa using hlocked⟩
  dsimp only [counted, Lib.Pool.counting] at hafter
  rcases claimJob_cases kind a l u.1 with ⟨e, heq⟩ | ⟨-, heq⟩ | ⟨next, -, -, -, -, heq⟩
  · rw [heq] at hok
    cases hok
  · obtain ⟨-, w, -, hclaim, -⟩ := statement_eq_ok hok
    have hserved := Jobs.claimNext_isSome hrow heligible (hid ▸ hlocked)
    rw [heq] at hok
    cases hok
    have hnone : (Jobs.claimNext u.1.now a.locked (u.1.jobs kind)).1 = none :=
      congrArg Prod.fst (Except.ok.inj hclaim)
    rw [hnone] at hserved
    cases hserved
  · rw [heq] at hafter ⊢
    simp only [handedOut, decide_true, if_true, Option.any_some, Jobs.claim_id, decide_eq_true_eq]
    -- a job that is handed out is queued no more
    rintro hsame
    obtain ⟨later, hlater, hlaterId, hlaterQueued⟩ := hafter
    rw [withJobs_jobs, if_pos rfl] at hlater
    obtain ⟨old, -, ⟨-, rfl⟩ | ⟨hne, rfl⟩⟩ := Jobs.mem_updateRow.mp hlater
    · exact (claim_not_queued _ _) hlaterQueued
    · exact hne (hlaterId.trans hsame.symm)

/-! ## Reaching a job -/

/-- A worker whose claims do not find the waiting job's row locked, whatever others do. -/
def waiting (kind : JobKind) (job : JobRow) :
    Lib.Discipline (counted kind job) (Lib.Pool.beside Store.tick) where
  Inv u := Awaited kind job u.1
  Rely _ := Recedes kind job
  Guar _ _ := Recedes kind job
  Allowed o a _ := o = .claimJob kind → job.id ∉ a.locked
  Clear _ _ _ := True
  rely_refl _ := .refl
  rely_trans _ _ _ _ := .trans
  compat _ _ _ _ _ _ _ hguar _ := hguar
  drift_inv _ _ h := ⟨h.keyed, h.capped, h.issued, h.own⟩
  drift_rely _ _ _ := ⟨fun h => h, fun _ _ h => h⟩

section Reaching

variable {α : Type} {p : Service α}

/-- Programs keep what is known of a waiting job, whatever they do. -/
theorem Waits.safe (p : Service α) (h : Waits kind job m k u) :
    Safe (waiting kind job) p l u fun _ _ v => Waits kind job m k v := by
  refine Safe.of_performs p.performs_all (fun _ _ _ hrely h => h.recedes hrely) ?_ h
  intro o v a l _ hinv _ h
  exact ⟨hinv.effect (exec_effect o a l v.1), recedes_counted hinv, h.recedes (recedes_counted hinv)⟩

/-- What follows a value does so from any state in which the job still waits. -/
theorem Waits.bind {β : Type} {f : α → Service β} {m' : Nat}
    (h : Safe (waiting kind job) p l u fun res _ v => ∀ r, res = .ok r → Waits kind job m k v)
    (hf : ∀ r l v, Waits kind job m k v →
      Safe (waiting kind job) (f r) l v fun res _ w => ∀ r, res = .ok r → Waits kind job m' k w) :
    Safe (waiting kind job) (p.bind f) l u fun res _ v =>
      ∀ r, res = .ok r → Waits kind job m' k v := by
  refine Safe.bind.mpr (h.mono fun res l' v hres => ?_)
  cases res with
  | ok r => exact hf r l' v (hres r rfl)
  | error e => exact fun _ h => by cases h

variable [Ucd] [Platform] {settings : Worker.Settings} {turn rounds : Nat}

/-- A queue is tried by a claim on it; a claim that fails fails the pass. -/
theorem runQueue_eq (settings : Worker.Settings) (kind : JobKind) : ∃ rest : Option JobRow → Service Bool,
    runQueue settings kind = (perform (.claimJob kind)).bind rest := by
  cases kind with
  | extraction => exact ⟨_, Lib.Prog.bind_assoc _ _ _⟩
  | ingestion => exact ⟨_, Lib.Prog.bind_assoc _ _ _⟩
  | changeReport => exact ⟨_, Lib.Prog.bind_assoc _ _ _⟩

/-- A pass that tries the job's queue first takes the job, or one ahead of it. -/
theorem Waits.pass (h : Waits kind job m k u) (turn : Nat) :
    Safe (waiting kind job) (runNextJob settings turn) l u fun res _ v =>
      ∀ r, res = .ok r → Waits kind job (if queueAt turn = kind then m + 1 else m) k v := by
  split
  next hturn =>
    obtain ⟨rest, hrest⟩ := runQueue_eq settings (queueAt turn)
    show Safe _ ((runQueue settings (queueAt (turn + 0))).bind _) l u _
    rw [Nat.add_zero, hrest, Lib.Prog.bind_assoc, hturn]
    refine Waits.bind (m := m + 1) (Safe.call.mpr fun v a hrely hinv hallowed => ?_) fun r l v h =>
      (h.safe _).mono fun _ _ _ h _ _ => h
    refine ⟨hinv.effect (exec_effect _ a l v.1), recedes_counted hinv, fun found hok => ?_⟩
    exact (h.recedes hrely).claim hinv (hallowed rfl) hok
  next => exact (h.safe _).mono fun _ _ _ h _ _ => h

/-- How many of so many rounds try a queue first. -/
def visits (kind : JobKind) : Nat → Nat → Nat
  | 0, _ => 0
  | rounds + 1, turn =>
    (if queueAt turn = kind then 1 else 0) + visits kind rounds ((turn + 1) % QUEUE_COUNT)

theorem Waits.loop (h : Waits kind job m k u) (rounds turn : Nat) :
    Safe (waiting kind job) (Worker.loop settings rounds turn) l u fun res _ v =>
      ∀ r, res = .ok r → Waits kind job (m + visits kind rounds turn) k v := by
  induction rounds generalizing l u m turn with
  | zero => exact fun _ _ => h
  | succ rounds ih =>
    refine Waits.bind ((h.safe _).mono fun _ _ _ h _ _ => h) fun _ l v h => ?_
    refine Waits.bind (h.pass turn) fun _ l v h => ?_
    have hcount : m + visits kind (rounds + 1) turn =
        (if queueAt turn = kind then m + 1 else m) + visits kind rounds ((turn + 1) % QUEUE_COUNT) := by
      rw [visits]
      split <;> omega
    rw [hcount]
    exact ih h _

omit [Ucd] [Platform] in
/-- Three rounds in a row try each queue first once. -/
theorem visits_add_three (kind : JobKind) (rounds turn : Nat) :
    visits kind (rounds + 3) turn = visits kind rounds (turn % QUEUE_COUNT) + 1 := by
  have hturn : turn % 3 = 0 ∨ turn % 3 = 1 ∨ turn % 3 = 2 := by omega
  simp only [visits, QUEUE_COUNT, queueAt, Nat.mod_mod, Nat.mod_add_mod]
  rcases hturn with h | h | h <;> cases kind <;> simp [Nat.add_mod, h] <;> omega

omit [Ucd] [Platform] in
theorem le_visits {n : Nat} (h : QUEUE_COUNT * n ≤ rounds) : n ≤ visits kind rounds turn := by
  induction n generalizing rounds turn with
  | zero => exact Nat.zero_le _
  | succ n ih =>
    obtain ⟨rest, rfl⟩ : ∃ rest, rounds = rest + 3 :=
      ⟨rounds - 3, by rw [QUEUE_COUNT] at h; omega⟩
    rw [visits_add_three]
    exact Nat.succ_le_succ (ih (by rw [QUEUE_COUNT] at *; omega))

end Reaching

section Runs

variable {ι : Type} [DecidableEq ι] {c c' : System ι} {turns : List (Turn ι)} {i : ι}

theorem Keyed.empty (now : Time) : Keyed (.empty now) :=
  fun _ => ⟨List.nodup_nil, fun _ hrow => absurd hrow List.not_mem_nil⟩

theorem Underway.keyed (h : Underway c) : Keyed c.store := by
  obtain ⟨now, programs, turns, hrun⟩ := h
  refine Lib.run_invariant (I := fun c : System ι => Keyed c.store) ?_ (Keyed.empty now) hrun
  exact Lib.Pool.step_store (fun o a l s h => h.effect (exec_effect o a l s)) fun _ _ h => h

/-- The queue that a program is about to claim from. -/
def nextClaim : Service Unit → Option JobKind
  | .op (.claimJob kind) _ => some kind
  | _ => none

/-- A turn of the party does not try to claim from the queue while another transaction holds the
job's row. -/
def Unlocked (i : ι) (kind : JobKind) (id : Uuid) (c : System ι) : Turn ι → Prop
  | .act j a => j = i →
      ((c.parties j).bind fun party => nextClaim party.2) = some kind → id ∉ a.locked
  | _ => True

instance (i : ι) (kind : JobKind) (id : Uuid) (c : System ι) :
    (turn : Turn ι) → Decidable (Unlocked i kind id c turn)
  | .act _ _ => inferInstanceAs (Decidable (_ → _ → _))
  | .drift _ | .crash _ => .isTrue trivial

omit [DecidableEq ι] in
theorem waiting_own (n : Nat) (c : System ι) (turn : Turn ι) (h : Unlocked i kind job.id c turn) :
    (waiting kind job).Own i (Lib.Pool.withCounter n c) turn := by
  cases turn with
  | act j a =>
    intro hji l o next hj ho
    subst ho
    refine h hji ?_
    change c.parties j = _ at hj
    rw [hj]
    rfl
  | drift | crash => trivial

theorem Underway.awaited (h : Underway c) (hjob : job ∈ c.store.jobs kind) :
    Awaited kind job c.store where
  keyed := h.keyed
  capped := h.capped
  issued := (h.keyed kind).2 job hjob
  own row hrow hid := by rw [Jobs.eq_of_id_eq (h.keyed kind).1 hrow hjob hid]

/-- Whoever else moves, a job that waits goes on waiting. -/
theorem waiting_tolerates (m k : Nat) :
    (waiting kind job).Tolerates fun (res : Except Exn Unit) _ v =>
      ∀ r, res = .ok r → Waits kind job m k v where
  inv o a l u h := h.effect (exec_effect o a l u.1)
  rely _ _ _ _ h _ := recedes_counted h
  ended _ _ _ _ h _ _ hwaits r hr := (hwaits r hr).recedes (recedes_counted h)
  drift _ _ _ _ _ hwaits := hwaits

variable [Ucd] [Platform]

/-- In every run of any programs, a worker that makes three rounds for each attempt the rows ahead
of a job have left or come in with, and three more, reaches the job: when it has returned, the job
is queued no more. -/
theorem reached_by_worker {settings : Worker.Settings} {rounds turn : Nat} {l l' : Session}
    (hunderway : Underway c) (hjob : job ∈ c.store.jobs kind)
    (hworker : c.parties i = some (l, Worker.loop settings rounds turn))
    (hrun : run System.step c turns = some c')
    (hrounds : QUEUE_COUNT * (budget (ahead job) (c.store.jobs kind) +
      (MAX_ATTEMPTS + 1) * count exec Store.tick (insertsAhead kind job) c turns + 1) ≤ rounds)
    (hfree : Along System.step (Unlocked i kind job.id) c turns)
    (hreturned : c'.parties i = some (l', .ret ())) : ¬ Queued kind job.id c'.store := by
  have hstart : Waits kind job 0 (budget (ahead job) (c.store.jobs kind)) (c.store, 0) :=
    fun _ => Nat.le_refl _
  have hbegun : (waiting kind job).EndsOne i (fun res _ v => ∀ r, res = .ok r →
      Waits kind job (visits kind rounds turn) (budget (ahead job) (c.store.jobs kind)) v)
      (Lib.Pool.withCounter 0 c) := by
    refine ⟨hunderway.awaited hjob, fun l p hp => ?_⟩
    cases hworker.symm.trans hp
    refine (hstart.loop rounds turn).mono fun _ _ _ h r hr => ?_
    rw [← Nat.zero_add (visits kind rounds turn)]
    exact h r hr
  have hcounted := Lib.Pool.run_withCounter (f := insertsAhead kind job) 0 hrun
  have hown := Lib.Pool.along_withCounter (f := insertsAhead kind job) waiting_own 0 hfree
  have hended := (hbegun.run (waiting_tolerates _ _) hown hcounted).2 l' _ hreturned
  intro hqueued
  have hleft := hended () rfl hqueued
  have hvisits : budget (ahead job) (c.store.jobs kind) + (MAX_ATTEMPTS + 1) *
      count exec Store.tick (insertsAhead kind job) c turns + 1 ≤ visits kind rounds turn :=
    le_visits hrounds
  unfold Within at hleft
  dsimp only [Lib.Pool.withCounter] at hleft
  rw [Nat.zero_add] at hleft
  omega

/-- A job on a document without a file, and a worker of three rounds. -/
def oneJob : Fin 2 → Option (Service Unit)
  | 0 => some do
    let document ← perform (.insertDocument 1 [] [] [] none)
    let _job ← perform (.insertJob .ingestion 1 document.id none)
  | 1 => some (Worker.loop ⟨⟨[], []⟩, 0, 0⟩ 3 0)

omit [Ucd] [Platform]

/-- The party has returned. -/
def done : Service Unit → Bool
  | .ret () => true
  | _ => false

theorem eq_ret_of_done {p : Service Unit} (h : done p) : p = .ret () := by
  cases p with
  | ret _ => rfl
  | raise | op => cases h

/-- The worker's first round tries the empty extraction queue, then it fails the job. -/
theorem reached_by_worker_one : ∃ c c' l',
    run System.step (System.start (.empty 0) (@oneJob Ucd.ascii Documents.onePdf))
      [.act 0 { ids := [10] }, .act 0 { ids := [20] }] = some c ∧
    Queued .ingestion 20 c.store ∧ run System.step c (List.replicate 18 (.act 1 {})) = some c' ∧
      c'.parties 1 = some (l', .ret ()) ∧ ¬ Queued .ingestion 20 c'.store := by
  let := Ucd.ascii
  let := Documents.onePdf
  obtain ⟨c, hc⟩ : ∃ c, run System.step (System.start (.empty 0) oneJob)
      [.act 0 { ids := [10] }, .act 0 { ids := [20] }] = some c := ⟨_, rfl⟩
  have hunderway : Underway c := ⟨0, oneJob, _, hc⟩
  have hjob : JobRow.create 20 1 10 none 0 ∈ c.store.jobs .ingestion := by
    cases hc
    exact List.mem_singleton_self _
  have hworker : c.parties 1 = some (⟨false⟩, Worker.loop ⟨⟨[], []⟩, 0, 0⟩ 3 0) := by
    cases hc
    rfl
  have hrounds : QUEUE_COUNT * (budget (ahead (JobRow.create 20 1 10 none 0))
      (c.store.jobs .ingestion) + (MAX_ATTEMPTS + 1) * count exec Store.tick
        (insertsAhead .ingestion (JobRow.create 20 1 10 none 0)) c
        (List.replicate 18 (.act 1 {})) + 1) ≤ 3 := by
    cases hc
    decide +kernel
  have hfree : Along System.step (Unlocked 1 .ingestion 20) c (List.replicate 18 (.act 1 {})) := by
    cases hc
    decide +kernel
  have hends : (run System.step c (List.replicate 18 (.act 1 {}))).any fun c =>
      (c.parties 1).any fun party => done party.2 := by
    cases hc
    decide +kernel
  obtain ⟨c', hrun, hends⟩ := (Option.any_eq_true _ _).mp hends
  obtain ⟨⟨l', p⟩, hparty, hdone⟩ := (Option.any_eq_true _ _).mp hends
  have hreturned : c'.parties 1 = some (l', .ret ()) := eq_ret_of_done hdone ▸ hparty
  exact ⟨c, c', l', hc, ⟨_, hjob, rfl, rfl⟩, hrun, hreturned,
    reached_by_worker hunderway hjob hworker hrun hrounds hfree hreturned⟩

end Runs

end ContractIntel
