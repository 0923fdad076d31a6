import ContractIntel.Laws.Services.Outcomes
import ContractIntel.Laws.Store.Jobs
import ContractIntel.Laws.Store.Repositories

/-!
# Jobs that are finished or gone

A handler is to leave the job it claimed in a terminal status, or without a row. Nothing in the
system unsettles a settled job: claims pass finished rows by, new rows have new ids. Here is what a
handler's own writes do, under an environment that does anything else.
-/

namespace ContractIntel

open Jobs (JobRow)
open Lib (Every Runs every_iff_runs replay runs_of_replay)
open Lib.Prog (Performs)
open Repositories

variable {kind : JobKind} {id : Uuid} {o : Op} {a : Answer} {l l' : Session} {s t : Store}

/-- The job is completed or failed, or its row is gone. -/
def Settled (kind : JobKind) (id : Uuid) (s : Store) : Prop :=
  ∀ row, Jobs.row? id (s.jobs kind) = some row → row.terminal

theorem settled_iff : Settled kind id s ↔ (Jobs.row? id (s.jobs kind)).all JobRow.terminal :=
  (Option.all_eq_true _ _).symm

/-- A move of the store that does not unsettle the job. -/
def Spares (kind : JobKind) (id : Uuid) (s t : Store) : Prop := Settled kind id s → Settled kind id t

theorem Settled.congr (h : Settled kind id s) (hjobs : t.jobs kind = s.jobs kind) :
    Settled kind id t := by
  unfold Settled
  rwa [hjobs]

/-- An update of one row settles the job when what is then its row is terminal. -/
theorem settled_updateRow {k : JobKind} {id' : Uuid} {f : JobRow → JobRow}
    (hf : ∀ job, (f job).id = job.id)
    (hterminal : ∀ row, Jobs.row? id (s.jobs kind) = some row →
      (if kind = k ∧ row.id = id' then f row else row).terminal) :
    Settled kind id (s.withJobs k (Jobs.updateRow id' f (s.jobs k))) := by
  intro row hrow
  rw [withJobs_jobs] at hrow
  split at hrow
  next hk =>
    subst hk
    rw [Jobs.row?_updateRow hf] at hrow
    obtain ⟨old, hold, rfl⟩ := Option.map_eq_some_iff.mp hrow
    simpa only [true_and] using hterminal old hold
  next hk => simpa only [hk, false_and, if_false] using hterminal row hrow

/-- The job's own row is made terminal. -/
theorem settled_updateRow_self {f : JobRow → JobRow} (hf : ∀ job, (f job).id = job.id)
    (hterminal : ∀ job, (f job).terminal) :
    Settled kind id (s.withJobs kind (Jobs.updateRow id f (s.jobs kind))) :=
  settled_updateRow hf fun row hrow => by
    rw [if_pos ⟨rfl, (Jobs.row?_mem hrow).2⟩]
    exact hterminal row

/-- No operation of any party unsettles a job. -/
theorem spares_of_effect (hkeyed : Keyed s) (hissued : id ∈ s.issued) (h : Effect o a s t) :
    Spares kind id s t := by
  intro hsettled
  cases h with
  | deleteSweep hswept =>
    have hsub := (Store.deleteSweep_eq_ok hswept).2.2.2.2 kind
    intro row hrow
    obtain ⟨hmem, rfl⟩ := Jobs.row?_mem hrow
    exact hsettled row (Jobs.row?_of_mem (hkeyed kind).1 (hsub.subset hmem))
  | @insertJob k tenantId documentId amended _ _ new hnew =>
    intro row hrow
    obtain ⟨hmem, hid⟩ := Jobs.row?_mem hrow
    simp only [withJobs_jobs] at hmem
    split at hmem
    next hk =>
      subst hk
      rcases List.mem_append.mp hmem with hmem | hmem
      · exact hsettled row (hid ▸ Jobs.row?_of_mem (hkeyed kind).1 hmem)
      · have hdrawn : new = id := by
          rw [← hid, List.mem_singleton.mp hmem]
          rfl
        exact absurd (hdrawn ▸ hissued) (hnew ▸ draw_not_mem _ _)
    · exact hsettled row (hid ▸ Jobs.row?_of_mem (hkeyed kind).1 hmem)
  | @claimJob k =>
    rcases Jobs.claimNext_cases s.now a.locked (s.jobs k) with heq | ⟨job, hjob, heligible, -, heq⟩
    · rw [heq]
      exact hsettled.congr (by rw [withJobs_jobs]; split <;> simp_all)
    · rw [heq]
      refine settled_updateRow (fun _ => Jobs.claim_id) fun old hold => ?_
      split
      next hclaimed =>
        obtain ⟨rfl, hid⟩ := hclaimed
        cases Jobs.eq_of_id_eq (hkeyed kind).1 (Jobs.row?_mem hold).1 hjob hid
        exact absurd (hsettled _ hold) (Jobs.not_terminal_of_eligible heligible)
      · exact hsettled old hold
  | completeJob | failJob =>
    refine settled_updateRow (fun _ => rfl) fun old hold => ?_
    split
    · rfl
    · exact hsettled old hold
  | _ => exact hsettled.congr rfl

/-! ## Terminal writes -/

theorem settled_completeJob {result : Json} {r : Unit}
    (h : (exec (.completeJob kind id result) a l s).1 = .ok r) :
    Settled kind id (exec (.completeJob kind id result) a l s).2.2 := by
  rcases statement_cases (Store.completeJob kind id result) a l s with
    ⟨e, heq, -⟩ | ⟨r', u, -, -, hok, heq⟩
  · rw [exec, heq] at h
    cases h
  · rw [exec, heq]
    simp only [Store.completeJob] at hok
    split at hok
    · cases hok
    · cases hok
      exact settled_updateRow_self (fun _ => rfl) fun _ => rfl

theorem settled_failJob {error : Str} {r : Unit}
    (h : (exec (.failJob kind id error) a l s).1 = .ok r) :
    Settled kind id (exec (.failJob kind id error) a l s).2.2 := by
  rcases statement_cases (Store.failJob kind id error) a l s with
    ⟨e, heq, -⟩ | ⟨r', u, -, -, hok, heq⟩
  · rw [exec, heq] at h
    cases h
  · rw [exec, heq]
    simp only [Store.failJob] at hok
    split at hok
    · cases hok
    · cases hok
      exact settled_updateRow_self (fun _ => rfl) fun _ => rfl

/-- A program that writes no jobs leaves a settled job settled. -/
theorem spares_of_performs {α : Type} {p : Service α}
    (hp : p.Performs fun o => o.writesJobs kind = false) :
    Every exec (Spares kind id) p l s fun _ _ _ t => Spares kind id s t :=
  Every.of_performs hp (fun _ h => h) (fun _ _ _ hst htu h => htu (hst h)) (fun _ _ h => h)
    fun o a l s ho h => h.congr ((exec_effect o a l s).jobs ho)

theorem markCompleted_settles (job : JobRow) (result : Json) :
    Every exec (Spares kind job.id) (markCompleted kind job result) l s fun _ res _ t =>
      ∀ r, res = .ok r → Settled kind job.id t := by
  refine Every.bind.mpr (Every.call.mpr fun moved a _ => ?_)
  split
  next r hok =>
    exact (spares_of_performs (refreshJob_performs rfl)).mono
      fun _ _ _ _ hspares _ _ => hspares (settled_completeJob hok)
  next e herror => exact fun _ h => by cases h

theorem markFailed_settles (job : JobRow) (error : Str) :
    Every exec (Spares kind job.id) (markFailed kind job error) l s fun _ res _ t =>
      ∀ r, res = .ok r → Settled kind job.id t := by
  refine Every.bind.mpr (Every.call.mpr fun moved a _ => ?_)
  split
  next r hok =>
    exact (spares_of_performs (refreshJob_performs rfl)).mono
      fun _ _ _ _ hspares _ _ => hspares (settled_failJob hok)
  next e herror => exact fun _ h => by cases h

/-! ## Handlers -/

/-- A handler that returns returns `True`, with the job settled. -/
def Concludes (kind : JobKind) (id : Uuid) (p : Service Bool) (l : Session) (s : Store) : Prop :=
  Every exec (Spares kind id) p l s fun _ res _ t =>
    ∀ b, res = .ok b → b = true ∧ Settled kind id t

namespace Concludes

variable {α : Type} {p : Service α} {f : α → Service Bool}

theorem ret (h : Settled kind id s) : Concludes kind id (.ret true) l s :=
  fun _ hb => ⟨(Except.ok.inj hb).symm, h⟩

theorem raise (e : Exn) : Concludes kind id (.raise e) l s := fun _ hb => nomatch hb

theorem bind (h : Every exec (Spares kind id) p l s fun _ res l' t =>
    ∀ r, res = .ok r → Concludes kind id (f r) l' t) : Concludes kind id (p.bind f) l s := by
  refine Every.bind.mpr (h.mono fun trace res l' t hrest => ?_)
  cases res with
  | ok r => exact hrest r rfl
  | error e => exact fun _ hb => nomatch hb

/-- What comes before the terminal write does not matter. -/
theorem after (h : ∀ r l' t, Concludes kind id (f r) l' t) : Concludes kind id (p.bind f) l s :=
  .bind ((Every.of_forall p l s).mono fun _ _ l' t _ r _ => h r l' t)

/-- Neither does what comes after it, unless it writes jobs. -/
theorem keeping (hsettled : Settled kind id s)
    (hp : p.Performs fun o => o.writesJobs kind = false)
    (h : ∀ r l' t, Settled kind id t → Concludes kind id (f r) l' t) :
    Concludes kind id (p.bind f) l s :=
  .bind ((spares_of_performs hp).mono fun _ _ l' t hspares r _ => h r l' t (hspares hsettled))

end Concludes

/-- The row that a refresh after the claim returns is the job's row. -/
theorem refreshJob_found : Every exec (Spares kind id) (refreshJob kind id) l s fun _ res _ t =>
    ∀ job, res = .ok job → job.id = id ∧ (job.terminal → Settled kind id t) := by
  refine Every.bind.mpr (Every.call.mpr fun moved a _ => ?_)
  split
  next found hok =>
    obtain ⟨hread, heq⟩ := query_eq_ok hok
    rw [exec, heq]
    cases found with
    | none => exact fun _ h => by cases h
    | some row =>
      intro job hjob
      cases hjob
      refine ⟨(Jobs.row?_mem hread).2, fun hterminal row hrow => ?_⟩
      cases hread.symm.trans hrow
      exact hterminal
  next e herror => exact fun _ h => by cases h

/-- A worker's pass: `False` when there is no job to claim, else the rest on the claimed job. -/
def passOf (kind : JobKind) (body : JobRow → Service Bool) : Service Bool :=
  (claimNextQueued kind).bind fun claimed =>
    match claimed with
    | none => .ret false
    | some job => body job

/-- What follows a claim that is served. -/
theorem of_claimed {env : Store → Store → Prop} (body : JobRow → Service Bool) {job : JobRow}
    {rest : List Entry} {res : Except Exn Bool}
    {Φ : List Entry → Except Exn Bool → Session → Store → Prop}
    (hbody : ∀ l u, Every exec env ((refreshJob kind job.id).bind body) l u Φ)
    (hrun : Runs exec env (passOf kind body) l s (⟨.claimJob kind, a, .ok (some job)⟩ :: rest) res l'
      t) :
    Φ rest res l' t := by
  unfold passOf at hrun
  generalize hentry : (⟨.claimJob kind, a, .ok (some job)⟩ : Entry) = entry
    at hrun
  cases hrun with
  | op a' henv hrest =>
    simp only [Lib.Entry.mk.injEq, heq_eq_eq, true_and] at hentry
    obtain ⟨rfl, hclaimed⟩ := hentry
    rw [← hclaimed] at hrest
    change Runs exec env (((refreshJob kind job.id).bind fun job => .ret (some job)).bind _) _ _ _
      _ _ _ at hrest
    rw [Lib.Prog.bind_assoc] at hrest
    exact (every_iff_runs _ _ _ _).mp (hbody _ _) _ _ _ _ hrest

/-- A replay of a pass whose claim is served is a run on the claimed job. -/
theorem claimed_of_replay {p : Service Bool}
    {next : Except Exn (Option JobRow) → Service Bool} (hp : p = .op (.claimJob kind) next)
    {job : JobRow} {answers : List Answer}
    (hclaim : (exec (.claimJob kind) a l s).1 = .ok (some job))
    (hreplay : (replay exec p l s (a :: answers)).isSome) :
    ∃ rest res l' t, replay exec p l s (a :: answers) =
        some (⟨.claimJob kind, a, .ok (some job)⟩ :: rest, res, l', t) ∧
      Runs exec (Spares kind job.id) p l s (⟨.claimJob kind, a, .ok (some job)⟩ :: rest) res l' t := by
  subst hp
  obtain ⟨⟨trace, res, l', t⟩, hr⟩ := Option.isSome_iff_exists.mp hreplay
  obtain ⟨⟨rest, out⟩, -, heq⟩ := Option.map_eq_some_iff.mp hr
  obtain ⟨rfl, rfl⟩ := Prod.mk.inj heq
  rw [hclaim] at hr
  exact ⟨rest, res, l', t, hr, runs_of_replay (fun _ h => h) hr⟩

end ContractIntel
