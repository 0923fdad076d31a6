import ContractIntel.Lib.Interleave
import Mathlib.Data.List.Nodup

/-!
# Effects and the records of them

A party of a pool has an effect with one operation and records it with a later one. `Journal` is a
pool with the lists of who had which effect and who recorded which, and with how far each party has
come; no step reads them.

`Bookkeeping` says which operations have effects and which record them. A party is `Diligent` if,
on turns that are fair to it, it records its effect before its program ends, and raises only if it
had none. What stands between is that it may crash, or be treated unfairly, while it owes a record;
`Orderly` leaves these turns out.

## What is proved

- `Diligent.bind`, `Diligent.tryCatch`, `Diligent.call`, `Diligent.of_performs`: the rules for
  programs.
- `Bookkeeping.exists_run`: the journal of a run changes nothing of it.
- `Bookkeeping.Holds.run`: in every orderly run of diligent parties the effects are the records and
  what is owed, and no effect is had twice.
-/

namespace Lib

variable {Op Ans L σ D ι K : Type} {Res : Op → Type} {ε α β : Type}

/-- How far a party has come: it had no effect, or has not recorded it, or has. -/
inductive Stage (K : Type) where
  | idle
  | owing (k : K)
  | settled (k : K)

namespace Stage

/-- The stage after an operation, with what effect it had and what it recorded. -/
def next : Stage K → Option K → Option K → Stage K
  | _, some k, _ => .owing k
  | .owing k, none, some _ => .settled k
  | stage, none, _ => stage

def owed : Stage K → Option K
  | .owing k => some k
  | _ => none

/-- At each stage a party may have one effect or record the one it had. -/
def Admits : Stage K → Option K → Option K → Prop
  | .idle, _, record => record = none
  | .owing k, effect, record => effect = none ∧ ∀ k', record = some k' → k' = k
  | .settled _, effect, record => effect = none ∧ record = none

@[simp] theorem next_none (stage : Stage K) : stage.next none none = stage := by
  cases stage <;> rfl

theorem admits_none (stage : Stage K) : stage.Admits none none := by
  cases stage with
  | idle => rfl
  | owing k => exact ⟨rfl, nofun⟩
  | settled k => exact ⟨rfl, rfl⟩

theorem owed_eq_some_iff {stage : Stage K} {k : K} : stage.owed = some k ↔ stage = .owing k := by
  cases stage with
  | idle | settled => exact iff_of_false nofun nofun
  | owing k' => simp [owed]

end Stage

/-- What operations do that is to be recorded, and what is known of the stores it is done in. -/
structure Bookkeeping (exec : Exec Op Res ε Ans L σ) (drift : D → σ → σ) (K : Type) where
  /-- What is known of every store. -/
  Inv : σ → Prop
  /-- What becomes of a store. -/
  Later : σ → σ → Prop
  effect : Op → Ans → L → σ → Option K
  record : Op → Ans → L → σ → Option K
  /-- The turns that let a party at this stage do its part. -/
  Fair : Stage K → Op → Ans → σ → Prop
  /-- The effect has been had, and cannot be again. -/
  Spent : K → σ → Prop
  later_refl : ∀ s, Later s s
  later_trans : ∀ s t u, Later s t → Later t u → Later s u
  exec_inv : ∀ o a l s, Inv s → Inv (exec o a l s).2.2
  exec_later : ∀ o a l s, Later s (exec o a l s).2.2
  drift_inv : ∀ d s, Inv s → Inv (drift d s)
  drift_later : ∀ d s, Later s (drift d s)
  spends : ∀ o a l s k, Inv s → effect o a l s = some k →
    ¬ Spent k s ∧ Spent k (exec o a l s).2.2
  exec_spent : ∀ o a l s k, Spent k s → Spent k (exec o a l s).2.2
  drift_spent : ∀ d s k, Spent k s → Spent k (drift d s)

variable {exec : Exec Op Res ε Ans L σ} {drift : D → σ → σ} (book : Bookkeeping exec drift K)

/-- On fair turns the program has one effect at most, records nothing else, and ends as `Q` says. -/
def Diligent : Stage K → Prog Op Res ε α → L → σ → (Stage K → Except ε α → L → σ → Prop) → Prop
  | stage, .ret a, l, s, Q => Q stage (.ok a) l s
  | stage, .raise e, l, s, Q => Q stage (.error e) l s
  | stage, .op o next, l, s, Q => ∀ t a, book.Later s t → book.Inv t → book.Fair stage o a t →
      stage.Admits (book.effect o a l t) (book.record o a l t) ∧
        Diligent (stage.next (book.effect o a l t) (book.record o a l t)) (next (exec o a l t).1)
          (exec o a l t).2.1 (exec o a l t).2.2 Q

namespace Diligent

variable {book} {stage : Stage K} {p : Prog Op Res ε α} {f : α → Prog Op Res ε β}
  {handler : ε → Prog Op Res ε α} {l : L} {s t : σ} {Q Q' : Stage K → Except ε α → L → σ → Prop}

theorem mono (h : Diligent book stage p l s Q) (hQ : ∀ st res l t, Q st res l t → Q' st res l t) :
    Diligent book stage p l s Q' := by
  induction p generalizing stage l s with
  | ret a => exact hQ _ _ _ _ h
  | raise e => exact hQ _ _ _ _ h
  | op o next ih =>
    intro t a hlater hinv hfair
    obtain ⟨hadmits, hrest⟩ := h t a hlater hinv hfair
    exact ⟨hadmits, ih _ hrest⟩

theorem congr (h : ∀ st res l t, Q st res l t ↔ Q' st res l t) :
    Diligent book stage p l s Q ↔ Diligent book stage p l s Q' :=
  ⟨fun hp => hp.mono fun _ _ _ _ => (h _ _ _ _).mp,
    fun hp => hp.mono fun _ _ _ _ => (h _ _ _ _).mpr⟩

theorem attempt_bind {g : Except ε α → Prog Op Res ε β}
    {R : Stage K → Except ε β → L → σ → Prop} :
    Diligent book stage (p.attempt.bind g) l s R ↔
      Diligent book stage p l s fun st res l' t => Diligent book st (g res) l' t R := by
  induction p generalizing stage l s with
  | ret a => exact Iff.rfl
  | raise e => exact Iff.rfl
  | op o next ih =>
    refine forall_congr' fun t => forall_congr' fun a => forall_congr' fun _ =>
      forall_congr' fun _ => forall_congr' fun _ => and_congr_right fun _ => ?_
    exact ih _

theorem bind {R : Stage K → Except ε β → L → σ → Prop} :
    Diligent book stage (p.bind f) l s R ↔ Diligent book stage p l s fun st res l' t =>
      match res with
      | .ok a => Diligent book st (f a) l' t R
      | .error e => R st (.error e) l' t := by
  rw [Prog.bind_eq_attempt, attempt_bind]
  refine congr fun st res l' t => ?_
  cases res <;> exact Iff.rfl

theorem tryCatch {R : Stage K → Except ε α → L → σ → Prop} :
    Diligent book stage (p.tryCatch handler) l s R ↔ Diligent book stage p l s fun st res l' t =>
      match res with
      | .ok a => R st (.ok a) l' t
      | .error e => Diligent book st (handler e) l' t R := by
  rw [Prog.tryCatch_eq_attempt, attempt_bind]
  refine congr fun st res l' t => ?_
  cases res <;> exact Iff.rfl

theorem call {o : Op} {Q : Stage K → Except ε (Res o) → L → σ → Prop} :
    Diligent book stage (Prog.call o : Prog Op Res ε (Res o)) l s Q ↔
      ∀ t a, book.Later s t → book.Inv t → book.Fair stage o a t →
        stage.Admits (book.effect o a l t) (book.record o a l t) ∧
          Q (stage.next (book.effect o a l t) (book.record o a l t)) (exec o a l t).1
            (exec o a l t).2.1 (exec o a l t).2.2 := by
  refine forall_congr' fun t => forall_congr' fun a => forall_congr' fun _ =>
    forall_congr' fun _ => forall_congr' fun _ => and_congr_right fun _ => ?_
  cases (exec o a l t).1 <;> exact Iff.rfl

/-- A program of operations without effects and records stays where it is. -/
theorem of_performs {P : Op → Prop} (hp : p.Performs P)
    (hP : ∀ o a l s, P o → book.effect o a l s = none ∧ book.record o a l s = none) :
    Diligent book stage p l s fun st _ _ t => st = stage ∧ book.Later s t := by
  induction p generalizing l s with
  | ret a => exact ⟨rfl, book.later_refl s⟩
  | raise e => exact ⟨rfl, book.later_refl s⟩
  | op o next ih =>
    intro t a hlater _ _
    obtain ⟨heffect, hrecord⟩ := hP o a l t hp.1
    rw [heffect, hrecord, Stage.next_none]
    refine ⟨stage.admits_none, (ih _ (hp.2 _)).mono fun st _ _ u h => ⟨h.1, ?_⟩⟩
    exact book.later_trans _ _ _ (book.later_trans _ _ _ hlater (book.exec_later o a l t)) h.2

/-- What others do to the store is foreseen. -/
theorem stable {o : Op} {next : Except ε (Res o) → Prog Op Res ε α}
    (h : Diligent book stage (.op o next) l s Q) (hlater : book.Later s t) :
    Diligent book stage (.op o next) l t Q :=
  fun u a hu => h u a (book.later_trans _ _ _ hlater hu)

end Diligent

/-! ## Pools -/

/-- A pool, who had which effect and who recorded which, in order, and how far each party is. -/
structure Journal (ι L σ Op : Type) (Res : Op → Type) (ε α K : Type) where
  pool : Pool ι L σ Op Res ε α
  stage : ι → Stage K
  effects : List (ι × K)
  records : List (ι × K)

namespace Bookkeeping

/-- The journal after a party's operation with this effect and this record. -/
def enter [DecidableEq ι] (w : Journal ι L σ Op Res ε α K) (pool : Pool ι L σ Op Res ε α) (i : ι)
    (effect record : Option K) : Journal ι L σ Op Res ε α K where
  pool := pool
  stage := Function.update w.stage i ((w.stage i).next effect record)
  effects := w.effects ++ effect.toList.map (i, ·)
  records := w.records ++ record.toList.map (i, ·)

variable [DecidableEq ι]

/-- A turn of the pool. -/
def step (w : Journal ι L σ Op Res ε α K) (turn : Turn ι Ans D) :
    Option (Journal ι L σ Op Res ε α K) :=
  (Pool.step exec drift w.pool turn).map fun pool =>
    match turn with
    | .act i a =>
      match w.pool.parties i with
      | some (l, .op o _) =>
        enter w pool i (book.effect o a l w.pool.store) (book.record o a l w.pool.store)
      | _ => { w with pool }
    | _ => { w with pool }

/-- The turns that are fair, and do not crash a party that owes a record. -/
def Orderly (w : Journal ι L σ Op Res ε α K) : Turn ι Ans D → Prop
  | .act i a =>
    match w.pool.parties i with
    | some (_, .op o _) => book.Fair (w.stage i) o a w.pool.store
    | _ => True
  | .drift _ => True
  | .crash i => (w.stage i).owed = none

instance [∀ stage o a s, Decidable (book.Fair stage o a s)] (w : Journal ι L σ Op Res ε α K) :
    (turn : Turn ι Ans D) → Decidable (book.Orderly w turn)
  | .act i a =>
    match hi : w.pool.parties i with
    | some (_, .op o _) =>
      decidable_of_iff (book.Fair (w.stage i) o a w.pool.store) (by simp only [Orderly, hi])
    | some (_, .ret _) | some (_, .raise _) | none => .isTrue (by simp only [Orderly, hi])
  | .drift _ => .isTrue trivial
  | .crash i => decidable_of_iff ((w.stage i).owed.isNone = true) Option.isNone_iff_eq_none

variable {book} {w w' : Journal ι L σ Op Res ε α K}

/-- The journal changes nothing of what the pool does. -/
theorem pool_step {turn : Turn ι Ans D} (h : book.step w turn = some w') :
    Pool.step exec drift w.pool turn = some w'.pool := by
  obtain ⟨pool, hpool, rfl⟩ := Option.map_eq_some_iff.mp h
  rw [hpool]
  cases turn with
  | act i a =>
    dsimp only
    split <;> rfl
  | drift d => rfl
  | crash i => rfl

theorem step_act_eq_some_iff {i : ι} {a : Ans} :
    book.step w (.act i a) = some w' ↔ ∃ l o next, w.pool.parties i = some (l, .op o next) ∧
      w' = enter w ⟨(exec o a l w.pool.store).2.2, Function.update w.pool.parties i
        (some ((exec o a l w.pool.store).2.1, next (exec o a l w.pool.store).1))⟩ i
        (book.effect o a l w.pool.store) (book.record o a l w.pool.store) := by
  unfold step
  rw [Option.map_eq_some_iff]
  constructor
  · rintro ⟨pool, hpool, rfl⟩
    obtain ⟨l, o, next, hi, rfl⟩ := Pool.step_act_eq_some_iff.mp hpool
    exact ⟨l, o, next, hi, by simp only [hi]⟩
  · rintro ⟨l, o, next, hi, rfl⟩
    exact ⟨_, Pool.step_act_eq_some_iff.mpr ⟨l, o, next, hi, rfl⟩, by simp only [hi]⟩

/-- Every run of a pool has its journal. -/
theorem exists_run {turns : List (Turn ι Ans D)} {pool : Pool ι L σ Op Res ε α}
    (hr : Lib.run (Pool.step exec drift) w.pool turns = some pool) :
    ∃ w', Lib.run book.step w turns = some w' ∧ w'.pool = pool := by
  induction turns generalizing w with
  | nil =>
    cases hr
    exact ⟨w, rfl, rfl⟩
  | cons turn turns ih =>
    obtain ⟨next, hnext, hr⟩ := run_cons_eq_some_iff.mp hr
    have hsome : (book.step w turn).isSome := by
      unfold step
      rw [hnext]
      rfl
    obtain ⟨u, hu⟩ := Option.isSome_iff_exists.mp hsome
    obtain rfl : next = u.pool := Option.some.inj (hnext.symm.trans (pool_step hu))
    obtain ⟨w', hw', rfl⟩ := ih hr
    exact ⟨w', run_cons_eq_some_iff.mpr ⟨u, hu, hw'⟩, rfl⟩

/-- What the store logs of the records is the journal's. -/
theorem records_run {log : σ → List K} {turns : List (Turn ι Ans D)}
    (hexec : ∀ o a l s, log (exec o a l s).2.2 = log s ++ (book.record o a l s).toList)
    (hdrift : ∀ d s, log (drift d s) = log s) (h : log w.pool.store = w.records.map Prod.snd)
    (hr : Lib.run book.step w turns = some w') : log w'.pool.store = w'.records.map Prod.snd := by
  refine run_invariant (I := fun w => log w.pool.store = w.records.map Prod.snd) ?_ h hr
  intro u turn u' hu hstep
  cases turn with
  | act i a =>
    obtain ⟨l, o, next, -, rfl⟩ := step_act_eq_some_iff.mp hstep
    dsimp only [enter]
    rw [hexec, hu, List.map_append, List.map_map]
    exact congrArg _ (List.map_id _).symm
  | drift d =>
    obtain ⟨pool, hpool, rfl⟩ := Option.map_eq_some_iff.mp hstep
    cases hpool
    exact (hdrift d _).trans hu
  | crash i =>
    obtain ⟨pool, hpool, rfl⟩ := Option.map_eq_some_iff.mp hstep
    cases hpool
    exact hu

/-- A party that took no turn is where it was. -/
theorem stage_run {turns : List (Turn ι Ans D)} {i : ι} (h : ∀ a, .act i a ∉ turns)
    (hr : Lib.run book.step w turns = some w') : w'.stage i = w.stage i := by
  induction turns generalizing w with
  | nil =>
    cases hr
    rfl
  | cons turn turns ih =>
    obtain ⟨u, hu, hr⟩ := run_cons_eq_some_iff.mp hr
    refine (ih (fun a hmem => h a (List.mem_cons_of_mem _ hmem)) hr).trans ?_
    cases turn with
    | act j a =>
      obtain ⟨l, o, next, -, rfl⟩ := step_act_eq_some_iff.mp hu
      have hne : i ≠ j := by
        rintro rfl
        exact h a List.mem_cons_self
      exact Function.update_of_ne hne _ _
    | drift d =>
      obtain ⟨pool, -, rfl⟩ := Option.map_eq_some_iff.mp hu
      rfl
    | crash j =>
      obtain ⟨pool, -, rfl⟩ := Option.map_eq_some_iff.mp hu
      rfl

/-! ## What the journal says -/

/-- The effects are the records and what is owed, and who recorded something is settled. -/
structure Balanced (w : Journal ι L σ Op Res ε α K) : Prop where
  pending : ∃ pending : List (ι × K), (pending.map Prod.fst).Nodup ∧
    (∀ i k, (i, k) ∈ pending ↔ w.stage i = .owing k) ∧ w.effects.Perm (w.records ++ pending)
  recorded : ∀ i k, (i, k) ∈ w.records → w.stage i = .settled k

theorem Balanced.incurred {pool : Pool ι L σ Op Res ε α} {i : ι} {k : K} (h : Balanced w)
    (hidle : w.stage i = .idle) : Balanced (enter w pool i (some k) none) := by
  obtain ⟨pending, hnodup, hmem, hperm⟩ := h.pending
  have hnone : ∀ k', (i, k') ∉ pending := fun k' hk' => by
    have := (hmem i k').mp hk'
    rw [hidle] at this
    cases this
  refine ⟨⟨(i, k) :: pending, ?_, fun j k' => ?_, ?_⟩, fun j k' hrecord => ?_⟩
  · rw [List.map_cons, List.nodup_cons]
    refine ⟨fun hi => ?_, hnodup⟩
    obtain ⟨⟨j, k'⟩, hk', rfl⟩ := List.mem_map.mp hi
    exact hnone k' hk'
  · show _ ↔ Function.update w.stage i (Stage.owing k) j = _
    by_cases hji : j = i
    · subst hji
      rw [Function.update_self, List.mem_cons, or_iff_left (hnone k'), Prod.mk.injEq,
        Stage.owing.injEq]
      exact ⟨fun h => h.2.symm, fun h => ⟨rfl, h.symm⟩⟩
    · rw [Function.update_of_ne hji, List.mem_cons, ← hmem j k']
      exact or_iff_right fun heq => hji (congrArg Prod.fst heq)
  · show (w.effects ++ [(i, k)]).Perm ((w.records ++ []) ++ (i, k) :: pending)
    rw [List.append_nil]
    exact (hperm.append_right _).trans ((List.perm_append_singleton _ _).trans
      List.perm_middle.symm)
  · have hold : (j, k') ∈ w.records := by simpa [enter] using hrecord
    have hsettled := h.recorded j k' hold
    have hji : j ≠ i := by
      rintro rfl
      rw [hidle] at hsettled
      cases hsettled
    exact (Function.update_of_ne hji _ _).trans hsettled

theorem Balanced.paid {pool : Pool ι L σ Op Res ε α} {i : ι} {k : K} (h : Balanced w)
    (howing : w.stage i = .owing k) : Balanced (enter w pool i none (some k)) := by
  obtain ⟨pending, hnodup, hmem, hperm⟩ := h.pending
  obtain ⟨before, after, rfl⟩ := List.append_of_mem ((hmem i k).mpr howing)
  rw [List.map_append, List.map_cons, List.perm_middle.nodup_iff, ← List.map_append] at hnodup
  obtain ⟨hnot, hnodup⟩ := List.nodup_cons.mp hnodup
  have hstage : (enter w pool i none (some k)).stage = Function.update w.stage i (.settled k) := by
    show Function.update w.stage i ((w.stage i).next none (some k)) = _
    rw [howing]
    rfl
  refine ⟨⟨before ++ after, hnodup, fun j k' => ?_, ?_⟩, fun j k' hrecord => ?_⟩
  · rw [hstage]
    by_cases hji : j = i
    · subst hji
      rw [Function.update_self]
      exact iff_of_false (fun hpaid => hnot (List.mem_map.mpr ⟨(j, k'), hpaid, rfl⟩)) nofun
    · rw [Function.update_of_ne hji, ← hmem j k', List.mem_append, List.mem_append, List.mem_cons]
      exact or_congr_right (or_iff_right fun heq => hji (congrArg Prod.fst heq)).symm
  · show (w.effects ++ []).Perm ((w.records ++ [(i, k)]) ++ (before ++ after))
    rw [List.append_nil, List.append_assoc]
    exact hperm.trans (List.perm_middle.append_left w.records)
  · rw [hstage]
    have hcases : (j, k') ∈ w.records ∨ (j, k') = (i, k) := by simpa [enter] using hrecord
    rcases hcases with hold | heq
    · have hsettled := h.recorded j k' hold
      have hji : j ≠ i := by
        rintro rfl
        rw [howing] at hsettled
        cases hsettled
      exact (Function.update_of_ne hji _ _).trans hsettled
    · cases heq
      exact Function.update_self ..

/-- What a party does that its stage admits. -/
theorem Balanced.enter {pool : Pool ι L σ Op Res ε α} {i : ι} {effect record : Option K}
    (h : Balanced w) (hadmits : (w.stage i).Admits effect record) :
    Balanced (enter w pool i effect record) := by
  have hquiet : Balanced (Bookkeeping.enter w pool i none none) := by
    refine ⟨?_, fun j k hrecord => ?_⟩
    · simpa [Bookkeeping.enter] using h.pending
    · simpa [Bookkeeping.enter] using h.recorded j k (by simpa [Bookkeeping.enter] using hrecord)
  cases hstage : w.stage i with
  | idle =>
    rw [hstage] at hadmits
    obtain rfl : record = none := hadmits
    cases effect with
    | none => exact hquiet
    | some k => exact h.incurred hstage
  | owing k =>
    rw [hstage] at hadmits
    obtain ⟨rfl, hsame⟩ := hadmits
    cases record with
    | none => exact hquiet
    | some k' =>
      rw [hsame k' rfl]
      exact h.paid hstage
  | settled k =>
    rw [hstage] at hadmits
    obtain ⟨rfl, rfl⟩ := hadmits
    exact hquiet

/-- A program ends owing nothing, and with an exception only if it had no effect. -/
def Ends (stage : Stage K) (res : Except ε α) : Prop :=
  stage.owed = none ∧ ∀ e, res = .error e → stage = .idle

variable (book)

/-- Every party goes on diligently, none is gone that owes a record, the journal is balanced, and no
effect was had twice. -/
structure Holds (w : Journal ι L σ Op Res ε α K) : Prop where
  inv : book.Inv w.pool.store
  parties : ∀ i l p, w.pool.parties i = some (l, p) →
    Diligent book (w.stage i) p l w.pool.store fun stage res _ _ => Ends stage res
  gone : ∀ i, w.pool.parties i = none → (w.stage i).owed = none
  balanced : Balanced w
  once : (w.effects.map Prod.snd).Nodup
  spent : ∀ entry ∈ w.effects, book.Spent entry.2 w.pool.store

variable {book}

omit [DecidableEq ι] in
theorem Holds.others {t : σ} {j : ι} {l : L} {p : Prog Op Res ε α} (h : book.Holds w)
    (hj : w.pool.parties j = some (l, p)) (hlater : book.Later w.pool.store t) :
    Diligent book (w.stage j) p l t fun stage res _ _ => Ends stage res := by
  have hp := h.parties j l p hj
  cases p with
  | ret a => exact hp
  | raise e => exact hp
  | op o next => exact hp.stable hlater

theorem Holds.step {turn : Turn ι Ans D} (h : book.Holds w) (horderly : book.Orderly w turn)
    (hstep : book.step w turn = some w') : book.Holds w' := by
  cases turn with
  | act i a =>
    obtain ⟨l, o, next, hi, rfl⟩ := step_act_eq_some_iff.mp hstep
    have hfair : book.Fair (w.stage i) o a w.pool.store := by simpa only [Orderly, hi] using horderly
    obtain ⟨hadmits, hrest⟩ := h.parties i l _ hi w.pool.store a (book.later_refl _) h.inv hfair
    refine ⟨book.exec_inv o a l _ h.inv, fun j l' p hj => ?_, fun j hj => ?_, h.balanced.enter hadmits,
      ?_, fun entry hentry => ?_⟩
    · dsimp only [enter] at hj ⊢
      by_cases hji : j = i
      · subst hji
        rw [Function.update_self] at hj ⊢
        cases hj
        exact hrest
      · rw [Function.update_of_ne hji] at hj ⊢
        exact h.others hj (book.exec_later o a l _)
    · dsimp only [enter] at hj ⊢
      by_cases hji : j = i
      · subst hji
        rw [Function.update_self] at hj
        cases hj
      · rw [Function.update_of_ne hji] at hj ⊢
        exact h.gone j hj
    · dsimp only [enter]
      cases heffect : book.effect o a l w.pool.store with
      | none => simpa using h.once
      | some k =>
        have hnew := (book.spends o a l _ k h.inv heffect).1
        rw [List.map_append]
        refine List.nodup_append.mpr ⟨h.once, List.nodup_singleton _, ?_⟩
        rintro _ hold _ hmem rfl
        obtain ⟨entry, hentry, heq⟩ := List.mem_map.mp hold
        have hsame : entry.2 = k := heq.trans (List.mem_singleton.mp hmem)
        exact hnew (hsame ▸ h.spent entry hentry)
    · dsimp only [enter] at hentry ⊢
      rcases List.mem_append.mp hentry with hentry | hentry
      · exact book.exec_spent o a l _ _ (h.spent entry hentry)
      · obtain ⟨k, hk, rfl⟩ := List.mem_map.mp hentry
        exact (book.spends o a l _ k h.inv (Option.mem_toList.mp hk)).2
  | drift d =>
    obtain ⟨pool, hpool, rfl⟩ := Option.map_eq_some_iff.mp hstep
    cases hpool
    exact ⟨book.drift_inv d _ h.inv, fun j l p hj => h.others hj (book.drift_later d _), h.gone,
      ⟨h.balanced.pending, h.balanced.recorded⟩, h.once,
      fun entry hentry => book.drift_spent d _ _ (h.spent entry hentry)⟩
  | crash i =>
    obtain ⟨pool, hpool, rfl⟩ := Option.map_eq_some_iff.mp hstep
    cases hpool
    refine ⟨h.inv, fun j l p hj => ?_, fun j hj => ?_,
      ⟨h.balanced.pending, h.balanced.recorded⟩, h.once, h.spent⟩
    · dsimp only at hj ⊢
      by_cases hji : j = i
      · subst hji
        rw [Function.update_self] at hj
        cases hj
      · rw [Function.update_of_ne hji] at hj
        exact h.parties j l p hj
    · dsimp only at hj ⊢
      by_cases hji : j = i
      · subst hji
        exact horderly
      · rw [Function.update_of_ne hji] at hj
        exact h.gone j hj

/-- In every orderly run of diligent parties the journal stays in order. -/
theorem Holds.run {turns : List (Turn ι Ans D)} (h : book.Holds w)
    (horderly : Along book.step book.Orderly w turns) (hr : Lib.run book.step w turns = some w') :
    book.Holds w' :=
  run_invariant_of_along (fun _ _ _ h hc hs => h.step hc hs) h horderly hr

omit [DecidableEq ι] in
/-- When nobody owes a record, the records are the effects. -/
theorem Holds.settled (h : book.Holds w) (hnone : ∀ i, (w.stage i).owed = none) :
    w.records.Perm w.effects := by
  obtain ⟨pending, -, hmem, hperm⟩ := h.balanced.pending
  have hempty : pending = [] := by
    refine List.eq_nil_iff_forall_not_mem.mpr fun ⟨i, k⟩ hk => ?_
    exact nomatch (hnone i).symm.trans (Stage.owed_eq_some_iff.mpr ((hmem i k).mp hk))
  rw [hempty, List.append_nil] at hperm
  exact hperm.symm

omit [DecidableEq ι] in
/-- A party whose program ended in an exception recorded nothing. -/
theorem Holds.rejected {i : ι} {l : L} {e : ε} (h : book.Holds w)
    (hi : w.pool.parties i = some (l, .raise e)) (k : K) : (i, k) ∉ w.records := by
  intro hrecord
  have hidle := (h.parties i l _ hi).2 e rfl
  exact nomatch hidle.symm.trans (h.balanced.recorded i k hrecord)

end Bookkeeping

end Lib
