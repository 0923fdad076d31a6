import ContractIntel.Lib.Prog
import ContractIntel.Lib.Transition
import Mathlib.Logic.Function.Basic

/-!
# Interleaved programs over a shared store

A pool of parties, each with a session and the rest of its program, over one store. A turn lets
one party perform its next operation atomically, lets the world drift (time passes), or crashes a
party between two operations. A run is a list of turns, so every interleaving and every crash
pattern is a run.

`Discipline` is a rely-guarantee discipline for such pools. What a party relies on is indexed by
the operation it is about to perform, what it guarantees by the operation it performs. A
discipline may leave some interferences out (`Allowed`, `Clear`); it then speaks about the runs
whose turns meet `Undisturbed`.

## What is proved

- `Safe.bind`, `Safe.tryCatch`, `Safe.call`, `Safe.mono`: the rules for programs; `Kept.bind` and
  its like for programs that establish nothing on the way.
- `Pool.within_run`, `Pool.store_run`: what holds of the parties' operations throughout a run, and
  what their operations alone say of its stores.
- `Safe.weaken`, `Safe.every`: safety in a discipline that asks for less, and in a run of one party.
- `Safe.stable`: what a party has established survives the others' operations.
- `Discipline.Holds.run`: in every undisturbed run of safe parties the invariant holds throughout.
- `Permission.safe_call`, `Permission.safe_of`, `Permission.holds_run`: disciplines of lasting
  permissions, and their runs.
-/

namespace Lib

variable {Op Ans L σ D ι : Type} {Res : Op → Type} {ε α β : Type}

/-- The shared store, and what is left to do for each party; a crashed party is `none`. -/
structure Pool (ι L σ Op : Type) (Res : Op → Type) (ε α : Type) where
  store : σ
  parties : ι → Option (L × Prog Op Res ε α)

inductive Turn (ι Ans D : Type) where
  /-- A party performs its next operation, and the world answers. -/
  | act (i : ι) (a : Ans)
  /-- The store changes by itself. -/
  | drift (d : D)
  /-- A party stops for good. -/
  | crash (i : ι)

namespace Pool

variable [DecidableEq ι]

def step (exec : Exec Op Res ε Ans L σ) (drift : D → σ → σ) (c : Pool ι L σ Op Res ε α) :
    Turn ι Ans D → Option (Pool ι L σ Op Res ε α)
  | .act i a =>
    match c.parties i with
    | some (l, .op o next) =>
      let r := exec o a l c.store
      some ⟨r.2.2, Function.update c.parties i (some (r.2.1, next r.1))⟩
    | _ => none
  | .drift d => some { c with store := drift d c.store }
  | .crash i => some { c with parties := Function.update c.parties i none }

theorem step_act_eq_some_iff {exec : Exec Op Res ε Ans L σ} {drift : D → σ → σ}
    {c c' : Pool ι L σ Op Res ε α} {i : ι} {a : Ans} :
    step exec drift c (.act i a) = some c' ↔ ∃ l o next, c.parties i = some (l, .op o next) ∧
      c' = ⟨(exec o a l c.store).2.2, Function.update c.parties i
        (some ((exec o a l c.store).2.1, next (exec o a l c.store).1))⟩ := by
  simp only [step]
  split
  next l o next hi =>
    constructor
    · exact fun h => ⟨l, o, next, hi, (Option.some.inj h).symm⟩
    · rintro ⟨l', o', next', hi', rfl⟩
      obtain ⟨rfl, hop⟩ := Prod.mk.inj (Option.some.inj (hi.symm.trans hi'))
      cases hop
      rfl
  next hi =>
    refine iff_of_false (by simp) ?_
    rintro ⟨l, o, next, hi', -⟩
    exact hi l o next hi'

/-- What holds of every operation a party has left holds of every operation it has left later. -/
theorem within_run {exec : Exec Op Res ε Ans L σ} {drift : D → σ → σ}
    {P : (o : Op) → (Except ε (Res o) → Prog Op Res ε α) → Prop} {c c' : Pool ι L σ Op Res ε α}
    {turns : List (Turn ι Ans D)} (h : ∀ i l p, c.parties i = some (l, p) → p.Within P)
    (hrun : Lib.run (step exec drift) c turns = some c') :
    ∀ i l p, c'.parties i = some (l, p) → p.Within P := by
  refine run_invariant (I := fun c => ∀ i l p, c.parties i = some (l, p) → p.Within P) ?_ h hrun
  intro s turn t hs hstep j l' p hj
  cases turn with
  | act i a =>
    obtain ⟨l, o, next, hi, rfl⟩ := step_act_eq_some_iff.mp hstep
    dsimp only at hj
    by_cases hji : j = i
    · subst hji
      rw [Function.update_self] at hj
      cases hj
      exact (hs j l _ hi).2 _
    · rw [Function.update_of_ne hji] at hj
      exact hs j l' p hj
  | drift d =>
    cases hstep
    exact hs j l' p hj
  | crash i =>
    cases hstep
    dsimp only at hj
    by_cases hji : j = i
    · subst hji
      rw [Function.update_self] at hj
      cases hj
    · rw [Function.update_of_ne hji] at hj
      exact hs j l' p hj

/-- A preorder that time and every operation of the parties keep to holds between the stores of a
run. -/
theorem store_run {exec : Exec Op Res ε Ans L σ} {drift : D → σ → σ} {P : Op → Prop}
    {R : σ → σ → Prop} (refl : ∀ s, R s s) (trans : ∀ s t u, R s t → R t u → R s u)
    (hdrift : ∀ d s, R s (drift d s)) (hop : ∀ o a l s, P o → R s (exec o a l s).2.2)
    {c c' : Pool ι L σ Op Res ε α} {turns : List (Turn ι Ans D)}
    (hparties : ∀ i l p, c.parties i = some (l, p) → p.Performs P)
    (hrun : Lib.run (step exec drift) c turns = some c') : R c.store c'.store := by
  induction turns generalizing c with
  | nil =>
    cases hrun
    exact refl _
  | cons turn turns ih =>
    obtain ⟨next, hstep, hrest⟩ := run_cons_eq_some_iff.mp hrun
    have hone : Lib.run (step exec drift) c [turn] = some next :=
      run_cons_eq_some_iff.mpr ⟨next, hstep, rfl⟩
    refine trans _ _ _ ?_ (ih (within_run hparties hone) hrest)
    cases turn with
    | act i a =>
      obtain ⟨l, o, rest, hi, rfl⟩ := step_act_eq_some_iff.mp hstep
      exact hop o a l c.store (hparties i l _ hi).1
    | drift d =>
      cases hstep
      exact hdrift d _
    | crash i =>
      cases hstep
      exact refl _

end Pool

/-- A rely-guarantee discipline. -/
structure Discipline (exec : Exec Op Res ε Ans L σ) (drift : D → σ → σ) where
  /-- The invariant of the store. -/
  Inv : σ → Prop
  /-- What others may do to the store while a party is about to perform an operation. -/
  Rely : Op → σ → σ → Prop
  /-- What an operation, answered so, may do to the store. -/
  Guar : Op → Ans → σ → σ → Prop
  /-- The stores in which an operation is performed and answered so. -/
  Allowed : Op → Ans → σ → Prop
  /-- Whether an operation is performed and answered so while another party is about to perform the
  second one. -/
  Clear : Op → Ans → Op → Prop
  rely_refl : ∀ o s, Rely o s s
  rely_trans : ∀ o s t u, Rely o s t → Rely o t u → Rely o s u
  compat : ∀ o a o' s t, Inv s → Allowed o a s → Guar o a s t → Clear o a o' → Rely o' s t
  drift_inv : ∀ d s, Inv s → Inv (drift d s)
  drift_rely : ∀ d o s, Rely o s (drift d s)

variable {exec : Exec Op Res ε Ans L σ} {drift : D → σ → σ}

/-- From this store on, among parties that keep the discipline, the program keeps it too, and ends
as `Q` says. -/
def Safe (disc : Discipline exec drift) :
    Prog Op Res ε α → L → σ → (Except ε α → L → σ → Prop) → Prop
  | .ret a, l, s, Q => Q (.ok a) l s
  | .raise e, l, s, Q => Q (.error e) l s
  | .op o next, l, s, Q => ∀ t a, disc.Rely o s t → disc.Inv t → disc.Allowed o a t →
      disc.Inv (exec o a l t).2.2 ∧ disc.Guar o a t (exec o a l t).2.2 ∧
        Safe disc (next (exec o a l t).1) (exec o a l t).2.1 (exec o a l t).2.2 Q

namespace Safe

variable {disc : Discipline exec drift} {p : Prog Op Res ε α} {f : α → Prog Op Res ε β}
  {handler : ε → Prog Op Res ε α} {l : L} {s t : σ} {Q Q' : Except ε α → L → σ → Prop}

theorem mono (h : Safe disc p l s Q) (hQ : ∀ res l t, Q res l t → Q' res l t) :
    Safe disc p l s Q' := by
  induction p generalizing l s with
  | ret a => exact hQ _ _ _ h
  | raise e => exact hQ _ _ _ h
  | op o next ih =>
    intro t a hrely hinv hallowed
    obtain ⟨hinv', hguar, hrest⟩ := h t a hrely hinv hallowed
    exact ⟨hinv', hguar, ih _ hrest⟩

theorem congr (h : ∀ res l t, Q res l t ↔ Q' res l t) : Safe disc p l s Q ↔ Safe disc p l s Q' :=
  ⟨fun hp => hp.mono fun _ _ _ => (h _ _ _).mp, fun hp => hp.mono fun _ _ _ => (h _ _ _).mpr⟩

theorem attempt_bind {g : Except ε α → Prog Op Res ε β} {R : Except ε β → L → σ → Prop} :
    Safe disc (p.attempt.bind g) l s R ↔ Safe disc p l s fun res l' t => Safe disc (g res) l' t R := by
  induction p generalizing l s with
  | ret a => exact Iff.rfl
  | raise e => exact Iff.rfl
  | op o next ih =>
    refine forall_congr' fun t => forall_congr' fun a => forall_congr' fun _ =>
      forall_congr' fun _ => forall_congr' fun _ => and_congr_right fun _ => and_congr_right fun _ => ?_
    exact ih _

theorem bind {R : Except ε β → L → σ → Prop} :
    Safe disc (p.bind f) l s R ↔ Safe disc p l s fun res l' t =>
      match res with
      | .ok a => Safe disc (f a) l' t R
      | .error e => R (.error e) l' t := by
  rw [Prog.bind_eq_attempt, attempt_bind]
  refine congr fun res l' t => ?_
  cases res <;> exact Iff.rfl

/-- A program whose part says apart how it returns and how it raises. -/
theorem bind_of {R : Except ε β → L → σ → Prop} {A : α → L → σ → Prop} {E : ε → L → σ → Prop}
    (h : Safe disc p l s fun res l' t =>
      (∀ a, res = .ok a → A a l' t) ∧ ∀ e, res = .error e → E e l' t)
    (hok : ∀ a l' t, A a l' t → Safe disc (f a) l' t R)
    (herror : ∀ e l' t, E e l' t → R (.error e) l' t) : Safe disc (p.bind f) l s R := by
  refine bind.mpr (h.mono fun res l' t hres => ?_)
  cases res with
  | ok a => exact hok a l' t (hres.1 a rfl)
  | error e => exact herror e l' t (hres.2 e rfl)

/-- Mapping the value changes nothing of how a program ends. -/
theorem bind_ret {g : α → β} {R : L → σ → Prop} (h : Safe disc p l s fun _ => R) :
    Safe disc (p.bind fun a => .ret (g a)) l s fun _ => R := by
  refine bind.mpr (h.mono fun res l' t hres => ?_)
  cases res <;> exact hres

theorem tryCatch {R : Except ε α → L → σ → Prop} :
    Safe disc (p.tryCatch handler) l s R ↔ Safe disc p l s fun res l' t =>
      match res with
      | .ok a => R (.ok a) l' t
      | .error e => Safe disc (handler e) l' t R := by
  rw [Prog.tryCatch_eq_attempt, attempt_bind]
  refine congr fun res l' t => ?_
  cases res <;> exact Iff.rfl

theorem call {o : Op} {R : Except ε (Res o) → L → σ → Prop} :
    Safe disc (Prog.call o) l s R ↔
      ∀ t a, disc.Rely o s t → disc.Inv t → disc.Allowed o a t →
        disc.Inv (exec o a l t).2.2 ∧ disc.Guar o a t (exec o a l t).2.2 ∧
          R (exec o a l t).1 (exec o a l t).2.1 (exec o a l t).2.2 := by
  refine forall_congr' fun t => forall_congr' fun a => forall_congr' fun _ =>
    forall_congr' fun _ => forall_congr' fun _ => and_congr_right fun _ => and_congr_right fun _ => ?_
  cases (exec o a l t).1 <;> exact Iff.rfl

/-- What others leave alone, and every operation of a program keeps, the program keeps. -/
theorem of_performs {P : Op → Prop} {Φ : σ → Prop} (hp : p.Performs P)
    (hrely : ∀ o s t, disc.Rely o s t → Φ s → Φ t)
    (hP : ∀ o t a l, P o → disc.Inv t → disc.Allowed o a t → Φ t →
      disc.Inv (exec o a l t).2.2 ∧ disc.Guar o a t (exec o a l t).2.2 ∧ Φ (exec o a l t).2.2)
    (h : Φ s) : Safe disc p l s fun _ _ t => Φ t := by
  induction p generalizing l s with
  | ret a => exact h
  | raise e => exact h
  | op o next ih =>
    intro t a hs hinv hallowed
    obtain ⟨hinv', hguar, hkept⟩ := hP o t a l hp.1 hinv hallowed (hrely o s t hs h)
    exact ⟨hinv', hguar, ih _ (hp.2 _) hkept⟩

/-- What a party about to perform an operation has established survives what it relies on. -/
theorem stable {o : Op} {next : Except ε (Res o) → Prog Op Res ε α}
    (h : Safe disc (.op o next) l s Q) (hrely : disc.Rely o s t) :
    Safe disc (.op o next) l t Q :=
  fun u a hrely' => h u a (disc.rely_trans o s t u hrely hrely')

/-- A discipline that asks for less: the same invariant, no more interference, weaker guarantees. -/
theorem weaken {disc' : Discipline exec drift} (h : Safe disc p l s Q)
    (hinv : ∀ s, disc.Inv s ↔ disc'.Inv s) (hrely : ∀ o s t, disc'.Rely o s t → disc.Rely o s t)
    (hallowed : ∀ o a s, disc'.Allowed o a s → disc.Allowed o a s)
    (hguar : ∀ o a s t, disc.Guar o a s t → disc'.Guar o a s t) : Safe disc' p l s Q := by
  induction p generalizing l s with
  | ret a => exact h
  | raise e => exact h
  | op o next ih =>
    intro t a hs hinv' hallowed'
    obtain ⟨hkept, hguar', hrest⟩ :=
      h t a (hrely o s t hs) ((hinv t).mpr hinv') (hallowed o a t hallowed')
    exact ⟨(hinv _).mp hkept, hguar _ _ _ _ hguar', ih _ hrest⟩

/-- A party that keeps the discipline, run to its end in an environment that keeps it too. -/
theorem every {env : σ → σ → Prop} (h : Safe disc p l s Q) (hinv : disc.Inv s)
    (henv : ∀ s t, env s t → disc.Inv s → disc.Inv t ∧ ∀ o, disc.Rely o s t)
    (hallowed : ∀ o a s, disc.Allowed o a s) :
    Every exec env p l s fun _ res l' t => disc.Inv t ∧ Q res l' t := by
  induction p generalizing l s with
  | ret a => exact ⟨hinv, h⟩
  | raise e => exact ⟨hinv, h⟩
  | op o next ih =>
    intro moved a hmoved
    obtain ⟨hinv', hrely⟩ := henv s moved hmoved hinv
    obtain ⟨hkept, -, hrest⟩ := h moved a (hrely o) hinv' (hallowed o a moved)
    exact ih _ hrest hkept

end Safe

/-- A program that keeps the discipline wherever it starts. -/
def Kept (disc : Discipline exec drift) (p : Prog Op Res ε α) : Prop :=
  ∀ l s, Safe disc p l s fun _ _ _ => True

namespace Kept

variable {disc : Discipline exec drift} {p : Prog Op Res ε α} {f : α → Prog Op Res ε β}
  {handler : ε → Prog Op Res ε α}

theorem ret (a : α) : Kept disc (.ret a : Prog Op Res ε α) := fun _ _ => trivial

theorem raise (e : ε) : Kept disc (.raise e : Prog Op Res ε α) := fun _ _ => trivial

theorem bind (hp : Kept disc p) (hf : ∀ a, Kept disc (f a)) : Kept disc (p.bind f) := by
  intro l s
  refine Safe.bind.mpr ((hp l s).mono fun res l' t _ => ?_)
  cases res with
  | ok a => exact hf a l' t
  | error e => trivial

theorem tryCatch (hp : Kept disc p) (hh : ∀ e, Kept disc (handler e)) :
    Kept disc (p.tryCatch handler) := by
  intro l s
  refine Safe.tryCatch.mpr ((hp l s).mono fun res l' t _ => ?_)
  cases res with
  | ok a => trivial
  | error e => exact hh e l' t

theorem call {o : Op} (ho : ∀ t a l, disc.Inv t → disc.Allowed o a t →
    disc.Inv (exec o a l t).2.2 ∧ disc.Guar o a t (exec o a l t).2.2) :
    Kept disc (Prog.call o : Prog Op Res ε (Res o)) := by
  intro l s
  refine Safe.call.mpr fun t a _ hinv hallowed => ?_
  obtain ⟨hinv', hguar⟩ := ho t a l hinv hallowed
  exact ⟨hinv', hguar, trivial⟩

/-- A program keeps the discipline when each of its operations does. -/
theorem of_performs {P : Op → Prop} (hp : p.Performs P)
    (hP : ∀ o t a l, P o → disc.Inv t → disc.Allowed o a t →
      disc.Inv (exec o a l t).2.2 ∧ disc.Guar o a t (exec o a l t).2.2) : Kept disc p := by
  intro l s
  refine Safe.of_performs hp (fun _ _ _ _ _ => trivial) ?_ trivial
  intro o t a l ho hinv hallowed _
  obtain ⟨hinv', hguar⟩ := hP o t a l ho hinv hallowed
  exact ⟨hinv', hguar, trivial⟩

end Kept

namespace Discipline

variable [DecidableEq ι] (disc : Discipline exec drift) {c c' : Pool ι L σ Op Res ε α}

/-- The turns the discipline speaks about. -/
def Undisturbed (c : Pool ι L σ Op Res ε α) : Turn ι Ans D → Prop
  | .act i a => ∀ l o next, c.parties i = some (l, .op o next) → disc.Allowed o a c.store ∧
      ∀ j, j ≠ i → ∀ l' o' next', c.parties j = some (l', .op o' next') → disc.Clear o a o'
  | _ => True

/-- The invariant holds and every party keeps the discipline from here on. -/
def Holds (c : Pool ι L σ Op Res ε α) : Prop :=
  disc.Inv c.store ∧
    ∀ i l p, c.parties i = some (l, p) → Safe disc p l c.store fun _ _ _ => True

variable {disc}

theorem Holds.step {turn : Turn ι Ans D} (h : disc.Holds c) (hc : disc.Undisturbed c turn)
    (hs : Pool.step exec drift c turn = some c') : disc.Holds c' := by
  obtain ⟨hinv, hsafe⟩ := h
  cases turn with
  | act i a =>
    obtain ⟨l, o, next, hi, rfl⟩ := Pool.step_act_eq_some_iff.mp hs
    obtain ⟨hallowed, hclear⟩ := hc l o next hi
    obtain ⟨hinv', hguar, hrest⟩ := hsafe i l _ hi c.store a (disc.rely_refl o _) hinv hallowed
    refine ⟨hinv', fun j l' p hj => ?_⟩
    dsimp only at hj ⊢
    by_cases hji : j = i
    · subst hji
      rw [Function.update_self] at hj
      cases hj
      exact hrest
    · rw [Function.update_of_ne hji] at hj
      have hmine := hsafe j l' p hj
      cases p with
      | ret a => trivial
      | raise e => trivial
      | op o' next' =>
        exact hmine.stable (disc.compat o a o' _ _ hinv hallowed hguar (hclear j hji l' o' next' hj))
  | drift d =>
    cases hs
    refine ⟨disc.drift_inv d _ hinv, fun j l' p hj => ?_⟩
    have hmine := hsafe j l' p hj
    cases p with
    | ret a => trivial
    | raise e => trivial
    | op o' next' => exact hmine.stable (disc.drift_rely d o' _)
  | crash i =>
    cases hs
    refine ⟨hinv, fun j l' p hj => ?_⟩
    dsimp only at hj ⊢
    by_cases hji : j = i
    · subst hji
      rw [Function.update_self] at hj
      cases hj
    · rw [Function.update_of_ne hji] at hj
      exact hsafe j l' p hj

/-- In every undisturbed run of parties that keep the discipline, every state keeps it. -/
theorem Holds.run {turns : List (Turn ι Ans D)} (h : disc.Holds c)
    (hc : Along (Pool.step exec drift) disc.Undisturbed c turns)
    (hr : Lib.run (Pool.step exec drift) c turns = some c') : disc.Holds c' :=
  run_invariant_of_along (fun _ _ _ h hc hs => h.step hc hs) h hc hr

end Discipline

/-! ## Lasting permissions -/

/-- Permissions to perform operations: who has one keeps the invariant by performing the operation,
and what becomes of the store takes no permission away. -/
structure Permission (exec : Exec Op Res ε Ans L σ) (drift : D → σ → σ) where
  Inv : σ → Prop
  /-- What becomes of a store. -/
  Later : σ → σ → Prop
  May : Op → σ → Prop
  refl : ∀ s, Later s s
  trans : ∀ s t u, Later s t → Later t u → Later s u
  lasts : ∀ o s t, May o s → Later s t → May o t
  keeps : ∀ o a l s, Inv s → May o s → Inv (exec o a l s).2.2 ∧ Later s (exec o a l s).2.2
  drift_inv : ∀ d s, Inv s → Inv (drift d s)
  drift_later : ∀ d s, Later s (drift d s)

namespace Permission

variable (perm : Permission exec drift) {p : Prog Op Res ε α} {l : L} {s : σ}

/-- The parties perform what they may, and rely on nothing but that the others do. -/
def discipline : Discipline exec drift where
  Inv := perm.Inv
  Rely _ := perm.Later
  Guar o _ s t := perm.May o s ∧ perm.Later s t
  Allowed _ _ _ := True
  Clear _ _ _ := True
  rely_refl _ := perm.refl
  rely_trans _ := perm.trans
  compat _ _ _ _ _ _ _ hguar _ := hguar.2
  drift_inv := perm.drift_inv
  drift_rely d _ s := perm.drift_later d s

/-- A permitted operation, with what it was performed on. -/
theorem safe_call {o : Op} (h : perm.May o s) :
    Safe perm.discipline (Prog.call o : Prog Op Res ε (Res o)) l s fun res l' u =>
      perm.Later s u ∧ perm.Inv u ∧
        ∃ a t, perm.Later s t ∧ perm.Inv t ∧ exec o a l t = (res, l', u) := by
  refine Safe.call.mpr fun t a hlater hinv _ => ?_
  have hstill := perm.lasts o s t h hlater
  obtain ⟨hkept, hstep⟩ := perm.keeps o a l t hinv hstill
  exact ⟨hkept, ⟨hstill, hstep⟩, perm.trans _ _ _ hlater hstep, hkept, a, t, hlater, hinv, rfl⟩

/-- A program of operations that are always permitted. -/
theorem safe_performs (hp : p.Performs fun o => ∀ s, perm.May o s) :
    Safe perm.discipline p l s fun _ _ u => perm.Later s u := by
  refine Safe.of_performs hp (fun _ _ _ hrely h => perm.trans _ _ _ h hrely) ?_ (perm.refl s)
  intro o t a l ho hinv _ hlater
  obtain ⟨hkept, hstep⟩ := perm.keeps o a l t hinv (ho t)
  exact ⟨hkept, ⟨ho t, hstep⟩, perm.trans _ _ _ hlater hstep⟩

/-- A program that keeps to its permissions keeps to others that those imply for its operations, while
no more becomes of the store. -/
theorem safe_of {perm' : Permission exec drift} {P : Op → Prop}
    {Q : Except ε α → L → σ → Prop} (h : Safe perm.discipline p l s Q) (hp : p.Performs P)
    (hinv : ∀ s, perm'.Inv s → perm.Inv s) (hlater : ∀ s t, perm'.Later s t → perm.Later s t)
    (hmay : ∀ o s, P o → perm.May o s → perm'.May o s) : Safe perm'.discipline p l s Q := by
  induction p generalizing l s with
  | ret a => exact h
  | raise e => exact h
  | op o next ih =>
    intro t a hs hinv' _
    obtain ⟨-, ⟨hmine, -⟩, hrest⟩ := h t a (hlater s t hs) (hinv t hinv') trivial
    obtain ⟨hkept, hstep⟩ := perm'.keeps o a l t hinv' (hmay o t hp.1 hmine)
    exact ⟨hkept, ⟨hmay o t hp.1 hmine, hstep⟩, ih _ hrest (hp.2 _)⟩

/-- No turn disturbs parties that rely on permissions. -/
theorem undisturbed (c : Pool ι L σ Op Res ε α) (turn : Turn ι Ans D) :
    perm.discipline.Undisturbed c turn := by
  cases turn with
  | act i a => exact fun _ _ _ _ => ⟨trivial, fun _ _ _ _ _ _ => trivial⟩
  | drift | crash => trivial

/-- In every run of parties that perform what they may, every state keeps the invariant. -/
theorem holds_run [DecidableEq ι] {c c' : Pool ι L σ Op Res ε α} {turns : List (Turn ι Ans D)}
    (h : perm.discipline.Holds c) (hr : Lib.run (Pool.step exec drift) c turns = some c') :
    perm.discipline.Holds c' :=
  h.run (along_of_forall perm.undisturbed _ _) hr

end Permission

end Lib
