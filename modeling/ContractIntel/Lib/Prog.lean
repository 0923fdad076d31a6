import Mathlib.Data.List.Basic

/-!
# Programs over operations, and their traces

A program is a tree: it returns, raises, or performs an operation and goes on with the
operation's answer, which may be an exception. Programs compose by `bind` and `tryCatch`, so that
a service written in a language with exceptions is transcribed statement by statement.

What an operation does is given by `exec`: from the world's answer to it, the session of the party
that performs it and the shared store, the result and what becomes of session and store.
`Runs` is the big-step reading with a trace of the operations performed; before each operation
the environment may move the store along `env`. `Every` is the same, read backwards: a condition
that every run meets, computed along the program.

## What is proved

- `every_iff_runs`: the two readings agree.
- `Prog.bind_eq_attempt`, `Prog.tryCatch_eq_attempt`: every composition is one after an attempt.
- `Every.attempt_bind`, and from it `Every.bind`, `Every.tryCatch`; `Every.mono`: the rules a proof
  about a program is made of.
- `Within.bind`, `Performs.bind` and their like: what holds of every operation of the parts holds of
  every operation of the whole.
- `Every.of_performs`, `Every.trace_of_performs`: what the operations say of the runs.
- `runs_of_replay`: a replay against listed answers is a run.
- `exists_runs`: there is a run for whatever the world answers.
-/

namespace Lib

/-- A program over operations `Op` with results `Res`, exceptions `ε` and values `α`. -/
inductive Prog (Op : Type) (Res : Op → Type) (ε α : Type) where
  | ret (a : α)
  | raise (e : ε)
  | op (o : Op) (next : Except ε (Res o) → Prog Op Res ε α)

namespace Prog

variable {Op : Type} {Res : Op → Type} {ε α β : Type}

def bind : Prog Op Res ε α → (α → Prog Op Res ε β) → Prog Op Res ε β
  | .ret a, f => f a
  | .raise e, _ => .raise e
  | .op o next, f => .op o fun r => (next r).bind f

/-- `try: p except e: handler(e)`. -/
def tryCatch : Prog Op Res ε α → (ε → Prog Op Res ε α) → Prog Op Res ε α
  | .ret a, _ => .ret a
  | .raise e, handler => handler e
  | .op o next, handler => .op o fun r => (next r).tryCatch handler

/-- The outcome of a program, exceptions caught: what comes after a `try` block depends on it. -/
def attempt (p : Prog Op Res ε α) : Prog Op Res ε (Except ε α) :=
  (p.bind fun a => .ret (.ok a)).tryCatch fun e => .ret (.error e)

/-- The rest of a program after one operation: its exception is raised. -/
def ofResult : Except ε α → Prog Op Res ε α
  | .ok a => .ret a
  | .error e => .raise e

/-- One operation. -/
def call (o : Op) : Prog Op Res ε (Res o) := .op o ofResult

instance : Monad (Prog Op Res ε) where
  pure := .ret
  bind := bind

instance : MonadExceptOf ε (Prog Op Res ε) where
  throw := .raise
  tryCatch := tryCatch

/-- Every operation of the program, with what follows its answers, is as `P` says. -/
def Within (P : (o : Op) → (Except ε (Res o) → Prog Op Res ε α) → Prop) :
    Prog Op Res ε α → Prop
  | .op o next => P o next ∧ ∀ r, (next r).Within P
  | _ => True

@[simp] theorem pure_eq (a : α) : (pure a : Prog Op Res ε α) = .ret a := rfl

@[simp] theorem throw_eq (e : ε) : (throw e : Prog Op Res ε α) = .raise e := rfl

@[simp] theorem bind_eq (p : Prog Op Res ε α) (f : α → Prog Op Res ε β) : p >>= f = p.bind f := rfl

@[simp] theorem ret_bind (a : α) (f : α → Prog Op Res ε β) : (ret a).bind f = f a := rfl

@[simp] theorem raise_bind (e : ε) (f : α → Prog Op Res ε β) :
    (raise e : Prog Op Res ε α).bind f = raise e := rfl

theorem bind_assoc {γ : Type} (p : Prog Op Res ε α) (f : α → Prog Op Res ε β)
    (g : β → Prog Op Res ε γ) : (p.bind f).bind g = p.bind fun a => (f a).bind g := by
  induction p with
  | ret a => rfl
  | raise e => rfl
  | op o next ih => exact congrArg (op o) (funext ih)

theorem bind_ret (p : Prog Op Res ε α) : p.bind ret = p := by
  induction p with
  | ret a => rfl
  | raise e => rfl
  | op o next ih => exact congrArg (op o) (funext ih)

/-- What comes after a program comes after its attempt, which hands an exception on. -/
theorem bind_eq_attempt (p : Prog Op Res ε α) (f : α → Prog Op Res ε β) :
    p.bind f = p.attempt.bind fun res =>
      match res with
      | .ok a => f a
      | .error e => raise e := by
  induction p with
  | ret a => rfl
  | raise e => rfl
  | op o next ih => exact congrArg (op o) (funext ih)

/-- A handler comes after the attempt of a program, whose value it hands on. -/
theorem tryCatch_eq_attempt (p : Prog Op Res ε α) (handler : ε → Prog Op Res ε α) :
    p.tryCatch handler = p.attempt.bind fun res =>
      match res with
      | .ok a => ret a
      | .error e => handler e := by
  induction p with
  | ret a => rfl
  | raise e => rfl
  | op o next ih => exact congrArg (op o) (funext ih)

@[simp] theorem ofResult_ok (a : α) : (ofResult (.ok a) : Prog Op Res ε α) = .ret a := rfl

@[simp] theorem ofResult_error (e : ε) : (ofResult (.error e) : Prog Op Res ε α) = .raise e := rfl

namespace Within

variable {P : (o : Op) → (Except ε (Res o) → Prog Op Res ε α) → Prop}
  {Q : (o : Op) → (Except ε (Res o) → Prog Op Res ε β) → Prop} {p : Prog Op Res ε α}

theorem bind {f : α → Prog Op Res ε β} (hp : p.Within P) (hf : ∀ a, (f a).Within Q)
    (hPQ : ∀ o next, P o next → Q o fun r => (next r).bind f) : (p.bind f).Within Q := by
  induction p with
  | ret a => exact hf a
  | raise e => trivial
  | op o next ih => exact ⟨hPQ o next hp.1, fun r => ih r (hp.2 r)⟩

theorem tryCatch {handler : ε → Prog Op Res ε α} {P' : (o : Op) →
    (Except ε (Res o) → Prog Op Res ε α) → Prop} (hp : p.Within P)
    (hh : ∀ e, (handler e).Within P')
    (hPP' : ∀ o next, P o next → P' o fun r => (next r).tryCatch handler) :
    (p.tryCatch handler).Within P' := by
  induction p with
  | ret a => trivial
  | raise e => exact hh e
  | op o next ih => exact ⟨hPP' o next hp.1, fun r => ih r (hp.2 r)⟩

theorem ofResult (r : Except ε α) : (Prog.ofResult r).Within P := by
  cases r <;> trivial

theorem mono {P' : (o : Op) → (Except ε (Res o) → Prog Op Res ε α) → Prop} (hp : p.Within P)
    (hPP' : ∀ o next, P o next → P' o next) : p.Within P' := by
  induction p with
  | ret a => trivial
  | raise e => trivial
  | op o next ih => exact ⟨hPP' o next hp.1, fun r => ih r (hp.2 r)⟩

theorem and {P' : (o : Op) → (Except ε (Res o) → Prog Op Res ε α) → Prop} (hp : p.Within P)
    (hp' : p.Within P') : p.Within fun o next => P o next ∧ P' o next := by
  induction p with
  | ret a => trivial
  | raise e => trivial
  | op o next ih => exact ⟨⟨hp.1, hp'.1⟩, fun r => ih r (hp.2 r) (hp'.2 r)⟩

end Within

/-- Every operation of the program is one of `P`. -/
abbrev Performs (P : Op → Prop) (p : Prog Op Res ε α) : Prop := p.Within fun o _ => P o

namespace Performs

variable {P : Op → Prop} {p : Prog Op Res ε α}

theorem ret (a : α) : (Prog.ret a : Prog Op Res ε α).Performs P := trivial

theorem raise (e : ε) : (Prog.raise e : Prog Op Res ε α).Performs P := trivial

theorem ofResult (r : Except ε α) : (Prog.ofResult r : Prog Op Res ε α).Performs P :=
  Within.ofResult r

theorem bind {f : α → Prog Op Res ε β} (hp : p.Performs P) (hf : ∀ a, (f a).Performs P) :
    (p.bind f).Performs P :=
  Within.bind hp hf fun _ _ h => h

theorem tryCatch {handler : ε → Prog Op Res ε α} (hp : p.Performs P)
    (hh : ∀ e, (handler e).Performs P) : (p.tryCatch handler).Performs P :=
  Within.tryCatch hp hh fun _ _ h => h

theorem attempt (hp : p.Performs P) : p.attempt.Performs P :=
  (hp.bind fun _ => ret _).tryCatch fun _ => ret _

theorem call {o : Op} (ho : P o) : (Prog.call o : Prog Op Res ε (Res o)).Performs P :=
  ⟨ho, fun r => .ofResult r⟩

end Performs

end Prog

section Semantics

variable {Op Ans L σ : Type} {Res : Op → Type} {ε α β : Type}

/-- What an operation does, given the world's answer: result, session, store. -/
abbrev Exec (Op : Type) (Res : Op → Type) (ε Ans L σ : Type) :=
  (o : Op) → Ans → L → σ → Except ε (Res o) × L × σ

/-- One operation of a trace: the world's answer and the result. -/
structure Entry (Op : Type) (Res : Op → Type) (ε Ans : Type) where
  op : Op
  answer : Ans
  result : Except ε (Res op)

/-- The runs of a program, the environment moving the store along `env` before each operation. -/
inductive Runs (exec : Exec Op Res ε Ans L σ) (env : σ → σ → Prop) :
    Prog Op Res ε α → L → σ → List (Entry Op Res ε Ans) → Except ε α → L → σ → Prop
  | ret (a : α) (l : L) (s : σ) : Runs exec env (.ret a) l s [] (.ok a) l s
  | raise (e : ε) (l : L) (s : σ) : Runs exec env (.raise e) l s [] (.error e) l s
  | op {o : Op} {next : Except ε (Res o) → Prog Op Res ε α} {l l' : L} {s moved t : σ}
      {trace : List (Entry Op Res ε Ans)} {res : Except ε α} (a : Ans) (henv : env s moved)
      (rest : Runs exec env (next (exec o a l moved).1) (exec o a l moved).2.1
        (exec o a l moved).2.2 trace res l' t) :
      Runs exec env (.op o next) l s (⟨o, a, (exec o a l moved).1⟩ :: trace) res l' t

/-- Every run of the program ends in a trace, result, session and store that meet `Φ`. -/
def Every (exec : Exec Op Res ε Ans L σ) (env : σ → σ → Prop) :
    Prog Op Res ε α → L → σ → (List (Entry Op Res ε Ans) → Except ε α → L → σ → Prop) → Prop
  | .ret a, l, s, Φ => Φ [] (.ok a) l s
  | .raise e, l, s, Φ => Φ [] (.error e) l s
  | .op o next, l, s, Φ => ∀ moved a, env s moved →
      Every exec env (next (exec o a l moved).1) (exec o a l moved).2.1 (exec o a l moved).2.2
        fun trace => Φ (⟨o, a, (exec o a l moved).1⟩ :: trace)

/-- The run in which the environment stays put and the world answers as listed; `none` when the
answers run out. -/
def replay (exec : Exec Op Res ε Ans L σ) : Prog Op Res ε α → L → σ → List Ans →
    Option (List (Entry Op Res ε Ans) × Except ε α × L × σ)
  | .ret a, l, s, _ => some ([], .ok a, l, s)
  | .raise e, l, s, _ => some ([], .error e, l, s)
  | .op _ _, _, _, [] => none
  | .op o next, l, s, a :: answers =>
    (replay exec (next (exec o a l s).1) (exec o a l s).2.1 (exec o a l s).2.2 answers).map
      fun r => (⟨o, a, (exec o a l s).1⟩ :: r.1, r.2)

variable {exec : Exec Op Res ε Ans L σ} {env : σ → σ → Prop}

/-- A replay of an operation is a replay of what follows it. -/
theorem replay_op {p : Prog Op Res ε α} {o : Op} {next : Except ε (Res o) → Prog Op Res ε α}
    (hp : p = .op o next) {l : L} {s : σ} {a : Ans} {answers : List Ans}
    {trace : List (Entry Op Res ε Ans)} {out : Except ε α × L × σ}
    (h : replay exec p l s (a :: answers) = some (trace, out)) :
    ∃ rest, trace = ⟨o, a, (exec o a l s).1⟩ :: rest ∧
      replay exec (next (exec o a l s).1) (exec o a l s).2.1 (exec o a l s).2.2 answers =
        some (rest, out) := by
  subst hp
  obtain ⟨⟨rest, out'⟩, hrest, heq⟩ := Option.map_eq_some_iff.mp h
  obtain ⟨rfl, rfl⟩ := Prod.mk.inj heq
  exact ⟨rest, rfl, hrest⟩

theorem runs_of_replay (henv : ∀ s, env s s) {p : Prog Op Res ε α} {l l' : L} {s t : σ}
    {answers : List Ans} {trace : List (Entry Op Res ε Ans)} {res : Except ε α}
    (h : replay exec p l s answers = some (trace, res, l', t)) :
    Runs exec env p l s trace res l' t := by
  induction p generalizing l s answers trace with
  | ret a =>
    cases h
    exact .ret a _ _
  | raise e =>
    cases h
    exact .raise e _ _
  | op o next ih =>
    cases answers with
    | nil => cases h
    | cons a answers =>
      obtain ⟨⟨more, rest⟩, hr, heq⟩ := Option.map_eq_some_iff.mp h
      obtain ⟨rfl, rfl⟩ := Prod.mk.inj heq
      exact .op a (henv s) (ih _ hr)

/-- Whatever the world answers, there is a run. -/
theorem exists_runs (henv : ∀ s, env s s) (p : Prog Op Res ε α) (l : L) (s : σ)
    (answers : Nat → Ans) : ∃ entries res l' t, Runs exec env p l s entries res l' t ∧
      ∀ i entry, entries[i]? = some entry → entry.answer = answers i := by
  induction p generalizing l s answers with
  | ret a => exact ⟨_, _, _, _, .ret a l s, fun i entry h => by cases h⟩
  | raise e => exact ⟨_, _, _, _, .raise e l s, fun i entry h => by cases h⟩
  | op o next ih =>
    obtain ⟨entries, res, l', t, hruns, hanswers⟩ :=
      ih (exec o (answers 0) l s).1 (exec o (answers 0) l s).2.1 (exec o (answers 0) l s).2.2
        fun i => answers (i + 1)
    refine ⟨_, _, _, _, .op (answers 0) (henv s) hruns, fun i entry hentry => ?_⟩
    cases i with
    | zero =>
      rw [List.getElem?_cons_zero] at hentry
      rw [← Option.some.inj hentry]
    | succ i => exact hanswers i entry hentry

theorem every_iff_runs (p : Prog Op Res ε α) (l : L) (s : σ)
    (Φ : List (Entry Op Res ε Ans) → Except ε α → L → σ → Prop) :
    Every exec env p l s Φ ↔
      ∀ trace res l' t, Runs exec env p l s trace res l' t → Φ trace res l' t := by
  induction p generalizing l s Φ with
  | ret a =>
    constructor
    · intro h trace res l' t hr
      cases hr
      exact h
    · exact fun h => h _ _ _ _ (.ret a l s)
  | raise e =>
    constructor
    · intro h trace res l' t hr
      cases hr
      exact h
    · exact fun h => h _ _ _ _ (.raise e l s)
  | op o next ih =>
    constructor
    · intro h trace res l' t hr
      cases hr with
      | op a henv rest => exact (ih _ _ _ _).mp (h _ a henv) _ _ _ _ rest
    · intro h moved a henv
      exact (ih _ _ _ _).mpr fun trace res l' t rest => h _ _ _ _ (.op a henv rest)

namespace Every

variable {p : Prog Op Res ε α} {f : α → Prog Op Res ε β} {handler : ε → Prog Op Res ε α} {l : L}
  {s : σ}

theorem mono {Φ Ψ : List (Entry Op Res ε Ans) → Except ε α → L → σ → Prop}
    (h : Every exec env p l s Φ) (hΦ : ∀ trace res l' t, Φ trace res l' t → Ψ trace res l' t) :
    Every exec env p l s Ψ :=
  (every_iff_runs p l s Ψ).mpr fun trace res l' t hr =>
    hΦ _ _ _ _ ((every_iff_runs p l s Φ).mp h trace res l' t hr)

theorem of_forall (p : Prog Op Res ε α) (l : L) (s : σ) :
    Every exec env p l s fun _ _ _ _ => True :=
  (every_iff_runs p l s _).mpr fun _ _ _ _ _ => trivial

theorem runs (p : Prog Op Res ε α) (l : L) (s : σ) :
    Every exec env p l s fun trace res l' t => Runs exec env p l s trace res l' t :=
  (every_iff_runs p l s _).mpr fun _ _ _ _ hr => hr

theorem and {Φ Ψ : List (Entry Op Res ε Ans) → Except ε α → L → σ → Prop}
    (hΦ : Every exec env p l s Φ) (hΨ : Every exec env p l s Ψ) :
    Every exec env p l s fun trace res l' t => Φ trace res l' t ∧ Ψ trace res l' t :=
  (every_iff_runs p l s _).mpr fun trace res l' t hr =>
    ⟨(every_iff_runs p l s Φ).mp hΦ trace res l' t hr,
      (every_iff_runs p l s Ψ).mp hΨ trace res l' t hr⟩

theorem congr {Φ Ψ : List (Entry Op Res ε Ans) → Except ε α → L → σ → Prop}
    (h : ∀ trace res l' t, Φ trace res l' t ↔ Ψ trace res l' t) :
    Every exec env p l s Φ ↔ Every exec env p l s Ψ :=
  ⟨fun hp => hp.mono fun _ _ _ _ => (h _ _ _ _).mp,
    fun hp => hp.mono fun _ _ _ _ => (h _ _ _ _).mpr⟩

/-- What follows an attempt sees its outcome, whichever it is. -/
theorem attempt_bind {g : Except ε α → Prog Op Res ε β}
    {Φ : List (Entry Op Res ε Ans) → Except ε β → L → σ → Prop} :
    Every exec env (p.attempt.bind g) l s Φ ↔ Every exec env p l s fun trace res l' t =>
      Every exec env (g res) l' t fun more => Φ (trace ++ more) := by
  induction p generalizing l s Φ with
  | ret a => exact Iff.rfl
  | raise e => exact Iff.rfl
  | op o next ih =>
    refine forall_congr' fun moved => forall_congr' fun a => forall_congr' fun _ => ?_
    exact ih _

/-- After a returned value the rest of the program runs, an exception ends it. -/
theorem bind {Φ : List (Entry Op Res ε Ans) → Except ε β → L → σ → Prop} :
    Every exec env (p.bind f) l s Φ ↔ Every exec env p l s fun trace res l' t =>
      match res with
      | .ok a => Every exec env (f a) l' t fun more => Φ (trace ++ more)
      | .error e => Φ trace (.error e) l' t := by
  rw [Prog.bind_eq_attempt, attempt_bind]
  refine congr fun trace res l' t => ?_
  cases res with
  | ok a => exact Iff.rfl
  | error e =>
    show Φ (trace ++ []) (.error e) l' t ↔ Φ trace (.error e) l' t
    rw [List.append_nil]

/-- After an exception the handler runs. -/
theorem tryCatch {Φ : List (Entry Op Res ε Ans) → Except ε α → L → σ → Prop} :
    Every exec env (p.tryCatch handler) l s Φ ↔ Every exec env p l s fun trace res l' t =>
      match res with
      | .ok a => Φ trace (.ok a) l' t
      | .error e => Every exec env (handler e) l' t fun more => Φ (trace ++ more) := by
  rw [Prog.tryCatch_eq_attempt, attempt_bind]
  refine congr fun trace res l' t => ?_
  cases res with
  | ok a =>
    show Φ (trace ++ []) (.ok a) l' t ↔ Φ trace (.ok a) l' t
    rw [List.append_nil]
  | error e => exact Iff.rfl

theorem ofResult {r : Except ε α} {Φ : List (Entry Op Res ε Ans) → Except ε α → L → σ → Prop} :
    Every exec env (Prog.ofResult r) l s Φ ↔ Φ [] r l s := by
  cases r <;> exact Iff.rfl

theorem call {o : Op} {Φ : List (Entry Op Res ε Ans) → Except ε (Res o) → L → σ → Prop} :
    Every exec env (Prog.call o) l s Φ ↔ ∀ moved a, env s moved →
      Φ [⟨o, a, (exec o a l moved).1⟩] (exec o a l moved).1 (exec o a l moved).2.1
        (exec o a l moved).2.2 := by
  refine forall_congr' fun moved => forall_congr' fun a => forall_congr' fun _ => ?_
  cases (exec o a l moved).1 <;> exact Iff.rfl

/-- A preorder that the environment and every operation of a program keep to holds between the
ends of its runs. -/
theorem of_performs {R : σ → σ → Prop} {P : Op → Prop} (hp : p.Performs P) (refl : ∀ s, R s s)
    (trans : ∀ s t u, R s t → R t u → R s u) (henv : ∀ s t, env s t → R s t)
    (hop : ∀ o a l s, P o → R s (exec o a l s).2.2) :
    Every exec env p l s fun _ _ _ t => R s t := by
  induction p generalizing l s with
  | ret a => exact refl s
  | raise e => exact refl s
  | op o next ih =>
    intro moved a hmoved
    refine (ih _ (hp.2 _)).mono fun _ _ _ t ht => ?_
    exact trans _ _ _ (trans _ _ _ (henv _ _ hmoved) (hop o a l moved hp.1)) ht

/-- The operations of a trace are operations of the program. -/
theorem trace_of_performs {P : Op → Prop} (hp : p.Performs P) :
    Every exec env p l s fun trace _ _ _ => ∀ entry ∈ trace, P entry.op := by
  induction p generalizing l s with
  | ret a => exact fun _ hentry => absurd hentry List.not_mem_nil
  | raise e => exact fun _ hentry => absurd hentry List.not_mem_nil
  | op o next ih =>
    intro moved a hmoved
    refine (ih _ (hp.2 _)).mono fun trace _ _ _ htrace entry hentry => ?_
    rcases List.mem_cons.mp hentry with rfl | hentry
    · exact hp.1
    · exact htrace entry hentry

end Every

end Semantics

end Lib
