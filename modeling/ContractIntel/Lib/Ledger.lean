import ContractIntel.Lib.Blame

/-!
# Debts along a trace

Some operations of a program incur debts and others pay them, and an exception may carry a debt
to whoever catches it. `Settles` says of a program that a run that returns has paid, in order, what
it was asked to pay and what it incurred, and that an exception its handler catches carries exactly
what is left.

## What is proved

- `Settles.ret`, `Settles.bind`, `Settles.bind_owing`, `Settles.call`: the rules for programs.
- `Settles.attempt`: a `try` block, and what pays the debts of the exceptions its handler catches.
- `Settles.after`: operations that have no part in it.
-/

namespace Lib

variable {Op Ans L σ δ : Type} {Res : Op → Type} {ε α β : Type}

/-- What an operation of a trace incurs and pays, and what an exception still owes. -/
structure Ledger (Op : Type) (Res : Op → Type) (ε Ans δ : Type) where
  incurred : Entry Op Res ε Ans → List δ
  paid : Entry Op Res ε Ans → List δ
  owed : ε → List δ

namespace Ledger

variable (ledger : Ledger Op Res ε Ans δ)

def incurs (trace : List (Entry Op Res ε Ans)) : List δ := trace.flatMap ledger.incurred

def pays (trace : List (Entry Op Res ε Ans)) : List δ := trace.flatMap ledger.paid

@[simp] theorem incurs_append (trace more : List (Entry Op Res ε Ans)) :
    ledger.incurs (trace ++ more) = ledger.incurs trace ++ ledger.incurs more :=
  List.flatMap_append

@[simp] theorem pays_append (trace more : List (Entry Op Res ε Ans)) :
    ledger.pays (trace ++ more) = ledger.pays trace ++ ledger.pays more :=
  List.flatMap_append

@[simp] theorem incurs_singleton (entry : Entry Op Res ε Ans) :
    ledger.incurs [entry] = ledger.incurred entry :=
  List.flatMap_singleton ..

@[simp] theorem pays_singleton (entry : Entry Op Res ε Ans) :
    ledger.pays [entry] = ledger.paid entry :=
  List.flatMap_singleton ..

/-- The books of a run: of what it was asked to pay and incurred, it has paid all when it returns,
and all but what is left to the handler when it raises what is caught. -/
def Balanced (caught : ε → L → Prop) (debts : List δ) (trace : List (Entry Op Res ε Ans)) :
    Except ε α → L → Prop
  | .ok _, _ => ledger.pays trace = debts ++ ledger.incurs trace
  | .error e, l => caught e l → ledger.pays trace ++ ledger.owed e = debts ++ ledger.incurs trace

/-- A run whose rest pays what its first part leaves is balanced. -/
theorem Balanced.append {ledger : Ledger Op Res ε Ans δ} {caught : ε → L → Prop} {debts rest : List δ}
    {trace more : List (Entry Op Res ε Ans)} {res : Except ε α} {l : L}
    (h : ledger.pays trace ++ rest = debts ++ ledger.incurs trace)
    (hmore : ledger.Balanced caught rest more res l) : ledger.Balanced caught debts (trace ++ more) res l := by
  cases res with
  | ok a =>
    calc ledger.pays (trace ++ more)
        = ledger.pays trace ++ (rest ++ ledger.incurs more) := by rw [pays_append, hmore]
      _ = debts ++ ledger.incurs (trace ++ more) := by
        rw [← List.append_assoc, h, incurs_append, List.append_assoc]
  | error e =>
    intro hcaught
    calc ledger.pays (trace ++ more) ++ ledger.owed e
        = ledger.pays trace ++ (rest ++ ledger.incurs more) := by
          rw [pays_append, List.append_assoc, hmore hcaught]
      _ = debts ++ ledger.incurs (trace ++ more) := by
        rw [← List.append_assoc, h, incurs_append, List.append_assoc]

/-- Every run of the program is balanced. -/
def Settles (exec : Exec Op Res ε Ans L σ) (env : σ → σ → Prop) (caught : ε → L → Prop)
    (debts : List δ) (p : Prog Op Res ε α) (l : L) (s : σ) : Prop :=
  Every exec env p l s fun trace res l' _ => ledger.Balanced caught debts trace res l'

namespace Settles

variable {ledger} {exec : Exec Op Res ε Ans L σ} {env : σ → σ → Prop} {caught : ε → L → Prop}
  {debts : List δ} {p : Prog Op Res ε α} {f : α → Prog Op Res ε β} {l : L} {s : σ}

theorem ret (a : α) : ledger.Settles exec env caught [] (.ret a : Prog Op Res ε α) l s := rfl

theorem raise {e : ε} (h : caught e l → ledger.owed e = debts) :
    ledger.Settles exec env caught debts (.raise e : Prog Op Res ε α) l s := by
  intro hcaught
  rw [h hcaught]
  exact (List.append_nil debts).symm

theorem ofResult {r : Except ε α} (h : ∀ e, r = .error e → caught e l → ledger.owed e = []) :
    ledger.Settles exec env caught [] (.ofResult r) l s := by
  cases r with
  | ok a => exact ret a
  | error e => exact raise (h e rfl)

theorem call {o : Op} (h : ∀ a s,
    ledger.Balanced caught debts [⟨o, a, (exec o a l s).1⟩] (exec o a l s).1 (exec o a l s).2.1) :
    ledger.Settles exec env caught debts (Prog.call o : Prog Op Res ε (Res o)) l s :=
  Every.call.mpr fun moved a _ => h a moved

theorem bind (hp : ledger.Settles exec env caught debts p l s)
    (hf : ∀ a l' t, ledger.Settles exec env caught [] (f a) l' t) :
    ledger.Settles exec env caught debts (p.bind f) l s := by
  refine Every.bind.mpr (hp.mono fun trace res l' t h => ?_)
  cases res with
  | error e => exact h
  | ok a => exact (hf a l' t).mono fun _ _ _ _ hmore => hmore.append ((List.append_nil _).trans h)

/-- The rest of a program pays what its first part incurs. -/
theorem bind_owing (hp : Every exec env p l s fun trace res l' t =>
      ledger.pays trace = [] ∧
        match res with
        | .ok a => ledger.Settles exec env caught (ledger.incurs trace) (f a) l' t
        | .error e => caught e l' → ledger.owed e = ledger.incurs trace) :
    ledger.Settles exec env caught [] (p.bind f) l s := by
  refine Every.bind.mpr (hp.mono fun trace res l' t h => ?_)
  obtain ⟨hpays, hrest⟩ := h
  cases res with
  | error e =>
    intro hcaught
    rw [hpays, hrest hcaught]
  | ok a =>
    refine hrest.mono fun _ _ _ _ hmore => hmore.append ?_
    rw [hpays]

/-- A `try` block, and the rest under an outer handler: after an exception the block's handler
catches the rest pays its debts, after any other one it raises. -/
theorem attempt {outer : ε → L → Prop} {g : Except ε α → Prog Op Res ε β}
    (hp : ledger.Settles exec env caught [] p l s)
    (hok : ∀ a l' t, ledger.Settles exec env outer [] (g (.ok a)) l' t)
    (hcaught : ∀ e l' t, caught e l' →
      ledger.Settles exec env outer (ledger.owed e) (g (.error e)) l' t)
    (hescapes : ∀ e l' t, ¬ caught e l' →
      Every exec env (g (.error e)) l' t fun _ res' l'' _ => Escapes outer res' l'') :
    ledger.Settles exec env outer [] (p.attempt.bind g) l s := by
  refine Every.attempt_bind.mpr (hp.mono fun trace res l' t h => ?_)
  cases res with
  | ok a => exact (hok a l' t).mono fun _ _ _ _ hmore => hmore.append ((List.append_nil _).trans h)
  | error e =>
    by_cases he : caught e l'
    · exact (hcaught e l' t he).mono fun _ _ _ _ hmore => hmore.append (h he)
    · refine (hescapes e l' t he).mono fun more res' l'' _ hmore => ?_
      cases res' with
      | ok b => exact hmore.elim
      | error e' => exact fun houter => absurd houter hmore

section Idle

variable {P : Op → Prop} (hp : p.Performs P)
  (hP : ∀ entry : Entry Op Res ε Ans, P entry.op →
    ledger.incurred entry = [] ∧ ledger.paid entry = [])
  (hcaught : ∀ e l, ¬ caught e l)

include hp hP hcaught

/-- What follows operations that have no part in the ledger pays the debts. -/
theorem after (hf : ∀ a l' t, ledger.Settles exec env caught debts (f a) l' t) :
    ledger.Settles exec env caught debts (p.bind f) l s := by
  refine Every.bind.mpr ((Every.trace_of_performs hp).mono fun trace res l' t htrace => ?_)
  have hpays : ledger.pays trace = [] :=
    List.flatMap_eq_nil_iff.mpr fun entry hentry => (hP entry (htrace entry hentry)).2
  have hincurs : ledger.incurs trace = [] :=
    List.flatMap_eq_nil_iff.mpr fun entry hentry => (hP entry (htrace entry hentry)).1
  cases res with
  | error e => exact fun h => absurd h (hcaught e l')
  | ok a =>
    refine (hf a l' t).mono fun _ _ _ _ hmore => hmore.append ?_
    rw [hpays, hincurs, List.append_nil, List.nil_append]

/-- A program whose operations have no part in the ledger. -/
theorem of_performs : ledger.Settles exec env caught [] p l s := by
  rw [← Prog.bind_ret p]
  exact after hp hP hcaught fun a l' t => ret a

end Idle

end Settles

end Ledger

end Lib
