import ContractIntel.Lib.Prog

/-!
# Which operations an exception is to be blamed on

A handler catches some exceptions and lets others through. `Blamed` says of a program that an
exception gets through exactly in the runs in whose trace some operation went wrong: nothing else
raises one, and none that goes wrong goes unnoticed. What a handler catches may depend on the
session it is left with.

## What is proved

- `Blamed.bind`, `Blamed.bind_of`, `Blamed.call`: the rules for programs.
- `Blamed.attempt`: a `try` block, its `except` branch and what follows it.
-/

namespace Lib

variable {Op Ans L σ : Type} {Res : Op → Type} {ε α β : Type}

/-- An exception that the handler does not catch. -/
def Escapes (caught : ε → L → Prop) : Except ε α → L → Prop
  | .ok _, _ => False
  | .error e, l => ¬ caught e l

/-- An exception gets through exactly when an operation of the run went wrong. -/
def Blamed (exec : Exec Op Res ε Ans L σ) (env : σ → σ → Prop) (caught : ε → L → Prop)
    (wrong : Entry Op Res ε Ans → Prop) (p : Prog Op Res ε α) (l : L) (s : σ) : Prop :=
  Every exec env p l s fun trace res l' _ =>
    Escapes caught res l' ↔ ∃ entry ∈ trace, wrong entry

namespace Blamed

variable {exec : Exec Op Res ε Ans L σ} {env : σ → σ → Prop} {caught : ε → L → Prop}
  {wrong : Entry Op Res ε Ans → Prop} {p : Prog Op Res ε α} {f : α → Prog Op Res ε β} {l : L}
  {s : σ}

theorem ret (a : α) : Blamed exec env caught wrong (.ret a : Prog Op Res ε α) l s :=
  iff_of_false id fun ⟨_, h, _⟩ => absurd h List.not_mem_nil

theorem raise {e : ε} (h : caught e l) :
    Blamed exec env caught wrong (.raise e : Prog Op Res ε α) l s :=
  iff_of_false (fun he => he h) fun ⟨_, h, _⟩ => absurd h List.not_mem_nil

theorem ofResult {r : Except ε α} (h : ∀ e, r = .error e → caught e l) :
    Blamed exec env caught wrong (.ofResult r) l s := by
  cases r with
  | ok a => exact ret a
  | error e => exact raise (h e rfl)

theorem call {o : Op} (h : ∀ a s, Escapes caught (exec o a l s).1 (exec o a l s).2.1 ↔
    wrong ⟨o, a, (exec o a l s).1⟩) :
    Blamed exec env caught wrong (Prog.call o : Prog Op Res ε (Res o)) l s :=
  Every.call.mpr fun moved a _ => (h a moved).trans (by simp)

/-- After a part in which nothing went wrong, what went wrong is in the rest. -/
theorem exists_append_iff {trace more : List (Entry Op Res ε Ans)}
    (hclean : ¬ ∃ entry ∈ trace, wrong entry) :
    (∃ entry ∈ trace ++ more, wrong entry) ↔ ∃ entry ∈ more, wrong entry := by
  constructor
  · rintro ⟨entry, hentry, hwrong⟩
    rcases List.mem_append.mp hentry with hentry | hentry
    · exact absurd ⟨entry, hentry, hwrong⟩ hclean
    · exact ⟨entry, hentry, hwrong⟩
  · rintro ⟨entry, hentry, hwrong⟩
    exact ⟨entry, List.mem_append_right _ hentry, hwrong⟩

/-- The rest of a program is asked for after the values the first part returns. -/
theorem bind_of (hp : Blamed exec env caught wrong p l s)
    (hf : Every exec env p l s fun _ res l' t =>
      ∀ a, res = .ok a → Blamed exec env caught wrong (f a) l' t) :
    Blamed exec env caught wrong (p.bind f) l s := by
  refine Every.bind.mpr ((hp.and hf).mono fun trace res l' t h => ?_)
  obtain ⟨hiff, hrest⟩ := h
  cases res with
  | error e => exact hiff
  | ok a =>
    refine (hrest a rfl).mono fun more res l' t hmore => ?_
    have hclean : ¬ ∃ entry ∈ trace, wrong entry := hiff.not.mp id
    exact hmore.trans (exists_append_iff hclean).symm

theorem bind (hp : Blamed exec env caught wrong p l s)
    (hf : ∀ a l' t, Blamed exec env caught wrong (f a) l' t) :
    Blamed exec env caught wrong (p.bind f) l s :=
  bind_of hp ((Every.of_forall p l s).mono fun _ _ l' t _ a _ => hf a l' t)

/-- A `try` block, and the rest under an outer handler: after a value, or an exception the block's
handler catches, the rest is blamed; after any other exception the rest raises. -/
theorem attempt {outer : ε → L → Prop} {g : Except ε α → Prog Op Res ε β}
    (hp : Blamed exec env caught wrong p l s)
    (hg : Every exec env p l s fun _ res l' t =>
      (¬ Escapes caught res l' → Blamed exec env outer wrong (g res) l' t) ∧
      (Escapes caught res l' →
        Every exec env (g res) l' t fun _ res' l'' _ => Escapes outer res' l'')) :
    Blamed exec env outer wrong (p.attempt.bind g) l s := by
  refine Every.attempt_bind.mpr ((hp.and hg).mono fun trace res l' t h => ?_)
  obtain ⟨hiff, hcaught, hescapes⟩ := h
  by_cases hres : Escapes caught res l'
  · refine (hescapes hres).mono fun more res' l'' _ hmore => iff_of_true hmore ?_
    obtain ⟨entry, hentry, hwrong⟩ := hiff.mp hres
    exact ⟨entry, List.mem_append_left _ hentry, hwrong⟩
  · have hclean : ¬ ∃ entry ∈ trace, wrong entry := hiff.not.mp hres
    refine (hcaught hres).mono fun more res' l'' _ hmore => ?_
    exact hmore.trans (exists_append_iff hclean).symm

end Blamed

end Lib
