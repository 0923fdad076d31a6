import ContractIntel.Lib.Interleave

/-!
# Counting along a run

`tally` sums what the steps of a run count for, each by the state it is taken in. A potential pays
for it: where every step lowers the potential by what it counts for, up to what it brings in, a run
counts for no more than the potential it starts with and what is brought in on the way.

In a pool a turn counts for what the operation counts for that it performs. A counter beside the store
holds what a run has counted so far, so that a discipline of the parties may speak of it.

## What is proved

- `tally_add_le`: the bound by a potential.
- `tally_mono`, `tally_mul`: steps that count for more.
- `Pool.tally_add_le`: the bound for a pool, from what its operations do to the potential.
- `Pool.run_withCounter`: a run beside a counter.
-/

namespace Lib

section Runs

variable {σ ε : Type*} {step : σ → ε → Option σ} {f g : σ → ε → Nat} {s t : σ} {e : ε} {es : List ε}

/-- The sum of what the steps of a run count for. -/
def tally (step : σ → ε → Option σ) (f : σ → ε → Nat) : σ → List ε → Nat
  | _, [] => 0
  | s, e :: es => f s e + (step s e).elim 0 fun t => tally step f t es

@[simp] theorem tally_nil : tally step f s [] = 0 := rfl

theorem tally_cons (h : step s e = some t) :
    tally step f s (e :: es) = f s e + tally step f t es := by
  rw [tally, h]
  rfl

/-- What is counted is paid for by the potential and by what is brought in. -/
theorem tally_add_le {I : σ → Prop} (potential : σ → Nat)
    (pres : ∀ s e t, I s → step s e = some t → I t)
    (hpays : ∀ s e t, I s → step s e = some t → f s e + potential t ≤ potential s + g s e)
    (h : I s) (hrun : run step s es = some t) :
    tally step f s es + potential t ≤ potential s + tally step g s es := by
  induction es generalizing s with
  | nil =>
    cases hrun
    simp
  | cons e es ih =>
    obtain ⟨u, hu, hrun⟩ := run_cons_eq_some_iff.mp hrun
    have hstep := hpays s e u h hu
    have hrest := ih (pres s e u h hu) hrun
    rw [tally_cons hu, tally_cons hu]
    omega

theorem tally_mono {I : σ → Prop} (pres : ∀ s e t, I s → step s e = some t → I t)
    (hle : ∀ s e t, I s → step s e = some t → f s e ≤ g s e) (h : I s) (hrun : run step s es = some t) :
    tally step f s es ≤ tally step g s es := by
  induction es generalizing s with
  | nil => exact Nat.le_refl _
  | cons e es ih =>
    obtain ⟨u, hu, hrun⟩ := run_cons_eq_some_iff.mp hrun
    rw [tally_cons hu, tally_cons hu]
    exact Nat.add_le_add (hle s e u h hu) (ih (pres s e u h hu) hrun)

theorem tally_mul (k : Nat) (s : σ) (es : List ε) :
    tally step (fun s e => k * f s e) s es = k * tally step f s es := by
  induction es generalizing s with
  | nil => rfl
  | cons e es ih =>
    rw [tally, tally, Nat.mul_add]
    cases step s e with
    | none => rfl
    | some t => exact congrArg _ (ih t)

end Runs

namespace Pool

variable {Op Ans L D σ ι : Type} {Res : Op → Type} {ε α : Type} [DecidableEq ι]

/-- What a turn counts for: what the operation does that the party performs. -/
def counted (f : Op → Ans → L → σ → Nat) (c : Pool ι L σ Op Res ε α) : Turn ι Ans D → Nat
  | .act i a =>
    match c.parties i with
    | some (l, .op o _) => f o a l c.store
    | _ => 0
  | _ => 0

/-- What a run counts for, by its operations. -/
abbrev count (exec : Exec Op Res ε Ans L σ) (drift : D → σ → σ) (f : Op → Ans → L → σ → Nat) :
    Pool ι L σ Op Res ε α → List (Turn ι Ans D) → Nat :=
  tally (step exec drift) (counted f)

variable {exec : Exec Op Res ε Ans L σ} {drift : D → σ → σ} {f g : Op → Ans → L → σ → Nat}
  {I : σ → Prop} {c c' : Pool ι L σ Op Res ε α} {turns : List (Turn ι Ans D)}

omit [DecidableEq ι] in
theorem counted_act {i : ι} {a : Ans} {l : L} {o : Op} {next : Except ε (Res o) → Prog Op Res ε α}
    (h : c.parties i = some (l, .op o next)) :
    counted (D := D) f c (.act i a) = f o a l c.store := by
  simp only [counted, h]

/-- What operations and time keep, turns keep. -/
theorem step_store (hop : ∀ o a l s, I s → I (exec o a l s).2.2) (hdrift : ∀ d s, I s → I (drift d s))
    (c : Pool ι L σ Op Res ε α) (turn : Turn ι Ans D) (c' : Pool ι L σ Op Res ε α)
    (h : I c.store) (hstep : step exec drift c turn = some c') : I c'.store := by
  cases turn with
  | act i a =>
    obtain ⟨l, o, next, -, rfl⟩ := step_act_eq_some_iff.mp hstep
    exact hop o a l _ h
  | drift d =>
    cases hstep
    exact hdrift d _ h
  | crash i =>
    cases hstep
    exact h

theorem count_mul (k : Nat) (c : Pool ι L σ Op Res ε α) (turns : List (Turn ι Ans D)) :
    count exec drift (fun o a l s => k * f o a l s) c turns = k * count exec drift f c turns := by
  have hmul : counted (D := D) (fun o a l s => k * f o a l s) =
      fun (c : Pool ι L σ Op Res ε α) turn => k * counted f c turn := by
    funext c turn
    unfold counted
    split
    · split <;> rfl
    · rfl
  rw [count, hmul]
  exact tally_mul k c turns

theorem tally_add_le (potential : σ → Nat) (hop : ∀ o a l s, I s → I (exec o a l s).2.2)
    (hdrift : ∀ d s, I s → I (drift d s))
    (hpays : ∀ o a l s, I s → f o a l s + potential (exec o a l s).2.2 ≤ potential s + g o a l s)
    (hfree : ∀ d s, I s → potential (drift d s) ≤ potential s) (h : I c.store)
    (hrun : Lib.run (step exec drift) c turns = some c') :
    count exec drift f c turns + potential c'.store ≤
      potential c.store + count exec drift g c turns := by
  refine Lib.tally_add_le (I := fun c => I c.store) (fun c => potential c.store)
    (step_store hop hdrift) (fun c turn c' hc hstep => ?_) h hrun
  cases turn with
  | act i a =>
    obtain ⟨l, o, next, hi, rfl⟩ := step_act_eq_some_iff.mp hstep
    rw [counted_act hi, counted_act hi]
    exact hpays o a l _ hc
  | drift d =>
    cases hstep
    simpa only [counted, Nat.zero_add, Nat.add_zero] using hfree d _ hc
  | crash i =>
    cases hstep
    exact Nat.le_of_eq (Nat.zero_add _)

theorem count_mono (hop : ∀ o a l s, I s → I (exec o a l s).2.2)
    (hdrift : ∀ d s, I s → I (drift d s)) (hle : ∀ o a l s, I s → f o a l s ≤ g o a l s)
    (h : I c.store) (hrun : Lib.run (step exec drift) c turns = some c') :
    count exec drift f c turns ≤ count exec drift g c turns := by
  refine tally_mono (I := fun c => I c.store) (step_store hop hdrift) (fun c turn c' hc hstep => ?_) h
    hrun
  cases turn with
  | act i a =>
    obtain ⟨l, o, next, hi, -⟩ := step_act_eq_some_iff.mp hstep
    rw [counted_act hi, counted_act hi]
    exact hle o a l _ hc
  | drift d => exact Nat.le_refl _
  | crash i => exact Nat.le_refl _

/-! ## Counters -/

/-- The operations beside a counter. -/
def counting (f : Op → Ans → L → σ → Nat) (exec : Exec Op Res ε Ans L σ) :
    Exec Op Res ε Ans L (σ × Nat) :=
  fun o a l s => ((exec o a l s.1).1, (exec o a l s.1).2.1, (exec o a l s.1).2.2, s.2 + f o a l s.1)

/-- Time passes beside a counter. -/
def beside (drift : D → σ → σ) (d : D) (s : σ × Nat) : σ × Nat := (drift d s.1, s.2)

/-- The pool beside a counter. -/
def withCounter (n : Nat) (c : Pool ι L σ Op Res ε α) : Pool ι L (σ × Nat) Op Res ε α :=
  ⟨(c.store, n), c.parties⟩

theorem step_withCounter (n : Nat) (c : Pool ι L σ Op Res ε α) (turn : Turn ι Ans D) :
    step (counting f exec) (beside drift) (withCounter n c) turn =
      (step exec drift c turn).map (withCounter (n + counted f c turn)) := by
  cases turn with
  | act i a =>
    simp only [step, withCounter, counted]
    cases hi : c.parties i with
    | none => rfl
    | some party =>
      obtain ⟨l, p⟩ := party
      cases p <;> rfl
  | drift d => rfl
  | crash i => rfl

/-- Beside a counter a run goes as it does without, and the counter ends with the count. -/
theorem run_withCounter (n : Nat) (hrun : Lib.run (step exec drift) c turns = some c') :
    Lib.run (step (counting f exec) (beside drift)) (withCounter n c) turns =
      some (withCounter (n + count exec drift f c turns) c') := by
  induction turns generalizing c n with
  | nil =>
    cases hrun
    rfl
  | cons turn turns ih =>
    obtain ⟨u, hu, hrun⟩ := run_cons_eq_some_iff.mp hrun
    refine run_cons_eq_some_iff.mpr ⟨withCounter (n + counted f c turn) u, ?_, ?_⟩
    · rw [step_withCounter, hu]
      rfl
    · rw [count, tally_cons hu, ← Nat.add_assoc]
      exact ih _ hrun

theorem along_withCounter {C : Pool ι L σ Op Res ε α → Turn ι Ans D → Prop}
    {C' : Pool ι L (σ × Nat) Op Res ε α → Turn ι Ans D → Prop}
    (hC : ∀ n c turn, C c turn → C' (withCounter n c) turn) (n : Nat)
    (h : Along (step exec drift) C c turns) :
    Along (step (counting f exec) (beside drift)) C' (withCounter n c) turns := by
  induction turns generalizing c n with
  | nil => trivial
  | cons turn turns ih =>
    refine ⟨hC n c turn h.1, fun w hw => ?_⟩
    rw [step_withCounter] at hw
    obtain ⟨u, hu, rfl⟩ := Option.map_eq_some_iff.mp hw
    exact ih _ (h.2 u hu)

end Pool

end Lib
