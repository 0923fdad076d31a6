import ContractIntel.Lib.Interleave

/-!
# How programs end, alone and in a pool

`Returns` is what the values say that a program may return. A party that keeps a discipline may also
have something to say about the end of its program. What it says of the store then has to last: once
the program is over, the others go on.

## What is proved

- `Every.of_returns`, `Safe.returns`: every run that returns returns such a value.
- `Discipline.Ends.run`: in every undisturbed run, each party that is done has ended as it says.
- `Discipline.EndsOne.run`: one party ends as it says, whatever the others do, when what they do is
  all that it has to rely on.
-/

namespace Lib

variable {Op Ans L σ D ι : Type} {Res : Op → Type} {ε α : Type}

theorem Prog.performs_all (p : Prog Op Res ε α) : p.Performs fun _ => True := by
  induction p with
  | ret a => trivial
  | raise e => trivial
  | op o next ih => exact ⟨trivial, ih⟩

/-- Every value that the program may return is one of `P`. -/
def Prog.Returns (P : α → Prop) : Prog Op Res ε α → Prop
  | .ret a => P a
  | .raise _ => True
  | .op _ next => ∀ r, (next r).Returns P

/-- The last part of a program returns its values. -/
theorem Prog.Returns.bind {β : Type} {P : β → Prop} {f : α → Prog Op Res ε β}
    (p : Prog Op Res ε α) (h : ∀ a, (f a).Returns P) : (p.bind f).Returns P := by
  induction p with
  | ret a => exact h a
  | raise e => trivial
  | op o next ih => exact ih

theorem Every.of_returns {exec : Exec Op Res ε Ans L σ} {env : σ → σ → Prop} {P : α → Prop}
    {p : Prog Op Res ε α} {l : L} {s : σ} (h : p.Returns P) :
    Every exec env p l s fun _ res _ _ => ∀ a, res = .ok a → P a := by
  induction p generalizing l s with
  | ret a => exact fun _ ha => Except.ok.inj ha ▸ h
  | raise e => exact fun _ ha => by cases ha
  | op o next ih => exact fun _ _ _ => ih _ (h _)

/-- What a program may return, besides what it keeps to. -/
theorem Safe.returns {exec : Exec Op Res ε Ans L σ} {drift : D → σ → σ} {disc : Discipline exec drift}
    {P : α → Prop} {p : Prog Op Res ε α} {l : L} {s : σ} {Q : Except ε α → L → σ → Prop}
    (h : Safe disc p l s Q) (hp : p.Returns P) :
    Safe disc p l s fun res l' t => Q res l' t ∧ ∀ a, res = .ok a → P a := by
  induction p generalizing l s with
  | ret a => exact ⟨h, fun _ ha => Except.ok.inj ha ▸ hp⟩
  | raise e => exact ⟨h, fun _ ha => by cases ha⟩
  | op o next ih =>
    intro t a hrely hinv hallowed
    obtain ⟨hinv', hguar, hrest⟩ := h t a hrely hinv hallowed
    exact ⟨hinv', hguar, ih _ hrest (hp _)⟩

namespace Discipline

variable {exec : Exec Op Res ε Ans L σ} {drift : D → σ → σ} (disc : Discipline exec drift)

/-- What the parties' guarantees and the passing of time leave true. -/
structure Lasting (Q : Except ε α → L → σ → Prop) : Prop where
  guar : ∀ o a s t, disc.Inv s → disc.Allowed o a s → disc.Guar o a s t →
    ∀ res l, Q res l s → Q res l t
  drift : ∀ d s, disc.Inv s → ∀ res l, Q res l s → Q res l (drift d s)

/-- The invariant holds, and every party keeps the discipline and ends as `post` says. -/
def Ends (post : ι → Except ε α → L → σ → Prop) (c : Pool ι L σ Op Res ε α) : Prop :=
  disc.Inv c.store ∧ ∀ i l p, c.parties i = some (l, p) → Safe disc p l c.store (post i)

variable {disc} {post : ι → Except ε α → L → σ → Prop} {c c' : Pool ι L σ Op Res ε α}
  [DecidableEq ι]

theorem Ends.step {turn : Turn ι Ans D} (hlasting : ∀ i, disc.Lasting (post i))
    (h : disc.Ends post c) (hc : disc.Undisturbed c turn)
    (hs : Pool.step exec drift c turn = some c') : disc.Ends post c' := by
  obtain ⟨hinv, hsafe⟩ := h
  cases turn with
  | act i a =>
    obtain ⟨l, o, next, hi, rfl⟩ := Pool.step_act_eq_some_iff.mp hs
    obtain ⟨hallowed, hclear⟩ := hc l o next hi
    obtain ⟨hinv', hguar, hrest⟩ := hsafe i l _ hi c.store a (disc.rely_refl o _) hinv hallowed
    refine ⟨hinv', fun j l' p hj => ?_⟩
    dsimp only at hj ⊢
    by_cases hji : j = i
    · subst hji
      rw [Function.update_self] at hj
      cases hj
      exact hrest
    · rw [Function.update_of_ne hji] at hj
      have hmine := hsafe j l' p hj
      -- a finished party has no operation to rely on the others for
      cases p with
      | ret v => exact (hlasting j).guar o a _ _ hinv hallowed hguar _ _ hmine
      | raise e => exact (hlasting j).guar o a _ _ hinv hallowed hguar _ _ hmine
      | op o' next' =>
        exact hmine.stable (disc.compat o a o' _ _ hinv hallowed hguar (hclear j hji l' o' next' hj))
  | drift d =>
    cases hs
    refine ⟨disc.drift_inv d _ hinv, fun j l' p hj => ?_⟩
    have hmine := hsafe j l' p hj
    cases p with
    | ret v => exact (hlasting j).drift d _ hinv _ _ hmine
    | raise e => exact (hlasting j).drift d _ hinv _ _ hmine
    | op o' next' => exact hmine.stable (disc.drift_rely d o' _)
  | crash i =>
    cases hs
    refine ⟨hinv, fun j l' p hj => ?_⟩
    dsimp only at hj ⊢
    by_cases hji : j = i
    · subst hji
      rw [Function.update_self] at hj
      cases hj
    · rw [Function.update_of_ne hji] at hj
      exact hsafe j l' p hj

/-- In every undisturbed run of parties that keep the discipline, each ends as it says. -/
theorem Ends.run {turns : List (Turn ι Ans D)} (hlasting : ∀ i, disc.Lasting (post i))
    (h : disc.Ends post c) (hc : Along (Pool.step exec drift) disc.Undisturbed c turns)
    (hr : Lib.run (Pool.step exec drift) c turns = some c') : disc.Ends post c' :=
  run_invariant_of_along (fun _ _ _ h hc hs => h.step hlasting hc hs) h hc hr

/-! ## One party among others -/

variable (disc) in
/-- The turns of one party are of the kind the discipline speaks about. -/
def Own (i : ι) (c : Pool ι L σ Op Res ε α) : Turn ι Ans D → Prop
  | .act j a => j = i → ∀ l o next, c.parties j = some (l, .op o next) → disc.Allowed o a c.store
  | _ => True

variable (disc) in
/-- Whatever anybody does keeps the invariant, what a party relies on, and what it ends with. -/
structure Tolerates (Q : Except ε α → L → σ → Prop) : Prop where
  inv : ∀ o a l s, disc.Inv s → disc.Inv (exec o a l s).2.2
  rely : ∀ o a l s, disc.Inv s → ∀ o', disc.Rely o' s (exec o a l s).2.2
  ended : ∀ o a l s, disc.Inv s → ∀ res l', Q res l' s → Q res l' (exec o a l s).2.2
  drift : ∀ d s, disc.Inv s → ∀ res l', Q res l' s → Q res l' (drift d s)

variable (disc) in
/-- The invariant holds, and one party keeps the discipline and ends as `Q` says. -/
def EndsOne (i : ι) (Q : Except ε α → L → σ → Prop) (c : Pool ι L σ Op Res ε α) : Prop :=
  disc.Inv c.store ∧ ∀ l p, c.parties i = some (l, p) → Safe disc p l c.store Q

variable {i : ι} {Q : Except ε α → L → σ → Prop}

/-- A party that has not moved still keeps the discipline. -/
theorem Tolerates.safe (h : disc.Tolerates Q) {p : Prog Op Res ε α} {l l' : L} {s : σ}
    (hinv : disc.Inv s) (hsafe : Safe disc p l s Q) (o : Op) (a : Ans) :
    Safe disc p l (exec o a l' s).2.2 Q := by
  cases p with
  | ret v => exact h.ended o a l' s hinv _ _ hsafe
  | raise e => exact h.ended o a l' s hinv _ _ hsafe
  | op o' next => exact hsafe.stable (h.rely o a l' s hinv o')

theorem EndsOne.step {turn : Turn ι Ans D} (hothers : disc.Tolerates Q) (h : disc.EndsOne i Q c)
    (hown : disc.Own i c turn) (hs : Pool.step exec drift c turn = some c') :
    disc.EndsOne i Q c' := by
  obtain ⟨hinv, hsafe⟩ := h
  cases turn with
  | act j a =>
    obtain ⟨l, o, next, hj, rfl⟩ := Pool.step_act_eq_some_iff.mp hs
    refine ⟨hothers.inv o a l _ hinv, fun l' p hi => ?_⟩
    dsimp only at hi ⊢
    by_cases hji : j = i
    · subst hji
      rw [Function.update_self] at hi
      cases hi
      exact (hsafe l _ hj c.store a (disc.rely_refl o _) hinv (hown rfl l o next hj)).2.2
    · rw [Function.update_of_ne (Ne.symm hji)] at hi
      exact hothers.safe hinv (hsafe l' p hi) o a
  | drift d =>
    cases hs
    refine ⟨disc.drift_inv d _ hinv, fun l' p hi => ?_⟩
    have hmine := hsafe l' p hi
    cases p with
    | ret v => exact hothers.drift d _ hinv _ _ hmine
    | raise e => exact hothers.drift d _ hinv _ _ hmine
    | op o' next' => exact hmine.stable (disc.drift_rely d o' _)
  | crash j =>
    cases hs
    refine ⟨hinv, fun l' p hi => ?_⟩
    dsimp only at hi ⊢
    by_cases hji : i = j
    · subst hji
      rw [Function.update_self] at hi
      cases hi
    · rw [Function.update_of_ne hji] at hi
      exact hsafe l' p hi

/-- Whatever the others do, a party that keeps the discipline ends as it says. -/
theorem EndsOne.run {turns : List (Turn ι Ans D)} (hothers : disc.Tolerates Q)
    (h : disc.EndsOne i Q c) (hown : Along (Pool.step exec drift) (disc.Own i) c turns)
    (hr : Lib.run (Pool.step exec drift) c turns = some c') : disc.EndsOne i Q c' :=
  run_invariant_of_along (fun _ _ _ h hc hs => h.step hothers hc hs) h hown hr

end Discipline

end Lib
