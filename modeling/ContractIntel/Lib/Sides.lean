import ContractIntel.Lib.Interleave

/-!
# Parties that cannot tell whether others are there

The parties of a pool are on two sides, and each performs what its side may. When an operation of the own
side does the same on two stores that look the same, up to what the world answers, and an operation of the
other side leaves a store looking as it did, the own side is by itself as far as it can tell: a run of the
pool without the turns of the others is a run of the own side alone, on a store that looks the same.

## What is proved

- `Sides.Holds.step`: a turn of parties that keep to what their sides may perform.
- `Sides.run_alone`: a run of the pool, and what is left of it without the others.
-/

namespace Lib

variable {Op Ans L σ D ι : Type} {Res : Op → Type} {ε α : Type}

/-! ## Turns -/

/-- A turn of one of these parties, or of the store by itself. -/
def Turn.isOf (own : ι → Bool) : Turn ι Ans D → Bool
  | .act i _ | .crash i => own i
  | .drift _ => true

/-- The same turn, but for what the world answers. -/
inductive Turn.Alike (Same : Ans → Ans → Prop) : Turn ι Ans D → Turn ι Ans D → Prop
  | act (i : ι) {a a' : Ans} (h : Same a a') : Alike Same (.act i a) (.act i a')
  | drift (d : D) : Alike Same (.drift d) (.drift d)
  | crash (i : ι) : Alike Same (.crash i) (.crash i)

variable {exec : Exec Op Res ε Ans L σ} {drift : D → σ → σ}

/-! ## Two sides -/

/-- Two sides, what each may perform, and when two stores look the same to the own side. -/
structure Sides (exec : Exec Op Res ε Ans L σ) (drift : D → σ → σ) extends Permission exec drift where
  /-- What the other side may perform. -/
  Other : Op → σ → Prop
  Looks : σ → σ → Prop
  /-- Answers that differ in nothing that counts. -/
  Same : Ans → Ans → Prop
  other_lasts : ∀ o s t, Other o s → Later s t → Other o t
  other_keeps : ∀ o a l s, Inv s → Other o s → Inv (exec o a l s).2.2 ∧ Later s (exec o a l s).2.2
  drift_looks : ∀ d s s', Looks s s' → Looks (drift d s) (drift d s')
  own_looks : ∀ o a l s s', Inv s → Inv s' → May o s → May o s' → Looks s s' →
    ∃ a', Same a a' ∧ (exec o a' l s').1 = (exec o a l s).1 ∧
      (exec o a' l s').2.1 = (exec o a l s).2.1 ∧ Looks (exec o a l s).2.2 (exec o a' l s').2.2
  other_looks : ∀ o a l s s', Inv s → Other o s → Looks s s' → Looks (exec o a l s).2.2 s'

theorem Permission.safe_later {perm : Permission exec drift} {p : Prog Op Res ε α} {l : L} {s t : σ}
    (h : Safe perm.discipline p l s fun _ _ _ => True) (hlater : perm.Later s t) :
    Safe perm.discipline p l t fun _ _ _ => True := by
  cases p with
  | ret a => trivial
  | raise e => trivial
  | op o next => exact h.stable hlater

namespace Sides

variable (sides : Sides exec drift) (own : ι → Bool)

/-- What the parties of one of the sides may perform. -/
def side : Bool → Permission exec drift
  | true => sides.toPermission
  | false =>
    { sides.toPermission with
      May := sides.Other
      lasts := sides.other_lasts
      keeps := sides.other_keeps }

@[simp] theorem side_inv (b : Bool) : (sides.side b).Inv = sides.Inv := by cases b <;> rfl

@[simp] theorem side_later (b : Bool) : (sides.side b).Later = sides.Later := by cases b <;> rfl

/-- The invariant holds, and every party keeps to what its side may perform. -/
def Holds (c : Pool ι L σ Op Res ε α) : Prop :=
  sides.Inv c.store ∧ ∀ i l p, c.parties i = some (l, p) →
    Safe (sides.side (own i)).discipline p l c.store fun _ _ _ => True

variable {sides own} {c c' d : Pool ι L σ Op Res ε α} {turn : Turn ι Ans D}

/-- The next operation of a party is one that its side may perform. -/
theorem Holds.act (h : sides.Holds own c) {i : ι} {l : L} {o : Op}
    {next : Except ε (Res o) → Prog Op Res ε α} (hi : c.parties i = some (l, .op o next)) (a : Ans) :
    (sides.side (own i)).May o c.store ∧ sides.Inv (exec o a l c.store).2.2 ∧
      sides.Later c.store (exec o a l c.store).2.2 ∧
      Safe (sides.side (own i)).discipline (next (exec o a l c.store).1) (exec o a l c.store).2.1
        (exec o a l c.store).2.2 fun _ _ _ => True := by
  have hinv : (sides.side (own i)).Inv c.store := by simpa using h.1
  obtain ⟨hkept, ⟨hmay, hlater⟩, hrest⟩ :=
    h.2 i l _ hi c.store a ((sides.side (own i)).refl _) hinv trivial
  refine ⟨hmay, ?_, ?_, hrest⟩
  · simpa [Permission.discipline] using hkept
  · simpa using hlater

variable [DecidableEq ι]

theorem Holds.step (h : sides.Holds own c) (hstep : Pool.step exec drift c turn = some d) :
    sides.Holds own d := by
  -- parties that are not at turn know that what they may do lasts
  have hothers : ∀ {t j l p}, sides.Later c.store t → c.parties j = some (l, p) →
      Safe (sides.side (own j)).discipline p l t fun _ _ _ => True := by
    intro t j l p hlater hj
    exact Permission.safe_later (h.2 j l p hj) (by simpa using hlater)
  cases turn with
  | act i a =>
    obtain ⟨l, o, next, hi, rfl⟩ := Pool.step_act_eq_some_iff.mp hstep
    obtain ⟨-, hinv, hlater, hrest⟩ := h.act hi a
    refine ⟨hinv, fun j l' p hj => ?_⟩
    by_cases hji : j = i
    · subst hji
      dsimp only at hj
      rw [Function.update_self] at hj
      cases hj
      exact hrest
    · dsimp only at hj
      rw [Function.update_of_ne hji] at hj
      exact hothers hlater hj
  | drift moved =>
    cases hstep
    exact ⟨sides.drift_inv moved _ h.1, fun j l' p hj => hothers (sides.drift_later moved _) hj⟩
  | crash i =>
    cases hstep
    refine ⟨h.1, fun j l' p hj => ?_⟩
    by_cases hji : j = i
    · subst hji
      dsimp only at hj
      rw [Function.update_self] at hj
      cases hj
    · dsimp only at hj
      rw [Function.update_of_ne hji] at hj
      exact h.2 j l' p hj

/-! ## By itself -/

/-- A pool, and the own side alone on a store that looks the same. -/
structure Beside (sides : Sides exec drift) (own : ι → Bool) (c c' : Pool ι L σ Op Res ε α) :
    Prop where
  holds : sides.Holds own c
  alone : sides.Holds own c'
  looks : sides.Looks c.store c'.store
  parties : ∀ i, c'.parties i = if own i then c.parties i else none

/-- A turn of the own side can be taken alone. -/
theorem Beside.step (h : sides.Beside own c c') (hturn : turn.isOf own = true)
    (hstep : Pool.step exec drift c turn = some d) : ∃ turn' d', turn.Alike sides.Same turn' ∧
      Pool.step exec drift c' turn' = some d' ∧ sides.Beside own d d' := by
  have hholds := h.holds.step hstep
  cases turn with
  | act i a =>
    replace hturn : own i = true := hturn
    obtain ⟨l, o, next, hi, rfl⟩ := Pool.step_act_eq_some_iff.mp hstep
    have hi' : c'.parties i = some (l, .op o next) := by rw [h.parties, if_pos hturn, hi]
    have hmay := (h.holds.act hi a).1
    have hmay' := (h.alone.act hi' a).1
    rw [hturn] at hmay hmay'
    obtain ⟨a', hsame, hres, hsession, hlooks⟩ :=
      sides.own_looks o a l _ _ h.holds.1 h.alone.1 hmay hmay' h.looks
    obtain ⟨d', hd', hstep'⟩ : ∃ d', d' = ⟨(exec o a' l c'.store).2.2, Function.update c'.parties i
        (some ((exec o a' l c'.store).2.1, next (exec o a' l c'.store).1))⟩ ∧
        Pool.step exec drift c' (.act i a') = some d' :=
      ⟨_, rfl, Pool.step_act_eq_some_iff.mpr ⟨l, o, next, hi', rfl⟩⟩
    refine ⟨.act i a', d', .act i hsame, hstep', hholds, h.alone.step hstep', ?_, fun j => ?_⟩
    · rw [hd']
      exact hlooks
    rw [hd']
    by_cases hji : j = i
    · subst hji
      simp [hturn, hres, hsession]
    · simp [Function.update_of_ne hji, h.parties]
  | drift moved =>
    cases hstep
    have hstep' : Pool.step exec drift c' (.drift moved) =
      some { c' with store := drift moved c'.store } := rfl
    refine ⟨.drift moved, _, .drift moved, hstep', hholds, h.alone.step hstep', ?_, h.parties⟩
    exact sides.drift_looks moved _ _ h.looks
  | crash i =>
    cases hstep
    have hstep' : Pool.step exec drift c' (.crash i : Turn ι Ans D) =
      some { c' with parties := Function.update c'.parties i none } := rfl
    refine ⟨.crash i, _, .crash i, hstep', hholds, h.alone.step hstep', h.looks, fun j => ?_⟩
    by_cases hji : j = i
    · subst hji
      simp
    · simp [Function.update_of_ne hji, h.parties]

/-- A turn of the other side goes by unnoticed. -/
theorem Beside.other (h : sides.Beside own c c') (hturn : turn.isOf own = false)
    (hstep : Pool.step exec drift c turn = some d) : sides.Beside own d c' := by
  have hholds := h.holds.step hstep
  cases turn with
  | act i a =>
    replace hturn : own i = false := hturn
    obtain ⟨l, o, next, hi, rfl⟩ := Pool.step_act_eq_some_iff.mp hstep
    have hmay := (h.holds.act hi a).1
    rw [hturn] at hmay
    refine ⟨hholds, h.alone, sides.other_looks o a l _ _ h.holds.1 hmay h.looks, fun j => ?_⟩
    by_cases hji : j = i
    · subst hji
      simp [hturn, h.parties]
    · simp [Function.update_of_ne hji, h.parties]
  | drift moved => cases hturn
  | crash i =>
    replace hturn : own i = false := hturn
    cases hstep
    refine ⟨hholds, h.alone, h.looks, fun j => ?_⟩
    by_cases hji : j = i
    · subst hji
      simp [hturn, h.parties]
    · simp [Function.update_of_ne hji, h.parties]

/-- What is left of a run without the turns of the other side is a run of the own side alone. -/
theorem run_alone {turns : List (Turn ι Ans D)} (h : sides.Beside own c c')
    (hrun : run (Pool.step exec drift) c turns = some d) : ∃ turns' d',
      List.Forall₂ (Turn.Alike sides.Same) (turns.filter (Turn.isOf own)) turns' ∧
        run (Pool.step exec drift) c' turns' = some d' ∧ sides.Beside own d d' := by
  induction turns generalizing c c' with
  | nil =>
    cases hrun
    exact ⟨[], c', .nil, rfl, h⟩
  | cons turn turns ih =>
    obtain ⟨middle, hstep, hrest⟩ := run_cons_eq_some_iff.mp hrun
    cases hturn : turn.isOf own with
    | true =>
      obtain ⟨turn', middle', halike, hstep', hbeside⟩ := h.step hturn hstep
      obtain ⟨turns', d', hturns, hrun', hend⟩ := ih hbeside hrest
      refine ⟨turn' :: turns', d', ?_, run_cons_eq_some_iff.mpr ⟨middle', hstep', hrun'⟩, hend⟩
      rw [List.filter_cons_of_pos hturn]
      exact .cons halike hturns
    | false =>
      obtain ⟨turns', d', hturns, hrun', hend⟩ := ih (h.other hturn hstep) hrest
      refine ⟨turns', d', ?_, hrun', hend⟩
      rw [List.filter_cons_of_neg (by simp [hturn])]
      exact hturns

end Sides

end Lib
