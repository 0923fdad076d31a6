import ContractIntel.Lib.Interleave
import Mathlib.Data.Set.Image

/-!
# Refinement of pools

Two pools of the same parties: one over a fine store, in which a party takes many operations for what
it does in the other, over a coarse store, in one. What a party will do may be open for a while: a
read that has opened its file may still fail. So a party of the fine pool stands for several possible
parties of the coarse one (`Carries`). Which of them it is, its later operations decide.

What a session has to itself, and the others leave alone, is its `Tenancy`.

## What is proved

- `Carries.bind`, `Carries.tryCatch`, `Carries.mono`: the rules for programs.
- `Matches.step`: one turn. Whatever the parties turn out to be afterwards they may have been before.
- `Matches.shadows`: turn by turn, a run of the fine pool is one of the coarse pool, in which parties
  end when they do in the fine pool, and as they do.
-/

namespace Lib

variable {Op Ans L σ D ι : Type} {Res : Op → Type} {ε α β γ : Type}
  {Op' Ans' L' σ' : Type} {Res' : Op' → Type} {ε' : Type}

/-- What sessions have to themselves. -/
structure Tenancy (exec : Exec Op Res ε Ans L σ) (drift : D → σ → σ) where
  /-- What is known of every store. -/
  Inv : σ → Prop
  /-- What a session has is there. -/
  Fits : L → σ → Prop
  /-- Two sessions have nothing in common that is their own. -/
  Apart : L → L → Prop
  /-- The store leaves alone what the session has. -/
  Spares : L → σ → σ → Prop
  apart_symm : ∀ l m, Apart l m → Apart m l
  spares_refl : ∀ l s, Spares l s s
  spares_trans : ∀ l s t u, Spares l s t → Spares l t u → Spares l s u
  own : ∀ o a l s, Inv s → Fits l s →
    Inv (exec o a l s).2.2 ∧ Fits (exec o a l s).2.1 (exec o a l s).2.2
  others : ∀ o a l m s, Inv s → Fits l s → Fits m s → Apart l m →
    Fits m (exec o a l s).2.2 ∧ Apart (exec o a l s).2.1 m ∧ Spares m s (exec o a l s).2.2
  drift_inv : ∀ d s, Inv s → Inv (drift d s)
  drift_fits : ∀ d l s, Fits l s → Fits l (drift d s)
  drift_spares : ∀ d l s, Spares l s (drift d s)

/-- A fine store and a coarse one that it stands for. -/
structure Refinement (exec : Exec Op Res ε Ans L σ) (drift : D → σ → σ)
    (exec' : Exec Op' Res' ε' Ans' L' σ') (drift' : D → σ' → σ') extends Tenancy exec drift where
  Abs : σ → σ' → Prop
  drift_abs : ∀ d s u, Abs s u → Abs (drift d s) (drift' d u)

namespace Refinement

variable {exec : Exec Op Res ε Ans L σ} {drift : D → σ → σ} {exec' : Exec Op' Res' ε' Ans' L' σ'}
  {drift' : D → σ' → σ'}

/-- What a party may be in the coarse pool. -/
abbrev Possible (L' Op' : Type) (Res' : Op' → Type) (ε' α : Type) := Set (L' × Prog Op' Res' ε' α)

/-- A possible party that stays as it is, or performs its next operation. -/
def Follows (exec' : Exec Op' Res' ε' Ans' L' σ') (S : Possible L' Op' Res' ε' γ) (u : σ')
    (x : L' × Prog Op' Res' ε' γ) (u' : σ') : Prop :=
  (x ∈ S ∧ u' = u) ∨ ∃ l o next a, (l, .op o next) ∈ S ∧ (exec' o a l u).2.2 = u' ∧
    x = ((exec' o a l u).2.1, next (exec' o a l u).1)

variable (ref : Refinement exec drift exec' drift')

/-- The program takes what it may be in the coarse pool along, and ends as `Q` says. -/
def Carries : Prog Op Res ε α → Possible L' Op' Res' ε' γ → L → σ →
    (Except ε α → Possible L' Op' Res' ε' γ → L → σ → Prop) → Prop
  | .ret r, S, l, s, Q => Q (.ok r) S l s
  | .raise e, S, l, s, Q => Q (.error e) S l s
  | .op o next, S, l, s, Q => ∀ t a u, ref.Inv t → ref.Fits l t → ref.Spares l s t → ref.Abs t u →
      ∃ u' S', ref.Abs (exec o a l t).2.2 u' ∧ S'.Nonempty ∧ (∀ x ∈ S', Follows exec' S u x u') ∧
        Carries (next (exec o a l t).1) S' (exec o a l t).2.1 (exec o a l t).2.2 Q

/-- Whatever the party may be, it is over as the program is. -/
def Ends (exn : ε → ε') (res : Except ε γ) (S : Possible L' Op' Res' ε' γ) : Prop :=
  ∀ x ∈ S, x.2 = .ofResult (res.mapError exn)

namespace Carries

variable {ref} {p : Prog Op Res ε α} {f : α → Prog Op Res ε β} {handler : ε → Prog Op Res ε α}
  {S : Possible L' Op' Res' ε' γ} {l : L} {s t : σ}
  {Q Q' : Except ε α → Possible L' Op' Res' ε' γ → L → σ → Prop}

theorem mono (h : ref.Carries p S l s Q) (hQ : ∀ res S l t, Q res S l t → Q' res S l t) :
    ref.Carries p S l s Q' := by
  induction p generalizing S l s with
  | ret r => exact hQ _ _ _ _ h
  | raise e => exact hQ _ _ _ _ h
  | op o next ih =>
    intro t a u hinv hfits hspares habs
    obtain ⟨u', S', habs', hne, hfollows, hrest⟩ := h t a u hinv hfits hspares habs
    exact ⟨u', S', habs', hne, hfollows, ih _ hrest⟩

theorem attempt_bind {g : Except ε α → Prog Op Res ε β}
    {R : Except ε β → Possible L' Op' Res' ε' γ → L → σ → Prop} :
    ref.Carries (p.attempt.bind g) S l s R ↔
      ref.Carries p S l s fun res S' l' t => ref.Carries (g res) S' l' t R := by
  induction p generalizing S l s with
  | ret r => exact Iff.rfl
  | raise e => exact Iff.rfl
  | op o next ih =>
    refine forall_congr' fun t => forall_congr' fun a => forall_congr' fun u =>
      forall_congr' fun _ => forall_congr' fun _ => forall_congr' fun _ => forall_congr' fun _ =>
      exists_congr fun u' => exists_congr fun S' => and_congr_right fun _ => and_congr_right fun _ =>
      and_congr_right fun _ => ?_
    exact ih _

theorem bind {R : Except ε β → Possible L' Op' Res' ε' γ → L → σ → Prop}
    (h : ref.Carries p S l s fun res S' l' t =>
      match res with
      | .ok a => ref.Carries (f a) S' l' t R
      | .error e => R (.error e) S' l' t) : ref.Carries (p.bind f) S l s R := by
  rw [Prog.bind_eq_attempt, attempt_bind]
  refine h.mono fun res S' l' t hres => ?_
  cases res <;> exact hres

theorem tryCatch {R : Except ε α → Possible L' Op' Res' ε' γ → L → σ → Prop}
    (h : ref.Carries p S l s fun res S' l' t =>
      match res with
      | .ok a => R (.ok a) S' l' t
      | .error e => ref.Carries (handler e) S' l' t R) :
    ref.Carries (p.tryCatch handler) S l s R := by
  rw [Prog.tryCatch_eq_attempt, attempt_bind]
  refine h.mono fun res S' l' t hres => ?_
  cases res <;> exact hres

/-- What the others leave alone. -/
theorem stable {o : Op} {next : Except ε (Res o) → Prog Op Res ε α}
    (h : ref.Carries (.op o next) S l s Q) (hspares : ref.Spares l s t) :
    ref.Carries (.op o next) S l t Q :=
  fun v a u hinv hfits hrest => h v a u hinv hfits (ref.spares_trans l s t v hspares hrest)

end Carries

/-! ## Pools -/

/-- A choice among what the parties may be. -/
def Chosen (Q : ι → Option (Possible L' Op' Res' ε' γ)) (v : ι → Option (L' × Prog Op' Res' ε' γ)) :
    Prop :=
  ∀ i, match Q i with
    | none => v i = none
    | some S => ∃ x ∈ S, v i = some x

/-- A turn of the coarse pool, if any, that serves for one of the fine pool. -/
def Serves : Turn ι Ans D → Option (Turn ι Ans' D) → Prop
  | .act i _, turn => turn = none ∨ ∃ a, turn = some (.act i a)
  | .drift d, turn => turn = some (.drift d)
  | .crash i, turn => turn = some (.crash i)

/-- A fine pool, and what its parties may be. -/
structure Matches (exn : ε → ε') (c : Pool ι L σ Op Res ε γ) (u : σ')
    (Q : ι → Option (Possible L' Op' Res' ε' γ)) : Prop where
  inv : ref.Inv c.store
  abs : ref.Abs c.store u
  fits : ∀ i l p, c.parties i = some (l, p) → ref.Fits l c.store
  apart : ∀ i j, i ≠ j → ∀ l p m q, c.parties i = some (l, p) → c.parties j = some (m, q) →
    ref.Apart l m
  carries : ∀ i l p, c.parties i = some (l, p) → ∃ S, Q i = some S ∧ S.Nonempty ∧
    ref.Carries p S l c.store fun res S _ _ => Ends exn res S
  crashed : ∀ i, c.parties i = none → Q i = none

/-- The coarse pool holds what the fine one does, and its parties ended as those of the fine one. -/
structure Agree (exn : ε → ε') (c : Pool ι L σ Op Res ε γ) (w : Pool ι L' σ' Op' Res' ε' γ) :
    Prop where
  abs : ref.Abs c.store w.store
  ended : ∀ i l p res, c.parties i = some (l, p) → p = .ofResult res →
    ∃ l', w.parties i = some (l', .ofResult (res.mapError exn))
  crashed : ∀ i, c.parties i = none → w.parties i = none

namespace Matches

variable {ref} {exn : ε → ε'} {c d : Pool ι L σ Op Res ε γ} {u : σ'}
  {Q : ι → Option (Possible L' Op' Res' ε' γ)} {v : ι → Option (L' × Prog Op' Res' ε' γ)}

theorem exists_chosen (h : ref.Matches exn c u Q) : ∃ v, Chosen Q v := by
  have hone : ∀ i, ∃ y, match Q i with
      | none => y = none
      | some S => ∃ x ∈ S, y = some x := by
    intro i
    cases hi : c.parties i with
    | none => exact ⟨none, by rw [h.crashed i hi]⟩
    | some party =>
      obtain ⟨l, p⟩ := party
      obtain ⟨S, hS, ⟨x, hx⟩, -⟩ := h.carries i l p hi
      exact ⟨some x, by rw [hS]; exact ⟨x, hx, rfl⟩⟩
  exact ⟨fun i => (hone i).choose, fun i => (hone i).choose_spec⟩

theorem agree (h : ref.Matches exn c u Q) (hv : Chosen Q v) : ref.Agree exn c ⟨u, v⟩ where
  abs := h.abs
  ended := by
    intro i l p res hi hp
    obtain ⟨S, hS, -, hcarries⟩ := h.carries i l p hi
    have hends : Ends exn res S := by
      subst hp
      cases res <;> exact hcarries
    have hchosen := hv i
    rw [hS] at hchosen
    obtain ⟨⟨l', q⟩, hx, hvi⟩ := hchosen
    obtain rfl : q = _ := hends _ hx
    exact ⟨l', hvi⟩
  crashed := by
    intro i hi
    have hchosen := hv i
    rwa [h.crashed i hi] at hchosen

theorem tick {t : D} (h : ref.Matches exn c u Q) :
    ref.Matches exn { c with store := drift t c.store } (drift' t u) Q where
  inv := ref.drift_inv t _ h.inv
  abs := ref.drift_abs t _ _ h.abs
  fits i l p hi := ref.drift_fits t l _ (h.fits i l p hi)
  apart := h.apart
  crashed := h.crashed
  carries := by
    intro i l p hi
    obtain ⟨S, hS, hne, hmine⟩ := h.carries i l p hi
    refine ⟨S, hS, hne, ?_⟩
    cases p with
    | ret r => exact hmine
    | raise e => exact hmine
    | op o next => exact hmine.stable (ref.drift_spares t l _)

variable [DecidableEq ι]

/-- A party of a pool one of whose parties was replaced. -/
theorem update_eq_some {τ : Type} {parties : ι → Option τ} {i j : ι} {y : Option τ} {x : τ}
    (h : Function.update parties i y j = some x) :
    (j = i ∧ y = some x) ∨ (j ≠ i ∧ parties j = some x) := by
  by_cases hji : j = i
  · subst hji
    exact .inl ⟨rfl, by rwa [Function.update_self] at h⟩
  · exact .inr ⟨hji, by rwa [Function.update_of_ne hji] at h⟩

theorem update_eq_none {τ τ' : Type} {parties : ι → Option τ} {Q : ι → Option τ'} {i j : ι}
    {y : Option τ} {z : Option τ'} (hyz : y = none → z = none)
    (h : ∀ j, parties j = none → Q j = none) (hj : Function.update parties i y j = none) :
    Function.update Q i z j = none := by
  by_cases hji : j = i
  · subst hji
    rw [Function.update_self] at hj ⊢
    exact hyz hj
  · rw [Function.update_of_ne hji] at hj ⊢
    exact h j hj

theorem act {i : ι} {a : Ans} (h : ref.Matches exn c u Q)
    (hstep : Pool.step exec drift c (.act i a) = some d) :
    ∃ S u' S', Q i = some S ∧ (∀ x ∈ S', Follows exec' S u x u') ∧
      ref.Matches exn d u' (Function.update Q i (some S')) := by
  obtain ⟨l, o, next, hi, rfl⟩ := Pool.step_act_eq_some_iff.mp hstep
  obtain ⟨S, hS, -, hcarries⟩ := h.carries i l _ hi
  have hfits := h.fits i l _ hi
  obtain ⟨u', S', habs, hne, hfollows, hrest⟩ :=
    hcarries c.store a u h.inv hfits (ref.spares_refl l _) h.abs
  obtain ⟨hinv', hfits'⟩ := ref.own o a l c.store h.inv hfits
  have hothers : ∀ j, j ≠ i → ∀ m q, c.parties j = some (m, q) →
      ref.Fits m (exec o a l c.store).2.2 ∧ ref.Apart (exec o a l c.store).2.1 m ∧
        ref.Spares m c.store (exec o a l c.store).2.2 :=
    fun j hji m q hj => ref.others o a l m c.store h.inv hfits (h.fits j m q hj)
      (h.apart i j (Ne.symm hji) l _ m q hi hj)
  refine ⟨S, u', S', hS, hfollows, hinv', habs, ?_, ?_, ?_, ?_⟩
  · intro j m q hj
    rcases update_eq_some hj with ⟨rfl, hq⟩ | ⟨hji, hj⟩
    · cases hq
      exact hfits'
    · exact (hothers j hji m q hj).1
  · intro j k hjk m q m' q' hj hk
    rcases update_eq_some hj with ⟨rfl, hq⟩ | ⟨hji, hmine⟩
    · rcases update_eq_some hk with ⟨rfl, -⟩ | ⟨hki, hother⟩
      · exact absurd rfl hjk
      · cases hq
        exact (hothers k hki m' q' hother).2.1
    · rcases update_eq_some hk with ⟨rfl, hq⟩ | ⟨-, hother⟩
      · cases hq
        exact ref.apart_symm _ _ (hothers j hji m q hmine).2.1
      · exact h.apart j k hjk m q m' q' hmine hother
  · intro j m q hj
    rcases update_eq_some hj with ⟨rfl, hq⟩ | ⟨hji, hj⟩
    · cases hq
      exact ⟨S', Function.update_self .., hne, hrest⟩
    · rw [Function.update_of_ne hji]
      obtain ⟨T, hT, hTne, hmine⟩ := h.carries j m q hj
      refine ⟨T, hT, hTne, ?_⟩
      cases q with
      | ret r => exact hmine
      | raise e => exact hmine
      | op o' next' => exact hmine.stable (hothers j hji m _ hj).2.2
  · exact fun j hj => update_eq_none (fun h => by cases h) h.crashed hj

theorem crash {i : ι} (h : ref.Matches exn c u Q) :
    ref.Matches exn { c with parties := Function.update c.parties i none } u
      (Function.update Q i none) := by
  have hback : ∀ j x, Function.update c.parties i none j = some x →
      j ≠ i ∧ c.parties j = some x := by
    intro j x hj
    rcases update_eq_some hj with ⟨-, hx⟩ | hj
    · cases hx
    · exact hj
  refine ⟨h.inv, h.abs, ?_, ?_, ?_, ?_⟩
  · intro j l p hj
    exact h.fits j l p (hback j _ hj).2
  · intro j k hjk l p m q hj hk
    exact h.apart j k hjk l p m q (hback j _ hj).2 (hback k _ hk).2
  · intro j l p hj
    obtain ⟨hji, hj⟩ := hback j _ hj
    rw [Function.update_of_ne hji]
    exact h.carries j l p hj
  · exact fun j hj => update_eq_none (fun _ => rfl) h.crashed hj

/-- One turn: whatever the parties are afterwards, they may have been before. -/
theorem step {turn : Turn ι Ans D} (h : ref.Matches exn c u Q)
    (hstep : Pool.step exec drift c turn = some d) :
    ∃ u' Q', ref.Matches exn d u' Q' ∧ ∀ v', Chosen Q' v' → ∃ v turn', Chosen Q v ∧
      Serves turn turn' ∧ run (Pool.step exec' drift') ⟨u, v⟩ turn'.toList = some ⟨u', v'⟩ := by
  cases turn with
  | act i a =>
    obtain ⟨S, u', S', hS, hfollows, hd⟩ := h.act hstep
    refine ⟨u', _, hd, fun v' hv' => ?_⟩
    have hmine := hv' i
    rw [Function.update_self] at hmine
    obtain ⟨x, hx, hvi⟩ := hmine
    have hbefore : ∀ y ∈ S, Chosen Q (Function.update v' i (some y)) := by
      intro y hy j
      by_cases hji : j = i
      · subst hji
        rw [hS, Function.update_self]
        exact ⟨y, hy, rfl⟩
      · have hj := hv' j
        rw [Function.update_of_ne hji] at hj ⊢
        exact hj
    have hself : Function.update v' i (some x) = v' := by rw [← hvi, Function.update_eq_self]
    rcases hfollows x hx with ⟨hxS, rfl⟩ | ⟨l, o, next, a', hop, rfl, rfl⟩
    · exact ⟨v', none, by rw [← hself]; exact hbefore x hxS, .inl rfl, rfl⟩
    · refine ⟨_, some (.act i a'), hbefore _ hop, .inr ⟨a', rfl⟩, run_cons_eq_some_iff.mpr ⟨_, ?_, rfl⟩⟩
      refine Pool.step_act_eq_some_iff.mpr ⟨l, o, next, Function.update_self .., ?_⟩
      rw [Function.update_idem, hself]
  | drift t =>
    cases hstep
    exact ⟨_, Q, h.tick, fun v hv => ⟨v, some (.drift t), hv, rfl, rfl⟩⟩
  | crash i =>
    cases hstep
    refine ⟨u, _, h.crash, fun v' hv' => ?_⟩
    obtain ⟨v₀, hv₀⟩ := h.exists_chosen
    refine ⟨Function.update v' i (v₀ i), some (.crash i), fun j => ?_, rfl, ?_⟩
    · by_cases hji : j = i
      · subst hji
        rw [Function.update_self]
        exact hv₀ j
      · have hj := hv' j
        rw [Function.update_of_ne hji] at hj ⊢
        exact hj
    · have hnone := hv' i
      rw [Function.update_self] at hnone
      refine run_cons_eq_some_iff.mpr ⟨_, rfl, ?_⟩
      show some _ = some _
      rw [Function.update_idem, ← hnone, Function.update_eq_self]

/-- Turn by turn, a run of the fine pool is one of the coarse pool. -/
theorem shadows {turns : List (Turn ι Ans D)} (h : ref.Matches exn c u Q)
    (hrun : run (Pool.step exec drift) c turns = some d) :
    ∃ v turns', Chosen Q v ∧ turns.Forall₂ Serves turns' ∧
      ∀ k e, run (Pool.step exec drift) c (turns.take k) = some e →
        ∃ w, run (Pool.step exec' drift') ⟨u, v⟩ (turns'.take k).reduceOption = some w ∧
          ref.Agree exn e w := by
  induction turns generalizing c u Q with
  | nil =>
    obtain ⟨v, hv⟩ := h.exists_chosen
    refine ⟨v, [], hv, .nil, fun k e he => ?_⟩
    rw [List.take_nil] at he ⊢
    cases he
    exact ⟨_, rfl, h.agree hv⟩
  | cons turn turns ih =>
    obtain ⟨next, hstep, hrest⟩ := run_cons_eq_some_iff.mp hrun
    obtain ⟨u', Q', hnext, hback⟩ := h.step hstep
    obtain ⟨v', turns', hv', hserves, hshadow⟩ := ih hnext hrest
    obtain ⟨v, turn', hv, hserve, hone⟩ := hback v' hv'
    refine ⟨v, turn' :: turns', hv, .cons hserve hserves, fun k e he => ?_⟩
    cases k with
    | zero =>
      cases he
      exact ⟨_, rfl, h.agree hv⟩
    | succ k =>
      obtain ⟨next', hstep', hrest'⟩ := run_cons_eq_some_iff.mp he
      obtain rfl : next = next' := Option.some.inj (hstep.symm.trans hstep')
      obtain ⟨w, hw, hagree⟩ := hshadow k e hrest'
      refine ⟨w, ?_, hagree⟩
      cases turn' with
      | none =>
        obtain ⟨⟩ := hone
        exact hw
      | some turn' =>
        obtain ⟨mid, hmid, hend⟩ := run_cons_eq_some_iff.mp hone
        cases hend
        exact run_cons_eq_some_iff.mpr ⟨_, hmid, hw⟩

end Matches

end Refinement

end Lib
