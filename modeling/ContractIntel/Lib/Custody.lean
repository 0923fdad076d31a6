import ContractIntel.Lib.Interleave

/-!
# Parties that take things into custody

A party takes something with one operation and lets go of it when its program ends or it crashes.
`Watch` is a pool with a record of what each party holds, which no step reads.

A taken thing concerns some keys, and for each key there is a property `Good` that the party may
break while it works. `Custody` says what such a party owes: the others' keys stay `Calm`, and when
its program ends its own keys are good. What stands between is that it may crash, or be refused,
at a bad moment, or be joined by another party on the same key; `Orderly` leaves these turns out.

## What is proved

- `Idle.of_performs`: programs that take nothing and disturb nothing.
- `Custody.Holds.step`: an orderly turn keeps every key good that nobody holds.
-/

namespace Lib

variable {Op Ans L σ D ι H K : Type} {Res : Op → Type} {ε α : Type}

/-- A pool, and what each party holds. -/
structure Watch (ι L σ Op : Type) (Res : Op → Type) (ε α H : Type) where
  pool : Pool ι L σ Op Res ε α
  held : ι → Option H

namespace Watch

/-- What a party keeps once it has come so far: nothing when its program is over. -/
def keep (party : Option (L × Prog Op Res ε α)) (h : Option H) : Option H :=
  match party with
  | some (_, .op _ _) => h
  | _ => none

variable [DecidableEq ι]

/-- A turn of the pool. What the next operation of a party takes, `takes` reads off its result. -/
def step (exec : Exec Op Res ε Ans L σ) (drift : D → σ → σ)
    (takes : (o : Op) → Except ε (Res o) → Option H) (w : Watch ι L σ Op Res ε α H)
    (turn : Turn ι Ans D) : Option (Watch ι L σ Op Res ε α H) :=
  (Pool.step exec drift w.pool turn).map fun pool =>
    ⟨pool, match turn with
      | .act i a =>
        let taken := match w.pool.parties i with
          | some (l, .op o _) => takes o (exec o a l w.pool.store).1
          | _ => none
        Function.update w.held i (keep (pool.parties i) (taken.or (w.held i)))
      | .drift _ => w.held
      | .crash i => Function.update w.held i none⟩

variable {exec : Exec Op Res ε Ans L σ} {drift : D → σ → σ}
  {takes : (o : Op) → Except ε (Res o) → Option H} {w w' : Watch ι L σ Op Res ε α H}

/-- The record changes nothing of what the pool does. -/
theorem pool_step {turn : Turn ι Ans D} (h : step exec drift takes w turn = some w') :
    Pool.step exec drift w.pool turn = some w'.pool := by
  obtain ⟨pool, hpool, rfl⟩ := Option.map_eq_some_iff.mp h
  exact hpool

theorem step_act_eq_some_iff {i : ι} {a : Ans} :
    step exec drift takes w (.act i a) = some w' ↔ ∃ l o next,
      w.pool.parties i = some (l, .op o next) ∧
        w' = ⟨⟨(exec o a l w.pool.store).2.2, Function.update w.pool.parties i
            (some ((exec o a l w.pool.store).2.1, next (exec o a l w.pool.store).1))⟩,
          Function.update w.held i (keep
            (some ((exec o a l w.pool.store).2.1, next (exec o a l w.pool.store).1))
            ((takes o (exec o a l w.pool.store).1).or (w.held i)))⟩ := by
  unfold step
  rw [Option.map_eq_some_iff]
  constructor
  · rintro ⟨pool, hpool, rfl⟩
    obtain ⟨l, o, next, hi, rfl⟩ := Pool.step_act_eq_some_iff.mp hpool
    refine ⟨l, o, next, hi, ?_⟩
    simp only [hi, Function.update_self]
  · rintro ⟨l, o, next, hi, rfl⟩
    refine ⟨_, Pool.step_act_eq_some_iff.mpr ⟨l, o, next, hi, rfl⟩, ?_⟩
    simp only [hi, Function.update_self]

end Watch

/-- What parties owe that take things into custody. -/
structure Custody (exec : Exec Op Res ε Ans L σ) (drift : D → σ → σ) (H K : Type) where
  /-- What is known of every store of a run. -/
  Inv : σ → Prop
  /-- What an operation takes. -/
  takes : (o : Op) → Except ε (Res o) → Option H
  /-- The operations that may take something. -/
  Taking : Op → Prop
  /-- The stores something may be taken in. -/
  Fit : H → σ → Prop
  /-- The keys something is about. -/
  Concerns : H → K → Prop
  Good : K → σ → Prop
  /-- What concerns the key is as it was. -/
  Calm : K → σ → σ → Prop
  /-- The world lets the operation succeed. -/
  Served : Ans → Prop
  taking_of_takes : ∀ o r h, takes o r = some h → Taking o
  calm_refl : ∀ k s, Calm k s s
  calm_trans : ∀ k s t u, Calm k s t → Calm k t u → Calm k s u
  calm_drift : ∀ k d s, Calm k s (drift d s)
  good_of_calm : ∀ k s t, Inv s → Inv t → Calm k s t → Good k s → Good k t

namespace Custody

variable {exec : Exec Op Res ε Ans L σ} {drift : D → σ → σ} (cust : Custody exec drift H K)

/-- The discipline of a party that holds something: the keys it is about are the party's alone. -/
def holding (h : H) : Discipline exec drift where
  Inv _ := True
  Rely _ s t := ∀ k, cust.Concerns h k → cust.Calm k s t
  Guar o _ s t := ¬ cust.Taking o ∧ ∀ k, ¬ cust.Concerns h k → cust.Calm k s t
  Allowed _ a s := cust.Inv s ∧ (cust.Served a ∨ ∀ k, cust.Concerns h k → cust.Good k s)
  -- the holders of different things are related in `Holds`, not by this discipline
  Clear _ _ _ := False
  rely_refl _ s k _ := cust.calm_refl k s
  rely_trans _ s t u hst htu k hk := cust.calm_trans k s t u (hst k hk) (htu k hk)
  compat _ _ _ _ _ _ _ _ hclear := hclear.elim
  drift_inv _ _ _ := trivial
  drift_rely d _ s k _ := cust.calm_drift k d s

/-- The rest of a holder's program: at its end the keys are good. -/
abbrev Owes (h : H) (p : Prog Op Res ε α) (l : L) (s : σ) : Prop :=
  Safe (cust.holding h) p l s fun _ _ t => cust.Inv t → ∀ k, cust.Concerns h k → cust.Good k t

/-- The program of a party that holds nothing: it disturbs no key until it takes something. -/
def Idle : Prog Op Res ε α → Prop
  | .op o next => ∀ a l s, cust.Inv s →
      match cust.takes o (exec o a l s).1 with
      | none => (∀ k, cust.Calm k s (exec o a l s).2.2) ∧ Idle (next (exec o a l s).1)
      | some h => cust.Fit h s → (∀ k, cust.Concerns h k → cust.Good k s) →
          (∀ k, ¬ cust.Concerns h k → cust.Calm k s (exec o a l s).2.2) ∧
            cust.Owes h (next (exec o a l s).1) (exec o a l s).2.1 (exec o a l s).2.2
  | _ => True

variable {cust}

theorem Idle.of_performs {P : Op → Prop} {p : Prog Op Res ε α} (hp : p.Performs P)
    (hP : ∀ o, P o → ¬ cust.Taking o ∧ ∀ a l s, cust.Inv s → ∀ k, cust.Calm k s (exec o a l s).2.2) :
    cust.Idle p := by
  induction p with
  | ret a => trivial
  | raise e => trivial
  | op o next ih =>
    intro a l s hinv
    obtain ⟨htaking, hcalm⟩ := hP o hp.1
    cases htakes : cust.takes o (exec o a l s).1 with
    | some h => exact absurd (cust.taking_of_takes o _ h htakes) htaking
    | none => exact ⟨hcalm a l s hinv, ih _ (hp.2 _)⟩

variable (cust)

/-- The turns that leave custody in order: what is taken is fit to be, and concerns no key that
another party's thing does; a party that holds something neither crashes nor is refused while one
of its keys is not good. -/
def Orderly (w : Watch ι L σ Op Res ε α H) : Turn ι Ans D → Prop
  | .act i a => ∀ l o next, w.pool.parties i = some (l, .op o next) →
      (∀ h, cust.takes o (exec o a l w.pool.store).1 = some h → cust.Fit h w.pool.store ∧
        ∀ j h', w.held j = some h' → ∀ k, cust.Concerns h k → ¬ cust.Concerns h' k) ∧
      ∀ h, w.held i = some h → cust.Served a ∨ ∀ k, cust.Concerns h k → cust.Good k w.pool.store
  | .drift _ => True
  | .crash i => ∀ h, w.held i = some h → ∀ k, cust.Concerns h k → cust.Good k w.pool.store

/-- Keys that nobody holds are good, no two parties hold the same, and every party goes on so. -/
structure Holds (w : Watch ι L σ Op Res ε α H) : Prop where
  free : ∀ k, (∀ i h, w.held i = some h → ¬ cust.Concerns h k) → cust.Good k w.pool.store
  apart : ∀ i j h h', i ≠ j → w.held i = some h → w.held j = some h' →
    ∀ k, cust.Concerns h k → ¬ cust.Concerns h' k
  idle : ∀ i l p, w.held i = none → w.pool.parties i = some (l, p) → cust.Idle p
  holders : ∀ i h, w.held i = some h → ∃ l o next, w.pool.parties i = some (l, .op o next) ∧
    cust.Owes h (.op o next) l w.pool.store

variable {cust} {w w' : Watch ι L σ Op Res ε α H}

/-- Where nobody holds anything, all keys have to be good and all parties idle. -/
theorem Holds.of_unheld (hheld : ∀ i, w.held i = none) (hgood : ∀ k, cust.Good k w.pool.store)
    (hidle : ∀ i l p, w.pool.parties i = some (l, p) → cust.Idle p) : cust.Holds w := by
  have hnobody : ∀ i h, w.held i ≠ some h := by
    intro i h hi
    cases (hheld i).symm.trans hi
  exact
    { free := fun k _ => hgood k
      apart := fun i j h h' _ hi => absurd hi (hnobody i h)
      idle := fun i l p _ hi => hidle i l p hi
      holders := fun i h hi => absurd hi (hnobody i h) }

/-- What another party holds, after a move that left its keys alone. -/
theorem Holds.others {j : ι} {h : H} {t : σ} (hw : cust.Holds w) (hj : w.held j = some h)
    (hcalm : ∀ k, cust.Concerns h k → cust.Calm k w.pool.store t) :
    ∃ l o next, w.pool.parties j = some (l, .op o next) ∧ cust.Owes h (.op o next) l t := by
  obtain ⟨l, o, next, hparty, howes⟩ := hw.holders j h hj
  exact ⟨l, o, next, hparty, Safe.stable howes hcalm⟩

theorem keep_eq_some {l : L} {p : Prog Op Res ε α} {held : Option H} {h : H}
    (hkeep : Watch.keep (some (l, p)) held = some h) : held = some h ∧ ∃ o next, p = .op o next := by
  cases p with
  | ret a => cases hkeep
  | raise e => cases hkeep
  | op o next => exact ⟨hkeep, o, next, rfl⟩

variable [DecidableEq ι]

/-- One party moves the store, now holding `held` until its program is over. -/
theorem Holds.moved {i : ι} {l : L} {p : Prog Op Res ε α} {held : Option H} {t : σ}
    (hw : cust.Holds w) (hinv : cust.Inv w.pool.store) (hinv' : cust.Inv t)
    (hkept : ∀ h, w.held i = some h → held = some h)
    (hcalm : ∀ k, (∀ h, held = some h → ¬ cust.Concerns h k) → cust.Calm k w.pool.store t)
    (hidle : held = none → cust.Idle p) (howes : ∀ h, held = some h → cust.Owes h p l t)
    (hapart : ∀ h, held = some h → ∀ j, j ≠ i → ∀ h', w.held j = some h' →
      ∀ k, cust.Concerns h k → ¬ cust.Concerns h' k) :
    cust.Holds ⟨⟨t, Function.update w.pool.parties i (some (l, p))⟩,
      Function.update w.held i (Watch.keep (some (l, p)) held)⟩ := by
  refine ⟨fun k hfree => ?_, fun j j' h h' hne hj hj' k hk => ?_, fun j l' p' hj hparty => ?_,
    fun j h hj => ?_⟩
  · dsimp only at hfree ⊢
    by_cases hmine : ∃ h, held = some h ∧ cust.Concerns h k
    · obtain ⟨h, rfl, hk⟩ := hmine
      -- the key is free, so the program that held it is over
      cases p with
      | ret a => exact howes h rfl hinv' k hk
      | raise e => exact howes h rfl hinv' k hk
      | op o next => exact absurd hk (hfree i h (Function.update_self ..))
    · have hnot : ∀ h, held = some h → ¬ cust.Concerns h k := fun h hheld hk => hmine ⟨h, hheld, hk⟩
      refine cust.good_of_calm k _ _ hinv hinv' (hcalm k hnot) (hw.free k fun j h hj => ?_)
      by_cases hji : j = i
      · subst hji
        exact hnot h (hkept h hj)
      · exact hfree j h ((Function.update_of_ne hji _ _).trans hj)
  · dsimp only at hj hj'
    by_cases hji : j = i
    · subst hji
      rw [Function.update_self] at hj
      rw [Function.update_of_ne hne.symm] at hj'
      exact hapart h (keep_eq_some hj).1 j' hne.symm h' hj' k hk
    · rw [Function.update_of_ne hji] at hj
      by_cases hji' : j' = i
      · subst hji'
        rw [Function.update_self] at hj'
        exact fun hk' => hapart h' (keep_eq_some hj').1 j hji h hj k hk' hk
      · rw [Function.update_of_ne hji'] at hj'
        exact hw.apart j j' h h' hne hj hj' k hk
  · dsimp only at hj hparty
    by_cases hji : j = i
    · subst hji
      rw [Function.update_self] at hj hparty
      cases hparty
      cases p with
      | ret a => trivial
      | raise e => trivial
      | op o next => exact hidle hj
    · rw [Function.update_of_ne hji] at hj hparty
      exact hw.idle j l' p' hj hparty
  · dsimp only at hj ⊢
    by_cases hji : j = i
    · subst hji
      rw [Function.update_self] at hj ⊢
      obtain ⟨hheld, o, next, rfl⟩ := keep_eq_some hj
      exact ⟨l, o, next, rfl, howes h hheld⟩
    · rw [Function.update_of_ne hji] at hj ⊢
      exact hw.others hj fun k hk =>
        hcalm k fun h' hheld hk' => hapart h' hheld j hji h hj k hk' hk

/-- An orderly turn keeps every key good that nobody holds. -/
theorem Holds.step {turn : Turn ι Ans D} (hw : cust.Holds w) (hinv : cust.Inv w.pool.store)
    (hinv' : cust.Inv w'.pool.store) (horderly : cust.Orderly w turn)
    (hstep : Watch.step exec drift cust.takes w turn = some w') : cust.Holds w' := by
  cases turn with
  | act i a =>
    obtain ⟨l, o, next, hi, rfl⟩ := Watch.step_act_eq_some_iff.mp hstep
    obtain ⟨hfit, hserved⟩ := horderly l o next hi
    cases hheld : w.held i with
    | none =>
      have hidle := hw.idle i l _ hheld hi a l w.pool.store hinv
      cases htakes : cust.takes o (exec o a l w.pool.store).1 with
      | none =>
        rw [htakes] at hidle
        refine hw.moved hinv hinv' ?_ (fun k _ => hidle.1 k) (fun _ => hidle.2) nofun nofun
        intro h hh
        rw [hheld] at hh
        cases hh
      | some h =>
        rw [htakes] at hidle
        obtain ⟨hfit, hothers⟩ := hfit h htakes
        obtain ⟨hcalm, howes⟩ := hidle hfit fun k hk =>
          hw.free k fun j h' hj => hothers j h' hj k hk
        refine hw.moved hinv hinv' ?_ (fun k hk => hcalm k (hk h rfl)) nofun ?_ ?_
        · intro h' hh
          rw [hheld] at hh
          cases hh
        · rintro _ ⟨⟩
          exact howes
        · rintro _ ⟨⟩ j - h' hj
          exact hothers j h' hj
    | some h =>
      obtain ⟨l', o', next', hparty, howes⟩ := hw.holders i h hheld
      cases hi.symm.trans hparty
      obtain ⟨-, ⟨htaking, hcalm⟩, hrest⟩ := howes w.pool.store a
        (fun k _ => cust.calm_refl k _) trivial ⟨hinv, hserved h hheld⟩
      have htakes : cust.takes o (exec o a l w.pool.store).1 = none := by
        cases htakes : cust.takes o (exec o a l w.pool.store).1 with
        | none => rfl
        | some h' => exact absurd (cust.taking_of_takes o _ h' htakes) htaking
      rw [htakes]
      refine hw.moved hinv hinv' (fun h' hh => ?_) (fun k hk => hcalm k (hk h rfl)) nofun ?_ ?_
      · exact hheld.symm.trans hh
      · rintro _ ⟨⟩
        exact hrest
      · rintro _ ⟨⟩ j hji h' hj
        exact hw.apart i j h h' hji.symm hheld hj
  | drift d =>
    obtain ⟨pool, hpool, rfl⟩ := Option.map_eq_some_iff.mp hstep
    cases hpool
    refine ⟨fun k hfree => ?_, hw.apart, hw.idle, fun i h hi => ?_⟩
    · exact cust.good_of_calm k _ _ hinv hinv' (cust.calm_drift k d _) (hw.free k hfree)
    · exact hw.others hi fun k _ => cust.calm_drift k d _
  | crash i =>
    obtain ⟨pool, hpool, rfl⟩ := Option.map_eq_some_iff.mp hstep
    cases hpool
    refine ⟨fun k hfree => ?_, fun j j' h h' hne hj hj' => ?_, fun j l p hj hparty => ?_,
      fun j h hj => ?_⟩
    · dsimp only at hfree ⊢
      by_cases hmine : ∃ h, w.held i = some h ∧ cust.Concerns h k
      · obtain ⟨h, hheld, hk⟩ := hmine
        exact horderly h hheld k hk
      · refine hw.free k fun j h hj hk => ?_
        by_cases hji : j = i
        · exact hmine ⟨h, hji ▸ hj, hk⟩
        · exact hfree j h ((Function.update_of_ne hji _ _).trans hj) hk
    · dsimp only at hj hj'
      have hnone : ∀ {j h}, Function.update w.held i none j = some h → w.held j = some h := by
        intro j h hj
        by_cases hji : j = i
        · subst hji
          rw [Function.update_self] at hj
          cases hj
        · rwa [Function.update_of_ne hji] at hj
      exact hw.apart j j' h h' hne (hnone hj) (hnone hj')
    · dsimp only at hj hparty
      by_cases hji : j = i
      · subst hji
        rw [Function.update_self] at hparty
        cases hparty
      · rw [Function.update_of_ne hji] at hj hparty
        exact hw.idle j l p hj hparty
    · dsimp only at hj ⊢
      by_cases hji : j = i
      · subst hji
        rw [Function.update_self] at hj
        cases hj
      · rw [Function.update_of_ne hji] at hj ⊢
        exact hw.holders j h hj

end Custody

end Lib
