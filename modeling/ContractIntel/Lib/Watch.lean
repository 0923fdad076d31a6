import ContractIntel.Lib.Interleave

/-!
# Sessions that remember

`watched` is the same operations for sessions that remember: of each operation they performed, the
entry and the store they found. Nothing reads the memories, so a pool of such sessions runs as the
pool without them does, and what is said of a party's past can be said of its session.

## What is proved

- `Pool.run_forget`: the runs of a pool are the watched runs with the memories forgotten.
- `Pool.ends_run`: what a program ends in by itself, whatever the others do, it ends in within a pool.
- `Every.watched_of`, `Every.watched_of_performs`: what watched runs end in, and what a program adds to the memory.
-/

namespace Lib

variable {Op Ans L σ D ι : Type} {Res : Op → Type} {ε α : Type}

/-- What a program has come to, if it is over. -/
def Prog.outcome : Prog Op Res ε α → Option (Except ε α)
  | .ret a => some (.ok a)
  | .raise e => some (.error e)
  | .op _ _ => none

/-- An operation that was performed, with the store it was performed on. -/
structure Moment (Op : Type) (Res : Op → Type) (ε Ans σ : Type) extends Entry Op Res ε Ans where
  store : σ

/-- The operations, for sessions that remember. -/
def watched (exec : Exec Op Res ε Ans L σ) :
    Exec Op Res ε Ans (L × List (Moment Op Res ε Ans σ)) σ :=
  fun o a l s =>
    let r := exec o a l.1 s
    (r.1, (r.2.1, l.2 ++ [⟨⟨o, a, r.1⟩, s⟩]), r.2.2)

variable {exec : Exec Op Res ε Ans L σ} {drift : D → σ → σ}

namespace Pool

/-- The pool without the memories. -/
def forget {M : Type} (c : Pool ι (L × M) σ Op Res ε α) : Pool ι L σ Op Res ε α :=
  ⟨c.store, fun i => (c.parties i).map fun party => (party.1.1, party.2)⟩

/-- The pool with memories that are empty. -/
def watch (c : Pool ι L σ Op Res ε α) :
    Pool ι (L × List (Moment Op Res ε Ans σ)) σ Op Res ε α :=
  ⟨c.store, fun i => (c.parties i).map fun party => ((party.1, []), party.2)⟩

theorem forget_watch (c : Pool ι L σ Op Res ε α) :
    forget (watch c : Pool ι (L × List (Moment Op Res ε Ans σ)) σ Op Res ε α) = c := by
  obtain ⟨store, parties⟩ := c
  simp [forget, watch, Option.map_map, Function.comp_def]

variable [DecidableEq ι]

theorem forget_update {M : Type} (s : σ) (parties : ι → Option ((L × M) × Prog Op Res ε α)) (i : ι)
    (party : Option ((L × M) × Prog Op Res ε α)) :
    forget ⟨s, Function.update parties i party⟩ =
      ⟨s, Function.update (fun j => (parties j).map fun party => (party.1.1, party.2)) i
        (party.map fun party => (party.1.1, party.2))⟩ := by
  unfold forget
  congr 1
  funext j
  by_cases hji : j = i
  · subst hji
    simp
  · simp [hji]

theorem step_forget (c : Pool ι (L × List (Moment Op Res ε Ans σ)) σ Op Res ε α)
    (turn : Turn ι Ans D) :
    (step (watched exec) drift c turn).map forget = step exec drift c.forget turn := by
  cases turn with
  | act i a =>
    obtain ⟨store, parties⟩ := c
    simp only [step, forget]
    cases hi : parties i with
    | none => rfl
    | some party =>
      obtain ⟨⟨l, log⟩, p⟩ := party
      cases p with
      | ret a => rfl
      | raise e => rfl
      | op o next => exact congrArg some (forget_update _ _ _ _)
  | drift d => rfl
  | crash i => exact congrArg some (forget_update _ _ _ _)

/-- Watching changes nothing of a run. -/
theorem run_forget (c : Pool ι (L × List (Moment Op Res ε Ans σ)) σ Op Res ε α)
    (turns : List (Turn ι Ans D)) :
    (Lib.run (step (watched exec) drift) c turns).map forget =
      Lib.run (step exec drift) c.forget turns :=
  run_map step_forget c turns

omit [DecidableEq ι] in
/-- Among parties that may do anything it does not matter where a program starts. -/
theorem every_anywhere {Φ : Except ε α → L → Prop} {p : Prog Op Res ε α} {l : L} {s : σ} (t : σ)
    (h : Every exec (fun _ _ => True) p l s fun _ res l' _ => Φ res l') :
    Every exec (fun _ _ => True) p l t fun _ res l' _ => Φ res l' := by
  cases p <;> exact h

theorem crashed_run {c c' : Pool ι L σ Op Res ε α} {turns : List (Turn ι Ans D)} {i : ι}
    (hrun : Lib.run (step exec drift) c turns = some c') (h : c.parties i = none) :
    c'.parties i = none := by
  refine run_invariant (I := fun c => c.parties i = none) (fun c turn t hc hstep => ?_) h hrun
  cases turn with
  | act j a =>
    obtain ⟨l, o, next, hj, rfl⟩ := step_act_eq_some_iff.mp hstep
    have hij : i ≠ j := by
      rintro rfl
      cases hc.symm.trans hj
    exact (Function.update_of_ne hij ..).trans hc
  | drift d =>
    cases hstep
    exact hc
  | crash j =>
    cases hstep
    by_cases hij : i = j
    · subst hij
      exact Function.update_self ..
    · exact (Function.update_of_ne hij ..).trans hc

/-- A party of a pool ends as its program does among parties that may do anything. -/
theorem ends_run {Φ : Except ε α → L → Prop} {c c' : Pool ι L σ Op Res ε α}
    {turns : List (Turn ι Ans D)} {i : ι} {l l' : L} {p q : Prog Op Res ε α} {res : Except ε α}
    (h : Every exec (fun _ _ => True) p l c.store fun _ res l' _ => Φ res l')
    (hrun : Lib.run (step exec drift) c turns = some c') (hstart : c.parties i = some (l, p))
    (hend : c'.parties i = some (l', q)) (hover : q.outcome = some res) : Φ res l' := by
  induction turns generalizing c l p with
  | nil =>
    cases hrun
    obtain ⟨heq, rfl⟩ := Prod.mk.inj (Option.some.inj (hstart.symm.trans hend))
    subst heq
    cases p with
    | ret a =>
      cases hover
      exact h
    | raise e =>
      cases hover
      exact h
    | op o next => cases hover
  | cons turn turns ih =>
    obtain ⟨mid, hstep, hrest⟩ := run_cons_eq_some_iff.mp hrun
    cases turn with
    | act j a =>
      obtain ⟨lj, o, next, hj, rfl⟩ := step_act_eq_some_iff.mp hstep
      by_cases hij : i = j
      · subst hij
        obtain ⟨rfl, rfl⟩ := Prod.mk.inj (Option.some.inj (hstart.symm.trans hj))
        exact ih (every_anywhere _ (h c.store a trivial)) hrest (Function.update_self ..)
      · exact ih (every_anywhere _ h) hrest ((Function.update_of_ne hij ..).trans hstart)
    | drift d =>
      cases hstep
      exact ih (every_anywhere _ h) hrest hstart
    | crash j =>
      cases hstep
      by_cases hij : i = j
      · subst hij
        cases (crashed_run hrest (Function.update_self ..)).symm.trans hend
      · exact ih (every_anywhere _ h) hrest ((Function.update_of_ne hij ..).trans hstart)

end Pool

/-- What runs end in, they end in when they are watched. -/
theorem Every.watched_of {env : σ → σ → Prop} {p : Prog Op Res ε α} {l : L} {s : σ}
    {Φ : List (Entry Op Res ε Ans) → Except ε α → L → σ → Prop} (h : Every exec env p l s Φ)
    (log : List (Moment Op Res ε Ans σ)) :
    Every (watched exec) env p (l, log) s fun trace res l' t => Φ trace res l'.1 t := by
  induction p generalizing l log s Φ with
  | ret a => exact h
  | raise e => exact h
  | op o next ih => exact fun moved a hmoved => ih _ (h moved a hmoved) _

/-- What a program adds to the memory. -/
theorem Every.watched_of_performs {env : σ → σ → Prop} {P : Op → Prop} {p : Prog Op Res ε α}
    (hp : p.Performs P) (l : L) (log : List (Moment Op Res ε Ans σ)) (s : σ) :
    Every (watched exec) env p (l, log) s fun _ _ l' _ =>
      ∃ more, l'.2 = log ++ more ∧ ∀ m ∈ more, P m.op := by
  induction p generalizing l log s with
  | ret a => exact ⟨[], (List.append_nil _).symm, fun _ hm => absurd hm List.not_mem_nil⟩
  | raise e => exact ⟨[], (List.append_nil _).symm, fun _ hm => absurd hm List.not_mem_nil⟩
  | op o next ih =>
    intro moved a _
    refine (ih _ (hp.2 _) _ _ _).mono fun _ _ l' _ hmore => ?_
    obtain ⟨more, hlog, hops⟩ := hmore
    refine ⟨_ :: more, hlog.trans (List.append_assoc ..), fun m hm => ?_⟩
    rcases List.mem_cons.mp hm with rfl | hm
    · exact hp.1
    · exact hops m hm

end Lib
