import Mathlib.Data.List.Basic

/-!
# Runs of a partial transition function

A system is a state type, an event type and a partial step function: an event that is not enabled
has no successor. A run is a list of events.

## What is proved

- `run_invariant`, `run_invariant_of_along`: what every step preserves, every run preserves; in
  the second, every step that meets a condition, along a run whose steps all meet it.
- `run_map`: what maps states of one system to states of another, step by step, maps runs.
- `run_rel`: a preorder between neighbouring states holds between the ends of a run.
- `along_iff_rel`: a preorder holds between any earlier and later state of a run exactly when it
  holds across each step.
-/

namespace Lib

variable {σ ε : Type*} {step : σ → ε → Option σ} {s t : σ} {e : ε} {es : List ε}

/-- The state after a list of events, `none` when one of them is not enabled. -/
def run (step : σ → ε → Option σ) : σ → List ε → Option σ
  | s, [] => some s
  | s, e :: es => (step s e).bind fun t => run step t es

@[simp] theorem run_nil : run step s [] = some s := rfl

theorem run_cons : run step s (e :: es) = (step s e).bind fun t => run step t es := rfl

theorem run_cons_eq_some_iff :
    run step s (e :: es) = some t ↔ ∃ u, step s e = some u ∧ run step u es = some t :=
  Option.bind_eq_some_iff

/-- A map of states that every step respects respects runs. -/
theorem run_map {τ : Type*} {step' : τ → ε → Option τ} {f : τ → σ}
    (h : ∀ s e, (step' s e).map f = step (f s) e) (s : τ) (es : List ε) :
    (run step' s es).map f = run step (f s) es := by
  induction es generalizing s with
  | nil => rfl
  | cons e es ih =>
    rw [run_cons, run_cons, ← h]
    cases step' s e with
    | none => rfl
    | some t => exact ih t

theorem run_rel {R : σ → σ → Prop} (refl : ∀ s, R s s) (trans : ∀ s t u, R s t → R t u → R s u)
    {I : σ → Prop} (pres : ∀ s e t, I s → step s e = some t → I t)
    (hstep : ∀ s e t, I s → step s e = some t → R s t) (h : I s)
    (hr : run step s es = some t) : R s t := by
  induction es generalizing s with
  | nil =>
    cases hr
    exact refl _
  | cons e es ih =>
    obtain ⟨u, hu, hr⟩ := run_cons_eq_some_iff.mp hr
    exact trans s u t (hstep s e u h hu) (ih (pres s e u h hu) hr)

/-! ## Conditions along a run -/

/-- Every step of a run meets a condition on the state before it and the event. -/
def Along (step : σ → ε → Option σ) (C : σ → ε → Prop) : σ → List ε → Prop
  | _, [] => True
  | s, e :: es => C s e ∧ ∀ t, step s e = some t → Along step C t es

/-- Whether a condition is met along a run can be computed. -/
instance Along.decidable {C : σ → ε → Prop} [∀ s e, Decidable (C s e)] :
    (s : σ) → (es : List ε) → Decidable (Along step C s es)
  | _, [] => .isTrue trivial
  | s, e :: es =>
    have : Decidable (∀ t, step s e = some t → Along step C t es) :=
      match step s e with
      | none => .isTrue fun _ ht => nomatch ht
      | some t =>
        have : Decidable (Along step C t es) := Along.decidable t es
        decidable_of_iff (Along step C t es)
          ⟨fun h _ ht => Option.some.inj ht ▸ h, fun h => h t rfl⟩
    inferInstanceAs (Decidable (_ ∧ _))

theorem run_invariant_of_along {C : σ → ε → Prop} {I : σ → Prop}
    (pres : ∀ s e t, I s → C s e → step s e = some t → I t) (h : I s) (hc : Along step C s es)
    (hr : run step s es = some t) : I t := by
  induction es generalizing s with
  | nil =>
    cases hr
    exact h
  | cons e es ih =>
    obtain ⟨u, hu, hr⟩ := run_cons_eq_some_iff.mp hr
    exact ih (pres s e u h hc.1 hu) (hc.2 u hu) hr

theorem Along.mono {C D : σ → ε → Prop} (h : Along step C s es) (hcd : ∀ s e, C s e → D s e) :
    Along step D s es := by
  induction es generalizing s with
  | nil => trivial
  | cons e es ih => exact ⟨hcd s e h.1, fun t ht => ih (h.2 t ht)⟩

/-- A condition that nothing fails is met along every run. -/
theorem along_of_forall {C : σ → ε → Prop} (h : ∀ s e, C s e) (s : σ) (es : List ε) :
    Along step C s es := by
  induction es generalizing s with
  | nil => trivial
  | cons e es ih => exact ⟨h s e, fun t _ => ih t⟩

theorem run_invariant {I : σ → Prop} (pres : ∀ s e t, I s → step s e = some t → I t) (h : I s)
    (hr : run step s es = some t) : I t :=
  run_invariant_of_along (C := fun _ _ => True) (fun s e t hs _ => pres s e t hs) h
    (along_of_forall (fun _ _ => trivial) s es) hr

theorem along_append :
    Along step C s (es ++ fs) ↔
      Along step C s es ∧ ∀ t, run step s es = some t → Along step C t fs := by
  induction es generalizing s with
  | nil => simp [Along]
  | cons e es ih =>
    simp only [List.cons_append, Along, ih, run_cons_eq_some_iff]
    constructor
    · rintro ⟨hc, hrest⟩
      refine ⟨⟨hc, fun t ht => (hrest t ht).1⟩, ?_⟩
      rintro t ⟨u, hu, hr⟩
      exact (hrest u hu).2 t hr
    · rintro ⟨⟨hc, hes⟩, hfs⟩
      exact ⟨hc, fun t ht => ⟨hes t ht, fun u hu => hfs u ⟨t, ht, hu⟩⟩⟩

/-- Conditions that agree wherever an invariant holds agree along a run. -/
theorem along_congr {C D : σ → ε → Prop} {I : σ → Prop}
    (pres : ∀ s e t, I s → step s e = some t → I t) (hcd : ∀ s e, I s → (C s e ↔ D s e)) (h : I s) :
    Along step C s es ↔ Along step D s es := by
  induction es generalizing s with
  | nil => exact Iff.rfl
  | cons e es ih =>
    refine and_congr (hcd s e h) (forall_congr' fun t => ?_)
    constructor
    · exact fun hr ht => (ih (pres s e t h ht)).mp (hr ht)
    · exact fun hr ht => (ih (pres s e t h ht)).mpr (hr ht)

theorem rel_of_along {R : σ → σ → Prop} (refl : ∀ s, R s s)
    (trans : ∀ s t u, R s t → R t u → R s u)
    (h : Along step (fun s e => ∀ t, step s e = some t → R s t) s es)
    (hr : run step s es = some t) : R s t := by
  induction es generalizing s with
  | nil =>
    cases hr
    exact refl _
  | cons e es ih =>
    obtain ⟨u, hu, hr⟩ := run_cons_eq_some_iff.mp hr
    exact trans s u t (h.1 u hu) (ih (h.2 u hu) hr)

/-- Across every step of a run iff between any two states of it. -/
theorem along_iff_rel {R : σ → σ → Prop} (refl : ∀ s, R s s)
    (trans : ∀ s t u, R s t → R t u → R s u) :
    Along step (fun s e => ∀ t, step s e = some t → R s t) s es ↔
      ∀ before between after t u, es = before ++ between ++ after →
        run step s before = some t → run step t between = some u → R t u := by
  constructor
  · rintro hall before between after t u rfl ht hu
    obtain ⟨hall, -⟩ := along_append.mp hall
    obtain ⟨-, hall⟩ := along_append.mp hall
    exact rel_of_along refl trans (hall t ht) hu
  · intro hall
    induction es generalizing s with
    | nil => trivial
    | cons e es ih =>
      refine ⟨fun t ht => hall [] [e] es s t rfl rfl ?_, fun t ht => ih ?_⟩
      · rw [run_cons, ht]
        rfl
      · rintro before between after u v rfl hu hv
        refine hall (e :: before) between after u v rfl ?_ hv
        rw [run_cons, ht]
        exact hu

end Lib
