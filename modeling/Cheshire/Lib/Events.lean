import Mathlib.Data.List.Basic

/-!
# Event-driven systems

`step s e` is the state after event `e`, if the event can happen in state `s`. A run is a list of
events. Its visits are the events together with the states in which they happen.

* `runEvents_invariant`: what every event preserves holds at the end of a run.
* `visits_invariant`: it also holds at every visit.
-/

namespace Lib

variable {σ ε : Type*} {step : σ → ε → Option σ}

/-- The end of a run. -/
def runEvents (step : σ → ε → Option σ) : σ → List ε → Option σ
  | s, [] => some s
  | s, e :: es => (step s e).bind fun s' => runEvents step s' es

/-- The events of a run, each with the state in which it happens. -/
def visits (step : σ → ε → Option σ) : σ → List ε → List (σ × ε)
  | _, [] => []
  | s, e :: es => (s, e) :: ((step s e).elim [] fun s' => visits step s' es)

variable {I : σ → Prop}

/-- It is enough to look at the kind of events that the run is made of. -/
theorem runEvents_invariant {P : ε → Prop}
    (hstep : ∀ s e s', P e → I s → step s e = some s' → I s') {s s' : σ} {es : List ε}
    (hes : ∀ e ∈ es, P e) (hs : I s) (h : runEvents step s es = some s') : I s' := by
  induction es generalizing s with
  | nil =>
    obtain rfl := Option.some.inj h
    exact hs
  | cons e es ih =>
    obtain ⟨s₁, hfirst, hrest⟩ := Option.bind_eq_some_iff.mp h
    obtain ⟨he, hes⟩ := List.forall_mem_cons.mp hes
    exact ih hes (hstep _ _ _ he hs hfirst) hrest

theorem visits_invariant (hstep : ∀ s e s', I s → step s e = some s' → I s') {s : σ} {es : List ε}
    (hs : I s) : ∀ v ∈ visits step s es, I v.1 := by
  induction es generalizing s with
  | nil => exact fun v hv => absurd hv List.not_mem_nil
  | cons e es ih =>
    intro v hv
    rcases List.mem_cons.mp hv with rfl | hv
    · exact hs
    · cases hnext : step s e with
      | none =>
        rw [hnext] at hv
        exact absurd hv List.not_mem_nil
      | some s₁ =>
        rw [hnext] at hv
        exact ih (hstep _ _ _ hs hnext) v hv

end Lib
