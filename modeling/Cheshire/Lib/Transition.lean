import Mathlib.Logic.Relation
import Mathlib.Data.Nat.Init

/-!
# Transition systems

A transition system has a set of start states and a step relation. Its reachable states are
those at the end of a finite run.

* `Machine.Invariant`: a property of the start states that every step preserves.
* `Machine.Invariant.reachable`: an invariant holds in every reachable state.
* `Machine.Run`: runs with their number of steps.
-/

namespace Lib

variable {σ : Type*}

/-- Where the runs start, and what one step may do. -/
structure Machine (σ : Type*) where
  start : σ → Prop
  step : σ → σ → Prop

namespace Machine

variable {M : Machine σ}

/-- The states at the end of a finite run. -/
inductive Reachable (M : Machine σ) : σ → Prop
  | start {s : σ} : M.start s → Reachable M s
  | step {s s' : σ} : Reachable M s → M.step s s' → Reachable M s'

/-- A property of the start states that every step preserves. -/
structure Invariant (M : Machine σ) (I : σ → Prop) : Prop where
  start : ∀ s, M.start s → I s
  step : ∀ s s', I s → M.step s s' → I s'

/-- **Invariants hold along every run.** -/
theorem Invariant.reachable {I : σ → Prop} (h : M.Invariant I) {s : σ} (hs : M.Reachable s) :
    I s := by
  induction hs with
  | start h₀ => exact h.start _ h₀
  | step _ hstep ih => exact h.step _ _ ih hstep

/-- A run of `n` steps. -/
inductive Run (M : Machine σ) : ℕ → σ → Prop
  | start {s : σ} : M.start s → Run M 0 s
  | step {n : ℕ} {s s' : σ} : Run M n s → M.step s s' → Run M (n + 1) s'

theorem Reachable.run {s : σ} (h : M.Reachable s) : ∃ n, M.Run n s := by
  induction h with
  | start h₀ => exact ⟨0, .start h₀⟩
  | step _ hstep ih =>
    obtain ⟨n, hrun⟩ := ih
    exact ⟨n + 1, hrun.step hstep⟩

theorem Run.reachable {n : ℕ} {s : σ} (h : M.Run n s) : M.Reachable s := by
  induction h with
  | start h₀ => exact .start h₀
  | step _ hstep ih => exact ih.step hstep

end Machine

end Lib
