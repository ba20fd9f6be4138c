import Mathlib.Order.Basic

/-!
# Commands

A command is a computation on a state that can be left early with an exception: C code whose
`return` in the middle of a body is the exception. The state survives the exception.

`Triple P x Q E` says that from a state with `P`, the command `x` either ends with `Q` of its
value and state, or is left with `E` of the exception and state. Every command ends, so a triple
is about total correctness.
-/

namespace Lib

abbrev Cmd (ε σ α : Type) := EStateM ε σ α

namespace Cmd

variable {ε σ α β : Type}

section Runs

variable {x : Cmd ε σ α} {f : α → Cmd ε σ β} {s s' : σ}

theorem bind_ok {a : α} (h : x s = .ok a s') : (x >>= f) s = f a s' := by
  show EStateM.bind x f s = _
  rw [EStateM.bind, h]

theorem bind_error {e : ε} (h : x s = .error e s') : (x >>= f) s = .error e s' := by
  show EStateM.bind x f s = _
  rw [EStateM.bind, h]

end Runs

/-- `for (i = i₀; i < stop; i += step) body i`, for at most `fuel` iterations. -/
def forStep (stop step : ℕ) (body : ℕ → Cmd ε σ Unit) : ℕ → ℕ → Cmd ε σ Unit
  | 0, _ => pure ()
  | fuel + 1, i =>
    if i < stop then do
      body i
      forStep stop step body fuel (i + step)
    else pure ()

/-- More iterations than the loop needs make no difference. -/
theorem forStep_fuel {stop step : ℕ} (hstep : 0 < step) (body : ℕ → Cmd ε σ Unit)
    {fuel fuel' i : ℕ} (h : stop - i ≤ fuel) (h' : stop - i ≤ fuel') :
    forStep stop step body fuel i = forStep stop step body fuel' i := by
  have hend (fuel i : ℕ) (hi : ¬i < stop) : forStep stop step body fuel i = pure () := by
    cases fuel with
    | zero => rfl
    | succ fuel => rw [forStep, if_neg hi]
  induction fuel generalizing fuel' i with
  | zero => rw [hend _ _ (by omega), hend _ _ (by omega)]
  | succ fuel ih =>
    by_cases hi : i < stop
    · obtain ⟨fuel', rfl⟩ := Nat.exists_eq_add_of_le' (show 1 ≤ fuel' by omega)
      rw [forStep, forStep, if_pos hi, if_pos hi]
      exact congrArg (body i >>= ·) (funext fun _ => ih (by omega) (by omega))
    · rw [hend _ _ hi, hend _ _ hi]

/-- What holds of the end of a loop, and of one more turn in front, holds of the loop. -/
theorem forStep_induction {n : ℕ} {body : ℕ → Cmd ε σ Unit} {R : ℕ → Cmd ε σ Unit → Prop}
    (hend : R n (pure ()))
    (hturn : ∀ i < n, ∀ x, R (i + 1) x → R i (body i >>= fun _ => x)) :
    R 0 (forStep n 1 body n 0) := by
  have hrun (fuel i : ℕ) (hi : i + fuel = n) : R i (forStep n 1 body fuel i) := by
    induction fuel generalizing i with
    | zero =>
      obtain rfl : i = n := hi
      exact hend
    | succ fuel ih =>
      rw [forStep, if_pos (by omega)]
      exact hturn i (by omega) _ (ih (i + 1) (by omega))
  exact hrun n 0 (Nat.zero_add n)

/-- A loop is left where its body is. -/
theorem forStep_error {n b : ℕ} (hb : b < n) {body : ℕ → Cmd ε σ Unit} {s s₁ s₂ : σ} {e : ε}
    (hpre : forStep b 1 body b 0 s = .ok () s₁) (hbad : body b s₁ = .error e s₂) :
    forStep n 1 body n 0 s = .error e s₂ := by
  have hrun (fuel fuel' i : ℕ) (hi : i + fuel = b) (hi' : i + fuel' = n) (s : σ)
      (hpre : forStep b 1 body fuel i s = .ok () s₁) :
      forStep n 1 body fuel' i s = .error e s₂ := by
    induction fuel generalizing fuel' i s with
    | zero =>
      obtain rfl : i = b := hi
      obtain ⟨fuel', rfl⟩ := Nat.exists_eq_add_of_le' (show 1 ≤ fuel' by omega)
      rw [forStep, if_pos hb]
      cases hpre
      exact bind_error hbad
    | succ fuel ih =>
      obtain ⟨fuel', rfl⟩ := Nat.exists_eq_add_of_le' (show 1 ≤ fuel' by omega)
      rw [forStep, if_pos (by omega)] at hpre ⊢
      cases hr : body i s with
      | ok u s' =>
        rw [bind_ok hr] at hpre ⊢
        exact ih fuel' (i + 1) (by omega) (by omega) s' hpre
      | error e' s' =>
        rw [bind_error hr] at hpre
        cases hpre
  exact hrun b n 0 (Nat.zero_add b) (Nat.zero_add n) s hpre

/-- The state that a command leaves, whether it ends or is left early. -/
def stateAfter (x : Cmd ε σ α) (s : σ) : σ :=
  match x s with
  | .ok _ s' => s'
  | .error _ s' => s'

/-! ## Triples -/

/-- The result is an `a` and state with `Q`, or an exception and state with `E`. -/
def Ends (r : EStateM.Result ε σ α) (Q : α → σ → Prop) (E : ε → σ → Prop) : Prop :=
  match r with
  | .ok a s => Q a s
  | .error e s => E e s

def Triple (P : σ → Prop) (x : Cmd ε σ α) (Q : α → σ → Prop) (E : ε → σ → Prop) : Prop :=
  ∀ s, P s → Ends (x s) Q E

section Rules

variable {P : σ → Prop} {Q Q' : α → σ → Prop} {E E' : ε → σ → Prop} {R : β → σ → Prop}
  {x : Cmd ε σ α} {f : α → Cmd ε σ β}

theorem Ends.mono {r : EStateM.Result ε σ α} (h : Ends r Q E) (hQ : ∀ a s, Q a s → Q' a s)
    (hE : ∀ e s, E e s → E' e s) : Ends r Q' E' := by
  cases r with
  | ok a s => exact hQ a s h
  | error e s => exact hE e s h

theorem Ends.stateAfter {s : σ} {I : σ → Prop} (h : Ends (x s) (fun _ => I) fun _ => I) :
    I (Cmd.stateAfter x s) := by
  rw [Cmd.stateAfter]
  cases hr : x s with
  | ok a s' =>
    rw [hr] at h
    exact h
  | error e s' =>
    rw [hr] at h
    exact h

theorem Ends.bind {s : σ} (hx : Ends (x s) Q E)
    (hf : ∀ a s', Q a s' → Ends (f a s') R E) : Ends ((x >>= f) s) R E := by
  cases hr : x s with
  | ok a s' =>
    rw [hr] at hx
    rw [bind_ok hr]
    exact hf a s' hx
  | error e s' =>
    rw [hr] at hx
    rw [bind_error hr]
    exact hx

theorem Triple.bind (hx : Triple P x Q E) (hf : ∀ a, Triple (Q a) (f a) R E) :
    Triple P (x >>= f) R E := by
  intro s hs
  exact (hx s hs).bind hf

theorem Triple.pure {a : α} (h : ∀ s, P s → Q a s) : Triple P (Pure.pure a) Q E := h

theorem Triple.ite {c : Prop} [Decidable c] {y : Cmd ε σ α} (hx : c → Triple P x Q E)
    (hy : ¬c → Triple P y Q E) : Triple P (if c then x else y) Q E :=
  iteInduction (motive := fun x => Triple P x Q E) hx hy

/-- A loop keeps an invariant that its body takes from `i` to the next value of the counter, or
to `stop` if that is less. -/
theorem Triple.forStep {I : ℕ → σ → Prop} {stop step : ℕ} {body : ℕ → Cmd ε σ Unit}
    (hstep : 0 < step)
    (hbody : ∀ i < stop, Triple (I i) (body i) (fun _ => I (min stop (i + step))) E)
    (fuel i : ℕ) (hfuel : stop - i ≤ fuel) (hi : i ≤ stop) :
    Triple (I i) (Cmd.forStep stop step body fuel i) (fun _ => I stop) E := by
  induction fuel generalizing i with
  | zero =>
    obtain rfl : i = stop := by omega
    exact Triple.pure fun s hs => hs
  | succ fuel ih =>
    rw [Cmd.forStep]
    refine Triple.ite (fun hlt => ?_) (fun hge => ?_)
    · refine Triple.bind (hbody i hlt) fun _ => ?_
      by_cases hnext : i + step ≤ stop
      · rw [Nat.min_eq_right hnext]
        exact ih (i + step) (by omega) hnext
      · rw [Nat.min_eq_left (by omega)]
        -- past the end, the loop stops at once
        cases fuel with
        | zero => exact Triple.pure fun s hs => hs
        | succ fuel =>
          rw [Cmd.forStep, if_neg (by omega)]
          exact Triple.pure fun s hs => hs
    · obtain rfl : i = stop := by omega
      exact Triple.pure fun s hs => hs

end Rules

end Cmd

end Lib
