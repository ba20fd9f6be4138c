import Mathlib.Data.List.Induction

/-!
# Devices on a line

A host and a device take turns on a line. What happens there is a list of events: the host sends a
symbol, the device sends one when the host asks for it, or the host deselects the device. A device
follows the events (`step`), and says which symbols it may send (`may`). `Plays c l` says that from
state `c` on, the device has sent only such symbols in `l`.
-/

namespace Lib

inductive Event (β : Type*)
  | host (b : β)
  | device (b : β)
  | deselect
deriving DecidableEq

structure Device (γ β : Type*) where
  step : γ → Event β → γ
  may : γ → β → Prop

namespace Device

variable {γ β : Type*} (D : Device γ β) {c : γ} {l l' : List (Event β)} {b : β}

def run (c : γ) (l : List (Event β)) : γ := l.foldl D.step c

/-- The device may send what it sends. -/
def Allows (c : γ) : Event β → Prop
  | .device b => D.may c b
  | _ => True

def Plays : γ → List (Event β) → Prop
  | _, [] => True
  | c, e :: l => D.Allows c e ∧ Plays (D.step c e) l

instance [∀ c b, Decidable (D.may c b)] : ∀ c e, Decidable (D.Allows c e)
  | c, .device b => inferInstanceAs (Decidable (D.may c b))
  | _, .host _ | _, .deselect => inferInstanceAs (Decidable True)

instance decidablePlays [∀ c b, Decidable (D.may c b)] : ∀ c l, Decidable (D.Plays c l)
  | _, [] => inferInstanceAs (Decidable True)
  | c, e :: l =>
    have := decidablePlays (D.step c e) l
    inferInstanceAs (Decidable (_ ∧ _))

theorem run_append : D.run c (l ++ l') = D.run (D.run c l) l' := List.foldl_append

theorem plays_append : D.Plays c (l ++ l') ↔ D.Plays c l ∧ D.Plays (D.run c l) l' := by
  induction l generalizing c with
  | nil => exact (iff_of_eq (true_and _)).symm
  | cons e l ih => exact (and_congr_right fun _ => ih).trans and_assoc.symm

/-- One more symbol of the device. -/
theorem plays_concat :
    D.Plays c (l ++ [.device b]) ↔ D.Plays c l ∧ D.may (D.run c l) b := by
  rw [plays_append]
  exact and_congr_right fun _ => and_iff_left trivial

/-- A device that may send anything. -/
theorem plays_of_may (h : ∀ c b, D.may c b) (c : γ) (l : List (Event β)) : D.Plays c l := by
  induction l generalizing c with
  | nil => exact trivial
  | cons e l ih =>
    refine ⟨?_, ih _⟩
    cases e with
    | device b => exact h c b
    | _ => exact trivial

theorem run_concat (e : Event β) : D.run c (l ++ [e]) = D.step (D.run c l) e := by
  rw [run_append]
  rfl

/-- Phases in which the device collects the symbols of the host, up to the `n`-th one. -/
theorem run_host {f : List β → γ} {n : ℕ}
    (h : ∀ r b, r.length < n → D.step (f r) (.host b) = f (r ++ [b])) {l : List β}
    (hl : l.length ≤ n) : D.run (f []) (l.map .host) = f l := by
  induction l using List.reverseRecOn with
  | nil => rfl
  | append_singleton l b ih =>
    rw [List.length_append, List.length_singleton] at hl
    rw [List.map_append, List.map_singleton, run_concat, ih (by omega)]
    exact h l b (by omega)

/-- What the host has sent. -/
def sent (l : List (Event β)) : List β := l.filterMap fun
  | .host b => some b
  | _ => none

theorem sent_append : sent (l ++ l') = sent l ++ sent l' := List.filterMap_append

@[simp] theorem sent_host (l : List β) : sent (l.map .host) = l := by
  induction l with
  | nil => rfl
  | cons b l ih => exact congrArg (b :: ·) ih

@[simp] theorem sent_device (l : List β) : sent (l.map .device) = [] := by
  induction l with
  | nil => rfl
  | cons b l ih => exact ih

/-- The device, with a record of what the host has sent. -/
def recording : Device (γ × List β) β :=
  ⟨fun st e => (D.step st.1 e, st.2 ++ sent [e]), fun st => D.may st.1⟩

theorem run_recording (r : List β) : D.recording.run (c, r) l = (D.run c l, r ++ sent l) := by
  induction l generalizing c r with
  | nil => exact congrArg (c, ·) (List.append_nil r).symm
  | cons e l ih =>
    show D.recording.run (D.step c e, r ++ sent [e]) l = _
    rw [ih, List.append_assoc, ← sent_append]
    rfl

end Device

end Lib
