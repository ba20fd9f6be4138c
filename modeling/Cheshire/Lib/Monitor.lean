import Mathlib.Data.List.Infix

/-!
# Monitors

A monitor reads a log event by event, and rejects it when it has no step for an event. What it
accepts is put together from parts: a log in two parts is read part by part.

* `Monitor.run_invariant`: a property of the phases that no event of a log ends holds at its end.
* `prefix_append_cases`, `prefix_flatMap`: where a log is that has not been completed yet.
-/

namespace Lib

variable {φ ε : Type*}

/-- What an event leads to in each phase. -/
structure Monitor (φ ε : Type*) where
  step : φ → ε → Option φ

namespace Monitor

variable (M : Monitor φ ε)

/-- The phase at the end of a log. -/
def run : φ → List ε → Option φ
  | p, [] => some p
  | p, e :: l => (M.step p e).bind fun q => run q l

variable {M} {p q r : φ} {e : ε} {l m : List ε}

theorem run_append : M.run p (l ++ m) = (M.run p l).bind fun q => M.run q m := by
  induction l generalizing p with
  | nil => rfl
  | cons e l ih =>
    rw [List.cons_append, run, run, Option.bind_assoc]
    exact Option.bind_congr fun q _ => ih

theorem run_append_eq_some :
    M.run p (l ++ m) = some r ↔ ∃ q, M.run p l = some q ∧ M.run q m = some r := by
  rw [run_append, Option.bind_eq_some_iff]

theorem run_cons_eq_some :
    M.run p (e :: m) = some r ↔ ∃ q, M.step p e = some q ∧ M.run q m = some r := by
  rw [run, Option.bind_eq_some_iff]

/-- One event more. -/
theorem run_concat (h : M.run p l = some q) (he : M.step q e = some r) :
    M.run p (l ++ [e]) = some r :=
  run_append_eq_some.2 ⟨q, h, run_cons_eq_some.2 ⟨r, he, rfl⟩⟩

/-- A log around one of its events. -/
theorem run_around (h : M.run p (l ++ e :: m) = some r) :
    ∃ q q', M.run p l = some q ∧ M.step q e = some q' ∧ M.run q' m = some r := by
  obtain ⟨q, hl, hrest⟩ := run_append_eq_some.1 h
  obtain ⟨q', he, hm⟩ := run_cons_eq_some.1 hrest
  exact ⟨q, q', hl, he, hm⟩

/-- The last event before a phase that is not the first one. -/
theorem run_last (h : M.run p l = some q) (hne : q ≠ p) :
    ∃ l' e p', l = l' ++ [e] ∧ M.run p l' = some p' ∧ M.step p' e = some q := by
  rcases List.eq_nil_or_concat l with rfl | ⟨l', e, rfl⟩
  · exact absurd (Option.some.inj h).symm hne
  · rw [List.concat_eq_append] at h ⊢
    obtain ⟨p', q', hl', he, hq'⟩ := run_around h
    obtain rfl := Option.some.inj hq'
    exact ⟨l', e, p', rfl, hl', he⟩

/-- A property that no event of the log ends. -/
theorem run_invariant {I : φ → Prop} (hI : ∀ e ∈ l, ∀ p q, I p → M.step p e = some q → I q)
    (hp : I p) (h : M.run p l = some q) : I q := by
  induction l generalizing p with
  | nil =>
    obtain rfl := Option.some.inj h
    exact hp
  | cons e l ih =>
    obtain ⟨p', he, hl⟩ := run_cons_eq_some.1 h
    exact ih (fun e' he' => hI e' (List.mem_cons_of_mem e he'))
      (hI e List.mem_cons_self p p' hp he) hl

end Monitor

/-! ## Logs that are not completed -/

section Prefix

variable {α : Type*} {A X Y : List α} {o : α}

/-- The last event of a part of a log is in one of the two parts of the log. -/
theorem prefix_append_cases (h : A ++ [o] <+: X ++ Y) :
    A ++ [o] <+: X ∨ ∃ B, A = X ++ B ∧ B ++ [o] <+: Y := by
  induction X generalizing A with
  | nil => exact .inr ⟨A, rfl, h⟩
  | cons x X ih =>
    cases A with
    | nil =>
      obtain ⟨rfl, -⟩ := List.cons_prefix_cons.1 h
      exact .inl (List.cons_prefix_cons.2 ⟨rfl, List.nil_prefix⟩)
    | cons a A =>
      obtain ⟨rfl, hrest⟩ := List.cons_prefix_cons.1 h
      rcases ih hrest with hin | ⟨B, rfl, hB⟩
      · exact .inl (List.cons_prefix_cons.2 ⟨rfl, hin⟩)
      · exact .inr ⟨B, rfl, hB⟩

/-- The same, for a log in `n` parts. -/
theorem prefix_flatMap {f : ℕ → List α} {n : ℕ} (h : A ++ [o] <+: (List.range n).flatMap f) :
    ∃ s < n, ∃ B, A = (List.range s).flatMap f ++ B ∧ B ++ [o] <+: f s := by
  induction n with
  | zero =>
    have hlen := h.length_le
    simp at hlen
  | succ n ih =>
    rw [List.range_succ, List.flatMap_append, List.flatMap_singleton] at h
    rcases prefix_append_cases h with hin | ⟨B, hA, hB⟩
    · obtain ⟨s, hs, hrest⟩ := ih hin
      exact ⟨s, hs.trans (Nat.lt_succ_self n), hrest⟩
    · exact ⟨n, Nat.lt_succ_self n, B, hA, hB⟩

/-- The first parts of a log in `n` parts. -/
theorem flatMap_parts (f : ℕ → List α) {j n : ℕ} (h : j ≤ n) :
    (List.range j).flatMap f <+: (List.range n).flatMap f := by
  obtain ⟨k, rfl⟩ := Nat.exists_eq_add_of_le h
  rw [List.range_add, List.flatMap_append]
  exact List.prefix_append _ _

end Prefix

end Lib
