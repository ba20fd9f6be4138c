import Mathlib.Order.Basic

/-!
# Scans of a stream

A scan says which stretches of a stream are of some form, as a relation between the position
where a stretch starts and the position after it. Scans are put one after the other (`seq`),
repeated (`times`), and often functional: where the stretch starts determines where it ends.
-/

namespace Lib

/-- A stretch from `p` up to `q`. -/
abbrev Scan := ℕ → ℕ → Prop

namespace Scan

variable {α : Type*} {L M : Scan} {p q : ℕ}

def Functional (L : Scan) : Prop := ∀ p q q', L p q → L p q' → q = q'

/-- `n` positions, whatever is there. -/
def skip (n : ℕ) : Scan := fun p q => q = p + n

def seq (L M : Scan) : Scan := fun p r => ∃ q, L p q ∧ M q r

def times (L : Scan) : ℕ → Scan
  | 0 => skip 0
  | n + 1 => seq L (times L n)

/-- The stretch is empty if the condition is false. -/
def when (c : Prop) [Decidable c] (L : Scan) : Scan := if c then L else skip 0

/-- Items are skipped while `again` says so; less than `limit` of them are looked at. -/
def polled (w : ℕ → α) (again : α → Bool) (limit : ℕ) : Scan := fun p q =>
  ∃ k, k + 1 < limit ∧ (∀ j < k, again (w (p + j)) = true) ∧ again (w (p + k)) = false ∧
    q = p + k + 1

theorem skip_zero_seq : (skip 0).seq L = L := by
  funext p r
  refine propext ⟨?_, fun h => ⟨p, rfl, h⟩⟩
  intro h
  obtain ⟨q, rfl, h⟩ := h
  exact h

theorem seq_skip_zero : L.seq (skip 0) = L := by
  funext p r
  refine propext ⟨?_, fun h => ⟨r, h, rfl⟩⟩
  intro h
  obtain ⟨q, h, rfl⟩ := h
  exact h

theorem when_pos {c : Prop} [Decidable c] (hc : c) : when c L = L := if_pos hc

theorem when_neg {c : Prop} [Decidable c] (hc : ¬c) : when c L = skip 0 := if_neg hc

theorem skip_functional (n : ℕ) : (skip n).Functional := by
  rintro p q q' rfl rfl
  rfl

theorem Functional.seq (hL : L.Functional) (hM : M.Functional) : (seq L M).Functional := by
  rintro p r r' ⟨q, hq, hr⟩ ⟨q', hq', hr'⟩
  obtain rfl := hL p q q' hq hq'
  exact hM q r r' hr hr'

theorem Functional.times (hL : L.Functional) (n : ℕ) : (times L n).Functional := by
  induction n with
  | zero => exact skip_functional 0
  | succ n ih => exact hL.seq ih

theorem Functional.when (hL : L.Functional) (c : Prop) [Decidable c] :
    (when c L).Functional := by
  by_cases hc : c
  · rw [when_pos hc]
    exact hL
  · rw [when_neg hc]
    exact skip_functional 0

theorem polled_functional (w : ℕ → α) (again : α → Bool) (limit : ℕ) :
    (polled w again limit).Functional := by
  rintro p q q' ⟨k, -, hskip, hstop, rfl⟩ ⟨k', -, hskip', hstop', rfl⟩
  rcases Nat.lt_trichotomy k k' with hlt | rfl | hlt
  · rw [hskip' k hlt] at hstop
    exact absurd hstop Bool.noConfusion
  · rfl
  · rw [hskip k' hlt] at hstop'
    exact absurd hstop' Bool.noConfusion

end Scan

end Lib
