import Mathlib.Data.List.Pairwise
import Mathlib.Order.Lattice

/-!
# Address maps

An address map is a list of rules, each sending the addresses of a half-open range to a port.
If the ranges are apart, at most one rule answers for an address, and it does not matter in which
order a decoder tries the rules.
-/

namespace Lib

variable {ι α : Type*} [LinearOrder α]

/-- Addresses from `start` up to, but not including, `pte` go to port `idx`. -/
structure Rule (ι α : Type*) where
  idx : ι
  start : α
  pte : α

namespace Rule

def Contains (r : Rule ι α) (a : α) : Prop := r.start ≤ a ∧ a < r.pte

/-- One range ends before the other starts. -/
def Apart (r s : Rule ι α) : Prop := r.pte ≤ s.start ∨ s.pte ≤ r.start

instance : Std.Symm (@Apart ι α _) where
  symm _ _ h := Or.symm h

theorem Apart.not_contains {r s : Rule ι α} (h : Apart r s) (a : α) :
    ¬(r.Contains a ∧ s.Contains a) := by
  intro hboth
  obtain ⟨⟨hr, hr'⟩, hs, hs'⟩ := hboth
  rcases h with h | h
  · exact lt_irrefl a (lt_of_lt_of_le hr' (h.trans hs))
  · exact lt_irrefl a (lt_of_lt_of_le hs' (h.trans hr))

end Rule

/-- Some rule of the map sends `a` to port `i`. -/
def Routes (map : List (Rule ι α)) (a : α) (i : ι) : Prop :=
  ∃ r ∈ map, r.Contains a ∧ r.idx = i

/-- If the rules are apart, an address goes to one port only. -/
theorem Routes.unique {map : List (Rule ι α)} (h : map.Pairwise Rule.Apart) {a : α} {i j : ι}
    (hi : Routes map a i) (hj : Routes map a j) : i = j := by
  obtain ⟨r, hr, hra, rfl⟩ := hi
  obtain ⟨s, hs, hsa, rfl⟩ := hj
  by_contra hne
  have hrs : r ≠ s := fun he => hne (congrArg Rule.idx he)
  exact (h.forall hr hs hrs).not_contains a ⟨hra, hsa⟩

end Lib
