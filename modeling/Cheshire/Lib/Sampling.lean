import Mathlib.Algebra.Order.Floor.Ring
import Mathlib.Algebra.Order.Floor.Semifield
import Mathlib.Data.Nat.Cast.Order.Field
import Mathlib.Tactic.FieldSimp
import Mathlib.Tactic.GCongr
import Mathlib.Tactic.Linarith
import Mathlib.Tactic.Positivity
import Mathlib.Tactic.Ring

/-!
# Sampling a divided counter

A slow counter divides a fast one: it reads `⌊(t + φ) / K⌋` at the fast time `t`. A program that
samples the slow counter until it changes knows when this was, up to the distance of its samples
(`edge_between`). From two changes it knows the ratio `K` (`ratio_error`).
-/

namespace Lib

variable {R : Type*} [Field R] [LinearOrder R] [IsStrictOrderedRing R]

/-! ## Errors -/

/-- Two times in the same interval are no further apart than its ends. -/
theorem abs_sub_le_of_between {a b x y P : R} (hx : a ≤ x ∧ x ≤ b) (hy : a ≤ y ∧ y ≤ b)
    (h : b - a ≤ P) : |x - y| ≤ P := by
  obtain ⟨hax, hxb⟩ := hx
  obtain ⟨hay, hyb⟩ := hy
  rw [abs_le]
  constructor <;> linarith

/-- If both ends of a stretch of `D` ticks are known up to `P`, its length times `f / D` is
`K * f` up to `2 * P * f / D`. -/
theorem ratio_error {x y P D f c : R} (hD : 0 < D) (hf : 0 ≤ f) (hx : |x - c| ≤ P)
    (hy : |y - (c + K * D)| ≤ P) : |(y - x) * f / D - K * f| ≤ 2 * P * f / D := by
  have hlen : |y - x - K * D| ≤ 2 * P := by
    rw [abs_le] at *
    constructor <;> linarith [hx.1, hx.2, hy.1, hy.2]
  have hsplit : (y - x) * f / D - K * f = (y - x - K * D) * (f / D) := by field_simp
  have hratio : 0 ≤ f / D := by positivity
  rw [hsplit, abs_mul, abs_of_nonneg hratio, mul_div_assoc]
  exact mul_le_mul_of_nonneg_right hlen hratio

/-! ## The two counters -/

variable [FloorRing R]

/-- The slow counter at the fast time `t`. -/
def slow (K φ t : R) : ℤ := ⌊(t + φ) / K⌋

variable {K φ : R}

/-- The slow counter becomes `n` at the fast time `K * n - φ`. -/
theorem le_slow_iff (hK : 0 < K) {t : R} {n : ℤ} : n ≤ slow K φ t ↔ K * n - φ ≤ t := by
  rw [slow, Int.le_floor, le_div_iff₀ hK]
  constructor <;> intro h <;> linarith

/-- If a sample is below `n` and the next one is not, the counter became `n` in between. -/
theorem edge_between (hK : 0 < K) {s t : R} {n : ℤ} (hs : slow K φ s < n) (ht : n ≤ slow K φ t) :
    s < K * n - φ ∧ K * n - φ ≤ t :=
  ⟨not_le.mp fun h => not_le.mpr hs ((le_slow_iff hK).mpr h), (le_slow_iff hK).mp ht⟩

/-- Rounding down costs less than one. -/
theorem abs_floor_sub_le {n d : ℕ} {x e : R} (h : |(n : R) / d - x| ≤ e) :
    |((n / d : ℕ) : R) - x| ≤ e + 1 := by
  have hle : ((n / d : ℕ) : R) ≤ n / d := Nat.cast_div_le
  have hlt : (n : R) / d < (n / d : ℕ) + 1 := by
    rw [← Nat.floor_div_eq_div (K := R)]
    exact Nat.lt_floor_add_one _
  rw [abs_le] at *
  constructor <;> linarith [h.1, h.2]

end Lib
