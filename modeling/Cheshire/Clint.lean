import Mathlib.Order.Monotone.Defs
import Mathlib.Tactic.Linarith

/-!
# The CLINT timer: `clint.c`

`mtime` is a 64-bit counter that software sees as two 32-bit registers. `clint_get_mtime` reads
both, one after the other, while the counter goes on. C leaves the order of the two reads open,
so a call carries it.

**Theorem (`clintGetMtime_inCall_iff`).** The value a call returns lies between `mtime` at the
start and at the end of the call exactly when the call is *untorn*: no carry into the high word
falls between the two reads in such a way that the low word of one read is put next to the
high word of the other (`Call.Untorn`).

The loops of `clint_spin_until`, `clint_spin_ticks` and `clint_get_core_freq` act on the values
of their calls of `clint_get_mtime`, so they are sound for untorn calls
(`clintSpinUntil_sound`, `clintSpinTicks_sound`) and for these only.
-/

namespace Cheshire.Clint

variable {T : Type*} [Preorder T]

/-! ## The counter and its two registers -/

/-- A 64-bit counter that never goes back. -/
structure Counter (T : Type*) [Preorder T] where
  mtime : T → BitVec 64
  mono : Monotone fun t => (mtime t).toNat

/-- `CLINT_MTIME_LOW`. -/
def mtimeLow (m : BitVec 64) : BitVec 32 := m.setWidth 32

/-- `CLINT_MTIME_HIGH`. -/
def mtimeHigh (m : BitVec 64) : BitVec 32 := (m >>> 32).setWidth 32

theorem mtimeLow_toNat (m : BitVec 64) : (mtimeLow m).toNat = m.toNat % 2 ^ 32 := by
  simp [mtimeLow]

theorem mtimeHigh_toNat (m : BitVec 64) : (mtimeHigh m).toNat = m.toNat / 2 ^ 32 := by
  have := m.isLt
  simp only [mtimeHigh, BitVec.toNat_setWidth, BitVec.toNat_ushiftRight, Nat.shiftRight_eq_div_pow]
  omega

/-- One call of `clint_get_mtime`: when it starts and ends, when its two register reads take
place, and which of the registers is read first. -/
structure Call (T : Type*) [Preorder T] where
  start : T
  first : T
  second : T
  stop : T
  start_le : start ≤ first
  first_le : first ≤ second
  second_le : second ≤ stop
  highFirst : Bool

namespace Call

/-- When the high word is read. -/
def highAt (c : Call T) : T := if c.highFirst then c.first else c.second

/-- When the low word is read. -/
def lowAt (c : Call T) : T := if c.highFirst then c.second else c.first

end Call

/-! ## `clint_get_mtime` -/

def clintGetMtime (m : Counter T) (c : Call T) : BitVec 64 :=
  (mtimeHigh (m.mtime c.highAt)).setWidth 64 <<< 32 ||| (mtimeLow (m.mtime c.lowAt)).setWidth 64

/-- The value is the high word of one read next to the low word of the other. -/
theorem clintGetMtime_toNat (m : Counter T) (c : Call T) :
    (clintGetMtime m c).toNat =
      (m.mtime c.highAt).toNat / 2 ^ 32 * 2 ^ 32 + (m.mtime c.lowAt).toNat % 2 ^ 32 := by
  have hh := mtimeHigh_toNat (m.mtime c.highAt)
  have hl := mtimeLow_toNat (m.mtime c.lowAt)
  have := (m.mtime c.highAt).isLt
  have hlt : (mtimeLow (m.mtime c.lowAt)).toNat < 2 ^ 32 := (mtimeLow _).isLt
  simp only [clintGetMtime, BitVec.toNat_or, BitVec.toNat_shiftLeft, BitVec.toNat_setWidth]
  rw [hh, Nat.mod_eq_of_lt (b := 2 ^ 64) (by omega), Nat.mod_eq_of_lt (b := 2 ^ 64) (by omega),
    Nat.shiftLeft_eq, Nat.mod_eq_of_lt (by omega), ← Nat.shiftLeft_eq,
    ← Nat.shiftLeft_add_eq_or_of_lt hlt, hl, Nat.shiftLeft_eq]

/-- The call returns a time at which it was running. -/
def InCall (m : Counter T) (c : Call T) : Prop :=
  m.mtime c.start ≤ clintGetMtime m c ∧ clintGetMtime m c ≤ m.mtime c.stop

instance (m : Counter T) (c : Call T) : Decidable (InCall m c) := by
  unfold InCall; infer_instance

/-- No carry tears the two reads apart. With the high word read first: if it is still the one of
the start of the call, then the low word, read later, has not fallen below the one of the start.
With the low word read first: if the high word, read later, is already the one of the end of the
call, then the low word was not above the one of the end. -/
def Call.Untorn (m : Counter T) (c : Call T) : Prop :=
  if c.highFirst then
    mtimeHigh (m.mtime c.first) = mtimeHigh (m.mtime c.start) →
      mtimeLow (m.mtime c.start) ≤ mtimeLow (m.mtime c.second)
  else
    mtimeHigh (m.mtime c.second) = mtimeHigh (m.mtime c.stop) →
      mtimeLow (m.mtime c.first) ≤ mtimeLow (m.mtime c.stop)

/-- The value of an untorn call, as a number, lies between the times of its ends. -/
theorem Call.untorn_iff (m : Counter T) (c : Call T) :
    c.Untorn m ↔ (m.mtime c.start).toNat ≤ (clintGetMtime m c).toNat ∧
      (clintGetMtime m c).toNat ≤ (m.mtime c.stop).toNat := by
  have h1 := m.mono c.start_le
  have h2 := m.mono c.first_le
  have h3 := m.mono c.second_le
  have hv := clintGetMtime_toNat m c
  simp only at h1 h2 h3
  unfold Call.Untorn
  cases ho : c.highFirst with
  | true =>
    simp only [Call.highAt, Call.lowAt, ho, if_true] at hv ⊢
    rw [← BitVec.toNat_inj, BitVec.le_def, mtimeHigh_toNat, mtimeHigh_toNat, mtimeLow_toNat,
      mtimeLow_toNat, hv]
    omega
  | false =>
    simp only [Call.highAt, Call.lowAt, ho, Bool.false_eq_true, if_false] at hv ⊢
    rw [← BitVec.toNat_inj, BitVec.le_def, mtimeHigh_toNat, mtimeHigh_toNat, mtimeLow_toNat,
      mtimeLow_toNat, hv]
    omega

theorem Call.Untorn.inCall {m : Counter T} {c : Call T} (h : c.Untorn m) : InCall m c := by
  rw [InCall, BitVec.le_def, BitVec.le_def]
  exact (c.untorn_iff m).1 h

/-- **A call returns a time at which it was running exactly when it is untorn.** With the high
word read first the value is never ahead of the end of the call, with the low word read first it
is never behind its start; the other bound is what a carry can break. -/
theorem clintGetMtime_inCall_iff (m : Counter T) (c : Call T) : InCall m c ↔ c.Untorn m := by
  rw [c.untorn_iff m, InCall, BitVec.le_def, BitVec.le_def]

/-- `mtime` just before and just after its first carry into the high word. -/
def carry : Counter ℕ where
  mtime t := if t = 0 then 0xFFFFFFFF else 0x100000000
  mono := by
    intro t u htu
    by_cases ht : t = 0
    · by_cases hu : u = 0 <;> simp [ht, hu]
    · have hu : u ≠ 0 := by omega
      simp [ht, hu]

/-- A call that starts before the carry and ends after it, with one read on either side. -/
def acrossCarry (highFirst : Bool) : Call ℕ := ⟨0, 0, 1, 1, le_rfl, by decide, le_rfl, highFirst⟩

/-- Across a carry, reading the high word first returns 0, a time long before the call; reading
the low word first returns `0x1_FFFF_FFFF`, a time long after it. -/
theorem clintGetMtime_torn :
    (clintGetMtime carry (acrossCarry true) = 0 ∧ ¬InCall carry (acrossCarry true)) ∧
      clintGetMtime carry (acrossCarry false) = 0x1FFFFFFFF ∧
        ¬InCall carry (acrossCarry false) := by decide

/-! ## Loops over `clint_get_mtime`

The calls of a program are numbered in the order it makes them. -/

variable {m : Counter T} {calls : ℕ → Call T}

/-- The value of call number `i`. -/
def now (m : Counter T) (calls : ℕ → Call T) (i : ℕ) : BitVec 64 := clintGetMtime m (calls i)

/-- A loop that calls `clint_get_mtime` as long as `again` holds of the value, from call number
`i` on. It yields the number of its last call, if it ends within the fuel. -/
def readWhile (m : Counter T) (calls : ℕ → Call T) (again : BitVec 64 → Bool) : ℕ → ℕ → Option ℕ
  | 0, _ => none
  | fuel + 1, i =>
    if again (now m calls i) then readWhile m calls again fuel (i + 1) else some i

theorem readWhile_spec {again : BitVec 64 → Bool} {fuel i k : ℕ}
    (h : readWhile m calls again fuel i = some k) :
    i ≤ k ∧ again (now m calls k) = false ∧ ∀ j, i ≤ j → j < k → again (now m calls j) = true := by
  induction fuel generalizing i with
  | zero => simp [readWhile] at h
  | succ fuel ih =>
    rw [readWhile] at h
    split_ifs at h with ha
    · obtain ⟨hik, hk, hj⟩ := ih h
      refine ⟨by omega, hk, fun j hij hjk => ?_⟩
      rcases Nat.eq_or_lt_of_le hij with rfl | hij
      · exact ha
      · exact hj j hij hjk
    · obtain rfl : i = k := by simpa using h
      exact ⟨le_rfl, by simpa using ha, fun j h1 h2 => by omega⟩

def clintSpinUntil (m : Counter T) (calls : ℕ → Call T) (tgtMtime : BitVec 64) (fuel i : ℕ) :
    Option ℕ :=
  readWhile m calls (fun t => t < tgtMtime) fuel i

def clintSpinTicks (m : Counter T) (calls : ℕ → Call T) (ticks : BitVec 64) (fuel i : ℕ) :
    Option ℕ :=
  clintSpinUntil m calls (now m calls i + ticks) fuel (i + 1)

/-- The frequency that `clint_get_core_freq` computes, with the numbers of the calls that gave
the start and the end time; `mcycle k` is the cycle count read just before call `k`. The division
by `end_mtime - start_mtime` is C's, so a difference of 0 has no result. -/
def clintGetCoreFreq (m : Counter T) (calls : ℕ → Call T) (mcycle : ℕ → BitVec 64)
    (refFreq refTimeInv : BitVec 64) (fuel : ℕ) : Option (BitVec 64 × ℕ × ℕ) := do
  let numTicks := refFreq / refTimeInv
  let endMtime := now m calls 0
  let i ← readWhile m calls (fun t => t = endMtime) fuel 1
  let j ← readWhile m calls (fun t => t < now m calls i + numTicks) fuel (i + 1)
  let ticks := now m calls j - now m calls i
  if ticks = 0 then none else return ((mcycle j - mcycle i) * refFreq / ticks, i, j)

/-- **`clint_spin_until` does not return early, nor wait once the target has passed.** With
untorn calls, `mtime` has reached the target when its last call ends, and had not reached it when
any call before that started. -/
theorem clintSpinUntil_sound (hu : ∀ k, (calls k).Untorn m) {tgt : BitVec 64} {fuel i k : ℕ}
    (h : clintSpinUntil m calls tgt fuel i = some k) :
    i ≤ k ∧ tgt ≤ m.mtime (calls k).stop ∧
      ∀ j, i ≤ j → j < k → m.mtime (calls j).start < tgt := by
  obtain ⟨hik, hk, hj⟩ := readWhile_spec h
  have hin := fun j => (hu j).inCall
  refine ⟨hik, ?_, fun j hij hjk => ?_⟩
  · exact BitVec.le_trans (BitVec.not_lt.1 (of_decide_eq_false hk)) (hin k).2
  · have hlt : now m calls j < tgt := of_decide_eq_true (hj j hij hjk)
    have hle := (hin j).1
    rw [BitVec.lt_def] at hlt ⊢
    exact lt_of_le_of_lt (BitVec.le_def.1 hle) hlt

/-- **`clint_spin_ticks` waits for at least the ticks asked for**, unless the target wraps. -/
theorem clintSpinTicks_sound (hu : ∀ k, (calls k).Untorn m) {ticks : BitVec 64} {fuel i k : ℕ}
    (hw : (m.mtime (calls i).stop).toNat + ticks.toNat < 2 ^ 64)
    (h : clintSpinTicks m calls ticks fuel i = some k) :
    (m.mtime (calls i).start).toNat + ticks.toNat ≤ (m.mtime (calls k).stop).toNat := by
  obtain ⟨hstart, hstop⟩ := (hu i).inCall
  obtain ⟨-, htgt, -⟩ := clintSpinUntil_sound hu h
  rw [BitVec.le_def] at hstart hstop htgt
  rw [BitVec.toNat_add, Nat.mod_eq_of_lt (by unfold now; omega), now] at htgt
  omega

/-- **`clint_get_core_freq` measures between two times at which it was running**, with untorn
calls: the divisor is the difference of two values that lie within their calls. -/
theorem clintGetCoreFreq_sound (hu : ∀ k, (calls k).Untorn m) {mcycle : ℕ → BitVec 64}
    {refFreq refTimeInv r : BitVec 64} {fuel i j : ℕ}
    (h : clintGetCoreFreq m calls mcycle refFreq refTimeInv fuel = some (r, i, j)) :
    i < j ∧ InCall m (calls i) ∧ InCall m (calls j) ∧
      r = (mcycle j - mcycle i) * refFreq / (now m calls j - now m calls i) := by
  simp only [clintGetCoreFreq, Option.bind_eq_bind, Option.bind_eq_some_iff] at h
  obtain ⟨i', hi, j', hj, h⟩ := h
  split_ifs at h with h0
  simp only [Option.pure_def, Option.some.injEq, Prod.mk.injEq] at h
  obtain ⟨rfl, rfl, rfl⟩ := h
  have hij := (readWhile_spec hj).1
  exact ⟨hij, (hu _).inCall, (hu _).inCall, rfl⟩

end Cheshire.Clint
