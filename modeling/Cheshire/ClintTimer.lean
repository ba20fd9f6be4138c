import Cheshire.Clint

/-!
# Timer interrupts of the CLINT: `clint_set_mtimecmpx`, `clint_sleep_until`

Each timer has a 64-bit compare value, in two 32-bit registers. Its interrupt is pending for as
long as `mtime` has reached the compare value.

**Theorem (`setMtimecmpx_iff`).** `clint_set_mtimecmpx` writes the high word first. If the time is
below the old and the new compare value all along, no interrupt becomes pending exactly when it is
also below the mixed value, the new high word next to the old low word. That is certain for every
such time only if the high word does not decrease or the low word does not increase.

**Theorem (`clintSleep_iff`).** `clint_sleep_until` returns at once for a target in the future, and
sets the timer for one in the past, where `wfi` has nothing to wait for. It is certain to do what
its name says exactly if the target has passed when it reads the time.
-/

namespace Cheshire.Clint

variable {T : Type*} [Preorder T]

/-! ## Registers and actions -/

/-- The 32-bit registers, by their offset from `__base_clint`. -/
abbrev Regs := BitVec 32 → BitVec 32

/-- `CLINT_MTIMECMP_LOW0_REG_OFFSET + (timer_idx << 3)`; `reg32` takes an `int`. -/
def lowOffs (timerIdx : BitVec 64) : BitVec 32 := (0x4000 + timerIdx <<< 3).setWidth 32

/-- `CLINT_MTIMECMP_HIGH0_REG_OFFSET + (timer_idx << 3)`. -/
def highOffs (timerIdx : BitVec 64) : BitVec 32 := (0x4004 + timerIdx <<< 3).setWidth 32

/-- The compare value of a timer. -/
def mtimecmp (regs : Regs) (timerIdx : BitVec 64) : BitVec 64 :=
  regs (highOffs timerIdx) ++ regs (lowOffs timerIdx)

inductive Act
  | write (offs value : BitVec 32)
  | fence
  | setMtie (on : Bool)
  | setMie (on : Bool)
  | wfi
deriving DecidableEq

/-- What an action does to the registers of the CLINT. -/
def Act.run (regs : Regs) : Act → Regs
  | .write offs value => Function.update regs offs value
  | _ => regs

/-- The registers after the first `k` actions. -/
def after (acts : List Act) (regs : Regs) (k : ℕ) : Regs := (acts.take k).foldl Act.run regs

def clintSetMtimecmpx (timerIdx value : BitVec 64) : List Act :=
  let vlo := value.setWidth 32
  let vhi := (value >>> 32).setWidth 32
  -- the high register first
  [.write (highOffs timerIdx) vhi, .write (lowOffs timerIdx) vlo]

/-- What `clint_sleep_until` does once it has read the time. -/
def clintSleepUntil (now timerIdx tgtMtime : BitVec 64) : List Act :=
  if now < tgtMtime then []
  else clintSetMtimecmpx timerIdx tgtMtime ++ [.fence, .setMtie true, .setMie true, .wfi]

/-! ## Offsets -/

theorem lowOffs_toNat (i : BitVec 64) : (lowOffs i).toNat = (0x4000 + 8 * i.toNat) % 2 ^ 32 := by
  simp only [lowOffs, BitVec.toNat_setWidth, BitVec.toNat_add, BitVec.toNat_shiftLeft,
    Nat.shiftLeft_eq]
  show (0x4000 + i.toNat * 2 ^ 3 % 2 ^ 64) % 2 ^ 64 % 2 ^ 32 = _
  omega

theorem highOffs_toNat (i : BitVec 64) : (highOffs i).toNat = (0x4004 + 8 * i.toNat) % 2 ^ 32 := by
  simp only [highOffs, BitVec.toNat_setWidth, BitVec.toNat_add, BitVec.toNat_shiftLeft,
    Nat.shiftLeft_eq]
  show (0x4004 + i.toNat * 2 ^ 3 % 2 ^ 64) % 2 ^ 64 % 2 ^ 32 = _
  omega

/-- No register is both a low and a high word. -/
theorem lowOffs_ne_highOffs (i j : BitVec 64) : lowOffs i ≠ highOffs j := by
  rw [Ne, ← BitVec.toNat_inj, lowOffs_toNat, highOffs_toNat]
  omega

/-- Timers that differ in the low word differ in the high word. -/
theorem highOffs_inj {i j : BitVec 64} : highOffs i = highOffs j ↔ lowOffs i = lowOffs j := by
  rw [← BitVec.toNat_inj, ← BitVec.toNat_inj, lowOffs_toNat, lowOffs_toNat, highOffs_toNat,
    highOffs_toNat]
  omega

theorem mtimecmp_toNat (regs : Regs) (i : BitVec 64) : (mtimecmp regs i).toNat =
    (regs (highOffs i)).toNat * 2 ^ 32 + (regs (lowOffs i)).toNat := by
  have hlt := (regs (lowOffs i)).isLt
  unfold mtimecmp
  rw [BitVec.toNat_append, ← Nat.shiftLeft_add_eq_or_of_lt hlt, Nat.shiftLeft_eq]

/-! ## `clint_set_mtimecmpx` -/

section Set

variable (regs : Regs) (idx v : BitVec 64)

theorem after_high : after (clintSetMtimecmpx idx v) regs 1 =
    Function.update regs (highOffs idx) (mtimeHigh v) := rfl

theorem after_both : after (clintSetMtimecmpx idx v) regs 2 =
    Function.update (Function.update regs (highOffs idx) (mtimeHigh v)) (lowOffs idx)
      (mtimeLow v) := rfl

/-- The compare value between the two writes: the new high word next to the old low word. -/
def mixed : BitVec 64 := mtimeHigh v ++ mtimeLow (mtimecmp regs idx)

theorem mixed_toNat : (mixed regs idx v).toNat =
    v.toNat / 2 ^ 32 * 2 ^ 32 + (mtimecmp regs idx).toNat % 2 ^ 32 := by
  have hlt := (mtimeLow (mtimecmp regs idx)).isLt
  unfold mixed
  rw [BitVec.toNat_append, ← Nat.shiftLeft_add_eq_or_of_lt hlt, Nat.shiftLeft_eq, mtimeHigh_toNat,
    mtimeLow_toNat]

theorem mtimecmp_after_high :
    mtimecmp (after (clintSetMtimecmpx idx v) regs 1) idx = mixed regs idx v := by
  have hlow := (regs (lowOffs idx)).isLt
  refine BitVec.eq_of_toNat_eq ?_
  rw [mtimecmp_toNat, mixed_toNat, mtimecmp_toNat, after_high, Function.update_self,
    Function.update_of_ne (lowOffs_ne_highOffs _ _), mtimeHigh_toNat]
  omega

theorem mtimecmp_after_both : mtimecmp (after (clintSetMtimecmpx idx v) regs 2) idx = v := by
  refine BitVec.eq_of_toNat_eq ?_
  rw [mtimecmp_toNat, after_both, Function.update_self,
    Function.update_of_ne (lowOffs_ne_highOffs _ _).symm, Function.update_self, mtimeHigh_toNat,
    mtimeLow_toNat]
  omega

/-- The other timers keep their compare values. -/
theorem mtimecmp_after_other {other : BitVec 64} (h : lowOffs other ≠ lowOffs idx) {k : ℕ}
    (hk : k ≤ 2) :
    mtimecmp (after (clintSetMtimecmpx idx v) regs k) other = mtimecmp regs other := by
  have hhigh : highOffs other ≠ highOffs idx := fun heq => h (highOffs_inj.mp heq)
  obtain rfl | rfl | rfl : k = 0 ∨ k = 1 ∨ k = 2 := by omega
  · rfl
  · unfold mtimecmp
    rw [after_high, Function.update_of_ne hhigh, Function.update_of_ne (lowOffs_ne_highOffs _ _)]
  · unfold mtimecmp
    rw [after_both, Function.update_of_ne (lowOffs_ne_highOffs _ _).symm,
      Function.update_of_ne hhigh, Function.update_of_ne h,
      Function.update_of_ne (lowOffs_ne_highOffs _ _)]

/-- A call of `clint_set_mtimecmpx` as it should be. It starts at `time 0`, writes at `time 1` and
`time 2`, and ends at `time 3`. -/
structure Undisturbed (mtime : T → BitVec 64) (time : ℕ → T) : Prop where
  notPending : ∀ k ≤ 2, ∀ t, time k ≤ t → t ≤ time (k + 1) →
    mtime t < mtimecmp (after (clintSetMtimecmpx idx v) regs k) idx
  value : mtimecmp (after (clintSetMtimecmpx idx v) regs 2) idx = v
  others : ∀ k ≤ 2, ∀ other, lowOffs other ≠ lowOffs idx →
    mtimecmp (after (clintSetMtimecmpx idx v) regs k) other = mtimecmp regs other

/-- The mixed value is not below both others exactly if the high word does not decrease or the low
word does not increase. -/
theorem mixed_ge_iff : mtimecmp regs idx ≤ mixed regs idx v ∨ v ≤ mixed regs idx v ↔
    mtimeHigh (mtimecmp regs idx) ≤ mtimeHigh v ∨ mtimeLow v ≤ mtimeLow (mtimecmp regs idx) := by
  rw [BitVec.le_def, BitVec.le_def, BitVec.le_def, BitVec.le_def, mixed_toNat, mtimeHigh_toNat,
    mtimeHigh_toNat, mtimeLow_toNat, mtimeLow_toNat]
  omega

/-- This is when every time below the old and the new value is below the mixed one. -/
theorem below_mixed_iff : (∀ t : BitVec 64, t < mtimecmp regs idx → t < v → t < mixed regs idx v) ↔
    mtimeHigh (mtimecmp regs idx) ≤ mtimeHigh v ∨ mtimeLow v ≤ mtimeLow (mtimecmp regs idx) := by
  rw [← mixed_ge_iff]
  constructor
  · intro h
    by_contra hno
    rw [not_or, BitVec.not_le, BitVec.not_le] at hno
    exact BitVec.lt_irrefl _ (h (mixed regs idx v) hno.1 hno.2)
  · rintro (hle | hle) t hold hnew
    · exact BitVec.lt_def.mpr ((BitVec.lt_def.mp hold).trans_le (BitVec.le_def.mp hle))
    · exact BitVec.lt_def.mpr ((BitVec.lt_def.mp hnew).trans_le (BitVec.le_def.mp hle))

end Set

/-- **Main result.** While the time is below the old and the new compare value, no interrupt becomes
pending exactly if the high word does not decrease, or the low word does not increase, or the time
is also below the mixed value from the first write to the second. The first two are the condition on
the values alone, which keeps every such time below the mixed value. -/
theorem setMtimecmpx_iff {mtime : T → BitVec 64} {time : ℕ → T} (hmono : Monotone time)
    {regs : Regs} {idx v : BitVec 64}
    (hbelow : ∀ t, time 0 ≤ t → t ≤ time 3 → mtime t < mtimecmp regs idx ∧ mtime t < v) :
    (Undisturbed regs idx v mtime time ↔
      (mtimeHigh (mtimecmp regs idx) ≤ mtimeHigh v ∨
        mtimeLow v ≤ mtimeLow (mtimecmp regs idx)) ∨
      ∀ t, time 1 ≤ t → t ≤ time 2 → mtime t < mixed regs idx v) ∧
    ((∀ t : BitVec 64, t < mtimecmp regs idx → t < v → t < mixed regs idx v) ↔
      mtimeHigh (mtimecmp regs idx) ≤ mtimeHigh v ∨
        mtimeLow v ≤ mtimeLow (mtimecmp regs idx)) := by
  have hstart : time 0 ≤ time 1 := hmono (by decide)
  have hstop : time 2 ≤ time 3 := hmono (by decide)
  have hbetween : time 1 ≤ time 2 := hmono (by decide)
  refine ⟨?_, below_mixed_iff regs idx v⟩
  rw [← below_mixed_iff]
  constructor
  · intro h
    refine Or.inr fun t h₁ h₂ => ?_
    rw [← mtimecmp_after_high]
    exact h.notPending 1 (by decide) t h₁ h₂
  · intro h
    refine ⟨fun k hk t h₁ h₂ => ?_, mtimecmp_after_both regs idx v,
      fun k hk other hother => mtimecmp_after_other regs idx v hother hk⟩
    obtain rfl | rfl | rfl : k = 0 ∨ k = 1 ∨ k = 2 := by omega
    · exact (hbelow t h₁ (h₂.trans (hbetween.trans hstop))).1
    · rw [mtimecmp_after_high]
      obtain ⟨hold, hnew⟩ := hbelow t (hstart.trans h₁) (h₂.trans hstop)
      rcases h with hall | hlt
      · exact hall _ hold hnew
      · exact hlt t h₁ h₂
    · rw [mtimecmp_after_both]
      exact (hbelow t (hstart.trans (hbetween.trans h₁)) h₂).2

/-- `mtime` stands at 5. -/
def five (_ : ℕ) : BitVec 64 := 5

/-- All compare registers hold 0, but for the high word of timer 0, which holds 1. -/
def lateRegs : Regs := Function.update (fun _ => 0) 0x4004 1

theorem five_lt_lateRegs (t : ℕ) : five t < mtimecmp lateRegs 0 :=
  show 5 < mtimecmp lateRegs 0 by decide

theorem setMtimecmpx_iff_later : (Undisturbed lateRegs 0 0x200000000 five id ↔
    (mtimeHigh (mtimecmp lateRegs 0) ≤ mtimeHigh 0x200000000 ∨
        mtimeLow 0x200000000 ≤ mtimeLow (mtimecmp lateRegs 0)) ∨
      ∀ t, 1 ≤ t → t ≤ 2 → five t < mixed lateRegs 0 0x200000000) ∧
    ((∀ t : BitVec 64, t < mtimecmp lateRegs 0 → t < 0x200000000 →
        t < mixed lateRegs 0 0x200000000) ↔
      mtimeHigh (mtimecmp lateRegs 0) ≤ mtimeHigh 0x200000000 ∨
        mtimeLow 0x200000000 ≤ mtimeLow (mtimecmp lateRegs 0)) :=
  setMtimecmpx_iff monotone_id fun t _ _ =>
    ⟨five_lt_lateRegs t, show (5 : BitVec 64) < 0x200000000 by decide⟩

/-- From `0x1_0000_0000` down to 16 the compare value passes through 0. -/
theorem setMtimecmpx_disturbed :
    ¬∀ (mtime : ℕ → BitVec 64) (time : ℕ → ℕ) (regs : Regs) (idx v : BitVec 64), Monotone time →
      (∀ t, time 0 ≤ t → t ≤ time 3 → mtime t < mtimecmp regs idx ∧ mtime t < v) →
        Undisturbed regs idx v mtime time := by
  intro h
  have hmeets := h five id lateRegs 0 16 monotone_id fun t _ _ =>
    ⟨five_lt_lateRegs t, show (5 : BitVec 64) < 16 by decide⟩
  exact absurd (hmeets.notPending 1 (by decide) 1 le_rfl (by decide)) (by decide)

/-! ## `clint_sleep_until`, `clint_sleep_ticks` -/

section Sleep

variable {m : Counter T} {idx tgt ticks : BitVec 64}

/-- `wfi` is left only when the timer is due. -/
def Waits (m : Counter T) (idx : BitVec 64) (regs : Regs) (acts : List Act) (time : ℕ → T) : Prop :=
  ∀ k, acts[k]? = some .wfi → mtimecmp (after acts regs k) idx ≤ m.mtime (time (k + 2))

/-- Action `k` takes place at `time (k + 1)`. When it is `wfi`, the timer is due already. -/
def Due (m : Counter T) (idx : BitVec 64) (regs : Regs) (acts : List Act) (time : ℕ → T) : Prop :=
  ∀ k, acts[k]? = some .wfi → mtimecmp (after acts regs k) idx ≤ m.mtime (time (k + 1))

/-- `wfi` is executed only for a target that has passed, and then the timer is due. -/
theorem due_always (regs : Regs) {read : T} {time : ℕ → T} (hread : read ≤ time 0)
    (hmono : Monotone time) : Due m idx regs (clintSleepUntil (m.mtime read) idx tgt) time := by
  intro k hk
  unfold clintSleepUntil at hk ⊢
  split_ifs at hk ⊢ with hfuture
  · simp at hk
  · have hpast := m.mono (hread.trans (hmono (Nat.zero_le (k + 1))))
    have hdue : mtimecmp (after (clintSetMtimecmpx idx tgt ++ [.fence, .setMtie true, .setMie true,
        .wfi]) regs 5) idx = tgt := mtimecmp_after_both regs idx tgt
    obtain rfl : k = 5 := by
      rcases k with _ | _ | _ | _ | _ | _ | k <;> simp_all [clintSetMtimecmpx]
    rw [BitVec.lt_def] at hfuture
    rw [hdue, BitVec.le_def]
    simp only at hpast
    omega

theorem Due.waits {regs : Regs} {acts : List Act} {time : ℕ → T} (h : Due m idx regs acts time)
    (hmono : Monotone time) : Waits m idx regs acts time := by
  intro k hk
  have hnext := m.mono (hmono (Nat.le_succ (k + 1)))
  exact BitVec.le_def.mpr ((BitVec.le_def.mp (h k hk)).trans hnext)

/-- A call of `clint_sleep_until` that returns: when it starts and when it reads the time, and the
times of what it does then, from `time 1` on. -/
structure SleepUntil (m : Counter T) (idx tgt : BitVec 64) where
  start : T
  read : T
  regs : Regs
  time : ℕ → T
  start_le : start ≤ read
  read_le : read ≤ time 0
  mono : Monotone time
  waits : Waits m idx regs (clintSleepUntil (m.mtime read) idx tgt) time

namespace SleepUntil

variable (r : SleepUntil m idx tgt)

def acts : List Act := clintSleepUntil (m.mtime r.read) idx tgt

def stop : T := r.time (r.acts.length + 1)

/-- The call returns once the target has passed, and does not wait if it already had. -/
structure Meets : Prop where
  reached : tgt ≤ m.mtime r.stop
  past : tgt ≤ m.mtime r.start → Due m idx r.regs r.acts r.time

/-- Up to the reading of the time, two calls are the same. -/
structure Alike (r r' : SleepUntil m idx tgt) : Prop where
  start : r'.start = r.start
  read : r'.read = r.read

/-- The call does what it is for, however long it takes after it has read the time. -/
def Certain : Prop := ∀ r', r.Alike r' → r'.Meets

theorem read_le_stop : r.read ≤ r.stop := r.read_le.trans (r.mono (Nat.zero_le _))

/-- The same call, with all that follows the reading of the time done at once. -/
def instant : SleepUntil m idx tgt where
  start := r.start
  read := r.read
  regs := r.regs
  time := fun _ => r.read
  start_le := r.start_le
  read_le := le_rfl
  mono := monotone_const
  waits := (due_always r.regs le_rfl monotone_const).waits monotone_const

/-- **`clint_sleep_until` is certain to do what its name says exactly if the target has passed when
it reads the time.** Else it returns without waiting, maybe before the next tick. -/
theorem certain_iff : r.Certain ↔ tgt ≤ m.mtime r.read := by
  constructor
  · intro h
    exact (h r.instant ⟨rfl, rfl⟩).reached
  · rintro hread r' ⟨-, hread'⟩
    rw [← hread'] at hread
    refine ⟨?_, fun _ => due_always r'.regs r'.read_le r'.mono⟩
    exact BitVec.le_def.mpr ((BitVec.le_def.mp hread).trans (m.mono r'.read_le_stop))

end SleepUntil

/-- A call of `clint_sleep_ticks`: when it starts and when it reads the time, and the call of
`clint_sleep_until` that it makes. The target does not wrap around. -/
structure SleepTicks (m : Counter T) (idx ticks : BitVec 64) where
  start : T
  read : T
  sleep : SleepUntil m idx (m.mtime read + ticks)
  start_le : start ≤ read
  read_le : read ≤ sleep.start
  noWrap : (m.mtime read).toNat + ticks.toNat < 2 ^ 64

/-- The call takes at least the ticks asked for. -/
def SleepTicks.Meets (r : SleepTicks m idx ticks) : Prop :=
  (m.mtime r.start).toNat + ticks.toNat ≤ (m.mtime r.sleep.stop).toNat

/-- Up to the reading of the time in `clint_sleep_until`, two calls are the same. -/
structure SleepTicks.Alike (r r' : SleepTicks m idx ticks) : Prop where
  start : r'.start = r.start
  read : r'.read = r.read
  sleepStart : r'.sleep.start = r.sleep.start
  sleepRead : r'.sleep.read = r.sleep.read

def SleepTicks.Certain (r : SleepTicks m idx ticks) : Prop := ∀ r', r.Alike r' → r'.Meets

/-- It is certain to do so exactly if the ticks have passed when `clint_sleep_until` reads the
time. -/
theorem SleepTicks.certain_iff (r : SleepTicks m idx ticks) : r.Certain ↔
    (m.mtime r.start).toNat + ticks.toNat ≤ (m.mtime r.sleep.read).toNat := by
  constructor
  · intro h
    exact h ⟨r.start, r.read, r.sleep.instant, r.start_le, r.read_le, r.noWrap⟩
      ⟨rfl, rfl, rfl, rfl⟩
  · rintro hread r' ⟨hstart, -, -, hread'⟩
    rw [← hstart, ← hread'] at hread
    exact hread.trans (m.mono r'.sleep.read_le_stop)

end Sleep

/-- **Main result.** What the two functions need of the time to be certain to do what their names
say. -/
theorem clintSleep_iff (m : Counter T) (idx : BitVec 64) :
    (∀ tgt (r : SleepUntil m idx tgt), r.Certain ↔ tgt ≤ m.mtime r.read) ∧
      ∀ ticks (r : SleepTicks m idx ticks), r.Certain ↔
        (m.mtime r.start).toNat + ticks.toNat ≤ (m.mtime r.sleep.read).toNat :=
  ⟨fun _ r => r.certain_iff, fun _ r => r.certain_iff⟩

/-- `mtime` stands still. -/
def still : Counter ℕ := ⟨fun _ => 0, fun _ _ _ => le_rfl⟩

/-- For a target of 1000, the call returns at the time it is made. -/
def early (t : ℕ) : SleepUntil still 0 1000 where
  start := t
  read := t
  regs := fun _ => 0
  time := fun k => t + k
  start_le := Nat.le_refl t
  read_le := Nat.le_refl t
  mono := fun _ _ h => Nat.add_le_add_left h t
  waits := (due_always _ (Nat.le_refl t) fun _ _ h => Nat.add_le_add_left h t).waits
    fun _ _ h => Nat.add_le_add_left h t

theorem clintSleep_early : ¬∀ (m : Counter ℕ) (idx tgt : BitVec 64) (r : SleepUntil m idx tgt),
    r.Meets := by
  intro h
  exact absurd (h still 0 1000 (early 0)).reached (by decide)

end Cheshire.Clint
