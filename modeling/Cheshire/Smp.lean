import Cheshire.Lib.Transition
import Mathlib.Data.Fin.Basic
import Mathlib.Logic.Function.Basic

/-!
# Resuming the harts: `smp_pause`, `smp_resume` and `boot_next_stage`

Every hart starts in the boot ROM. Hart 0 runs on; the others jump to label `2` of `smp_resume`
and wait there for their software interrupt. When hart 0 calls `boot_next_stage`, it

* writes the boot address to scratch registers 4 and 5,
* sets the `msip` register of every hart, in order (loop `1`),

and then every hart, hart 0 included,

* waits until its own `msip` is set (loop `2`) and clears it,
* scans all `msip` registers in order, waiting at each until it is 0 (loop `3`),
* loads the boot address from the scratch registers and jumps to it.

Here one step is one access to memory together with the register instructions up to the next
one. The accesses of all harts interleave in any order. A hart that has jumped takes no further
step: what the next stage does is not modelled.
-/

namespace Cheshire.Smp

open Lib

/-- Where a hart is, with the registers it still needs. A pointer into the `msip` registers is
kept as the index of the register it points to. -/
inductive Pc
  /-- `smp_pause`: compare `mhartid` with `NONSMP_HART`. -/
  | pause
  /-- Hart 0 in the boot ROM, up to the call of `boot_next_stage`. -/
  | bootRom
  /-- `sw a0, 16(t0)`. -/
  | storeLo
  /-- `sw a0, 20(t0)`. -/
  | storeHi
  /-- `lw t2, 76(t2)` at the start of `smp_resume`. -/
  | resume
  /-- Loop `1`: `sw t1, 0(t0)`. -/
  | set (t0 : ℕ)
  /-- Loop `2`: `wfi`, then `csrr t1, mip`. -/
  | wait
  /-- `sw zero, 0(t1)`. -/
  | clear
  /-- Loop `3`: `lw t1, 0(t0)`. -/
  | scan (t0 : ℕ)
  /-- `lwu t1, 20(t0)`. -/
  | loadHi
  /-- `lwu t0, 16(t0)`. -/
  | loadLo (t1 : BitVec 64)
  /-- After `jalr ra, 0(t0)`. -/
  | nextStage (t0 : BitVec 64)
deriving DecidableEq, Repr

/-- A write of `value` to the `msip` register of `target`, by `hart`. -/
structure MsipWrite where
  hart : ℕ
  target : ℕ
  value : BitVec 32
deriving DecidableEq, Repr

/-- The registers the harts share, where each hart is, and the writes to `msip` so far. -/
structure State where
  msip : ℕ → BitVec 32
  scratch4 : BitVec 32
  scratch5 : BitVec 32
  pc : ℕ → Pc
  writes : List MsipWrite

/-- The default of `smp.h`. -/
def nonsmpHart : ℕ := 0

namespace State

/-- Hart `h` moves on to `p`. -/
def goto (s : State) (h : ℕ) (p : Pc) : State := { s with pc := Function.update s.pc h p }

/-- Hart `h` stores `v` to the `msip` register of hart `k`. -/
def storeMsip (s : State) (h k : ℕ) (v : BitVec 32) : State :=
  { s with msip := Function.update s.msip k v, writes := s.writes ++ [⟨h, k, v⟩] }

end State

/-- The low word of an address, as `sw` stores it. -/
def lo (addr : BitVec 64) : BitVec 32 := addr.setWidth 32

/-- The low word of `srli a0, a0, 32`. -/
def hi (addr : BitVec 64) : BitVec 32 := (addr >>> 32).setWidth 32

/-- The next access of hart `h`, in a system of `n` harts whose hart 0 calls `boot_next_stage`
with `addr`. -/
def exec (n : ℕ) (addr : BitVec 64) (h : ℕ) (s : State) : State :=
  match s.pc h with
  | .pause => if h = nonsmpHart then s.goto h .bootRom else s.goto h .wait
  | .bootRom => s.goto h .storeLo
  | .storeLo => { s with scratch4 := lo addr }.goto h .storeHi
  | .storeHi => { s with scratch5 := hi addr }.goto h .resume
  | .resume => s.goto h (.set 0)
  | .set t0 => (s.storeMsip h t0 1).goto h (if t0 + 1 < n then .set (t0 + 1) else .wait)
  | .wait => if s.msip h &&& 1 = 0 then s else s.goto h .clear
  | .clear => (s.storeMsip h h 0).goto h (.scan 0)
  | .scan t0 =>
    if s.msip t0 ≠ 0 then s
    else s.goto h (if t0 + 1 < n then .scan (t0 + 1) else .loadHi)
  | .loadHi => s.goto h (.loadLo (s.scratch5.setWidth 64 <<< 32))
  | .loadLo t1 => s.goto h (.nextStage (s.scratch4.setWidth 64 ||| t1))
  | .nextStage _ => s

/-- All `msip` registers are 0 and every hart is at its reset vector; the scratch registers hold
anything. -/
def Start (s : State) : Prop := (∀ k, s.msip k = 0) ∧ (∀ h, s.pc h = .pause) ∧ s.writes = []

/-- The boot of `n` harts: one of them takes its next step. -/
def machine (n : ℕ) (addr : BitVec 64) : Machine State where
  start := Start
  step s s' := ∃ h < n, s' = exec n addr h s

/-! ## Progress of the harts -/

namespace Pc

/-- A hart at `p` has entered `smp_resume`. -/
def Resumed : Pc → Prop
  | .pause | .bootRom | .storeLo | .storeHi => False
  | _ => True

/-- Hart 0, at `p`, has set the `msip` register of hart `k`. -/
def HasSet (k : ℕ) : Pc → Prop
  | .set t0 => k < t0
  | .wait | .clear | .scan _ | .loadHi | .loadLo _ | .nextStage _ => True
  | _ => False

/-- A hart at `p` has found its own `msip` set. -/
def Woken : Pc → Prop
  | .clear | .scan _ | .loadHi | .loadLo _ | .nextStage _ => True
  | _ => False

/-- A hart at `p` has cleared its own `msip`. -/
def Cleared : Pc → Prop
  | .scan _ | .loadHi | .loadLo _ | .nextStage _ => True
  | _ => False

/-- A hart at `p` has found the `msip` register of hart `k` cleared in loop `3`. -/
def Passed (k : ℕ) : Pc → Prop
  | .scan t0 => k < t0
  | .loadHi | .loadLo _ | .nextStage _ => True
  | _ => False

/-- A hart at `p` has left loop `3`. -/
def Left : Pc → Prop
  | .loadHi | .loadLo _ | .nextStage _ => True
  | _ => False

instance (k : ℕ) (p : Pc) : Decidable (p.HasSet k) := by
  cases p <;> unfold HasSet <;> infer_instance

instance (p : Pc) : Decidable p.Cleared := by
  cases p <;> unfold Cleared <;> infer_instance

instance (p : Pc) : Decidable p.Left := by
  cases p <;> unfold Left <;> infer_instance

end Pc

/-- The run in which the harts of the list take the steps, in this order. -/
def run (n : ℕ) (addr : BitVec 64) (harts : List ℕ) (s : State) : State :=
  harts.foldl (fun s h => exec n addr h s) s

/-- The state of a hart at `p`, apart from the `msip` registers. Only hart 0 runs `boot_next_stage`
up to the end of loop `1`. -/
def Local (n : ℕ) (addr : BitVec 64) (h : ℕ) : Pc → Prop
  | .pause | .wait | .clear | .loadHi => True
  | .bootRom | .storeLo | .storeHi | .resume => h = 0
  | .set t0 => h = 0 ∧ t0 < n
  | .scan t0 => t0 < n
  | .loadLo t1 => t1 = (hi addr).setWidth 64 <<< 32
  | .nextStage t0 => t0 = addr

/-- What holds in every reachable state. The `msip` register of hart `k` is set exactly between
hart 0's store to it and hart `k`'s own, so a hart that finds it 0 in loop `3` knows that one of
the two has not been made yet, or both have. -/
structure Inv (n : ℕ) (addr : BitVec 64) (s : State) : Prop where
  /-- Registers and bounds, hart by hart. -/
  hart : ∀ h < n, Local n addr h (s.pc h)
  /-- Hart 0's stores to the scratch registers. -/
  scratch4 : s.pc 0 = .storeHi ∨ (s.pc 0).Resumed → s.scratch4 = lo addr
  scratch5 : (s.pc 0).Resumed → s.scratch5 = hi addr
  /-- Set by hart 0 and not yet cleared by its owner. -/
  msip : ∀ k < n, s.msip k = if (s.pc 0).HasSet k ∧ ¬(s.pc k).Cleared then 1 else 0
  /-- Only a hart whose `msip` was set wakes up. -/
  woken : ∀ h < n, (s.pc h).Woken → (s.pc 0).HasSet h
  /-- Loop `3` passes a register only after its owner has cleared it. -/
  passed : ∀ h < n, ∀ k < n, (s.pc h).Passed k → (s.pc k).Cleared
  /-- The stores made are on record. -/
  setWrite : ∀ k < n, (s.pc 0).HasSet k → ⟨0, k, 1⟩ ∈ s.writes
  clearWrite : ∀ h < n, (s.pc h).Cleared → ⟨h, h, 0⟩ ∈ s.writes

theorem Pc.Cleared.woken {p : Pc} (h : p.Cleared) : p.Woken := by
  cases p <;> simp_all [Pc.Cleared, Pc.Woken]

theorem Pc.Passed.cleared {p : Pc} {k : ℕ} (h : p.Passed k) : p.Cleared := by
  cases p <;> simp_all [Pc.Cleared, Pc.Passed]

/-- Loop `1` sets the registers in order. -/
theorem Pc.HasSet.mono {p : Pc} {j k : ℕ} (h : p.HasSet k) (hjk : j ≤ k) : p.HasSet j := by
  cases p with
  | set t0 => exact lt_of_le_of_lt hjk h
  | _ => exact h

/-- Loop `1` is a part of `smp_resume`. -/
theorem Pc.HasSet.resumed {p : Pc} {k : ℕ} (h : p.HasSet k) : p.Resumed := by
  cases p <;> simp_all [Pc.HasSet, Pc.Resumed]

/-- A hart leaves loop `3` after it has passed all registers. -/
theorem Pc.Left.passed {p : Pc} (h : p.Left) (k : ℕ) : p.Passed k := by
  cases p <;> simp_all [Pc.Left, Pc.Passed]

/-- Hart 0 has set all registers before it wakes up. -/
theorem Pc.Woken.hasSet {p : Pc} (h : p.Woken) (k : ℕ) : p.HasSet k := by
  cases p <;> simp_all [Pc.HasSet, Pc.Woken]

theorem Inv.scratch_of_resumed {n : ℕ} {addr : BitVec 64} {s : State} (hI : Inv n addr s)
    (hr : (s.pc 0).Resumed) {q : Pc} : (q = .storeHi ∨ q.Resumed → s.scratch4 = lo addr) ∧
      (q.Resumed → s.scratch5 = hi addr) :=
  ⟨fun _ => hI.scratch4 (Or.inr hr), fun _ => hI.scratch5 hr⟩

/-- The two words make up the address again. -/
theorem or_words (addr : BitVec 64) :
    (lo addr).setWidth 64 ||| (hi addr).setWidth 64 <<< 32 = addr := by
  ext i hi'
  simp only [lo, hi, BitVec.getElem_or, BitVec.getElem_setWidth, BitVec.getElem_shiftLeft,
    BitVec.getLsbD_setWidth, BitVec.getLsbD_ushiftRight]
  by_cases h32 : i < 32
  · simp [h32, BitVec.getLsbD_eq_getElem hi']
  · have : 32 + (i - 32) = i := by omega
    simp [h32, this, BitVec.getLsbD_eq_getElem hi']
    omega

/-- **The step of the barrier.** A hart past loop `2` that finds the register of hart `k` at 0
knows that hart `k` has cleared it: hart 0 sets the registers in order and clears its own only
after the last of them, so a register still to be set lies behind the set register of hart 0. -/
theorem Inv.cleared_of_zero {n : ℕ} {addr : BitVec 64} {s : State} (hI : Inv n addr s) {h k : ℕ}
    (hh : h < n) (hk : k < n) (hw : (s.pc h).Woken) (hp : ∀ j < k, (s.pc h).Passed j)
    (h0 : s.msip k = 0) : (s.pc k).Cleared := by
  by_contra hc
  have hset : ¬(s.pc 0).HasSet k := fun hs => by
    rw [hI.msip k hk, if_pos ⟨hs, hc⟩] at h0
    exact absurd h0 (by decide)
  rcases Nat.eq_zero_or_pos k with rfl | hpos
  · exact hset ((hI.woken h hh hw).mono (Nat.zero_le h))
  · have h0c : (s.pc 0).Cleared := hI.passed h hh 0 (by omega) (hp 0 hpos)
    exact hset (h0c.woken.hasSet k)

/-! ## One step -/

section Step

variable {n : ℕ} {addr : BitVec 64} {s : State} {h : ℕ}

@[simp] theorem goto_pc_self (s : State) (h : ℕ) (p : Pc) : (s.goto h p).pc h = p := by
  simp [State.goto]

theorem goto_pc_of_ne (s : State) {h k : ℕ} (p : Pc) (hk : k ≠ h) :
    (s.goto h p).pc k = s.pc k := by
  simp [State.goto, hk]

/-- A hart that goes on to `q` without a store keeps the invariant, if `q` has set and cleared
the same registers as before and knows no more than what holds. -/
theorem Inv.goto (hI : Inv n addr s) (hh : h < n) (q : Pc) (hq : Local n addr h q)
    (hset : h = 0 → ∀ k < n, q.HasSet k ↔ (s.pc 0).HasSet k)
    (hres : h = 0 → (q = .storeHi ∨ q.Resumed → s.scratch4 = lo addr) ∧
      (q.Resumed → s.scratch5 = hi addr))
    (hclr : q.Cleared ↔ (s.pc h).Cleared) (hwok : q.Woken → (s.pc 0).HasSet h)
    (hpass : ∀ k < n, q.Passed k → (s.pc k).Cleared) : Inv n addr (s.goto h q) := by
  have hS : ∀ k < n, ((s.goto h q).pc 0).HasSet k ↔ (s.pc 0).HasSet k := fun k hk => by
    by_cases h0 : 0 = h
    · subst h0; rw [goto_pc_self]; exact hset rfl k hk
    · rw [goto_pc_of_ne s q h0]
  have hC : ∀ k, ((s.goto h q).pc k).Cleared ↔ (s.pc k).Cleared := fun k => by
    by_cases hk : k = h
    · subst hk; rw [goto_pc_self]; exact hclr
    · rw [goto_pc_of_ne s q hk]
  constructor
  case hart =>
    intro k hk
    by_cases hkh : k = h
    · subst hkh; rw [goto_pc_self]; exact hq
    · rw [goto_pc_of_ne s q hkh]; exact hI.hart k hk
  case scratch4 =>
    by_cases h0 : 0 = h
    · subst h0; rw [goto_pc_self]; exact (hres rfl).1
    · rw [goto_pc_of_ne s q h0]; exact hI.scratch4
  case scratch5 =>
    by_cases h0 : 0 = h
    · subst h0; rw [goto_pc_self]; exact (hres rfl).2
    · rw [goto_pc_of_ne s q h0]; exact hI.scratch5
  case msip =>
    intro k hk
    simp only [hS k hk, hC k]
    exact hI.msip k hk
  case woken =>
    intro k hk hw
    rw [hS k hk]
    by_cases hkh : k = h
    · subst hkh; rw [goto_pc_self] at hw; exact hwok hw
    · rw [goto_pc_of_ne s q hkh] at hw; exact hI.woken k hk hw
  case passed =>
    intro j hj k hk hp
    rw [hC k]
    by_cases hjh : j = h
    · subst hjh; rw [goto_pc_self] at hp; exact hpass k hk hp
    · rw [goto_pc_of_ne s q hjh] at hp; exact hI.passed j hj k hk hp
  case setWrite => exact fun k hk hs => hI.setWrite k hk ((hS k hk).1 hs)
  case clearWrite => exact fun k hk hc => hI.clearWrite k hk ((hC k).1 hc)

/-- As long as it has set no register, hart 0 has not been woken either. -/
theorem Inv.goto_early (hI : Inv n addr s) (hn : 0 < n) (q : Pc) (hq : Local n addr 0 q)
    (hp : ∀ k, ¬(s.pc 0).HasSet k) (hqS : ∀ k, ¬q.HasSet k)
    (hres : (q = .storeHi ∨ q.Resumed → s.scratch4 = lo addr) ∧
      (q.Resumed → s.scratch5 = hi addr)) : Inv n addr (s.goto 0 q) := by
  have hasleep {p : Pc} (h : ∀ k, ¬p.HasSet k) : ¬p.Woken := fun hw => h 0 (hw.hasSet 0)
  have hclr {p : Pc} (h : ∀ k, ¬p.HasSet k) : ¬p.Cleared := fun hc => hasleep h hc.woken
  refine hI.goto hn q hq ?_ (fun _ => hres) (iff_of_false (hclr hqS) (hclr hp)) ?_ ?_
  · exact fun _ k _ => iff_of_false (hqS k) (hp k)
  · exact fun hw => absurd hw (hasleep hqS)
  · exact fun k _ hpass => absurd hpass.cleared (hclr hqS)

/-- Hart 0 sets the register of hart `t0`: from now on this hart may wake up. -/
theorem Inv.set (hI : Inv n addr s) (hn : 0 < n) {t0 : ℕ} (hp : s.pc 0 = .set t0) :
    Inv n addr (exec n addr 0 s) := by
  obtain ⟨-, ht⟩ : 0 = 0 ∧ t0 < n := by have := hI.hart 0 hn; rwa [hp] at this
  have hS : ∀ k, (s.pc 0).HasSet k ↔ k < t0 := fun k => by rw [hp]; rfl
  have hres : (s.pc 0).Resumed := by rw [hp]; trivial
  set q : Pc := if t0 + 1 < n then .set (t0 + 1) else .wait with hqdef
  have hexec : exec n addr 0 s = (s.storeMsip 0 t0 1).goto 0 q := by simp only [exec, hp, hqdef]
  have hqS : ∀ k < n, q.HasSet k ↔ k < t0 + 1 := fun k hk => by
    by_cases hlt : t0 + 1 < n
    · rw [hqdef, if_pos hlt]; rfl
    · rw [hqdef, if_neg hlt]
      exact iff_of_true trivial (by omega)
  have hqC : ¬q.Cleared ∧ ¬q.Woken ∧ Local n addr 0 q := by
    by_cases hlt : t0 + 1 < n
    · rw [hqdef, if_pos hlt]; exact ⟨id, id, rfl, hlt⟩
    · rw [hqdef, if_neg hlt]; exact ⟨id, id, trivial⟩
  -- The hart whose register is set has not been woken, so it has not cleared it either.
  have hasleep : ¬(s.pc t0).Cleared := fun hc =>
    absurd ((hS t0).1 (hI.woken t0 ht hc.woken)) (lt_irrefl t0)
  have hpc : ∀ k, k ≠ 0 → ((s.storeMsip 0 t0 1).goto 0 q).pc k = s.pc k := fun k hk =>
    goto_pc_of_ne _ q hk
  rw [hexec]
  constructor
  case hart =>
    intro k hk
    by_cases h0 : k = 0
    · subst h0; rw [goto_pc_self]; exact hqC.2.2
    · rw [hpc k h0]; exact hI.hart k hk
  case scratch4 => exact fun _ => hI.scratch4 (Or.inr hres)
  case scratch5 => exact fun _ => hI.scratch5 hres
  case msip =>
    intro k hk
    have hck : (((s.storeMsip 0 t0 1).goto 0 q).pc k).Cleared ↔ (s.pc k).Cleared := by
      by_cases h0 : k = 0
      · subst h0; rw [goto_pc_self, hp]; exact iff_of_false hqC.1 id
      · rw [hpc k h0]
    have hm : ((s.storeMsip 0 t0 1).goto 0 q).msip k = if k = t0 then 1 else s.msip k := by
      simp [State.goto, State.storeMsip, Function.update_apply]
    simp only [hm, goto_pc_self, hqS k hk, hck]
    by_cases hkt : k = t0
    · subst hkt; rw [if_pos rfl, if_pos ⟨Nat.lt_succ_self k, hasleep⟩]
    · rw [if_neg hkt, hI.msip k hk]
      simp only [hS k, show k < t0 + 1 ↔ k < t0 by omega]
  case woken =>
    intro k hk hw
    rw [goto_pc_self, hqS k hk]
    by_cases h0 : k = 0
    · omega
    · rw [hpc k h0] at hw
      exact Nat.lt_succ_of_lt ((hS k).1 (hI.woken k hk hw))
  case passed =>
    intro j hj k hk hpj
    by_cases h0 : j = 0
    · subst h0; rw [goto_pc_self] at hpj; exact absurd hpj.cleared hqC.1
    · rw [hpc j h0] at hpj
      have hc := hI.passed j hj k hk hpj
      by_cases hk0 : k = 0
      · subst hk0; rw [hp] at hc; exact hc.elim
      · rwa [hpc k hk0]
  case setWrite =>
    intro k hk hs
    rw [goto_pc_self, hqS k hk] at hs
    show _ ∈ s.writes ++ [_]
    rcases Nat.lt_succ_iff_lt_or_eq.1 hs with hlt | rfl
    · exact List.mem_append_left _ (hI.setWrite k hk ((hS k).2 hlt))
    · exact List.mem_append_right _ (List.mem_singleton.2 rfl)
  case clearWrite =>
    intro k hk hc
    show _ ∈ s.writes ++ [_]
    by_cases h0 : k = 0
    · subst h0; rw [goto_pc_self] at hc; exact absurd hc hqC.1
    · rw [hpc k h0] at hc
      exact List.mem_append_left _ (hI.clearWrite k hk hc)

/-- Hart `h` clears its own register. -/
theorem Inv.clear (hI : Inv n addr s) (hh : h < n) (hp : s.pc h = .clear) :
    Inv n addr (exec n addr h s) := by
  have hexec : exec n addr h s = (s.storeMsip h h 0).goto h (.scan 0) := by simp only [exec, hp]
  have hset : (s.pc 0).HasSet h := hI.woken h hh (by rw [hp]; trivial)
  have hpc : ∀ k, k ≠ h → ((s.storeMsip h h 0).goto h (.scan 0)).pc k = s.pc k := fun k hk =>
    goto_pc_of_ne _ _ hk
  have hS : ∀ k, (((s.storeMsip h h 0).goto h (.scan 0)).pc 0).HasSet k ↔ (s.pc 0).HasSet k := by
    intro k
    by_cases h0 : 0 = h
    · subst h0; rw [goto_pc_self, hp]; rfl
    · rw [hpc 0 h0]
  have hC : ∀ k, (((s.storeMsip h h 0).goto h (.scan 0)).pc k).Cleared ↔
      k = h ∨ (s.pc k).Cleared := by
    intro k
    by_cases hk : k = h
    · subst hk; rw [goto_pc_self]; exact iff_of_true trivial (Or.inl rfl)
    · rw [hpc k hk]; simp [hk]
  have hres : h = 0 → (s.pc 0).Resumed := by rintro rfl; rw [hp]; trivial
  rw [hexec]
  constructor
  case hart =>
    intro k hk
    by_cases hkh : k = h
    · subst hkh; rw [goto_pc_self]; exact Nat.lt_of_le_of_lt (Nat.zero_le k) hk
    · rw [hpc k hkh]; exact hI.hart k hk
  case scratch4 =>
    intro hr
    by_cases h0 : 0 = h
    · exact hI.scratch4 (Or.inr (hres h0.symm))
    · rw [hpc 0 h0] at hr; exact hI.scratch4 hr
  case scratch5 =>
    intro hr
    by_cases h0 : 0 = h
    · exact hI.scratch5 (hres h0.symm)
    · rw [hpc 0 h0] at hr; exact hI.scratch5 hr
  case msip =>
    intro k hk
    have hm : ((s.storeMsip h h 0).goto h (.scan 0)).msip k = if k = h then 0 else s.msip k := by
      simp [State.goto, State.storeMsip, Function.update_apply]
    simp only [hm, hS k, hC k]
    by_cases hkh : k = h
    · rw [if_pos hkh, if_neg (fun hc => hc.2 (Or.inl hkh))]
    · rw [if_neg hkh, hI.msip k hk]; simp [hkh]
  case woken =>
    intro k hk hw
    rw [hS k]
    by_cases hkh : k = h
    · subst hkh; exact hset
    · rw [hpc k hkh] at hw; exact hI.woken k hk hw
  case passed =>
    intro j hj k hk hpj
    rw [hC k]
    by_cases hjh : j = h
    · subst hjh; rw [goto_pc_self] at hpj; exact absurd hpj (Nat.not_lt_zero k)
    · rw [hpc j hjh] at hpj; exact Or.inr (hI.passed j hj k hk hpj)
  case setWrite =>
    exact fun k hk hs => List.mem_append_left _ (hI.setWrite k hk ((hS k).1 hs))
  case clearWrite =>
    intro k hk hc
    rcases (hC k).1 hc with rfl | hc
    · exact List.mem_append_right _ (List.mem_singleton.2 rfl)
    · exact List.mem_append_left _ (hI.clearWrite k hk hc)

/-- **Every step keeps the invariant.** -/
theorem Inv.exec (hI : Inv n addr s) (hh : h < n) : Inv n addr (exec n addr h s) := by
  have hn : 0 < n := Nat.lt_of_le_of_lt (Nat.zero_le h) hh
  have hloc := hI.hart h hh
  have hwok := hI.woken h hh
  have hpas := hI.passed h hh
  cases hp : s.pc h with
  | set t0 =>
    rw [hp] at hloc
    obtain ⟨rfl, -⟩ := hloc
    exact hI.set hn hp
  | clear => exact hI.clear hh hp
  | pause =>
    by_cases h0 : h = 0
    · subst h0
      simp only [Smp.exec, hp, if_pos (show 0 = nonsmpHart from rfl)]
      exact hI.goto_early hn _ rfl (by simp [hp, Pc.HasSet]) (fun _ => id) (by simp [Pc.Resumed])
    · simp only [Smp.exec, hp]
      rw [if_neg (show ¬h = nonsmpHart from h0)]
      exact hI.goto hh .wait trivial (fun h => absurd h h0) (fun h => absurd h h0)
        (by simp [hp, Pc.Cleared]) (by simp [Pc.Woken]) (by simp [Pc.Passed])
  | bootRom =>
    rw [hp] at hloc
    obtain rfl : h = 0 := hloc
    simp only [Smp.exec, hp]
    exact hI.goto_early hn _ rfl (by simp [hp, Pc.HasSet]) (fun _ => id) (by simp [Pc.Resumed])
  | storeLo =>
    rw [hp] at hloc
    obtain rfl : h = 0 := hloc
    simp only [Smp.exec, hp]
    have hI' : Inv n addr { s with scratch4 := lo addr } := { hI with scratch4 := fun _ => rfl }
    exact hI'.goto_early hn _ rfl (by simp [hp, Pc.HasSet]) (fun _ => id) (by simp [Pc.Resumed])
  | storeHi =>
    rw [hp] at hloc
    obtain rfl : h = 0 := hloc
    simp only [Smp.exec, hp]
    have hI' : Inv n addr { s with scratch5 := hi addr } := { hI with scratch5 := fun _ => rfl }
    exact hI'.goto_early hn _ rfl (by simp [hp, Pc.HasSet]) (fun _ => id)
      ⟨fun _ => hI.scratch4 (Or.inl hp), fun _ => rfl⟩
  | resume =>
    rw [hp] at hloc
    obtain rfl : h = 0 := hloc
    simp only [Smp.exec, hp]
    have hres : (s.pc 0).Resumed := by rw [hp]; trivial
    exact hI.goto_early hn _ ⟨rfl, hn⟩ (by simp [hp, Pc.HasSet]) Nat.not_lt_zero
      (hI.scratch_of_resumed hres)
  | wait =>
    simp only [Smp.exec, hp]
    by_cases hz : s.msip h &&& 1 = 0
    · rwa [if_pos hz]
    · rw [if_neg hz]
      -- The register is set, so hart 0 has set it.
      have hset : (s.pc 0).HasSet h := by
        by_contra hc
        rw [hI.msip h hh, if_neg fun hs => hc hs.1] at hz
        exact hz (by decide)
      exact hI.goto hh .clear trivial (by rintro rfl; simp [hp, Pc.HasSet])
        (by rintro rfl; exact hI.scratch_of_resumed (by rw [hp]; trivial))
        (by simp [hp, Pc.Cleared]) (fun _ => hset) (by simp [Pc.Passed])
  | scan t0 =>
    rw [hp] at hloc hwok hpas
    simp only [Smp.exec, hp]
    by_cases hz : s.msip t0 ≠ 0
    · rwa [if_pos hz]
    · rw [if_neg hz]
      have hclr : (s.pc t0).Cleared := hI.cleared_of_zero hh hloc (by rw [hp]; trivial)
        (fun j hj => by rw [hp]; exact hj) (not_not.1 hz)
      have hpass : ∀ k < t0 + 1, (s.pc k).Cleared := fun k hk => by
        rcases Nat.lt_succ_iff_lt_or_eq.1 hk with hlt | rfl
        · exact hpas k (lt_trans hlt hloc) hlt
        · exact hclr
      by_cases hlt : t0 + 1 < n
      · rw [if_pos hlt]
        exact hI.goto hh _ hlt (by rintro rfl; simp [hp, Pc.HasSet])
          (by rintro rfl; exact hI.scratch_of_resumed (by rw [hp]; trivial))
          (by simp [hp, Pc.Cleared]) (fun _ => hwok trivial) (fun k _ hk => hpass k hk)
      · rw [if_neg hlt]
        exact hI.goto hh .loadHi trivial (by rintro rfl; simp [hp, Pc.HasSet])
          (by rintro rfl; exact hI.scratch_of_resumed (by rw [hp]; trivial))
          (by simp [hp, Pc.Cleared]) (fun _ => hwok trivial) (fun k hk _ => hpass k (by omega))
  | loadHi =>
    rw [hp] at hwok hpas
    simp only [Smp.exec, hp]
    have hres : (s.pc 0).Resumed := (hwok trivial).resumed
    exact hI.goto hh _ (by rw [hI.scratch5 hres]; rfl) (by rintro rfl; simp [hp, Pc.HasSet])
      (by rintro rfl; exact hI.scratch_of_resumed hres)
      (by simp [hp, Pc.Cleared]) (fun _ => hwok trivial) (fun k hk _ => hpas k hk trivial)
  | loadLo t1 =>
    rw [hp] at hloc hwok hpas
    simp only [Smp.exec, hp]
    have hres : (s.pc 0).Resumed := (hwok trivial).resumed
    exact hI.goto hh _ (by rw [hI.scratch4 (Or.inr hres), hloc]; exact or_words addr)
      (by rintro rfl; simp [hp, Pc.HasSet])
      (by rintro rfl; exact hI.scratch_of_resumed hres)
      (by simp [hp, Pc.Cleared]) (fun _ => hwok trivial) (fun k hk _ => hpas k hk trivial)
  | nextStage t0 =>
    simp only [Smp.exec, hp]
    exact hI

end Step

/-- What the harts have done when one of them has left loop `3`. -/
structure Resumed (n : ℕ) (addr : BitVec 64) (s : State) : Prop where
  /-- Hart 0 has set all registers. -/
  set : ∀ k < n, ⟨0, k, 1⟩ ∈ s.writes
  /-- Every hart has been woken and has cleared its own register. -/
  woken : ∀ h < n, (s.pc h).Woken
  cleared : ∀ h < n, ⟨h, h, 0⟩ ∈ s.writes
  msip : ∀ k < n, s.msip k = 0
  /-- Every hart that has left finds the boot address in the scratch registers, and jumps there. -/
  loads : ∀ h < n, (s.pc h).Left →
    (s.pc h = .loadHi → s.scratch5 = hi addr) ∧
    (∀ t1, s.pc h = .loadLo t1 →
      t1 = (hi addr).setWidth 64 <<< 32 ∧ s.scratch4.setWidth 64 ||| t1 = addr) ∧
    ∀ t0, s.pc h = .nextStage t0 → t0 = addr

/-- All registers 0, all harts at the reset vector. -/
def reset : State := ⟨fun _ => 0, 0, 0, fun _ => .pause, []⟩

end Cheshire.Smp
