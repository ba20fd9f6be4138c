import Cheshire.Lib.RegBlock
import Mathlib.Algebra.BigOperators.Intervals
import Mathlib.Data.Nat.Periodic

/-!
# The fan of the FPGA board: `fan_ctrl.sv` behind `chs_xilinx_reg_top.sv`

The fan runs on a pulse-width modulated signal. Its setting is a register that follows the switches
of the board until software sets the override bit.

**Theorem (`fan_duty`).** After any run of requests, let the switches stay and the two registers of
the fan be left alone. After one cycle, the fan is on in `50 s - 1` of any 750 cycles in a row,
where `s` is the setting of the switches, or with the override bit set the one in the register;
with `s = 0` it is off. In particular it never runs all the time.

The divider counts to 15 in steps of 50 cycles, but a count of 15 is cleared in the next cycle. So
that step takes one cycle, which the first step then lacks.
-/

namespace Cheshire.Fan

open Lib

/-! ## `fan_ctrl` -/

structure FanCtrl where
  msClock : BitVec 4
  cycleCounter : BitVec 12
deriving DecidableEq

namespace FanCtrl

def reset : FanCtrl := ⟨0, 0⟩

/-- The clock divider. -/
def next (q : FanCtrl) : FanCtrl :=
  let cycleCounter := q.cycleCounter + 1
  let msClock := q.msClock
  let (cycleCounter, msClock) :=
    if q.cycleCounter == 49 then (0, q.msClock + 1) else (cycleCounter, msClock)
  let msClock := if q.msClock == 15 then 0 else msClock
  ⟨msClock, cycleCounter⟩

/-- The duty cycle: `fan_pwm_o`. -/
def pwm (q : FanCtrl) (setting : BitVec 4) : Bool := q.msClock < setting

/-- Where the divider is after `n` cycles. -/
def phase (n : ℕ) : FanCtrl :=
  if 0 < n ∧ n % 750 = 0 then ⟨15, 0⟩
  else ⟨BitVec.ofNat 4 (n % 750 / 50), BitVec.ofNat 12 (n % 50)⟩

theorem ofNat_beq {k n m : ℕ} (hn : n < 2 ^ k) (hm : m < 2 ^ k) :
    (BitVec.ofNat k n == BitVec.ofNat k m) = decide (n = m) := by
  rw [Bool.eq_iff_iff, beq_iff_eq, decide_eq_true_iff]
  constructor
  · intro h
    have h := congrArg BitVec.toNat h
    rwa [BitVec.toNat_ofNat, BitVec.toNat_ofNat, Nat.mod_eq_of_lt hn, Nat.mod_eq_of_lt hm] at h
  · exact fun h => congrArg _ h

/-- The divider where neither of its counts has to be cleared out of turn. -/
theorem next_ofNat {ms cc : ℕ} (hms : ms < 15) (hcc : cc < 50) :
    next ⟨BitVec.ofNat 4 ms, BitVec.ofNat 12 cc⟩ =
      if cc = 49 then ⟨BitVec.ofNat 4 (ms + 1), 0⟩
      else ⟨BitVec.ofNat 4 ms, BitVec.ofNat 12 (cc + 1)⟩ := by
  have h49 := ofNat_beq (k := 12) (n := cc) (m := 49) (by omega) (by decide)
  have h15 := ofNat_beq (k := 4) (n := ms) (m := 15) (by omega) (by decide)
  have hne : ms ≠ 15 := by omega
  unfold next
  by_cases hcc : cc = 49
  · simp [h15, hcc, hne, BitVec.ofNat_add]
  · simp [h49, h15, hcc, hne, BitVec.ofNat_add]

theorem next_phase (n : ℕ) : (phase n).next = phase (n + 1) := by
  unfold phase
  by_cases hwrap : 0 < n ∧ n % 750 = 0
  · have hmod : (n + 1) % 750 = 1 := by omega
    have hmod' : (n + 1) % 50 = 1 := by omega
    rw [if_pos hwrap, hmod, hmod']
    rfl
  · rw [if_neg hwrap, next_ofNat (by omega) (by omega)]
    by_cases h49 : n % 50 = 49
    · rw [if_pos h49]
      by_cases hend : n % 750 = 749
      · rw [hend, if_pos (by omega)]
        rfl
      · have hdiv : (n + 1) % 750 / 50 = n % 750 / 50 + 1 := by omega
        have hmod : (n + 1) % 50 = 0 := by omega
        rw [if_neg (by omega), hdiv, hmod]
        rfl
    · have hdiv : (n + 1) % 750 / 50 = n % 750 / 50 := by omega
      have hmod : (n + 1) % 50 = n % 50 + 1 := by omega
      rw [if_neg h49, if_neg (by omega), hdiv, hmod]

/-- When the fan is on: never in the cycle in which the count is 15. -/
theorem pwm_phase {n : ℕ} (hn : 0 < n) (s : BitVec 4) :
    (phase n).pwm s = true ↔ n % 750 ≠ 0 ∧ n % 750 / 50 < s.toNat := by
  have hs := s.isLt
  unfold phase pwm
  rw [decide_eq_true_iff, BitVec.lt_def]
  by_cases h0 : n % 750 = 0
  · rw [if_pos ⟨hn, h0⟩]
    show 15 < s.toNat ↔ _
    omega
  · rw [if_neg fun h => h0 h.2]
    show (BitVec.ofNat 4 (n % 750 / 50)).toNat < s.toNat ↔ _
    rw [BitVec.toNat_ofNat, Nat.mod_eq_of_lt (by omega)]
    exact (and_iff_right h0).symm

/-- In how many of 750 cycles in a row the fan is on. -/
theorem count_pwm {n : ℕ} (hn : 0 < n) (s : BitVec 4) :
    ((Finset.Ico n (n + 750)).filter fun k => (phase k).pwm s = true).card = 50 * s.toNat - 1 := by
  have hs := s.isLt
  let p : ℕ → Prop := fun k => k % 750 ≠ 0 ∧ k % 750 / 50 < s.toNat
  have hp : Function.Periodic p 750 := fun k => by
    show (_ ∧ _) = (_ ∧ _)
    rw [Nat.add_mod_right]
  have hfilter : ((Finset.Ico n (n + 750)).filter fun k => (phase k).pwm s = true) =
      (Finset.Ico n (n + 750)).filter p := by
    refine Finset.filter_congr fun k hk => ?_
    exact pwm_phase (hn.trans_le (Finset.mem_Ico.1 hk).1) s
  have hico : (Finset.range 750).filter p = Finset.Ico 1 (50 * s.toNat) := by
    ext k
    simp only [Finset.mem_filter, Finset.mem_range, Finset.mem_Ico, p]
    omega
  rw [hfilter, Nat.filter_Ico_card_eq_of_periodic _ _ _ hp, Nat.count_eq_card_filter_range, hico,
    Nat.card_Ico]

end FanCtrl

/-! ## `chs_xilinx_reg_top` -/

/-- `chs_xilinx_id_e`. -/
inductive XilinxReg
  | fanCtl | fanSwOverride | leds | dramAwDelay | dramWDelay | dramBDelay | dramArDelay
  | dramRDelay
deriving DecidableEq, Repr

namespace XilinxReg

def all : List XilinxReg :=
  [fanCtl, fanSwOverride, leds, dramAwDelay, dramWDelay, dramBDelay, dramArDelay, dramRDelay]

def offset : XilinxReg → BitVec 5
  | fanCtl => 0x0
  | fanSwOverride => 0x4
  | leds => 0x8
  | dramAwDelay => 0xc
  | dramWDelay => 0x10
  | dramBDelay => 0x14
  | dramArDelay => 0x18
  | dramRDelay => 0x1c

/-- `CHS_XILINX_PERMIT`. -/
def permit : XilinxReg → BitVec 4
  | fanCtl | fanSwOverride | leds => 0b0001
  | _ => 0b0011

def width : XilinxReg → ℕ
  | fanCtl => 4
  | fanSwOverride => 1
  | leds => 8
  | _ => 16

theorem mem_all (x : XilinxReg) : x ∈ all := by
  cases x <;> decide

theorem offset_injective : Function.Injective offset := by
  intro x y h
  cases x <;> cases y <;> first | rfl | exact absurd h (by decide)

end XilinxReg

def xilinxRegTop : RegBlock XilinxReg where
  aw := 5
  regs := XilinxReg.all
  offset := XilinxReg.offset
  permit := XilinxReg.permit
  width := XilinxReg.width
  stored _ := true
  complete := XilinxReg.mem_all
  apart := XilinxReg.offset_injective

/-! ## The board -/

/-- The registers, and the divider of the fan. -/
structure Fpga where
  regs : xilinxRegTop.Values
  fan : FanCtrl

namespace Fpga

variable {w : ℕ}

/-- `hw2reg`: the switches, loaded as long as the override bit is clear. -/
def hw2reg (q : xilinxRegTop.Values) (fanSw : BitVec 4) : xilinxRegTop.Hw
  | .fanCtl => ⟨(q .fanSwOverride : BitVec 1) == 0, fanSw⟩
  | x => ⟨false, 0#x.width⟩

def reset : Fpga := ⟨fun x => 0#x.width, .reset⟩

/-- `fan_setting`. -/
def setting (f : Fpga) : BitVec 4 := f.regs .fanCtl

def override (f : Fpga) : BitVec 1 := f.regs .fanSwOverride

/-- `fan_pwm`. -/
def pwm (f : Fpga) : Bool := f.fan.pwm f.setting

/-- A cycle with a request to the registers, for the switches in it. -/
def step (S : Subreg) (f : Fpga) (c : RegReq w × BitVec 4) : Fpga :=
  ⟨xilinxRegTop.next S true (hw2reg f.regs c.2) c.1 f.regs, f.fan.next⟩

def run (S : Subreg) (f : Fpga) (cs : List (RegReq w × BitVec 4)) : Fpga := cs.foldl (step S) f

/-- In how many of the cycles the fan is on. -/
def highs (S : Subreg) : Fpga → List (RegReq w × BitVec 4) → ℕ
  | _, [] => 0
  | f, c :: cs => (if f.pwm then 1 else 0) + highs S (f.step S c) cs

/-- The request leaves the registers of the fan alone. -/
def Quiet (r : RegReq w) : Prop :=
  ¬xilinxRegTop.Accepted r .fanCtl ∧ ¬xilinxRegTop.Accepted r .fanSwOverride

/-- The setting the fan runs on: that of the switches, unless they are overridden. -/
def chosen (f : Fpga) (fanSw : BitVec 4) : BitVec 4 := if f.override = 0 then fanSw else f.setting

section Step

variable {S : Subreg} {f : Fpga} {c : RegReq w × BitVec 4}

theorem step_override (hc : Quiet c.1) : (f.step S c).override = f.override := by
  refine (RegBlock.next_apply S rfl ⟨c.1, hw2reg f.regs c.2⟩ f.regs).trans ?_
  have hnone : xilinxRegTop.update .fanSwOverride ⟨c.1, hw2reg f.regs c.2⟩ = none := by
    unfold RegBlock.update
    rw [if_neg hc.2]
    rfl
  rw [hnone]
  rfl

theorem step_setting (hc : Quiet c.1) : (f.step S c).setting = f.chosen c.2 := by
  refine (RegBlock.next_apply S rfl ⟨c.1, hw2reg f.regs c.2⟩ f.regs).trans ?_
  unfold RegBlock.update chosen
  rw [if_neg hc.1]
  show (if (f.override == 0) = true then some c.2 else none).getD f.setting = _
  by_cases h : f.override = 0
  · rw [if_pos (beq_iff_eq.2 h), if_pos h]
    rfl
  · rw [if_neg fun he => h (beq_iff_eq.1 he), if_neg h]
    rfl

/-- Once chosen, a setting stays as long as the switches do. -/
theorem step_chosen (hc : Quiet c.1) : (f.step S c).chosen c.2 = f.chosen c.2 := by
  show (if (f.step S c).override = 0 then c.2 else (f.step S c).setting) = _
  rw [step_override hc, step_setting hc]
  unfold chosen
  split_ifs <;> rfl

end Step

theorem run_fan (S : Subreg) (f : Fpga) (cs : List (RegReq w × BitVec 4)) :
    (f.run S cs).fan = FanCtrl.next^[cs.length] f.fan := by
  induction cs generalizing f with
  | nil => rfl
  | cons c cs ih => exact ih (f.step S c)

theorem iterate_next (n : ℕ) : FanCtrl.next^[n] .reset = .phase n := by
  induction n with
  | zero => rfl
  | succ n ih => rw [Function.iterate_succ_apply', ih, FanCtrl.next_phase]

/-- While the setting stays, the fan is on as its divider says. -/
theorem highs_eq (S : Subreg) {f : Fpga} {cs : List (RegReq w × BitVec 4)} {v : BitVec 4} {n : ℕ}
    (hcs : ∀ c ∈ cs, Quiet c.1 ∧ c.2 = v) (hset : f.setting = f.chosen v)
    (hfan : f.fan = .phase n) :
    f.highs S cs =
      ((Finset.Ico n (n + cs.length)).filter fun k =>
        (FanCtrl.phase k).pwm (f.chosen v) = true).card := by
  induction cs generalizing f n with
  | nil => simp [highs]
  | cons c cs ih =>
    obtain ⟨hc, rfl⟩ := hcs c List.mem_cons_self
    have hnext : (f.step S c).setting = (f.step S c).chosen c.2 := by
      rw [step_chosen hc, step_setting hc]
    have hfan' : (f.step S c).fan = .phase (n + 1) := by
      rw [← FanCtrl.next_phase, ← hfan]
      rfl
    have hrec := ih (fun c' hc' => hcs c' (List.mem_cons_of_mem c hc')) hnext hfan'
    have hlen : n + (c :: cs).length = n + 1 + cs.length := by
      rw [List.length_cons]
      omega
    show (if f.fan.pwm f.setting = true then 1 else 0) + highs S (f.step S c) cs = _
    rw [hrec, step_chosen hc, hset, hfan, hlen, Finset.card_filter, Finset.card_filter,
      Finset.sum_eq_sum_Ico_succ_bot (by omega : n < n + 1 + cs.length)]

/-- **Main result.** From reset, after any requests `pre` and one more cycle. -/
theorem fan_duty (S : Subreg) (pre : List (RegReq w × BitVec 4)) (c : RegReq w × BitVec 4)
    (cs : List (RegReq w × BitVec 4)) (s : BitVec 4) (hlen : cs.length = 750)
    (hcs : ∀ x ∈ c :: cs, Quiet x.1 ∧ x.2 = s) :
    (reset.run S (pre ++ [c])).highs S cs = 50 * ((reset.run S pre).chosen s).toNat - 1 := by
  obtain ⟨hc, rfl⟩ := hcs c List.mem_cons_self
  have hrun : reset.run S (pre ++ [c]) = (reset.run S pre).step S c := List.foldl_append
  have hfan : (reset.run S (pre ++ [c])).fan = .phase (pre.length + 1) := by
    have h := run_fan S reset (pre ++ [c])
    rw [List.length_append, List.length_singleton] at h
    exact h.trans (iterate_next _)
  have hset : (reset.run S (pre ++ [c])).setting = (reset.run S (pre ++ [c])).chosen c.2 := by
    rw [hrun, step_chosen hc, step_setting hc]
  rw [highs_eq S (fun x hx => hcs x (List.mem_cons_of_mem c hx)) hset hfan, hlen,
    FanCtrl.count_pwm (Nat.succ_pos _), hrun, step_chosen hc]

/-- Software overrides the switches, which say 12, by a setting of 5. -/
def overridden : List (RegReq 32 × BitVec 4) :=
  [(⟨true, true, 0x4, 1, 0b0001⟩, 12), (⟨true, true, 0x0, 5, 0b0001⟩, 12)]

def idle : RegReq 32 × BitVec 4 := (⟨false, false, 0, 0, 0⟩, 12)

theorem fan_duty_override :
    (reset.run .mux (overridden ++ [idle])).highs .mux (List.replicate 750 idle) = 249 := by
  refine (fan_duty .mux overridden idle _ 12 List.length_replicate fun x hx => ?_).trans rfl
  have hx : x = idle := (List.mem_cons.1 hx).elim id List.eq_of_mem_replicate
  subst hx
  exact ⟨⟨fun h => absurd h.1 (by decide), fun h => absurd h.1 (by decide)⟩, rfl⟩

end Fpga

end Cheshire.Fan
