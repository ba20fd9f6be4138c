import Cheshire.Lib.Riscv

/-!
# Entering and leaving a program: `crt0.S`

`_start` switches to the stack and the global pointer of the program if it is linked with them,
saves the registers of its caller on the stack, zeroes the `.bss` section, and calls main.
`_exit` takes the saved registers back and returns to the caller.

**Theorem (`bss_zeroed`).** The code that zeroes the `.bss` section reaches `_fp_init` with the
section zeroed and the rest of memory as it was, whatever the length of the section.

**Theorem (`exit_restores_iff`).** The caller gets its stack pointer, its return address and the
value of main back. The global pointer is saved when it has already been replaced: the caller gets
its own one back exactly if it is that of the program.
-/

namespace Cheshire.Crt0

open Lib Riscv Placed

/-! ## The code -/

/-- The symbols that `_start` and `_exit` use. -/
structure Link where
  stackPointer : XWord
  globalPointer : XWord
  trapHandlerWrap : XWord
  bssStart : XWord
  bssEnd : XWord
  main : XWord
  baseRegs : XWord

/-- `_start` up to the saved registers. -/
def startCode (lk : Link) : List Instr :=
  [.op (.csrci .mstatus 10),
    .op (.csrr t0 .mhartid),
    .beqz t0 5,
    -- `1:`, where the other harts stay
    .op .wfi,
    .j 3,
    -- `2:`
    .op (.mv t1 sp),
    .op (.li t0 lk.stackPointer),
    .beqz t0 9,
    .op (.mv sp t0),
    .op (.li t0 lk.globalPointer),
    .beqz t0 12,
    .op (.mv gp t0),
    .op (.addi sp sp (-24)),
    .op (.sd t1 0 sp),
    .op (.sd gp 8 sp),
    .op (.sd ra 16 sp)]

/-- The trap vector and the `.bss` section: positions 16 to 36. -/
def bssCode (lk : Link) : List Instr :=
  [.op (.li t0 lk.trapHandlerWrap),
    .op (.csrw .mtvec t0),
    .op (.li t0 lk.bssStart),
    .op (.li t1 lk.bssEnd),
    .op (.sub t2 t1 t0),
    .op (.li a0 0),
    -- `_zero_bss_loop`, at 22
    .op (.addi t4 t2 (-32)),
    .blez t2 37,
    .blt t4 zero 33,
    .op (.sd a0 0 t0),
    .op (.sd a0 8 t0),
    .op (.sd a0 16 t0),
    .op (.sd a0 24 t0),
    .op (.addi t2 t2 (-32)),
    .op (.addi t0 t0 32),
    .bgt t2 zero 22,
    .j 37,
    -- `_zero_bss_rem`, at 33
    .op (.sb a0 0 t0),
    .op (.addi t2 t2 (-1)),
    .op (.addi t0 t0 1),
    .bgt t2 zero 33]

/-- `_fp_init` without the call of main: positions 37 to 73. -/
def fpOps : List Op :=
  [.li t1 1, .slli t1 t1 13, .csrs .mstatus t1, .fzero ft0] ++
    (List.finRange 31).map (fun k => .fmv k.succ ft0) ++
    [.csrc .mstatus t1, .fence]

/-- `_exit` up to its `ret`: positions 75 to 81. -/
def exitOps (lk : Link) : List Op :=
  [.ld ra 16 sp, .ld gp 8 sp, .ld sp 0 sp, .slli t0 a0 1, .ori t0 t0 1, .li t1 lk.baseRegs,
    .sw t0 8 t1]

/-- `_start` and `_exit`. The padding before `_exit` is left out. -/
def crt0 (lk : Link) : List Instr :=
  startCode lk ++ bssCode lk ++ fpOps.map .op ++ [.call lk.main] ++ (exitOps lk).map .op ++ [.ret]

/-- Interrupts are disabled, and no other hart is in the memory of the program. -/
def alone (_ _ : State) : Prop := False

/-! ## The run up to main -/

section Start

variable {lk : Link} {c : Placed (crt0 lk)} {s : State}

theorem fp_reaches (hpc : s.pc = c.addr 37) :
    ∃ s', c.Reaches alone s s' ∧ s'.pc = c.addr 74 ∧ s'.x sp = s.x sp :=
  ⟨_, reaches_block fpOps hpc rfl, rfl, rfl⟩

/-- A step down from a positive number does not wrap around. -/
theorem toInt_sub {x : XWord} {k : ℕ} (hpos : 0 < x.toInt) (hk : k ≤ 32) :
    (x + -BitVec.ofNat 64 k).toInt = x.toInt - k := by
  have hlt := BitVec.toInt_lt (x := x)
  have hk' : (BitVec.ofNat 64 k).toInt = k := by
    rw [BitVec.toInt_ofNat', Int.bmod_eq_of_le (by omega) (by omega)]
  have hneg : (-BitVec.ofNat 64 k).toInt = -(k : ℤ) := by
    rw [BitVec.toInt_neg, hk', Int.bmod_eq_of_le (by omega) (by omega)]
  rw [BitVec.toInt_add, hneg, Int.bmod_eq_of_le (by omega) (by omega)]
  omega

/-- From `s` to `s'` the next `n` bytes are zeroed: `t0` moves on by them, and `t2` counts them. -/
structure Zeroes (n : ℕ) (s s' : State) : Prop where
  mem : s'.mem = s.mem.write (s.x t0) n fun _ => 0
  t0 : s'.x t0 = s.x t0 + BitVec.ofNat 64 n
  t2 : (s'.x t2).toInt = (s.x t2).toInt - n
  a0 : s'.x a0 = s.x a0
  sp : s'.x sp = s.x sp

theorem Zeroes.trans {n k : ℕ} {s s₁ s' : State} (h : Zeroes n s s₁) (h' : Zeroes k s₁ s')
    (hfit : n + k ≤ 2 ^ 64) : Zeroes (n + k) s s' where
  mem := by
    rw [h'.mem, h.mem, h.t0]
    exact Mem.write_append hfit
  t0 := by rw [h'.t0, h.t0, BitVec.ofNat_add, BitVec.add_assoc]
  t2 := by
    have h₁ := h.t2
    have h₂ := h'.t2
    omega
  a0 := h'.a0.trans h.a0
  sp := h'.sp.trans h.sp

/-- A store of register 0 zeroes its bytes. -/
theorem store_zero (s : State) (n : ℕ) (a : XWord) :
    (s.store n a 0).mem = s.mem.write a n fun _ => 0 :=
  Mem.write_congr fun _ _ => by simp [byteOf]

/-- A turn of `_zero_bss_rem`. -/
theorem bssRem_turn (hpc : s.pc = c.addr 33) (ha0 : s.x a0 = 0) (hpos : 0 < (s.x t2).toInt) :
    ∃ s', c.Reaches alone s s' ∧ Zeroes 1 s s' ∧
      s'.pc = if 1 < (s.x t2).toInt then c.addr 33 else c.addr 37 := by
  have hbody := reaches_block (e := alone) [.sb a0 0 t0, .addi t2 t2 (-1), .addi t0 t0 1] hpc rfl
  have hstep : (s.x t2 + -BitVec.ofNat 64 1).toInt = (s.x t2).toInt - 1 :=
    toInt_sub hpos (by omega)
  have hmem : (s.store 1 (s.x t0 + 0) (s.x a0)).mem = s.mem.write (s.x t0) 1 fun _ => 0 := by
    rw [ha0, store_zero, show s.x t0 + 0 = s.x t0 from BitVec.add_zero _]
  by_cases hmore : 1 < (s.x t2).toInt
  · have hholds : Cond.lt.holds 0 (s.x t2 + -BitVec.ofNat 64 1) = true := by
      rw [Cond.zero_lt, hstep]
      exact decide_eq_true (by omega)
    exact ⟨_, hbody.trans (reaches_taken rfl rfl hholds), ⟨hmem, rfl, hstep, rfl, rfl⟩,
      (if_pos hmore).symm⟩
  · have hholds : Cond.lt.holds 0 (s.x t2 + -BitVec.ofNat 64 1) = false := by
      rw [Cond.zero_lt, hstep]
      exact decide_eq_false (by omega)
    exact ⟨_, hbody.trans (reaches_notTaken rfl rfl hholds), ⟨hmem, rfl, hstep, rfl, rfl⟩,
      (if_neg hmore).symm⟩

/-- `_zero_bss_rem`, with `n + 1` bytes left. -/
theorem bssRem_reaches (n : ℕ) (hpc : s.pc = c.addr 33) (ha0 : s.x a0 = 0)
    (hleft : (s.x t2).toInt = n + 1) :
    ∃ s', c.Reaches alone s s' ∧ s'.pc = c.addr 37 ∧ Zeroes (n + 1) s s' := by
  have hlt := BitVec.toInt_lt (x := s.x t2)
  induction n generalizing s with
  | zero =>
    obtain ⟨s', hreach, hzero, hpc'⟩ := bssRem_turn hpc ha0 (by omega)
    exact ⟨s', hreach, by rw [hpc', if_neg (by omega)], hzero⟩
  | succ n ih =>
    obtain ⟨s₁, hreach, hzero₁, hpc₁⟩ := bssRem_turn hpc ha0 (by omega)
    rw [if_pos (by omega)] at hpc₁
    have hleft₁ := hzero₁.t2
    obtain ⟨s', hrest, hpc', hzero⟩ :=
      ih hpc₁ (hzero₁.a0.trans ha0) (by omega) (BitVec.toInt_lt (x := s₁.x t2))
    have hboth := hzero₁.trans hzero (by omega)
    rw [show 1 + (n + 1) = n + 1 + 1 by omega] at hboth
    exact ⟨s', hreach.trans hrest, hpc', hboth⟩

/-- The four stores of a turn of `_zero_bss_loop`. -/
theorem bssWords_zero (s : State) (ha0 : s.x a0 = 0) :
    (runOps s [.sd a0 0 t0, .sd a0 8 t0, .sd a0 16 t0, .sd a0 24 t0]).mem =
      s.mem.write (s.x t0) 32 fun _ => 0 := by
  have hword (m : Mem) (a : XWord) : m.write a 8 (byteOf (0 : XWord).toNat) =
      m.write a 8 fun _ => 0 := Mem.write_congr fun _ _ => by simp [byteOf]
  have hnext (n : ℕ) (hn : n ≤ 24) : (s.mem.write (s.x t0) n fun _ => 0).write
      (s.x t0 + BitVec.ofNat 64 n) 8 (fun _ => 0) = s.mem.write (s.x t0) (n + 8) fun _ => 0 :=
    Mem.write_append (by omega)
  show (((s.mem.write (s.x t0 + 0) 8 (byteOf (s.x a0).toNat)).write (s.x t0 + BitVec.ofNat 64 8) 8
    (byteOf (s.x a0).toNat)).write (s.x t0 + BitVec.ofNat 64 16) 8
    (byteOf (s.x a0).toNat)).write (s.x t0 + BitVec.ofNat 64 24) 8 (byteOf (s.x a0).toNat) = _
  rw [ha0, hword, hword, hword, hword, show s.x t0 + 0 = s.x t0 from BitVec.add_zero _,
    hnext 8 (by decide), hnext 16 (by decide), hnext 24 (by decide)]

/-- A turn of `_zero_bss_loop` ends the loop, leaves less than four words to `_zero_bss_rem`, or
zeroes four words. -/
theorem bssLoop_turn (hpc : s.pc = c.addr 22) (ha0 : s.x a0 = 0) :
    ∃ s', c.Reaches alone s s' ∧
      ((s.x t2).toInt ≤ 0 ∧ s'.pc = c.addr 37 ∧ Zeroes 0 s s' ∨
        0 < (s.x t2).toInt ∧ s'.pc = c.addr 33 ∧ Zeroes 0 s s' ∨
        32 ≤ (s.x t2).toInt ∧ Zeroes 32 s s' ∧
          s'.pc = if 32 < (s.x t2).toInt then c.addr 22 else c.addr 37) := by
  have hfirst := reaches_block (e := alone) [.addi t4 t2 (-32)] hpc rfl
  have hzero (a : XWord) : Zeroes 0 s { runOps s [.addi t4 t2 (-32)] with pc := a } :=
    ⟨Mem.write_zero.symm, (BitVec.add_zero _).symm, (Int.sub_zero _).symm, rfl, rfl⟩
  by_cases hpos : 0 < (s.x t2).toInt
  · have hnonempty : Cond.ge.holds 0 (s.x t2) = false := by
      rw [Cond.zero_ge]
      exact decide_eq_false (by omega)
    have hstep : (s.x t2 + -BitVec.ofNat 64 32).toInt = (s.x t2).toInt - 32 :=
      toInt_sub hpos le_rfl
    have hsecond := hfirst.trans (reaches_notTaken rfl rfl hnonempty)
    by_cases hfew : (s.x t2).toInt < 32
    · have hlt : Cond.lt.holds (s.x t2 + -BitVec.ofNat 64 32) 0 = true := by
        rw [Cond.lt_zero, hstep]
        exact decide_eq_true (by omega)
      exact ⟨_, hsecond.trans (reaches_taken rfl rfl hlt), .inr (.inl ⟨hpos, rfl, hzero _⟩)⟩
    · have hge : Cond.lt.holds (s.x t2 + -BitVec.ofNat 64 32) 0 = false := by
        rw [Cond.lt_zero, hstep]
        exact decide_eq_false (by omega)
      have hthird := hsecond.trans (reaches_notTaken rfl rfl hge)
      have hbody := hthird.trans (reaches_block [.sd a0 0 t0, .sd a0 8 t0, .sd a0 16 t0,
        .sd a0 24 t0, .addi t2 t2 (-32), .addi t0 t0 32] rfl rfl)
      have hmem := bssWords_zero { runOps s [.addi t4 t2 (-32)] with pc := c.addr 25 } ha0
      by_cases hmore : 32 < (s.x t2).toInt
      · have htaken : Cond.lt.holds 0 (s.x t2 + -BitVec.ofNat 64 32) = true := by
          rw [Cond.zero_lt, hstep]
          exact decide_eq_true (by omega)
        exact ⟨_, hbody.trans (reaches_taken rfl rfl htaken), .inr (.inr ⟨by omega,
          ⟨hmem, rfl, hstep, rfl, rfl⟩, (if_pos hmore).symm⟩)⟩
      · have hdone : Cond.lt.holds 0 (s.x t2 + -BitVec.ofNat 64 32) = false := by
          rw [Cond.zero_lt, hstep]
          exact decide_eq_false (by omega)
        have hlast := hbody.trans (reaches_notTaken rfl rfl hdone)
        exact ⟨_, hlast.trans (reaches_j rfl rfl), .inr (.inr ⟨by omega,
          ⟨hmem, rfl, hstep, rfl, rfl⟩, (if_neg hmore).symm⟩)⟩
  · have hempty : Cond.ge.holds 0 (s.x t2) = true := by
      rw [Cond.zero_ge]
      exact decide_eq_true (by omega)
    exact ⟨_, hfirst.trans (reaches_taken rfl rfl hempty), .inl ⟨by omega, rfl, hzero _⟩⟩

/-- `_zero_bss_loop` zeroes as many bytes as `t2` says, and none if that is negative. -/
theorem bssLoop_reaches (n : ℕ) (hpc : s.pc = c.addr 22) (ha0 : s.x a0 = 0)
    (hn : (s.x t2).toInt.toNat = n) :
    ∃ s', c.Reaches alone s s' ∧ s'.pc = c.addr 37 ∧ Zeroes n s s' := by
  have hlt := BitVec.toInt_lt (x := s.x t2)
  induction n using Nat.strong_induction_on generalizing s with
  | _ n ih =>
    obtain ⟨s₁, hturn, hcases⟩ := bssLoop_turn hpc ha0
    rcases hcases with ⟨hnone, hend, hzero₁⟩ | ⟨hpos, hrem, hzero₁⟩ | ⟨hwords, hzero₁, hnext⟩
    · rw [show n = 0 by omega]
      exact ⟨s₁, hturn, hend, hzero₁⟩
    · have hleft := hzero₁.t2
      obtain ⟨s', hrest, hpc', hzero⟩ :=
        bssRem_reaches (n - 1) hrem (hzero₁.a0.trans ha0) (by omega)
      have hboth := hzero₁.trans hzero (by omega)
      rw [show 0 + (n - 1 + 1) = n by omega] at hboth
      exact ⟨s', hturn.trans hrest, hpc', hboth⟩
    · have hleft := hzero₁.t2
      by_cases hmore : 32 < (s.x t2).toInt
      · rw [if_pos hmore] at hnext
        obtain ⟨s', hrest, hpc', hzero⟩ := ih (n - 32) (by omega) hnext (hzero₁.a0.trans ha0)
          (by omega) (BitVec.toInt_lt (x := s₁.x t2))
        have hboth := hzero₁.trans hzero (by omega)
        rw [show 32 + (n - 32) = n by omega] at hboth
        exact ⟨s', hturn.trans hrest, hpc', hboth⟩
      · rw [if_neg hmore] at hnext
        rw [show n = 32 by omega]
        exact ⟨s₁, hturn, hnext, hzero₁⟩

/-- From the symbols of the `.bss` section to `_fp_init`. -/
theorem bss_reaches (hpc : s.pc = c.addr 18) :
    ∃ s', c.Reaches alone s s' ∧ s'.pc = c.addr 37 ∧ s'.x sp = s.x sp ∧
      s'.mem = s.mem.write lk.bssStart (lk.bssEnd - lk.bssStart).toInt.toNat fun _ => 0 := by
  have hops := reaches_block (e := alone) [.li t0 lk.bssStart, .li t1 lk.bssEnd, .sub t2 t1 t0,
    .li a0 0] hpc rfl
  obtain ⟨s', hbss, hpc', hzero⟩ := bssLoop_reaches (s := { runOps s [.li t0 lk.bssStart,
    .li t1 lk.bssEnd, .sub t2 t1 t0, .li a0 0] with pc := c.addr 22 })
    (lk.bssEnd - lk.bssStart).toInt.toNat rfl rfl rfl
  exact ⟨s', hops.trans hbss, hpc', hzero.sp, hzero.mem⟩

/-- The bytes of the `.bss` section, by their distance from its start. -/
theorem mem_bss (hle : lk.bssStart ≤ lk.bssEnd)
    (hlen : lk.bssEnd.toNat - lk.bssStart.toNat < 2 ^ 63) (a : XWord) :
    (a - lk.bssStart).toNat < (lk.bssEnd - lk.bssStart).toInt.toNat ↔
      lk.bssStart ≤ a ∧ a < lk.bssEnd := by
  rw [BitVec.le_def] at hle
  have hsub : (lk.bssEnd - lk.bssStart).toNat = lk.bssEnd.toNat - lk.bssStart.toNat :=
    BitVec.toNat_sub_of_le hle
  have ha := a.isLt
  have hend := lk.bssEnd.isLt
  rw [BitVec.toInt_eq_toNat_of_lt (by omega), hsub, Int.toNat_natCast, BitVec.le_def,
    BitVec.lt_def, BitVec.toNat_sub]
  omega

/-- **Main result.** The zeroing code reaches `_fp_init`. Then every byte of the `.bss` section is
zero, and every other byte as it was. -/
theorem bss_zeroed (hpc : s.pc = c.addr 18) (hle : lk.bssStart ≤ lk.bssEnd)
    (hlen : lk.bssEnd.toNat - lk.bssStart.toNat < 2 ^ 63) :
    ∃ n s', c.run n s = some s' ∧ s'.pc = c.addr 37 ∧
      ∀ a, s'.mem a = if lk.bssStart ≤ a ∧ a < lk.bssEnd then 0 else s.mem a := by
  obtain ⟨s', hreach, hpc', -, hmem⟩ := bss_reaches hpc
  obtain ⟨n, hn⟩ := hreach.exists_run fun _ _ => id
  refine ⟨n, s', hn, hpc', fun a => ?_⟩
  rw [hmem, Mem.write]
  exact if_congr (mem_bss hle hlen a) rfl rfl

/-- From the saved registers to the call of main. -/
theorem main_reaches (hpc : s.pc = c.addr 16) :
    ∃ s', c.Reaches alone s s' ∧ s'.pc = c.addr 74 ∧ s'.x sp = s.x sp := by
  have hops := reaches_block (e := alone) [.li t0 lk.trapHandlerWrap, .csrw .mtvec t0] hpc rfl
  obtain ⟨s₁, hbss, hpc₁, hsp₁, -⟩ := bss_reaches (s := { runOps s [.li t0 lk.trapHandlerWrap,
    .csrw .mtvec t0] with pc := c.addr 18 }) rfl
  obtain ⟨s₂, hfp, hpc₂, hsp₂⟩ := fp_reaches hpc₁
  exact ⟨s₂, (hops.trans hbss).trans hfp, hpc₂, hsp₂.trans hsp₁⟩

/-- The global pointer that the program runs with. -/
def programGp (lk : Link) (s : State) : XWord :=
  if lk.globalPointer = 0 then s.x gp else lk.globalPointer

/-- The stack pointer that the program runs with, before anything is pushed. -/
def programSp (lk : Link) (s : State) : XWord :=
  if lk.stackPointer = 0 then s.x sp else lk.stackPointer

/-- Memory with the frame of `_start` at `a`. -/
def frame (lk : Link) (s : State) (a : XWord) : Mem :=
  ((s.mem.write a 8 (byteOf (s.x sp).toNat)).write (a + 8) 8
    (byteOf (programGp lk s).toNat)).write (a + 16) 8 (byteOf (s.x ra).toNat)

theorem stack_reaches (hpc : s.pc = c.addr 5) : ∃ s', c.Reaches alone s s' ∧ s'.pc = c.addr 9 ∧
    s'.x sp = programSp lk s ∧ s'.x t1 = s.x sp ∧ s'.x gp = s.x gp ∧ s'.x ra = s.x ra ∧
    s'.mem = s.mem := by
  have hops := reaches_block (e := alone) [.mv t1 sp, .li t0 lk.stackPointer] hpc rfl
  by_cases h0 : lk.stackPointer = 0
  · have hskip := hops.trans (reaches_taken rfl rfl (decide_eq_true h0))
    exact ⟨_, hskip, rfl, (if_pos h0).symm, rfl, rfl, rfl, rfl⟩
  · have hon := hops.trans (reaches_notTaken rfl rfl (decide_eq_false h0))
    have hset := hon.trans (reaches_block [.mv sp t0] rfl rfl)
    exact ⟨_, hset, rfl, (if_neg h0).symm, rfl, rfl, rfl, rfl⟩

theorem gp_reaches (hpc : s.pc = c.addr 9) : ∃ s', c.Reaches alone s s' ∧ s'.pc = c.addr 12 ∧
    s'.x gp = programGp lk s ∧ s'.x sp = s.x sp ∧ s'.x t1 = s.x t1 ∧ s'.x ra = s.x ra ∧
    s'.mem = s.mem := by
  have hops := reaches_block (e := alone) [.li t0 lk.globalPointer] hpc rfl
  by_cases h0 : lk.globalPointer = 0
  · have hskip := hops.trans (reaches_taken rfl rfl (decide_eq_true h0))
    exact ⟨_, hskip, rfl, (if_pos h0).symm, rfl, rfl, rfl, rfl⟩
  · have hon := hops.trans (reaches_notTaken rfl rfl (decide_eq_false h0))
    have hset := hon.trans (reaches_block [.mv gp t0] rfl rfl)
    exact ⟨_, hset, rfl, (if_neg h0).symm, rfl, rfl, rfl, rfl⟩

/-- Up to the saved registers. -/
theorem save_reaches (hpc : s.pc = c.addr 0) (hart : s.csr .mhartid = 0) :
    ∃ s', c.Reaches alone s s' ∧ s'.pc = c.addr 16 ∧ s'.x sp = programSp lk s + -24 ∧
      s'.mem = frame lk s (programSp lk s + -24) := by
  have hops := reaches_block (e := alone) [.csrci .mstatus 10, .csrr t0 .mhartid] hpc rfl
  have hhere := hops.trans (reaches_taken rfl rfl (decide_eq_true hart))
  obtain ⟨s₁, hstack, hpc₁, hsp₁, ht₁, hgp₁, hra₁, hmem₁⟩ := stack_reaches (s := { runOps s
    [.csrci .mstatus 10, .csrr t0 .mhartid] with pc := c.addr 5 }) rfl
  obtain ⟨s₂, hgp, hpc₂, hgp₂, hsp₂, ht₂, hra₂, hmem₂⟩ := gp_reaches hpc₁
  have hsave := reaches_block (e := alone) [.addi sp sp (-24), .sd t1 0 sp, .sd gp 8 sp,
    .sd ra 16 sp] hpc₂ rfl
  refine ⟨_, ((hhere.trans hstack).trans hgp).trans hsave, rfl, ?_, ?_⟩
  · show s₂.x sp + -24 = _
    rw [hsp₂, hsp₁]
    rfl
  · show ((s₂.mem.write (s₂.x sp + -24 + 0) 8 (byteOf (s₂.x t1).toNat)).write (s₂.x sp + -24 + 8) 8
      (byteOf (s₂.x gp).toNat)).write (s₂.x sp + -24 + 16) 8 (byteOf (s₂.x ra).toNat) = _
    have hzero (a : XWord) : a + 0 = a := BitVec.add_zero a
    have hgp' : programGp lk s₁ = programGp lk s := by
      unfold programGp
      rw [hgp₁]
      rfl
    rw [hsp₂, hsp₁, ht₂, ht₁, hgp₂, hgp', hra₂, hra₁, hmem₂, hmem₁, hzero]
    rfl

end Start

/-! ## Back to the caller -/

section Exit

variable {lk : Link} {c : Placed (crt0 lk)} {s s₁ s₂ s₃ : State} {v : XWord}

/-- The bytes of the frame, by their distance from its start. -/
theorem frame_byte (lk : Link) (s : State) (a : XWord) {j : ℕ} (hj : j < 24) :
    frame lk s a (a + BitVec.ofNat 64 j) =
      if j < 8 then byteOf (s.x sp).toNat j
      else if j < 16 then byteOf (programGp lk s).toNat (j - 8)
      else byteOf (s.x ra).toNat (j - 16) := by
  have hzero : a = a + BitVec.ofNat 64 0 := (BitVec.add_zero a).symm
  have hframe : frame lk s a = ((s.mem.write (a + BitVec.ofNat 64 0) 8
      (byteOf (s.x sp).toNat)).write (a + BitVec.ofNat 64 8) 8
      (byteOf (programGp lk s).toNat)).write (a + BitVec.ofNat 64 16) 8
      (byteOf (s.x ra).toNat) := by
    rw [← hzero]
    rfl
  rw [hframe, Mem.write_offset (by omega) (by omega), Mem.write_offset (by omega) (by omega),
    Mem.write_offset (by omega) (by omega)]
  by_cases h8 : j < 8
  · rw [if_neg (by omega), if_neg (by omega), if_pos (by omega), if_pos h8, Nat.sub_zero]
  · by_cases h16 : j < 16
    · rw [if_neg (by omega), if_pos (by omega), if_neg h8, if_pos h16]
    · rw [if_pos (by omega), if_neg h8, if_neg h16]

/-- Loading a register from the frame. -/
theorem frame_load {s s₃ : State} {a v : XWord} {k : ℕ} (hk : k ≤ 16)
    (hkept : ∀ i < 24, s₃.mem (a + BitVec.ofNat 64 i) = frame lk s a (a + BitVec.ofNat 64 i))
    (hslot : ∀ i < 8, frame lk s a (a + BitVec.ofNat 64 (k + i)) = byteOf v.toNat i) :
    BitVec.ofNat 64 (s₃.load 8 (a + BitVec.ofNat 64 k)) = v := by
  have hle : s₃.load 8 (a + BitVec.ofNat 64 k) = le 8 (byteOf v.toNat) := by
    refine le_congr fun i hi => ?_
    rw [BitVec.add_assoc, ← BitVec.ofNat_add, hkept _ (by omega), hslot i hi]
  rw [hle, le_byteOf, Nat.mod_eq_of_lt (show v.toNat < 256 ^ 8 from v.isLt), BitVec.ofNat_toNat,
    BitVec.setWidth_eq]

/-- What main, entered in state `s₂` with the frame that `s₁` has, does before it returns `v`. -/
structure MainReturns (c : Placed (crt0 lk)) (v : XWord) (s₁ s₂ s₃ : State) : Prop where
  pc : s₃.pc = c.addr 75
  a0 : s₃.x a0 = v
  /-- The callee-saved register that `_exit` uses. -/
  sp : s₃.x sp = s₂.x sp
  frame : ∀ i < 24, s₃.mem (s₂.x Riscv.sp + BitVec.ofNat 64 i) =
    s₁.mem (s₂.x Riscv.sp + BitVec.ofNat 64 i)

theorem exit_reaches (hpc : s₃.pc = c.addr 75) : ∃ s', c.Reaches alone s₃ s' ∧
    s'.pc = Instr.target (s'.x ra) ∧ s'.x a0 = s₃.x a0 ∧
    s'.x sp = BitVec.ofNat 64 (s₃.load 8 (s₃.x sp + 0)) ∧
    s'.x gp = BitVec.ofNat 64 (s₃.load 8 (s₃.x sp + 8)) ∧
    s'.x ra = BitVec.ofNat 64 (s₃.load 8 (s₃.x sp + 16)) := by
  have hops := reaches_block (e := alone) (exitOps lk) hpc rfl
  have hret := hops.trans (reaches_exec .ret rfl rfl)
  exact ⟨_, hret, rfl, rfl, rfl, rfl, rfl⟩

/-- What the caller gets back. -/
theorem exit_restores (hsp : s₁.x sp = programSp lk s + -24)
    (hmem : s₁.mem = frame lk s (programSp lk s + -24)) (hmain : s₂.x sp = s₁.x sp)
    (hret : MainReturns c v s₁ s₂ s₃) : ∃ s', c.Reaches alone s₃ s' ∧
      s'.pc = Instr.target (s.x ra) ∧ s'.x a0 = v ∧ s'.x sp = s.x sp ∧
      s'.x gp = programGp lk s ∧ s'.x ra = s.x ra := by
  obtain ⟨s', hreach, hpc, ha0, hsp', hgp', hra'⟩ := exit_reaches hret.pc
  have hbase : s₃.x sp = programSp lk s + -24 := by rw [hret.sp, hmain, hsp]
  have hkept : ∀ i < 24, s₃.mem (programSp lk s + -24 + BitVec.ofNat 64 i) =
      frame lk s (programSp lk s + -24) (programSp lk s + -24 + BitVec.ofNat 64 i) := by
    intro i hi
    have h := hret.frame i hi
    rw [hmain, hsp, hmem] at h
    exact h
  rw [hbase] at hsp' hgp' hra'
  have hra : s'.x ra = s.x ra := hra'.trans <| frame_load (k := 16) (by omega) hkept fun i hi => by
    rw [frame_byte lk s _ (by omega), if_neg (by omega), if_neg (by omega),
      Nat.add_sub_cancel_left]
  refine ⟨s', hreach, by rw [hpc, hra], ha0.trans hret.a0, ?_, ?_, hra⟩
  · refine hsp'.trans (frame_load (k := 0) (by omega) hkept fun i hi => ?_)
    rw [frame_byte lk s _ (by omega), if_pos (by omega), Nat.zero_add]
  · refine hgp'.trans (frame_load (k := 8) (by omega) hkept fun i hi => ?_)
    rw [frame_byte lk s _ (by omega), if_neg (by omega), if_pos (by omega),
      Nat.add_sub_cancel_left]

end Exit

/-! ## Main result -/

section Main

variable {lk : Link} {c : Placed (crt0 lk)} {s : State}

/-- What a caller relies on that calls the program as a function. -/
structure Restored (v : XWord) (s s' : State) : Prop where
  sp : s'.x sp = s.x sp
  gp : s'.x gp = s.x gp
  ra : s'.x ra = s.x ra
  a0 : s'.x a0 = v

/-- From `_start` on hart 0, the registers are saved in state `s₁` and main is called in state
`s₂`. -/
structure Starts (c : Placed (crt0 lk)) (s s₁ s₂ : State) : Prop where
  saves : c.Reaches alone s s₁
  saved : s₁.pc = c.addr 16
  calls : c.Reaches alone s₁ s₂
  called : s₂.pc = c.addr 74

/-- **Main result.** The program calls main. If main returns, the caller gets control back, and
everything it relies on exactly if its global pointer is that of the program. -/
theorem exit_restores_iff (hpc : s.pc = c.addr 0) (hart : s.csr .mhartid = 0)
    (hgp : lk.globalPointer ≠ 0) : ∃ s₁ s₂, Starts c s s₁ s₂ ∧
      ∀ v s₃, MainReturns c v s₁ s₂ s₃ → ∃ s', c.Reaches alone s₃ s' ∧
        s'.pc = Instr.target (s.x ra) ∧ (Restored v s s' ↔ s.x gp = lk.globalPointer) := by
  obtain ⟨s₁, hsave, hpc₁, hsp₁, hmem₁⟩ := save_reaches hpc hart
  obtain ⟨s₂, hmain, hpc₂, hsp₂⟩ := main_reaches hpc₁
  refine ⟨s₁, s₂, ⟨hsave, hpc₁, hmain, hpc₂⟩, fun v s₃ hret => ?_⟩
  obtain ⟨s', hreach, hpc', ha0, hsp, hgp', hra⟩ := exit_restores hsp₁ hmem₁ hsp₂ hret
  have hprogram : programGp lk s = lk.globalPointer := if_neg hgp
  refine ⟨s', hreach, hpc', fun h => ?_, fun h => ⟨hsp, ?_, hra, ha0⟩⟩
  · rw [← h.gp, hgp', hprogram]
  · rw [hgp', hprogram, h]

end Main

/-! ## A caller with another global pointer -/

/-- A program that is linked with a global pointer, but no stack pointer. -/
def sampleLink : Link := ⟨0, 0x20000800, 0x10000200, 0x20000000, 0x20000021, 0x10000400, 0x03000000⟩

def sampleCode : Placed (crt0 sampleLink) :=
  .linear _ 0x10000000 (by decide) (by decide)

/-- A caller in the boot ROM. -/
def sampleCaller : State where
  pc := sampleCode.addr 0
  x r := if r = sp then 0x30000000 else if r = gp then 0x02001800 else if r = ra then 0x02000100
    else 0
  f _ := 0
  csr _ := 0
  mem _ := 0

/-- 33 bytes of `.bss`, in memory full of ones. -/
theorem bss_zeroed_sample : ∃ n s',
    sampleCode.run n { sampleCaller with pc := sampleCode.addr 18, mem := fun _ => 0xFF } =
        some s' ∧
      s'.pc = sampleCode.addr 37 ∧
      ∀ a, s'.mem a = if sampleLink.bssStart ≤ a ∧ a < sampleLink.bssEnd then 0 else 0xFF :=
  bss_zeroed rfl (by decide) (by decide)

theorem exit_restores_iff_sample : ∃ s₁ s₂, Starts sampleCode sampleCaller s₁ s₂ ∧
    ∀ v s₃, MainReturns sampleCode v s₁ s₂ s₃ → ∃ s', sampleCode.Reaches alone s₃ s' ∧
      s'.pc = Instr.target (sampleCaller.x ra) ∧
      (Restored v sampleCaller s' ↔ sampleCaller.x gp = sampleLink.globalPointer) :=
  exit_restores_iff rfl rfl (by decide)

/-- Main returns 7, and the caller gets the global pointer of the program. -/
theorem sampleCaller_not_restored : ∃ s₁ s₂ s₃ s', Starts sampleCode sampleCaller s₁ s₂ ∧
    MainReturns sampleCode 7 s₁ s₂ s₃ ∧ sampleCode.Reaches alone s₃ s' ∧
    s'.pc = Instr.target (sampleCaller.x ra) ∧ ¬Restored 7 sampleCaller s' := by
  obtain ⟨s₁, hsave, hpc₁, hsp₁, hmem₁⟩ := @save_reaches _ sampleCode sampleCaller rfl rfl
  obtain ⟨s₂, hmain, hpc₂, hsp₂⟩ := main_reaches hpc₁
  have hret : MainReturns sampleCode 7 s₁ s₂
      { s₂ with pc := sampleCode.addr 75, x := Function.update s₂.x a0 7, mem := s₁.mem } :=
    ⟨rfl, rfl, rfl, fun _ _ => rfl⟩
  obtain ⟨s', hreach, hpc', -, -, hgp', -⟩ := exit_restores hsp₁ hmem₁ hsp₂ hret
  refine ⟨s₁, s₂, _, s', ⟨hsave, hpc₁, hmain, hpc₂⟩, hret, hreach, hpc', fun h => ?_⟩
  have hgp := hgp'.symm.trans h.gp
  exact absurd hgp (by decide)

end Cheshire.Crt0
