import Cheshire.Lib.Riscv

/-!
# Programs that return: `boot_next_stage`

The boot ROM calls the next stage at the end of `boot_next_stage`, with `jalr ra, 0(t0)`. This
overwrites the return address of `boot_next_stage` itself, which is not saved.

**Theorem (`boot_next_stage_stuck`).** When the next stage has returned, the `ret` after the call
jumps to itself forever: the caller of `boot_next_stage` never gets control back.

Memory and the interrupt bits change at any time: other harts run, and registers of devices are
not memory.
-/

namespace Cheshire.BootNextStage

open Lib Riscv Placed

/-! ## The code -/

/-- `__base_regs` and `__base_clint`. -/
structure Link where
  baseRegs : XWord
  baseClint : XWord

/-- The macro `smp_resume(t0, t1, t2)`: positions 5 to 30. -/
def smpResume (lk : Link) : List Instr :=
  [.op (.li t0 lk.baseClint),
    .op (.li t2 lk.baseRegs),
    .op (.lw t2 76 t2),
    .op (.slli t2 t2 2),
    .op (.add t2 t0 t2),
    -- `1:`, at 10
    .op (.li t1 1),
    .op (.sw t1 0 t0),
    .op (.addi t0 t0 4),
    .blt t0 t2 10,
    -- `2:`, at 14
    .op .wfi,
    .op (.csrr t1 .mip),
    .op (.andi t1 t1 8),
    .beqz t1 14,
    .op (.li t0 lk.baseClint),
    .op (.csrr t1 .mhartid),
    .op (.slli t1 t1 2),
    .op (.add t1 t1 t0),
    .op (.sw zero 0 t1),
    .op (.li t2 lk.baseRegs),
    .op (.lw t2 76 t2),
    .op (.slli t2 t2 2),
    .op (.add t2 t0 t2),
    -- `3:`, at 27
    .op (.lw t1 0 t0),
    .bnez t1 27,
    .op (.addi t0 t0 4),
    .blt t0 t2 27]

/-- The call of the next stage is at 37, the `ret` at 38. -/
def bootNextStage (lk : Link) : List Instr :=
  [.op (.li t0 lk.baseRegs),
    .op (.sw a0 16 t0),
    .op (.srli a0 a0 32),
    .op (.sw a0 20 t0),
    .op .fence] ++
  smpResume lk ++
  [.op (.li t0 lk.baseRegs),
    .op (.lwu t1 20 t0),
    .op (.slli t1 t1 32),
    .op (.lwu t0 16 t0),
    .op (.or t0 t0 t1),
    .op (.csrr a0 .mhartid),
    .jalr ra t0,
    .ret]

/-- Other harts and devices do not touch the registers of the hart. -/
def others (s s' : State) : Prop := s'.pc = s.pc ∧ s'.x = s.x ∧ s'.f = s.f

section Run

variable {lk : Link} {c : Placed (bootNextStage lk)} {s s' : State}

/-- The next stage, entered in state `s`, jumps to the return address it was entered with, leaving
`v` in `a0`. -/
structure StageReturns (v : XWord) (s s' : State) : Prop where
  pc : s'.pc = Instr.target (s'.x ra)
  ra : s'.x Riscv.ra = s.x Riscv.ra
  a0 : s'.x Riscv.a0 = v

/-- One call of `boot_next_stage`, from its first instruction to the return of the next stage:
`s₁` is before the call of the next stage, `s₂` after it, `s₃` when it has returned. -/
structure Boot (c : Placed (bootNextStage lk)) (v : XWord) (s s₁ s₂ s₃ : State) : Prop where
  entered : s.pc = c.addr 0
  launches : c.Reaches others s s₁
  launched : s₁.pc = c.addr 37
  calls : c.next s₁ = some s₂
  returns : StageReturns v s₂ s₃

/-! ## At the `ret` -/

/-- The state in which `ret` jumps to itself. -/
structure Stuck (c : Placed (bootNextStage lk)) (s : State) : Prop where
  pc : s.pc = c.addr 38
  ra : s.x Riscv.ra = c.addr 38

theorem Stuck.step (h : Stuck c s) (hs : c.Step others s s') : Stuck c s' := by
  rcases hs with hs | hs
  · have hret := c.next_eq .ret h.pc rfl
    rw [hret] at hs
    obtain rfl := Option.some.inj hs
    refine ⟨?_, h.ra⟩
    show Instr.target (s.x Riscv.ra) = _
    rw [h.ra, c.even]
  · obtain ⟨hpc, hx, -⟩ := hs
    exact ⟨hpc.trans h.pc, by rw [hx, h.ra]⟩

theorem Stuck.reaches (h : Stuck c s) (hs : c.Reaches others s s') : Stuck c s' := by
  induction hs with
  | refl => exact h
  | tail _ hstep ih => exact ih.step hstep

/-- When the next stage has returned, the hart is stuck. -/
theorem Boot.stuck {v : XWord} {s₁ s₂ s₃ : State} (h : Boot c v s s₁ s₂ s₃) : Stuck c s₃ := by
  have hcall := c.next_eq (.jalr ra t0) h.launched rfl
  rw [h.calls] at hcall
  obtain rfl := Option.some.inj hcall
  have hra : s₃.x ra = c.addr 38 := h.returns.ra
  exact ⟨by rw [h.returns.pc, hra, c.even], hra⟩

/-! ## Main result -/

/-- **Main result.** The caller, which is not in `boot_next_stage`, never gets control back. -/
theorem boot_next_stage_stuck {v : XWord} {s₁ s₂ s₃ : State} (h : Boot c v s s₁ s₂ s₃)
    (hcaller : ∀ i < (bootNextStage lk).length, Instr.target (s.x ra) ≠ c.addr i) :
    ¬∃ s₄, c.Reaches others s₃ s₄ ∧ s₄.pc = Instr.target (s.x ra) ∧ s₄.x a0 = v := by
  intro hback
  obtain ⟨s₄, hreach, hpc, -⟩ := hback
  have hstuck := h.stuck.reaches hreach
  have h38 : 38 < (bootNextStage lk).length := by simp [bootNextStage, smpResume]
  exact hcaller 38 h38 (hpc.symm.trans hstuck.pc)

end Run

/-! ## A run -/

def sampleLink : Link := ⟨0x03000000, 0x02040000⟩

def sampleCode : Placed (bootNextStage sampleLink) :=
  .linear _ 0x02000400 (by decide) (by decide)

/-- A single hart, whose software interrupt is pending when it looks for it. -/
def sampleStart : State where
  pc := sampleCode.addr 0
  x r := if r = ra then 0x02000200 else if r = a0 then 0x10000000 else 0
  f _ := 0
  csr r := if r = .mip then 8 else 0
  mem a := if a = 0x0300004C then 1 else 0

/-- The hart calls the next stage, which returns 7. -/
theorem sampleBoot : ∃ s₁ s₂ s₃, Boot sampleCode 7 sampleStart s₁ s₂ s₃ := by
  have hpc : (sampleCode.run 37 sampleStart).map State.pc = some (sampleCode.addr 37) := by
    decide +kernel
  obtain ⟨s₁, hrun, hpc₁⟩ := Option.map_eq_some_iff.1 hpc
  have hcall := sampleCode.next_eq (.jalr ra t0) hpc₁ rfl
  have hback : StageReturns 7 (Instr.exec sampleCode.addr 37 s₁ (.jalr ra t0))
      { (s₁.set ra (sampleCode.addr 38)).set a0 7 with pc := sampleCode.addr 38 } :=
    ⟨(sampleCode.even 38).symm, rfl, rfl⟩
  exact ⟨s₁, _, _, rfl, reaches_run hrun, hpc₁, hcall, hback⟩

theorem sampleCaller : ∀ i < (bootNextStage sampleLink).length,
    Instr.target (sampleStart.x ra) ≠ sampleCode.addr i := by
  decide

theorem boot_next_stage_stuck_sample : ∃ s₁ s₂ s₃, Boot sampleCode 7 sampleStart s₁ s₂ s₃ ∧
    ¬∃ s₄, sampleCode.Reaches others s₃ s₄ ∧ s₄.pc = Instr.target (sampleStart.x ra) ∧
      s₄.x a0 = 7 := by
  obtain ⟨s₁, s₂, s₃, h⟩ := sampleBoot
  exact ⟨s₁, s₂, s₃, h, boot_next_stage_stuck h sampleCaller⟩

/-- The boot ROM's main does not return 7. -/
theorem sampleBoot_not_returned : ∃ s₁ s₂ s₃, Boot sampleCode 7 sampleStart s₁ s₂ s₃ ∧
    ∀ s₄, sampleCode.Reaches others s₃ s₄ → s₄.pc ≠ Instr.target (sampleStart.x ra) := by
  obtain ⟨s₁, s₂, s₃, h⟩ := sampleBoot
  refine ⟨s₁, s₂, s₃, h, fun s₄ hreach hpc => ?_⟩
  exact sampleCaller 38 (by decide) (hpc.symm.trans (h.stuck.reaches hreach).pc)

end Cheshire.BootNextStage
