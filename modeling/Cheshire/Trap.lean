import Cheshire.Lib.Interrupt
import Cheshire.Lib.Spill
import Mathlib.Tactic.IntervalCases

/-!
# Traps: `_trap_handler_wrap`

`_start` makes `_trap_handler_wrap` the trap vector. It saves the caller-saved integer registers on
the stack of the interrupted program, calls `trap_vector`, takes them back and returns with `mret`.

**Theorem (`trap_returns`).** If `trap_vector` returns, as a C function without floating-point code
that leaves `mepc` alone, the interrupted program goes on where it was, with all integer registers,
and with memory changed below its stack pointer and in the handler's own data only.

**Theorem (`interrupted_agrees`).** If `trap_vector` always returns so, a program that reads nothing
that a trap may change computes the same with any number of traps at any places as without traps.
(The two functions of this name in the repository wait forever.)

Harts are in machine mode throughout. Which trap is taken, and why, does not matter to the code.
-/

namespace Cheshire.Trap

open Lib Riscv Placed

/-! ## Taking a trap -/

/-- A hart in machine mode, with the register for the address to return to. -/
structure Hart extends State where
  mepc : XWord

/-- `mstatus` when a trap is taken: MPIE is MIE, MIE is 0, and MPP is machine mode. -/
def trapStatus (m : XWord) : XWord := m &&& ~~~(0x1888 : XWord) ||| (m &&& 0x8) <<< 4 ||| 0x1800

/-- `mstatus` after `mret`: MIE is MPIE, MPIE is 1, and MPP is user mode. -/
def mretStatus (m : XWord) : XWord := m &&& ~~~(0x1888 : XWord) ||| (m &&& 0x80) >>> 4 ||| 0x80

/-- A trap is taken. The trap vector is in direct mode if its two low bits are zero. -/
def take (s : State) : Hart where
  pc := s.csr .mtvec
  x := s.x
  f := s.f
  csr := Function.update s.csr .mstatus (trapStatus (s.csr .mstatus))
  mem := s.mem
  mepc := s.pc

def mret (h : Hart) : State :=
  { h.toState with
    pc := h.mepc
    csr := Function.update h.csr .mstatus (mretStatus (h.csr .mstatus)) }

/-! ## The code -/

/-- What `_trap_handler_wrap` saves. -/
def wrapSlots : List Slot :=
  [(ra, 120), (t0, 112), (t1, 104), (t2, 96), (a0, 88), (a1, 80), (a2, 72), (a3, 64), (a4, 56),
    (a5, 48), (a6, 40), (a7, 32), (t3, 24), (t4, 16), (t5, 8), (t6, 0)]

/-- Up to the call: positions 0 to 16. -/
def enterOps : List Op := .addi sp sp (-128) :: saveOps wrapSlots

/-- From the call on: positions 18 to 34. -/
def leaveOps : List Op := loadOps wrapSlots ++ [.addi sp sp 128]

/-- `_trap_handler_wrap` up to its `mret`, which is at position 35. -/
def trapHandlerWrap (trapVector : XWord) : List Instr :=
  enterOps.map .op ++ [.call trapVector] ++ leaveOps.map .op

/-- The wrapper in memory, at a multiple of 16. -/
structure Wrapper (trapVector : XWord) where
  code : Placed (trapHandlerWrap trapVector)
  aligned : (code.addr 0).toNat % 16 = 0

/-! ## The handler -/

/-- The stack and global pointers, the thread pointer, and `s0` to `s11`. -/
def calleeSaved : List Reg :=
  [sp, gp, tp, s0, s1, s2, s3, s4, s5, s6, s7, s8, s9, s10, s11]

/-- What a function may do that is called in `h`, and returns in `h'`: it uses no floating-point
registers, changes the control registers in `vol`, its own data, and `depth` bytes of stack. -/
structure Handles (vol : Set Csr) (own : Set XWord) (depth : ℕ) (h h' : Hart) : Prop where
  pc : h'.pc = Instr.target (h.x ra)
  saved : ∀ r ∈ calleeSaved, h'.x r = h.x r
  f : h'.f = h.f
  csr : ∀ c ∉ vol, h'.csr c = h.csr c
  mepc : h'.mepc = h.mepc
  frame : ∀ i < 128, h'.mem (h.x sp + BitVec.ofNat 64 i) = h.mem (h.x sp + BitVec.ofNat 64 i)
  mem : ∀ a ∉ own, a ∉ span (h.x sp - BitVec.ofNat 64 depth) depth → h'.mem a = h.mem a

/-- What a trap may change in memory: the handler's data, and the stack for the wrapper's frame and
the handler. -/
def below (own : Set XWord) (depth : ℕ) (v : XWord) : Set XWord :=
  own ∪ span (v - BitVec.ofNat 64 (128 + depth)) (128 + depth)

/-! ## A trap -/

section Wrap

variable {tv : XWord} (w : Wrapper tv) {vol : Set Csr} {own : Set XWord} {depth : ℕ}
  {s : State} {h h' : Hart}

/-- Instructions of the wrapper, which leave `mepc` alone. -/
def Wrapper.run (n : ℕ) (h : Hart) : Option Hart :=
  (w.code.run n h.toState).map fun s => ⟨s, h.mepc⟩

theorem wrapSlots_layout : Layout 128 wrapSlots where
  fits := by decide
  apart := by decide
  regs := by decide
  plain := by decide

/-- The frame is allocated. -/
def allocated (s : State) : State := Op.run (take s).toState (.addi sp sp (-128))

/-- The registers are saved. -/
@[irreducible] def framed (s : State) : State := runOps (allocated s) (saveOps wrapSlots)

/-- The registers are taken back. -/
@[irreducible] def unframed (s : State) : State := runOps s (loadOps wrapSlots)

/-- The state in which `trap_vector` is called. -/
def entered (s : State) : Hart := ⟨{ (framed s).set ra (w.code.addr 18) with pc := tv }, s.pc⟩

/-- The state at `mret`, after `trap_vector` has returned in `h`. -/
def left (h : Hart) : Hart :=
  ⟨{ Op.run (unframed h.toState) (.addi sp sp 128) with pc := w.code.addr 35 }, h.mepc⟩

theorem framed_eq (s : State) : framed s = runOps (take s).toState enterOps := by
  rw [framed, enterOps, runOps_cons, allocated]

theorem unframed_eq (s : State) :
    Op.run (unframed s) (.addi sp sp 128) = runOps s leaveOps := by
  rw [leaveOps, runOps_append, unframed]
  rfl

theorem call_next (hpc : s.pc = w.code.addr 17) :
    w.code.next s = some { s.set ra (w.code.addr 18) with pc := tv } :=
  w.code.next_eq (.call tv) hpc rfl

/-- From the trap to the call. -/
theorem enter_run (hvec : s.csr .mtvec = w.code.addr 0) :
    w.run 18 (take s) = some (entered w s) := by
  have hops : w.code.run 17 (take s).toState =
      some { runOps (take s).toState enterOps with pc := w.code.addr 17 } :=
    run_block enterOps hvec rfl
  rw [← framed_eq] at hops
  rw [Wrapper.run, show 18 = 17 + 1 from rfl, run_add, hops]
  show (w.code.run 1 { framed s with pc := w.code.addr 17 }).map _ = _
  rw [run_next (call_next w rfl)]
  rfl

/-- From the return of `trap_vector` to `mret`. -/
theorem leave_run (hpc : h.pc = w.code.addr 18) : w.run 17 h = some (left w h) := by
  have hops : w.code.run 17 h.toState =
      some { runOps h.toState leaveOps with pc := w.code.addr 35 } := run_block leaveOps hpc rfl
  rw [Wrapper.run, hops, ← unframed_eq]
  rfl

/-! ### The state of the handler -/

theorem allocated_sp (s : State) : (allocated s).x sp = s.x sp - 128 :=
  (BitVec.sub_eq_add_neg _ _).symm

theorem allocated_other {r : Reg} (hr : r ≠ sp) (s : State) : (allocated s).x r = s.x r :=
  Function.update_of_ne hr _ _

theorem framed_frame (s : State) : (framed s).x = (allocated s).x ∧ (framed s).f = s.f ∧
    (framed s).csr = (take s).csr := by
  obtain ⟨hx, hf, hcsr, -⟩ := saveOps_frame wrapSlots (allocated s)
  unfold framed
  exact ⟨hx, hf, hcsr⟩

theorem framed_mem {a : XWord} (s : State) (ha : 128 ≤ (a - (s.x sp - 128)).toNat) :
    (framed s).mem a = s.mem a := by
  rw [← allocated_sp] at ha
  unfold framed
  exact saveOps_mem wrapSlots_layout (by decide) (allocated s) ha

theorem entered_x {r : Reg} (hr : r ≠ ra) (s : State) : (entered w s).x r = (allocated s).x r := by
  rw [← (framed_frame s).1]
  exact Function.update_of_ne hr _ _

theorem entered_ra (s : State) : (entered w s).x ra = w.code.addr 18 := by
  show Function.update (framed s).x ra (w.code.addr 18) ra = _
  rw [Function.update_self]

/-! ### The state after the trap -/

theorem unframed_frame (s : State) : (unframed s).mem = s.mem ∧ (unframed s).f = s.f ∧
    (unframed s).csr = s.csr := by
  obtain ⟨hmem, hf, hcsr, -⟩ := loadOps_frame wrapSlots s
  unfold unframed
  exact ⟨hmem, hf, hcsr⟩

theorem unframed_other {r : Reg} (hr : r ∉ wrapSlots.map Prod.fst) (s : State) :
    (unframed s).x r = s.x r := by
  unfold unframed
  exact loadOps_other hr s

theorem left_sp (h : Hart) : (left w h).x sp = h.x sp + 128 := by
  rw [← unframed_other (r := sp) (by decide) h.toState]
  exact Function.update_self sp ((unframed h.toState).x sp + 128) (unframed h.toState).x

theorem left_other {r : Reg} (hr : r ≠ sp) (h : Hart) :
    (left w h).x r = (unframed h.toState).x r := Function.update_of_ne hr _ _

/-- Every register is the stack pointer, saved by the wrapper, or saved by the handler. -/
theorem reg_cases (r : Reg) : r = zero ∨ r = sp ∨ (r ≠ sp ∧ r ∈ wrapSlots.map Prod.fst) ∨
    (r ≠ sp ∧ r ≠ ra ∧ r ∉ wrapSlots.map Prod.fst ∧ r ∈ calleeSaved) := by
  revert r
  decide

/-- The integer registers are those of the interrupted program. -/
theorem left_get (hh : Handles vol own depth (entered w s) h) (r : Reg) :
    (left w h).get r = s.get r := by
  have hsp : h.x sp = (allocated s).x sp :=
    (hh.saved sp (by decide)).trans (entered_x w (by decide) s)
  rcases reg_cases r with rfl | rfl | ⟨hr, hslot⟩ | ⟨hr, hra, hslot, hsaved⟩
  · rfl
  · show (left w h).x sp = s.x sp
    rw [left_sp, hsp, allocated_sp, BitVec.sub_add_cancel]
  · obtain ⟨p, hp, rfl⟩ := List.mem_map.1 hslot
    have hplain := wrapSlots_layout.plain p hp
    have hframe (i : ℕ) (hi : i < 128) : h.mem ((allocated s).x sp + BitVec.ofNat 64 i) =
        (runOps (allocated s) (saveOps wrapSlots)).mem
          ((allocated s).x sp + BitVec.ofNat 64 i) := by
      have hkept := hh.frame i hi
      rw [entered_x w (by decide) s] at hkept
      refine hkept.trans ?_
      show (framed s).mem _ = _
      rw [framed]
    rw [get_plain _ hplain.2, get_plain _ hplain.2, left_other w hr, unframed,
      loaded_saved wrapSlots_layout (by decide) hsp hframe hp, allocated_other hr]
  · have hzero : r ≠ zero := by
      rintro rfl
      exact absurd hsaved (by decide)
    rw [get_plain _ hzero, get_plain _ hzero, left_other w hr, unframed_other hslot,
      hh.saved r hsaved, entered_x w hra s, allocated_other hr]

/-- The frame of the wrapper and the stack of the handler, seen from the interrupted program. -/
theorem span_stack {v a : XWord} (ha : a ∉ span (v - BitVec.ofNat 64 (128 + depth)) (128 + depth)) :
    128 ≤ (a - (v - 128)).toNat ∧
      a ∉ span (v - 128 - BitVec.ofNat 64 depth) depth := by
  have hbase : v - BitVec.ofNat 64 (128 + depth) = v - 128 - BitVec.ofNat 64 depth := by
    rw [BitVec.ofNat_add, BitVec.sub_sub]
    rfl
  rw [hbase] at ha
  have hfar : 128 + depth ≤ (a - (v - 128 - BitVec.ofNat 64 depth)).toNat := not_lt.1 ha
  have hdist : a - (v - 128 - BitVec.ofNat 64 depth) = a - (v - 128) + BitVec.ofNat 64 depth := by
    refine BitVec.eq_of_toNat_eq ?_
    simp only [BitVec.toNat_sub, BitVec.toNat_add, BitVec.toNat_ofNat]
    omega
  refine ⟨?_, fun hin => ?_⟩
  · have hle : (a - (v - 128) + BitVec.ofNat 64 depth).toNat ≤ (a - (v - 128)).toNat + depth := by
      rw [BitVec.toNat_add, BitVec.toNat_ofNat]
      omega
    rw [hdist] at hfar
    omega
  · have hnear : (a - (v - 128 - BitVec.ofNat 64 depth)).toNat < depth := hin
    omega

theorem left_mem (hh : Handles vol own depth (entered w s) h) {a : XWord}
    (ha : a ∉ below own depth (s.x sp)) : (left w h).mem a = s.mem a := by
  obtain ⟨hown, hstack⟩ := not_or.1 ha
  obtain ⟨hframe, hhandler⟩ := span_stack hstack
  have hsp : (entered w s).x sp = s.x sp - 128 :=
    (entered_x w (by decide) s).trans (allocated_sp s)
  have hkept := hh.mem a hown (by rwa [hsp])
  have hframed : (framed s).mem a = s.mem a := framed_mem s hframe
  rw [← hframed, ← (unframed_frame h.toState).1] at *
  exact hkept

/-- Except for the previous state that it records, `mstatus` is restored. -/
theorem mretStatus_trapStatus (m : XWord) :
    mretStatus (trapStatus m) &&& ~~~(0x1880 : XWord) = m &&& ~~~(0x1880 : XWord) := by
  unfold mretStatus trapStatus
  refine BitVec.eq_of_getLsbD_eq fun i hi => ?_
  interval_cases i <;> simp

/-! ### The whole trap -/

variable {w}

theorem left_agree (hh : Handles vol own depth (entered w s) h) :
    Agree (insert .mstatus vol) (below own depth (s.get sp)) s (mret (left w h)) where
  pc := hh.mepc
  get := left_get w hh
  f := (unframed_frame h.toState).2.1.trans (hh.f.trans (framed_frame s).2.1)
  csr c hc := by
    obtain ⟨hne, hvol⟩ := not_or.1 hc
    have hleft : (left w h).csr c = h.csr c := congrFun (unframed_frame h.toState).2.2 c
    have hentered : (entered w s).csr c = (take s).csr c := congrFun (framed_frame s).2.2 c
    show Function.update (left w h).csr .mstatus _ c = s.csr c
    rw [Function.update_of_ne hne, hleft, hh.csr c hvol, hentered]
    exact Function.update_of_ne hne _ _
  mem a ha := left_mem w hh ha

theorem left_status (hh : Handles vol own depth (entered w s) h) (hvol : .mstatus ∉ vol) :
    (mret (left w h)).csr .mstatus &&& ~~~(0x1880 : XWord) =
      s.csr .mstatus &&& ~~~(0x1880 : XWord) := by
  have hleft : (left w h).csr .mstatus = h.csr .mstatus :=
    congrFun (unframed_frame h.toState).2.2 _
  have hentered : (entered w s).csr .mstatus = trapStatus (s.csr .mstatus) := by
    refine (congrFun (framed_frame s).2.2 _).trans ?_
    exact Function.update_self .mstatus (trapStatus (s.csr .mstatus)) s.csr
  show Function.update (left w h).csr .mstatus (mretStatus ((left w h).csr .mstatus)) .mstatus
    &&& _ = _
  rw [Function.update_self, hleft, hh.csr _ hvol, hentered, mretStatus_trapStatus]

variable (w) in
/-- The trap vector is the wrapper, which calls the handler, and returns to the program. -/
def Serviced (handler : Hart → Hart → Prop) (s s' : State) : Prop :=
  s.csr .mtvec = w.code.addr 0 ∧ ∃ h₁ h₂ h₃, w.run 18 (take s) = some h₁ ∧ handler h₁ h₂ ∧
    w.run 17 h₂ = some h₃ ∧ s' = mret h₃

variable {handler : Hart → Hart → Prop}

theorem serviced_agree
    (hhandler : ∀ h h', h.pc = tv → handler h h' → Handles vol own depth h h')
    (hs : Serviced w handler s s') :
    Agree (insert .mstatus vol) (below own depth (s.get sp)) s s' := by
  obtain ⟨hvec, h₁, h₂, h₃, henter, hcall, hleave, rfl⟩ := hs
  obtain rfl := Option.some.inj (henter.symm.trans (enter_run w hvec))
  have hh := hhandler _ h₂ rfl hcall
  have hpc : h₂.pc = w.code.addr 18 := by rw [hh.pc, entered_ra, w.code.even]
  obtain rfl := Option.some.inj (hleave.symm.trans (leave_run w hpc))
  exact left_agree hh

end Wrap

/-! ## A program that spills a register -/

def wrapper : Wrapper 0x2000 where
  code := .linear (trapHandlerWrap 0x2000) 0x1000 (by decide) (by decide)
  aligned := by decide

/-- The handler overwrites a caller-saved register and a word of its stack. -/
def clobber (h : Hart) : Hart :=
  { h with
    pc := Instr.target (h.x ra)
    x := Function.update h.x t0 0
    mem := h.mem.write (h.x sp - BitVec.ofNat 64 8) 8 fun _ => 0xFF }

theorem clobber_mem (h : Hart) :
    (clobber h).mem = h.mem.write (h.x sp - BitVec.ofNat 64 8) 8 fun _ => 0xFF := rfl

theorem clobber_handles (h : Hart) : Handles ∅ ∅ 8 h (clobber h) where
  pc := rfl
  saved r hr := Function.update_of_ne (by rintro rfl; exact absurd hr (by decide)) _ _
  f := rfl
  csr _ _ := rfl
  mepc := rfl
  frame i hi := by
    have hdist : h.x sp + BitVec.ofNat 64 i - (h.x sp - BitVec.ofNat 64 8) =
        BitVec.ofNat 64 (i + 8) := by
      refine BitVec.eq_of_toNat_eq ?_
      simp only [BitVec.toNat_sub, BitVec.toNat_add, BitVec.toNat_ofNat]
      omega
    rw [clobber_mem]
    refine Mem.write_frame ?_
    rw [hdist, BitVec.toNat_ofNat]
    omega
  mem a _ ha := by
    rw [clobber_mem]
    exact Mem.write_frame (not_lt.1 ha)

def spill : Placed [.op (.addi sp sp (-8)), .op (.sd t0 0 sp), .op (.ld t1 0 sp)] :=
  .linear _ 0x3000 (by decide) (by decide)

/-- Every register is 5, except for the stack pointer. -/
def spillStart : State where
  pc := 0x3000
  x := Function.update (fun _ => 5) sp 0x8000
  f _ := 0
  csr := Function.update (fun _ => 0) .mtvec 0x1000
  mem _ := 0

/-! ## Main results -/

section Main

variable {tv : XWord} {w : Wrapper tv} {vol : Set Csr} {own : Set XWord} {depth : ℕ}
  {s : State} {handler : Hart → Hart → Prop}

/-- **Main result.** A trap whose handler returns leads back to the interrupted program. -/
theorem trap_returns (hvec : s.csr .mtvec = w.code.addr 0) : ∃ h₁, w.run 18 (take s) = some h₁ ∧
    h₁.pc = tv ∧ ∀ h₂, Handles vol own depth h₁ h₂ → ∃ h₃, w.run 17 h₂ = some h₃ ∧
      h₃.pc = w.code.addr 35 ∧
      Agree (insert .mstatus vol) (below own depth (s.get sp)) s (mret h₃) ∧
      (.mstatus ∉ vol → (mret h₃).csr .mstatus &&& ~~~(0x1880 : XWord) =
        s.csr .mstatus &&& ~~~(0x1880 : XWord)) := by
  refine ⟨entered w s, enter_run w hvec, rfl, fun h₂ hh => ?_⟩
  have hpc : h₂.pc = w.code.addr 18 := by rw [hh.pc, entered_ra, w.code.even]
  exact ⟨left w h₂, leave_run w hpc, rfl, left_agree hh, left_status hh⟩

theorem trap_returns_spill : ∃ h₁ h₃, wrapper.run 18 (take spillStart) = some h₁ ∧
    wrapper.run 17 (clobber h₁) = some h₃ ∧ ∀ r, (mret h₃).get r = spillStart.get r := by
  obtain ⟨h₁, henter, -, hreturn⟩ := @trap_returns 0x2000 wrapper ∅ ∅ 8 spillStart rfl
  obtain ⟨h₃, hleave, -, hagree, -⟩ := hreturn (clobber h₁) (clobber_handles h₁)
  exact ⟨h₁, h₃, henter, hleave, hagree.get⟩

/-- **Main result.** If every call of the handler returns as it should, a program that reads nothing
that traps may change computes the same with traps at any places, and is not stopped by them. -/
theorem interrupted_agrees {prog : List Instr} {c : Placed prog} {s₀ t : State} {n : ℕ}
    {lost : Set XWord} (hhandler : ∀ h h', h.pc = tv → handler h h' → Handles vol own depth h h')
    (hint : c.Interrupted (Serviced w handler) s₀ n t) :
    (c.CleanRun (insert .mstatus vol) (below own depth) s₀ n s lost →
      Agree (insert .mstatus vol) (lost ∪ below own depth (s.get sp)) s t) ∧
    (c.CleanRun (insert .mstatus vol) (below own depth) s₀ (n + 1) s lost →
      ∃ t', c.next t = some t') :=
  ⟨agrees (fun _ _ => serviced_agree hhandler) hint,
    interrupted_next (fun _ _ => serviced_agree hhandler) hint⟩

theorem interrupted_agrees_spill : ∃ t, t.get t1 = 5 ∧
    spill.Interrupted (Serviced wrapper fun h h' => h' = clobber h) spillStart 3 t := by
  have hhandler : ∀ h h' : Hart, h.pc = 0x2000 → h' = clobber h → Handles ∅ ∅ 8 h h' := by
    rintro h _ - rfl
    exact clobber_handles h
  have hfirst : spill.CleanRun (insert .mstatus ∅) (below ∅ 8) spillStart 0 spillStart ∅ := .start
  have hsecond := hfirst.exec (.op (.addi sp sp (-8))) (i := 0) rfl rfl
    (fun _ h _ => h) (by rintro _ ⟨⟩)
  have hthird := hsecond.exec (.op (.sd t0 0 sp)) (i := 1) rfl rfl
    (fun _ h _ => h) (by rintro _ ⟨⟩)
  have hkept : ∀ a ∈ span 0x7FF8 8, a ∉ ((∅ ∪ below ∅ 8 0x8000) \ ∅ ∪ below ∅ 8 0x7FF8) \
      span 0x7FF8 8 ∪ below ∅ 8 0x7FF8 := by
    intro a hread hlost
    rcases hlost with ⟨-, hstored⟩ | hown | hstack
    · exact hstored hread
    · exact hown
    · have hnear : (a - 0x7FF8).toNat < 8 := hread
      have hfar : (a - 0x7F70).toNat < 136 := hstack
      rw [BitVec.toNat_sub, show (0x7FF8 : XWord).toNat = 0x7FF8 from rfl] at hnear
      rw [BitVec.toNat_sub, show (0x7F70 : XWord).toNat = 0x7F70 from rfl] at hfar
      omega
  have hlast := hthird.exec (.op (.ld t1 0 sp)) (i := 2) rfl rfl hkept (by rintro _ ⟨⟩)
  obtain ⟨s₂, hs₂⟩ : ∃ s, s = Instr.exec spill.addr 1
    (Instr.exec spill.addr 0 spillStart (.op (.addi sp sp (-8)))) (.op (.sd t0 0 sp)) := ⟨_, rfl⟩
  have hstored : spill.Interrupted (Serviced wrapper fun h h' => h' = clobber h)
      spillStart 2 s₂ := by
    rw [hs₂]
    exact (Interrupted.start.step (spill.next_eq (i := 0) _ rfl rfl)).step
      (spill.next_eq (i := 1) _ rfl rfl)
  have hpc : (clobber (entered wrapper s₂)).pc = wrapper.code.addr 18 := by
    show Instr.target ((entered wrapper s₂).x ra) = _
    rw [entered_ra, wrapper.code.even]
  have hvec : s₂.csr .mtvec = wrapper.code.addr 0 := by rw [hs₂]; rfl
  have htrap := hstored.trap
    ⟨hvec, _, _, _, enter_run wrapper hvec, rfl, leave_run wrapper hpc, rfl⟩
  obtain ⟨t, hnext⟩ := (interrupted_agrees hhandler htrap).2 hlast
  exact ⟨t, ((interrupted_agrees hhandler (htrap.step hnext)).1 hlast).get t1, htrap.step hnext⟩

end Main

end Cheshire.Trap
