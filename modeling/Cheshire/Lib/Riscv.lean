import Cheshire.Lib.Bytes
import Mathlib.Logic.Function.Basic
import Mathlib.Logic.Relation

/-!
# Assembly code for RV64

A program is a list of instructions, pseudo-instructions included, placed somewhere in memory
(`Placed`). It runs as long as the program counter is at one of them. Between two instructions,
other harts and devices may act (`env`).

* `Placed.Reaches`: runs of a program.
* `Placed.reaches_block`: a block without jumps runs from its first instruction to its end.
-/

namespace Lib.Riscv

abbrev XWord := BitVec 64

abbrev Reg := Fin 32

def zero : Reg := 0
def ra : Reg := 1
def sp : Reg := 2
def gp : Reg := 3
def tp : Reg := 4
def t0 : Reg := 5
def t1 : Reg := 6
def t2 : Reg := 7
def s0 : Reg := 8
def s1 : Reg := 9
def a0 : Reg := 10
def a1 : Reg := 11
def a2 : Reg := 12
def a3 : Reg := 13
def a4 : Reg := 14
def a5 : Reg := 15
def a6 : Reg := 16
def a7 : Reg := 17
def s2 : Reg := 18
def s3 : Reg := 19
def s4 : Reg := 20
def s5 : Reg := 21
def s6 : Reg := 22
def s7 : Reg := 23
def s8 : Reg := 24
def s9 : Reg := 25
def s10 : Reg := 26
def s11 : Reg := 27
def t3 : Reg := 28
def t4 : Reg := 29
def t5 : Reg := 30
def t6 : Reg := 31

/-- The first floating-point register. -/
def ft0 : Fin 32 := ⟨0, Nat.succ_pos 31⟩

inductive Csr
  | mstatus | mtvec | mip | mhartid
deriving DecidableEq, Repr

structure State where
  pc : XWord
  /-- Register 0 reads as 0 whatever is kept for it. -/
  x : Reg → XWord
  f : Fin 32 → XWord
  csr : Csr → XWord
  mem : Mem

namespace State

variable (s : State)

def get (r : Reg) : XWord := if r = zero then 0 else s.x r

def set (r : Reg) (v : XWord) : State := { s with x := Function.update s.x r v }

/-- The `n` bytes at `a`. -/
def load (n : ℕ) (a : XWord) : ℕ := le n fun i => s.mem (a + BitVec.ofNat 64 i)

def store (n : ℕ) (a v : XWord) : State := { s with mem := s.mem.write a n (byteOf v.toNat) }

end State

/-! ## Instructions -/

/-- Instructions that go on to the next one. -/
inductive Op
  /-- `li` and `la`. -/
  | li (rd : Reg) (v : XWord)
  | mv (rd rs : Reg)
  | addi (rd rs : Reg) (imm : XWord)
  | andi (rd rs : Reg) (imm : XWord)
  | ori (rd rs : Reg) (imm : XWord)
  | slli (rd rs : Reg) (sh : ℕ)
  | srli (rd rs : Reg) (sh : ℕ)
  | add (rd rs₁ rs₂ : Reg)
  | sub (rd rs₁ rs₂ : Reg)
  | or (rd rs₁ rs₂ : Reg)
  | ld (rd : Reg) (off : XWord) (rs : Reg)
  | lw (rd : Reg) (off : XWord) (rs : Reg)
  | lwu (rd : Reg) (off : XWord) (rs : Reg)
  | sd (rs₂ : Reg) (off : XWord) (rs₁ : Reg)
  | sw (rs₂ : Reg) (off : XWord) (rs₁ : Reg)
  | sb (rs₂ : Reg) (off : XWord) (rs₁ : Reg)
  | csrr (rd : Reg) (csr : Csr)
  | csrw (csr : Csr) (rs : Reg)
  | csrs (csr : Csr) (rs : Reg)
  | csrc (csr : Csr) (rs : Reg)
  | csrci (csr : Csr) (imm : XWord)
  /-- `fcvt.d.l` from register 0. -/
  | fzero (fd : Fin 32)
  | fmv (fd fs : Fin 32)
  | fence
  | wfi

namespace Op

def setCsr (s : State) (csr : Csr) (v : XWord) : State :=
  { s with csr := Function.update s.csr csr v }

def run (s : State) : Op → State
  | li rd v => s.set rd v
  | mv rd rs => s.set rd (s.get rs)
  | addi rd rs imm => s.set rd (s.get rs + imm)
  | andi rd rs imm => s.set rd (s.get rs &&& imm)
  | ori rd rs imm => s.set rd (s.get rs ||| imm)
  | slli rd rs sh => s.set rd (s.get rs <<< sh)
  | srli rd rs sh => s.set rd (s.get rs >>> sh)
  | add rd rs₁ rs₂ => s.set rd (s.get rs₁ + s.get rs₂)
  | sub rd rs₁ rs₂ => s.set rd (s.get rs₁ - s.get rs₂)
  | or rd rs₁ rs₂ => s.set rd (s.get rs₁ ||| s.get rs₂)
  | ld rd off rs => s.set rd (BitVec.ofNat 64 (s.load 8 (s.get rs + off)))
  | lw rd off rs => s.set rd ((BitVec.ofNat 32 (s.load 4 (s.get rs + off))).signExtend 64)
  | lwu rd off rs => s.set rd (BitVec.ofNat 64 (s.load 4 (s.get rs + off)))
  | sd rs₂ off rs₁ => s.store 8 (s.get rs₁ + off) (s.get rs₂)
  | sw rs₂ off rs₁ => s.store 4 (s.get rs₁ + off) (s.get rs₂)
  | sb rs₂ off rs₁ => s.store 1 (s.get rs₁ + off) (s.get rs₂)
  | csrr rd csr => s.set rd (s.csr csr)
  | csrw csr rs => setCsr s csr (s.get rs)
  | csrs csr rs => setCsr s csr (s.csr csr ||| s.get rs)
  | csrc csr rs => setCsr s csr (s.csr csr &&& ~~~s.get rs)
  | csrci csr imm => setCsr s csr (s.csr csr &&& ~~~imm)
  | fzero fd => { s with f := Function.update s.f fd 0 }
  | fmv fd fs => { s with f := Function.update s.f fd (s.f fs) }
  | fence | wfi => s

end Op

/-- What a branch compares, as signed numbers. -/
inductive Cond
  | eq | ne | lt | ge
deriving DecidableEq, Repr

def Cond.holds (a b : XWord) : Cond → Bool
  | eq => a = b
  | ne => a ≠ b
  | lt => a.toInt < b.toInt
  | ge => b.toInt ≤ a.toInt

theorem toInt_zero : (0 : XWord).toInt = 0 := BitVec.toInt_zero

/-- The comparisons of `bgt` and `blez` with register 0, and of `blt`. -/
theorem Cond.zero_lt (v : XWord) : Cond.lt.holds 0 v = decide (0 < v.toInt) := by
  rw [Cond.holds, toInt_zero]

theorem Cond.zero_ge (v : XWord) : Cond.ge.holds 0 v = decide (v.toInt ≤ 0) := by
  rw [Cond.holds, toInt_zero]

theorem Cond.lt_zero (v : XWord) : Cond.lt.holds v 0 = decide (v.toInt < 0) := by
  rw [Cond.holds, toInt_zero]

/-- Labels are positions in the program. -/
inductive Instr
  | op (o : Op)
  | branch (c : Cond) (rs₁ rs₂ : Reg) (label : ℕ)
  | j (label : ℕ)
  /-- A call of code elsewhere. -/
  | call (target : XWord)
  | jalr (rd : Reg) (rs : Reg)

namespace Instr

def beqz (rs : Reg) (label : ℕ) : Instr := branch .eq rs zero label

def bnez (rs : Reg) (label : ℕ) : Instr := branch .ne rs zero label

def blez (rs : Reg) (label : ℕ) : Instr := branch .ge zero rs label

def blt (rs₁ rs₂ : Reg) (label : ℕ) : Instr := branch .lt rs₁ rs₂ label

def bgt (rs₁ rs₂ : Reg) (label : ℕ) : Instr := branch .lt rs₂ rs₁ label

def ret : Instr := jalr zero ra

/-- Where a jump to the value of a register leads: bit 0 is dropped. -/
def target (v : XWord) : XWord := v &&& ~~~1

/-- One instruction, at position `i` of a program placed by `addr`. -/
def exec (addr : ℕ → XWord) (i : ℕ) (s : State) : Instr → State
  | op o => { o.run s with pc := addr (i + 1) }
  | branch c rs₁ rs₂ label =>
    { s with pc := if c.holds (s.get rs₁) (s.get rs₂) then addr label else addr (i + 1) }
  | j label => { s with pc := addr label }
  | call target => { s.set ra (addr (i + 1)) with pc := target }
  | jalr rd rs => { s.set rd (addr (i + 1)) with pc := target (s.get rs) }

end Instr

/-! ## Programs -/

/-- The addresses of the instructions of a program. -/
structure Placed (prog : List Instr) where
  addr : ℕ → XWord
  inj : ∀ i < prog.length, ∀ j < prog.length, addr i = addr j → i = j
  even : ∀ i, Instr.target (addr i) = addr i

namespace Placed

theorem target_even {v : XWord} (h : v.getLsbD 0 = false) : Instr.target v = v := by
  apply BitVec.eq_of_getLsbD_eq
  intro i hi
  have hone : (1 : XWord).getLsbD i = decide (i = 0) := by
    show (1#64).getLsbD i = _
    rw [BitVec.getLsbD_one]
    rfl
  rw [Instr.target, BitVec.getLsbD_and, BitVec.getLsbD_not, hone, decide_eq_true hi]
  by_cases h0 : i = 0
  · rw [h0, h]
    rfl
  · rw [decide_eq_false h0, Bool.not_false, Bool.and_true, Bool.and_true]

/-- One instruction every four bytes. -/
def linear (prog : List Instr) (base : XWord) (hbase : base.toNat % 4 = 0)
    (hfit : base.toNat + 4 * prog.length ≤ 2 ^ 64) : Placed prog where
  addr i := base + BitVec.ofNat 64 (4 * i)
  inj i hi j hj h := by
    have hnat := congrArg BitVec.toNat h
    rw [BitVec.toNat_add, BitVec.toNat_add, BitVec.toNat_ofNat, BitVec.toNat_ofNat] at hnat
    omega
  even i := by
    refine target_even ?_
    rw [BitVec.getLsbD, BitVec.toNat_add, BitVec.toNat_ofNat, Nat.testBit_zero]
    exact decide_eq_false (by omega)

variable {prog : List Instr} (c : Placed prog)

/-- Which instruction is at `a`. -/
def indexAt (a : XWord) : Option ℕ := (List.range prog.length).find? fun i => c.addr i = a

/-- The next instruction, if the program counter is at one of the program. -/
def next (s : State) : Option State :=
  match c.indexAt s.pc with
  | some i => prog[i]?.map (Instr.exec c.addr i s)
  | none => none

/-- An instruction of the program, or a step of the environment. -/
def Step (env : State → State → Prop) (s s' : State) : Prop := c.next s = some s' ∨ env s s'

def Reaches (env : State → State → Prop) : State → State → Prop :=
  Relation.ReflTransGen (c.Step env)

theorem indexAt_addr {i : ℕ} (hi : i < prog.length) : c.indexAt (c.addr i) = some i := by
  unfold indexAt
  rw [List.find?_range_eq_some]
  refine ⟨by simp, List.mem_range.2 hi, fun j hj => ?_⟩
  have hne : c.addr j ≠ c.addr i := fun h => hj.ne (c.inj j (hj.trans hi) i hi h)
  simp [hne]

/-- The instruction at the program counter is executed. -/
theorem next_eq {i : ℕ} {s : State} (ins : Instr) (hpc : s.pc = c.addr i)
    (hins : prog[i]? = some ins) : c.next s = some (ins.exec c.addr i s) := by
  obtain ⟨hi, -⟩ := List.getElem?_eq_some_iff.1 hins
  unfold next
  rw [hpc, c.indexAt_addr hi]
  show (prog[i]?).map _ = _
  rw [hins]
  rfl

section Reaches

variable {c} {e : State → State → Prop} {s : State} {i : ℕ}

theorem reaches_exec (ins : Instr) (hpc : s.pc = c.addr i) (hins : prog[i]? = some ins) :
    c.Reaches e s (ins.exec c.addr i s) :=
  .single (Or.inl (c.next_eq ins hpc hins))

theorem reaches_j {label : ℕ} (hpc : s.pc = c.addr i) (hins : prog[i]? = some (.j label)) :
    c.Reaches e s { s with pc := c.addr label } := reaches_exec _ hpc hins

theorem reaches_taken {cond : Cond} {rs₁ rs₂ : Reg} {label : ℕ} (hpc : s.pc = c.addr i)
    (hins : prog[i]? = some (.branch cond rs₁ rs₂ label))
    (hholds : cond.holds (s.get rs₁) (s.get rs₂) = true) :
    c.Reaches e s { s with pc := c.addr label } := by
  have h := reaches_exec (e := e) _ hpc hins
  rw [Instr.exec, if_pos hholds] at h
  exact h

theorem reaches_notTaken {cond : Cond} {rs₁ rs₂ : Reg} {label : ℕ} (hpc : s.pc = c.addr i)
    (hins : prog[i]? = some (.branch cond rs₁ rs₂ label))
    (hholds : cond.holds (s.get rs₁) (s.get rs₂) = false) :
    c.Reaches e s { s with pc := c.addr (i + 1) } := by
  have h := reaches_exec (e := e) _ hpc hins
  rw [Instr.exec, hholds] at h
  exact h

/-- What a block of instructions does. -/
def runOps (s : State) (l : List Op) : State := l.foldl Op.run s

theorem runOps_cons (s : State) (o : Op) (l : List Op) :
    runOps s (o :: l) = runOps (o.run s) l := rfl

theorem runOps_append (s : State) (l l' : List Op) :
    runOps s (l ++ l') = runOps (runOps s l) l' := List.foldl_append

/-- Operations neither read nor write the program counter. -/
theorem run_pc (o : Op) (s : State) (a : XWord) :
    o.run { s with pc := a } = { o.run s with pc := a } := by
  cases o <;> rfl

theorem runOps_pc (l : List Op) (s : State) (a : XWord) :
    runOps { s with pc := a } l = { runOps s l with pc := a } := by
  induction l generalizing s with
  | nil => rfl
  | cons o l ih => rw [runOps, List.foldl_cons, run_pc]; exact ih (o.run s)

/-- A block without jumps runs to its end. -/
theorem reaches_ops (l : List Op) (hpc : s.pc = c.addr i)
    (hins : ∀ k (h : k < l.length), prog[i + k]? = some (.op l[k])) :
    c.Reaches e s { runOps s l with pc := c.addr (i + l.length) } := by
  induction l generalizing s i with
  | nil =>
    have hs : { s with pc := c.addr (i + 0) } = s := by rw [Nat.add_zero, ← hpc]
    show c.Reaches e s { s with pc := c.addr (i + 0) }
    rw [hs]
    exact .refl
  | cons o l ih =>
    have hfirst : c.Reaches e s { o.run s with pc := c.addr (i + 1) } :=
      reaches_exec _ hpc (hins 0 (Nat.succ_pos _))
    have hrest := ih (s := { o.run s with pc := c.addr (i + 1) }) (i := i + 1) rfl fun k hk => by
      have h := hins (k + 1) (Nat.succ_lt_succ hk)
      rw [show i + 1 + k = i + (k + 1) by omega]
      exact h
    rw [runOps_pc, show i + 1 + l.length = i + (l.length + 1) by omega] at hrest
    exact hfirst.trans hrest

/-- The same, for a block that is a part of the program. -/
theorem reaches_block (l : List Op) (hpc : s.pc = c.addr i)
    (hins : (prog.drop i).take l.length = l.map Instr.op) :
    c.Reaches e s { runOps s l with pc := c.addr (i + l.length) } := by
  refine reaches_ops l hpc fun k hk => ?_
  have hget : ((prog.drop i).take l.length)[k]? = (l.map Instr.op)[k]? := by rw [hins]
  rw [List.getElem?_take_of_lt hk, List.getElem?_drop, List.getElem?_map,
    List.getElem?_eq_getElem hk] at hget
  exact hget

variable (c) in
/-- The state after `n` instructions. -/
def run : ℕ → State → Option State
  | 0, s => some s
  | n + 1, s => c.next s >>= run n

theorem run_next {s s₁ : State} (h : c.next s = some s₁) (n : ℕ) :
    c.run (n + 1) s = c.run n s₁ := by
  rw [run, h]
  rfl

theorem run_add (n k : ℕ) (s : State) : c.run (n + k) s = c.run n s >>= c.run k := by
  induction n generalizing s with
  | zero => rw [Nat.zero_add]; rfl
  | succ n ih =>
    rw [Nat.add_right_comm, run, run]
    cases c.next s with
    | none => rfl
    | some s₁ => exact ih s₁

/-- A block without jumps, by the number of its instructions. -/
theorem run_block (l : List Op) (hpc : s.pc = c.addr i)
    (hins : (prog.drop i).take l.length = l.map Instr.op) :
    c.run l.length s = some { runOps s l with pc := c.addr (i + l.length) } := by
  induction l generalizing s i with
  | nil =>
    show some s = some { s with pc := c.addr (i + 0) }
    rw [Nat.add_zero, ← hpc]
  | cons o l ih =>
    have hdrop : prog.drop i = .op o :: prog.drop (i + 1) ∧
        (prog.drop (i + 1)).take l.length = l.map Instr.op := by
      cases hprog : prog.drop i with
      | nil =>
        rw [hprog] at hins
        exact absurd hins (by simp)
      | cons ins rest =>
        rw [hprog, List.map_cons, List.length_cons, List.take_succ_cons, List.cons.injEq] at hins
        have hrest : prog.drop (i + 1) = rest := by
          rw [← List.drop_drop, hprog]
          rfl
        rw [hrest, hins.1]
        exact ⟨rfl, hins.2⟩
    have hget : prog[i]? = some (.op o) := by
      rw [← Nat.add_zero i, ← List.getElem?_drop, hdrop.1]
      rfl
    have hrest := ih (s := { o.run s with pc := c.addr (i + 1) }) (i := i + 1) rfl hdrop.2
    rw [runOps_pc, show i + 1 + l.length = i + (l.length + 1) by omega] at hrest
    rw [List.length_cons, run_next (c.next_eq _ hpc hget)]
    exact hrest

theorem reaches_run {n : ℕ} {s' : State} (h : c.run n s = some s') : c.Reaches e s s' := by
  induction n generalizing s with
  | zero =>
    obtain rfl := Option.some.inj h
    exact .refl
  | succ n ih =>
    obtain ⟨s₁, hnext, hrest⟩ := Option.bind_eq_some_iff.1 h
    exact .head (Or.inl hnext) (ih hrest)

/-- Where the environment does nothing, what is reached is reached after some instructions. -/
theorem Reaches.exists_run {s' : State} (h : c.Reaches e s s') (hquiet : ∀ s s', ¬e s s') :
    ∃ n, c.run n s = some s' := by
  induction h using Relation.ReflTransGen.head_induction_on with
  | refl => exact ⟨0, rfl⟩
  | head hstep _ ih =>
    obtain ⟨n, hn⟩ := ih
    rcases hstep with hnext | henv
    · exact ⟨n + 1, Option.bind_eq_some_iff.2 ⟨_, hnext, hn⟩⟩
    · exact absurd henv (hquiet _ _)

end Reaches

end Placed

end Lib.Riscv
