import Cheshire.Lib.Riscv
import Mathlib.Data.Set.Basic

/-!
# Interrupted runs

Between two instructions of a program, traps may be taken. A trap may change the control registers
in `vol` and the bytes in `below sp`, where `sp` is the stack pointer at the trap; it gives back
everything else (`Agree`). The bytes that a trap may have changed are lost until the program stores
to them again. A run of the program is `Clean` if it never reads what is lost.

**Theorem (`agrees`).** After as many of its own instructions, an interrupted program agrees with
its clean run without traps, except for what is lost.
-/

namespace Lib.Riscv

/-- The `n` bytes from `a` on. -/
def span (a : XWord) (n : ℕ) : Set XWord := {x | (x - a).toNat < n}

theorem mem_span (a : XWord) {i n : ℕ} (hi : i < n) (hn : n ≤ 2 ^ 64) :
    a + BitVec.ofNat 64 i ∈ span a n := by
  show (a + BitVec.ofNat 64 i - a).toNat < n
  rw [BitVec.add_comm, BitVec.add_sub_cancel, BitVec.toNat_ofNat, Nat.mod_eq_of_lt (by omega)]
  exact hi

/-! ## What instructions read and write -/

namespace Op

def loads (s : State) : Op → Set XWord
  | ld _ off rs => span (s.get rs + off) 8
  | lw _ off rs => span (s.get rs + off) 4
  | lwu _ off rs => span (s.get rs + off) 4
  | _ => ∅

def stores (s : State) : Op → Set XWord
  | sd _ off rs => span (s.get rs + off) 8
  | sw _ off rs => span (s.get rs + off) 4
  | sb _ off rs => span (s.get rs + off) 1
  | _ => ∅

def readsCsr : Op → Option Csr
  | csrr _ csr => some csr
  | csrs csr _ => some csr
  | csrc csr _ => some csr
  | csrci csr _ => some csr
  | _ => none

end Op

namespace Instr

def loads (s : State) : Instr → Set XWord
  | op o => o.loads s
  | _ => ∅

def stores (s : State) : Instr → Set XWord
  | op o => o.stores s
  | _ => ∅

def readsCsr : Instr → Option Csr
  | op o => o.readsCsr
  | _ => none

end Instr

/-! ## Agreement -/

/-- The states are the same except for the control registers in `vol` and the bytes in `lost`. -/
structure Agree (vol : Set Csr) (lost : Set XWord) (s t : State) : Prop where
  pc : t.pc = s.pc
  get : ∀ r, t.get r = s.get r
  f : t.f = s.f
  csr : ∀ c ∉ vol, t.csr c = s.csr c
  mem : ∀ a ∉ lost, t.mem a = s.mem a

namespace Agree

variable {vol : Set Csr} {lost lost' : Set XWord} {s t u : State}

theorem refl (vol : Set Csr) (lost : Set XWord) (s : State) : Agree vol lost s s :=
  ⟨rfl, fun _ => rfl, rfl, fun _ _ => rfl, fun _ _ => rfl⟩

theorem trans (h : Agree vol lost s t) (h' : Agree vol lost t u) : Agree vol lost s u where
  pc := h'.pc.trans h.pc
  get r := (h'.get r).trans (h.get r)
  f := h'.f.trans h.f
  csr c hc := (h'.csr c hc).trans (h.csr c hc)
  mem a ha := (h'.mem a ha).trans (h.mem a ha)

theorem mono (h : Agree vol lost s t) (hle : lost ⊆ lost') : Agree vol lost' s t where
  pc := h.pc
  get := h.get
  f := h.f
  csr := h.csr
  mem a ha := h.mem a fun hmem => ha (hle hmem)

theorem jump (h : Agree vol lost s t) {a b : XWord} (hab : b = a) :
    Agree vol lost { s with pc := a } { t with pc := b } :=
  ⟨hab, h.get, h.f, h.csr, h.mem⟩

theorem set (h : Agree vol lost s t) (rd : Reg) {v w : XWord} (hv : w = v) :
    Agree vol lost (s.set rd v) (t.set rd w) where
  pc := h.pc
  get r := by
    have hold := h.get r
    unfold State.get at hold ⊢
    by_cases hzero : r = zero
    · rw [if_pos hzero, if_pos hzero]
    · rw [if_neg hzero, if_neg hzero] at hold ⊢
      show Function.update t.x rd w r = Function.update s.x rd v r
      by_cases hrd : r = rd
      · rw [hrd, Function.update_self, Function.update_self, hv]
      · rw [Function.update_of_ne hrd, Function.update_of_ne hrd, hold]
  f := h.f
  csr := h.csr
  mem := h.mem

theorem setCsr (h : Agree vol lost s t) (c : Csr) {v w : XWord} (hv : w = v) :
    Agree vol lost (Op.setCsr s c v) (Op.setCsr t c w) where
  pc := h.pc
  get := h.get
  f := h.f
  csr c' hc' := by
    show Function.update t.csr c w c' = Function.update s.csr c v c'
    by_cases hc : c' = c
    · rw [hc, Function.update_self, Function.update_self, hv]
    · rw [Function.update_of_ne hc, Function.update_of_ne hc, h.csr c' hc']
  mem := h.mem

theorem load (h : Agree vol lost s t) {n : ℕ} {a b : XWord} (hab : b = a) (hn : n ≤ 2 ^ 64)
    (hread : ∀ x ∈ span a n, x ∉ lost) : t.load n b = s.load n a := by
  rw [hab]
  exact le_congr fun i hi => h.mem _ (hread _ (mem_span a hi hn))

/-- A store takes back what it writes. -/
theorem store (h : Agree vol lost s t) (n : ℕ) {a b v w : XWord} (hab : b = a) (hv : w = v) :
    Agree vol (lost \ span a n) (s.store n a v) (t.store n b w) where
  pc := h.pc
  get := h.get
  f := h.f
  csr := h.csr
  mem x hx := by
    show t.mem.write b n _ x = s.mem.write a n _ x
    rw [hab, hv]
    by_cases hin : (x - a).toNat < n
    · rw [Mem.write, Mem.write, if_pos hin, if_pos hin]
    · rw [Mem.write_frame (not_lt.1 hin), Mem.write_frame (not_lt.1 hin)]
      exact h.mem x fun hmem => hx ⟨hmem, hin⟩

/-- An operation that reads nothing lost. -/
theorem run (h : Agree vol lost s t) (o : Op) (hload : ∀ a ∈ o.loads s, a ∉ lost)
    (hcsr : ∀ c, o.readsCsr = some c → c ∉ vol) :
    Agree vol (lost \ o.stores s) (o.run s) (o.run t) := by
  have hkeep : Agree vol (lost \ ∅) s t := by rwa [Set.sdiff_empty]
  have hg := h.get
  cases o with
  | li rd v => exact hkeep.set rd rfl
  | mv rd rs => exact hkeep.set rd (hg rs)
  | addi rd rs imm => exact hkeep.set rd (by rw [hg])
  | andi rd rs imm => exact hkeep.set rd (by rw [hg])
  | ori rd rs imm => exact hkeep.set rd (by rw [hg])
  | slli rd rs sh => exact hkeep.set rd (by rw [hg])
  | srli rd rs sh => exact hkeep.set rd (by rw [hg])
  | add rd rs₁ rs₂ => exact hkeep.set rd (by rw [hg, hg])
  | sub rd rs₁ rs₂ => exact hkeep.set rd (by rw [hg, hg])
  | or rd rs₁ rs₂ => exact hkeep.set rd (by rw [hg, hg])
  | ld rd off rs => exact hkeep.set rd (by rw [h.load (by rw [hg]) (by decide) hload])
  | lw rd off rs => exact hkeep.set rd (by rw [h.load (by rw [hg]) (by decide) hload])
  | lwu rd off rs => exact hkeep.set rd (by rw [h.load (by rw [hg]) (by decide) hload])
  | sd rs₂ off rs₁ => exact h.store 8 (by rw [hg]) (hg rs₂)
  | sw rs₂ off rs₁ => exact h.store 4 (by rw [hg]) (hg rs₂)
  | sb rs₂ off rs₁ => exact h.store 1 (by rw [hg]) (hg rs₂)
  | csrr rd c => exact hkeep.set rd (h.csr c (hcsr c rfl))
  | csrw c rs => exact hkeep.setCsr c (hg rs)
  | csrs c rs => exact hkeep.setCsr c (by rw [hg, h.csr c (hcsr c rfl)])
  | csrc c rs => exact hkeep.setCsr c (by rw [hg, h.csr c (hcsr c rfl)])
  | csrci c imm => exact hkeep.setCsr c (by rw [h.csr c (hcsr c rfl)])
  | fzero fd => exact ⟨h.pc, hg, by simp only [Op.run, h.f], h.csr, hkeep.mem⟩
  | fmv fd fs => exact ⟨h.pc, hg, by simp only [Op.run, h.f], h.csr, hkeep.mem⟩
  | fence => exact hkeep
  | wfi => exact hkeep

theorem exec (h : Agree vol lost s t) (addr : ℕ → XWord) (i : ℕ) (ins : Instr)
    (hload : ∀ a ∈ ins.loads s, a ∉ lost) (hcsr : ∀ c, ins.readsCsr = some c → c ∉ vol) :
    Agree vol (lost \ ins.stores s) (ins.exec addr i s) (ins.exec addr i t) := by
  have hkeep : Agree vol (lost \ ∅) s t := by rwa [Set.sdiff_empty]
  cases ins with
  | op o => exact (h.run o hload hcsr).jump rfl
  | branch cond rs₁ rs₂ label => exact hkeep.jump (by rw [h.get, h.get])
  | j label => exact hkeep.jump rfl
  | call target => exact (hkeep.set ra rfl).jump rfl
  | jalr rd rs => exact (hkeep.set rd rfl).jump (by rw [h.get])

end Agree

/-! ## Runs -/

namespace Placed

variable {prog : List Instr} (c : Placed prog) (vol : Set Csr) (below : XWord → Set XWord)

/-- The instruction at the program counter. -/
def fetch (s : State) : Option Instr := c.indexAt s.pc >>= fun i => prog[i]?

/-- The bytes that the next instruction writes. -/
def stores (s : State) : Set XWord := {a | ∃ ins, c.fetch s = some ins ∧ a ∈ ins.stores s}

/-- The next instruction reads nothing that is lost. -/
def Clean (lost : Set XWord) (s : State) : Prop :=
  ∀ ins, c.fetch s = some ins →
    (∀ a ∈ ins.loads s, a ∉ lost) ∧ ∀ csr, ins.readsCsr = some csr → csr ∉ vol

/-- The clean run without traps: the state after some instructions, and the bytes that are lost if
traps are taken before these instructions. -/
inductive CleanRun (s₀ : State) : ℕ → State → Set XWord → Prop
  | start : CleanRun s₀ 0 s₀ ∅
  | step {n : ℕ} {s s' : State} {lost : Set XWord} (h : CleanRun s₀ n s lost)
      (hclean : c.Clean vol (lost ∪ below (s.get sp)) s) (hnext : c.next s = some s') :
      CleanRun s₀ (n + 1) s' ((lost ∪ below (s.get sp)) \ c.stores s)

/-- The interrupted runs: the states after some instructions of the program, and any traps. -/
inductive Interrupted (trap : State → State → Prop) (s₀ : State) : ℕ → State → Prop
  | start : Interrupted trap s₀ 0 s₀
  | step {n : ℕ} {s s' : State} (h : Interrupted trap s₀ n s) (hnext : c.next s = some s') :
      Interrupted trap s₀ (n + 1) s'
  | trap {n : ℕ} {s s' : State} (h : Interrupted trap s₀ n s) (htrap : trap s s') :
      Interrupted trap s₀ n s'

variable {c vol below} {trap : State → State → Prop} {s₀ s s' t : State} {lost : Set XWord} {n : ℕ}

theorem next_fetch (h : c.next s = some s') : ∃ i ins, c.indexAt s.pc = some i ∧
    prog[i]? = some ins ∧ s' = ins.exec c.addr i s := by
  unfold next at h
  cases hi : c.indexAt s.pc with
  | none =>
    rw [hi] at h
    exact absurd h (Option.some_ne_none s').symm
  | some i =>
    rw [hi] at h
    obtain ⟨ins, hins, hexec⟩ := Option.map_eq_some_iff.1 h
    exact ⟨i, ins, rfl, hins, hexec.symm⟩

theorem stores_eq {ins : Instr} (hfetch : c.fetch s = some ins) : c.stores s = ins.stores s := by
  ext a
  refine ⟨fun ⟨ins', hins', hmem⟩ => ?_, fun hmem => ⟨ins, hfetch, hmem⟩⟩
  rwa [Option.some.inj (hfetch.symm.trans hins')]

/-- What one instruction preserves. -/
theorem agree_next (h : Agree vol lost s t) (hclean : c.Clean vol lost s)
    (hnext : c.next s = some s') :
    ∃ t', c.next t = some t' ∧ Agree vol (lost \ c.stores s) s' t' := by
  obtain ⟨i, ins, hi, hins, rfl⟩ := next_fetch hnext
  have hfetch : c.fetch s = some ins := by
    unfold fetch
    rw [hi]
    exact hins
  obtain ⟨hload, hcsr⟩ := hclean ins hfetch
  have hstores := stores_eq hfetch
  refine ⟨ins.exec c.addr i t, ?_, ?_⟩
  · unfold next
    rw [h.pc, hi]
    show (prog[i]?).map _ = _
    rw [hins]
    rfl
  · rw [hstores]
    exact h.exec c.addr i ins hload hcsr

/-- The next instruction of a clean run. -/
theorem CleanRun.exec (h : c.CleanRun vol below s₀ n s lost) {i : ℕ} (ins : Instr)
    (hpc : s.pc = c.addr i) (hins : prog[i]? = some ins)
    (hload : ∀ a ∈ ins.loads s, a ∉ lost ∪ below (s.get sp))
    (hcsr : ∀ csr, ins.readsCsr = some csr → csr ∉ vol) :
    c.CleanRun vol below s₀ (n + 1) (ins.exec c.addr i s)
      ((lost ∪ below (s.get sp)) \ ins.stores s) := by
  have hfetch : c.fetch s = some ins := by
    obtain ⟨hi, -⟩ := List.getElem?_eq_some_iff.1 hins
    rw [fetch, hpc, c.indexAt_addr hi]
    exact hins
  rw [← stores_eq hfetch]
  refine h.step (fun ins' hins' => ?_) (c.next_eq ins hpc hins)
  obtain rfl := Option.some.inj (hfetch.symm.trans hins')
  exact ⟨hload, hcsr⟩

/-- **Main result.** The interrupted program agrees with its clean run. -/
theorem agrees (htrap : ∀ s s', trap s s' → Agree vol (below (s.get sp)) s s')
    (hint : c.Interrupted trap s₀ n t) (hrun : c.CleanRun vol below s₀ n s lost) :
    Agree vol (lost ∪ below (s.get sp)) s t := by
  induction hint generalizing s lost with
  | start =>
    cases hrun
    exact Agree.refl _ _ _
  | step _ hnext ih =>
    cases hrun with
    | step hrun hclean hnext' =>
      obtain ⟨t', ht', hagree⟩ := agree_next (ih hrun) hclean hnext'
      obtain rfl := Option.some.inj (hnext.symm.trans ht')
      exact hagree.mono Set.subset_union_left
  | trap _ ht ih =>
    have hbefore := ih hrun
    have hafter := htrap _ _ ht
    rw [hbefore.get sp] at hafter
    exact hbefore.trans (hafter.mono Set.subset_union_right)

/-- The interrupted program goes on as long as its clean run does. -/
theorem interrupted_next (htrap : ∀ s s', trap s s' → Agree vol (below (s.get sp)) s s')
    (hint : c.Interrupted trap s₀ n t) (hrun : c.CleanRun vol below s₀ (n + 1) s lost) :
    ∃ t', c.next t = some t' := by
  cases hrun with
  | step hrun hclean hnext =>
    obtain ⟨t', ht', -⟩ := agree_next (agrees htrap hint hrun) hclean hnext
    exact ⟨t', ht'⟩

end Placed

end Lib.Riscv
