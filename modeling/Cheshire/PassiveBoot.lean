import Cheshire.Lib.Transition
import Cheshire.Smp
import Mathlib.Tactic.Linarith

/-!
# Launch over the serial link: `slink_elf_run` and `boot_passive`

The host writes the entry point to scratch registers 1 and 0, and 2 to scratch register 2. The
boot hart waits for bit 1 of scratch register 2, clears the register, and calls `boot_next_stage`
with the entry point. When the program's main returns, its `_exit` stores the exit code, shifted to
make room for bit 0, to scratch register 2, on whose bit 0 the host is waiting.

**Theorem (`launch_correct`).** In every interleaving, `boot_next_stage` is called at most once,
after the host's three writes, with its entry point; the host does not stop waiting before main has
returned, and reports its value modulo `2 ^ 31`.

One step is one access to a scratch register, or one look at the UART. The call of
`boot_next_stage` itself, which does not touch these registers, is part of the step to `main`.
-/

namespace Cheshire.PassiveBoot

open Lib Smp

abbrev Word := BitVec 32

/-! ## The parties -/

/-- The host: `slink_elf_run` from its first write on, then `slink_wait_for_eoc`. -/
inductive Host
  /-- `slink_write_32(... CHESHIRE_SCRATCH_1_OFFSET, entry[63:32])`. -/
  | writeHi
  /-- `slink_write_32(... CHESHIRE_SCRATCH_0_OFFSET, entry[32:0])`. -/
  | writeLo
  /-- `slink_write_32(... CHESHIRE_SCRATCH_2_OFFSET, 2)`. -/
  | launch
  /-- `slink_poll_bit0`. -/
  | poll
  | done (exitCode : Word)
deriving DecidableEq

/-- The boot hart, in `boot_passive` and in the program it starts. -/
inductive Hart
  /-- `while (!(scratch[2] & 2))`. -/
  | poll
  /-- `uart_debug_check`. -/
  | uart
  /-- `uart_debug_serve`. -/
  | serve
  /-- `scratch[2] = 0`. -/
  | clear
  /-- The reads of `scratch[1]` and `scratch[0]`, in either order. -/
  | readEntry (hi lo : Option Word)
  | main
  /-- `_exit`, before its store to scratch register 2. -/
  | exit
  /-- Back in `boot_next_stage`, at its `ret`. -/
  | done
deriving DecidableEq

/-- The scratch registers, the parties, and the arguments of the calls of `boot_next_stage`. -/
structure State where
  scratch0 : Word
  scratch1 : Word
  scratch2 : Word
  host : Host
  hart : Hart
  calls : List (BitVec 64)

/-- `uart_debug_check`, for a byte that may be waiting. -/
def uartDebugCheck (byte : Option (BitVec 8)) : Bool := byte = some 0x06

/-- `((uint64_t)scratch[1] << 32) | scratch[0]`. -/
def entryOf (hi lo : Word) : BitVec 64 := hi.setWidth 64 <<< 32 ||| lo.setWidth 64

/-- What `_exit` stores when main has returned `v`. -/
def exitWord (v : BitVec 64) : Word := (v <<< 1 ||| 1).setWidth 32

/-- One step of the host. -/
inductive HostStep (entry : BitVec 64) : State → State → Prop
  | writeHi (s : State) : s.host = .writeHi →
    HostStep entry s { s with scratch1 := hi entry, host := .writeLo }
  | writeLo (s : State) : s.host = .writeLo →
    HostStep entry s { s with scratch0 := lo entry, host := .launch }
  | launch (s : State) : s.host = .launch →
    HostStep entry s { s with scratch2 := 2, host := .poll }
  | again (s : State) : s.host = .poll → s.scratch2.getLsbD 0 = false → HostStep entry s s
  | done (s : State) : s.host = .poll → s.scratch2.getLsbD 0 = true →
    HostStep entry s { s with host := .done (s.scratch2 >>> 1) }

/-- One step of the boot hart. The main of the program may do anything but write to scratch
register 2, and it may return `v`. -/
inductive HartStep (v : BitVec 64) : State → State → Prop
  | again (s : State) : s.hart = .poll → s.scratch2 &&& 2 = 0 →
    HartStep v s { s with hart := .uart }
  | launched (s : State) : s.hart = .poll → s.scratch2 &&& 2 ≠ 0 →
    HartStep v s { s with hart := .clear }
  | uart (s : State) (byte : Option (BitVec 8)) : s.hart = .uart → byte ≠ some 0x06 →
    HartStep v s { s with hart := if uartDebugCheck byte then .serve else .poll }
  | clear (s : State) : s.hart = .clear →
    HartStep v s { s with scratch2 := 0, hart := .readEntry none none }
  | readHi (s : State) (lo : Option Word) : s.hart = .readEntry none lo →
    HartStep v s { s with hart := .readEntry (some s.scratch1) lo }
  | readLo (s : State) (hi : Option Word) : s.hart = .readEntry hi none →
    HartStep v s { s with hart := .readEntry hi (some s.scratch0) }
  | call (s : State) (hi lo : Word) : s.hart = .readEntry (some hi) (some lo) →
    HartStep v s { s with hart := .main, calls := s.calls ++ [entryOf hi lo] }
  | main (s : State) (w₀ w₁ : Word) : s.hart = .main →
    HartStep v s { s with scratch0 := w₀, scratch1 := w₁ }
  | ret (s : State) : s.hart = .main → HartStep v s { s with hart := .exit }
  | exit (s : State) : s.hart = .exit →
    HartStep v s { s with scratch2 := exitWord v, hart := .done }

/-- The parties take their steps in any order. All scratch registers are 0 at the start. -/
def machine (entry v : BitVec 64) : Machine State where
  start s := s = ⟨0, 0, 0, .writeHi, .poll, []⟩
  step s s' := HostStep entry s s' ∨ HartStep v s s'

/-! ## The invariant -/

section Invariant

variable (entry v : BitVec 64)

/-- The host has written the entry point. -/
def EntryWritten (s : State) : Prop := s.scratch1 = hi entry ∧ s.scratch0 = lo entry

/-- The hart has seen nothing of the host yet. -/
structure Waiting (s : State) : Prop where
  hart : s.hart = .poll ∨ s.hart = .uart
  scratch2 : s.scratch2 = 0
  calls : s.calls = []

/-- What holds when the host has launched the hart and waits for its exit code. -/
def Launched (s : State) : Hart → Prop
  | .poll | .uart | .clear => s.scratch2 = 2 ∧ EntryWritten entry s ∧ s.calls = []
  | .readEntry h l => s.scratch2 = 0 ∧ EntryWritten entry s ∧ s.calls = [] ∧
      (∀ x ∈ h, x = hi entry) ∧ ∀ x ∈ l, x = lo entry
  | .main | .exit => s.scratch2 = 0 ∧ s.calls = [entry]
  | .done => s.scratch2 = exitWord v ∧ s.calls = [entry]
  | .serve => False

/-- What the other two know of the host's program counter. -/
def Inv (s : State) : Prop :=
  match s.host with
  | .writeHi => Waiting s
  | .writeLo => Waiting s ∧ s.scratch1 = hi entry
  | .launch => Waiting s ∧ EntryWritten entry s
  | .poll => Launched entry v s s.hart
  | .done code => s.hart = .done ∧ s.calls = [entry] ∧ code = exitWord v >>> 1

end Invariant

/-! ## Preservation -/

section Preservation

variable {entry v : BitVec 64} {s s' : State}

/-- The value of main, without its upper bits. -/
theorem exitWord_shift (v : BitVec 64) : (exitWord v >>> 1).toNat = v.toNat % 2 ^ 31 := by
  have hbit : exitWord v >>> 1 = (v.setWidth 31).setWidth 32 := by
    apply BitVec.eq_of_getLsbD_eq
    intro k hk
    unfold exitWord
    rw [BitVec.getLsbD_ushiftRight, BitVec.getLsbD_setWidth, BitVec.getLsbD_or,
      BitVec.getLsbD_shiftLeft, BitVec.getLsbD_setWidth, BitVec.getLsbD_setWidth]
    have hone : (1 : BitVec 64).getLsbD (1 + k) = false := by
      show (1#64).getLsbD (1 + k) = false
      rw [BitVec.getLsbD_one, decide_eq_false (p := 1 + k = 0) (by omega), Bool.and_false]
    rw [hone, Nat.add_sub_cancel_left]
    by_cases hlast : k < 31
    · simp [hlast, show 1 + k < 32 by omega, show 1 + k < 64 by omega, hk]
    · simp [hlast, show ¬1 + k < 32 by omega]
  rw [hbit, BitVec.toNat_setWidth, BitVec.toNat_setWidth]
  omega

/-- As long as no bit of scratch register 2 is set, the host keeps polling. -/
theorem Launched.exited (h : Launched entry v s s.hart) (hbit : s.scratch2.getLsbD 0 = true) :
    s.hart = .done ∧ s.scratch2 = exitWord v ∧ s.calls = [entry] := by
  cases hpc : s.hart with
  | done =>
    rw [hpc] at h
    exact ⟨rfl, h.1, h.2⟩
  | poll | uart | clear | readEntry | main | exit =>
    rw [hpc] at h
    rw [h.1] at hbit
    exact absurd hbit (by decide)
  | serve =>
    rw [hpc] at h
    exact h.elim

theorem Launched.calls (h : Launched entry v s s.hart) : s.calls = [] ∨ s.calls = [entry] := by
  cases hpc : s.hart with
  | poll | uart | clear =>
    rw [hpc] at h
    exact Or.inl h.2.2
  | readEntry =>
    rw [hpc] at h
    exact Or.inl h.2.2.1
  | main | exit | done =>
    rw [hpc] at h
    exact Or.inr h.2
  | serve =>
    rw [hpc] at h
    exact h.elim

theorem Inv.hostStep (h : Inv entry v s) (hs : HostStep entry s s') : Inv entry v s' := by
  cases hs with
  | writeHi hpc =>
    simp only [Inv, hpc] at h
    exact ⟨⟨h.hart, h.scratch2, h.calls⟩, rfl⟩
  | writeLo hpc =>
    simp only [Inv, hpc] at h
    obtain ⟨hw, hhi⟩ := h
    exact ⟨⟨hw.hart, hw.scratch2, hw.calls⟩, hhi, rfl⟩
  | launch hpc =>
    simp only [Inv, hpc] at h
    obtain ⟨hw, hentry⟩ := h
    show Launched entry v _ s.hart
    rcases hw.hart with hart | hart
    · rw [hart]
      exact ⟨rfl, hentry, hw.calls⟩
    · rw [hart]
      exact ⟨rfl, hentry, hw.calls⟩
  | again hpc hbit => exact h
  | done hpc hbit =>
    simp only [Inv, hpc] at h
    obtain ⟨hart, hword, hcalls⟩ := h.exited hbit
    exact ⟨hart, hcalls, by rw [hword]⟩

/-- A step of the hart before the host has launched it. -/
theorem Waiting.hartStep (h : Waiting s) (hs : HartStep v s s') :
    Waiting s' ∧ s'.scratch1 = s.scratch1 ∧ s'.scratch0 = s.scratch0 ∧ s'.host = s.host := by
  obtain ⟨hart, h2, hcalls⟩ := h
  cases hs with
  | again hpc hbit => exact ⟨⟨Or.inr rfl, h2, hcalls⟩, rfl, rfl, rfl⟩
  | launched hpc hbit =>
    rw [h2] at hbit
    exact absurd rfl hbit
  | uart byte hpc hack =>
    have hcheck : uartDebugCheck byte = false := decide_eq_false hack
    rw [hcheck]
    exact ⟨⟨Or.inl rfl, h2, hcalls⟩, rfl, rfl, rfl⟩
  | clear hpc | readHi _ hpc | readLo _ hpc | call _ _ hpc | main _ _ hpc | ret hpc | exit hpc =>
    rw [hpc] at hart
    simp at hart

/-- A step of the hart after that. -/
theorem Launched.hartStep (h : Launched entry v s s.hart) (hs : HartStep v s s') :
    Launched entry v s' s'.hart ∧ s'.host = s.host := by
  cases hs with
  | again hpc hbit =>
    rw [hpc] at h
    rw [h.1] at hbit
    exact absurd hbit (by decide)
  | launched hpc hbit =>
    rw [hpc] at h
    exact ⟨h, rfl⟩
  | uart byte hpc hack =>
    have hcheck : uartDebugCheck byte = false := decide_eq_false hack
    rw [hpc] at h
    rw [hcheck]
    exact ⟨h, rfl⟩
  | clear hpc =>
    rw [hpc] at h
    exact ⟨⟨rfl, h.2.1, h.2.2, nofun, nofun⟩, rfl⟩
  | readHi l hpc =>
    rw [hpc] at h
    obtain ⟨h2, hentry, hcalls, -, hlo⟩ := h
    exact ⟨⟨h2, hentry, hcalls, fun x hx => (Option.some.inj hx).symm.trans hentry.1, hlo⟩, rfl⟩
  | readLo l hpc =>
    rw [hpc] at h
    obtain ⟨h2, hentry, hcalls, hhi, -⟩ := h
    exact ⟨⟨h2, hentry, hcalls, hhi, fun x hx => (Option.some.inj hx).symm.trans hentry.2⟩, rfl⟩
  | call x y hpc =>
    rw [hpc] at h
    obtain ⟨h2, -, hcalls, hhi, hlo⟩ := h
    refine ⟨⟨h2, ?_⟩, rfl⟩
    have hx := hhi x rfl
    have hy := hlo y rfl
    show s.calls ++ [entryOf x y] = [entry]
    rw [hcalls, hx, hy, entryOf, BitVec.or_comm, or_words]
    rfl
  | main w₀ w₁ hpc =>
    rw [hpc] at h
    show Launched entry v _ s.hart ∧ _
    rw [hpc]
    exact ⟨h, rfl⟩
  | ret hpc =>
    rw [hpc] at h
    exact ⟨h, rfl⟩
  | exit hpc =>
    rw [hpc] at h
    exact ⟨⟨rfl, h.2⟩, rfl⟩

theorem Inv.hartStep (h : Inv entry v s) (hs : HartStep v s s') : Inv entry v s' := by
  unfold Inv at h
  cases hpc : s.host with
  | writeHi =>
    rw [hpc] at h
    obtain ⟨hw, -, -, hhost⟩ := Waiting.hartStep h hs
    rw [Inv, hhost, hpc]
    exact hw
  | writeLo =>
    rw [hpc] at h
    obtain ⟨hw, h1, -, hhost⟩ := h.1.hartStep hs
    rw [Inv, hhost, hpc]
    exact ⟨hw, h1.trans h.2⟩
  | launch =>
    rw [hpc] at h
    obtain ⟨hw, h1, h0, hhost⟩ := h.1.hartStep hs
    rw [Inv, hhost, hpc]
    exact ⟨hw, h1.trans h.2.1, h0.trans h.2.2⟩
  | poll =>
    rw [hpc] at h
    obtain ⟨hl, hhost⟩ := Launched.hartStep h hs
    rw [Inv, hhost, hpc]
    exact hl
  | done code =>
    -- the hart has no step left
    rw [hpc] at h
    obtain ⟨hdone, -⟩ := h
    cases hs with
    | again hpc' _ | launched hpc' _ | uart _ hpc' _ | clear hpc' | readHi _ hpc' | readLo _ hpc'
    | call _ _ hpc' | main _ _ hpc' | ret hpc' | exit hpc' =>
      exact absurd (hdone.symm.trans hpc') (by simp)

theorem inv_reachable (hs : (machine entry v).Reachable s) : Inv entry v s := by
  refine Machine.Invariant.reachable ⟨?_, ?_⟩ hs
  · rintro _ rfl
    exact ⟨Or.inl rfl, rfl, rfl⟩
  · intro s s' h hstep
    rcases hstep with hstep | hstep
    · exact h.hostStep hstep
    · exact h.hartStep hstep

end Preservation

/-! ## Main result -/

/-- The host has completed its three writes. -/
def Host.Written : Host → Prop
  | .writeHi | .writeLo | .launch => False
  | .poll | .done _ => True

/-- Main has returned. -/
def Hart.Returned : Hart → Prop
  | .exit | .done => True
  | _ => False

/-- **Main result.** The program is started at most once, when the host has written all of it, at
the host's entry point, and the host reports the value of its main after that has returned. -/
theorem launch_correct (entry v : BitVec 64) {s : State} (hs : (machine entry v).Reachable s) :
    (s.calls = [] ∨ s.calls = [entry] ∧ s.host.Written) ∧
    ∀ code, s.host = .done code → s.hart.Returned ∧ code.toNat = v.toNat % 2 ^ 31 := by
  have h := inv_reachable hs
  unfold Inv at h
  cases hhost : s.host with
  | writeHi =>
    rw [hhost] at h
    exact ⟨Or.inl h.calls, nofun⟩
  | writeLo | launch =>
    rw [hhost] at h
    exact ⟨Or.inl h.1.calls, nofun⟩
  | poll =>
    rw [hhost] at h
    exact ⟨h.calls.imp_right fun hcalls => ⟨hcalls, trivial⟩, nofun⟩
  | done code =>
    rw [hhost] at h
    obtain ⟨hart, hcalls, hcode⟩ := h
    refine ⟨Or.inr ⟨hcalls, trivial⟩, fun c hc => ?_⟩
    obtain rfl : code = c := Host.done.inj hc
    rw [hart, hcode]
    exact ⟨trivial, exitWord_shift v⟩

/-- A run to its end: the program at `0x80000000` returns 3. -/
theorem launch_correct_run : ∃ s code, (machine 0x80000000 3).Reachable s ∧
    s.host = .done code ∧ s.calls = [0x80000000] ∧ code.toNat = 3 % 2 ^ 31 := by
  have h₀ : (machine 0x80000000 3).Reachable ⟨0, 0, 0, .writeHi, .poll, []⟩ := .start rfl
  have h₁ := h₀.step (Or.inl (.writeHi _ rfl))
  have h₂ := h₁.step (Or.inl (.writeLo _ rfl))
  have h₃ := h₂.step (Or.inl (.launch _ rfl))
  have h₄ := h₃.step (Or.inr (.launched _ rfl (by decide)))
  have h₅ := h₄.step (Or.inr (.clear _ rfl))
  have h₆ := h₅.step (Or.inr (.readHi _ _ rfl))
  have h₇ := h₆.step (Or.inr (.readLo _ _ rfl))
  have h₈ := h₇.step (Or.inr (.call _ _ _ rfl))
  have h₉ := h₈.step (Or.inr (.ret _ rfl))
  have h₁₀ := h₉.step (Or.inr (.exit _ rfl))
  have hrun := h₁₀.step (Or.inl (.done _ rfl (by decide)))
  obtain ⟨hcalls, hcode⟩ := launch_correct 0x80000000 3 hrun
  refine ⟨_, _, hrun, rfl, ?_, (hcode _ rfl).2⟩
  exact (hcalls.resolve_left (by simp)).1

end Cheshire.PassiveBoot
