import Cheshire.I2cEeprom
import Mathlib.Tactic.IntervalCases

/-!
# The address of an I2C EEPROM transfer

The driver queues a control byte and two address bytes for a linear address. The device expects
the bits 16 to 18 of the address in the control byte, as block and chip select. The driver shifts
bit 16 and the bits 20 and 24 to places above the eight bits that are sent.

**Theorem (`addressBytes_iff`).** The bytes are those of the device exactly for the addresses
below 64 KiB, and two transfers select different cells exactly if the low 16 bits differ.
-/

namespace Cheshire.I2cEeprom

open Lib Cmd

/-! ## What the device expects -/

/-- `1010`, the block bit, the two bits of the chip select, and 0 for a write. -/
def controlByte (a : U64) : Byte := 0b1010#4 ++ a.extractLsb' 16 1 ++ a.extractLsb' 17 2 ++ 0#1

def addressBytes (a : U64) : List Byte :=
  [controlByte a, a.extractLsb' 8 8, a.extractLsb' 0 8]

/-- The cell that a transfer selects. -/
def selected : List Entry → Option ℕ
  | c :: hi :: lo :: _ => some (cell c.byte hi.byte lo.byte)
  | _ => none

/-! ## What a computation queues -/

section Queue

variable {α β : Type} {bus : Bus} {P : Entry → Prop} {pre : List Entry} {x : M α} {f : α → M β}

/-- The log has grown by entries with `P`. -/
def Grows (P : Entry → Prop) (s s' : I2c) : Prop := ∃ l, s'.log = s.log ++ l ∧ ∀ e ∈ l, P e

/-- Whether or not it returns 0, it queues only entries with `P`. -/
def Queues (P : Entry → Prop) (x : M α) : Prop :=
  ∀ s, Ends (x s) (fun _ => Grows P s) fun _ => Grows P s

/-- Whether or not it returns 0, it queues nothing. -/
def Silent (x : M α) : Prop :=
  ∀ s, Ends (x s) (fun _ s' => s'.log = s.log) fun _ s' => s'.log = s.log

/-- What it queues starts with `pre`, or is a part of that. -/
def Leads (pre : List Entry) (x : M α) : Prop :=
  ∀ s, Ends (x s) (fun _ s' => ∃ l, s'.log = s.log ++ l ∧ (l <+: pre ∨ pre <+: l))
    fun _ s' => ∃ l, s'.log = s.log ++ l ∧ (l <+: pre ∨ pre <+: l)

theorem Grows.refl {s s' : I2c} (h : s'.log = s.log) : Grows P s s' :=
  ⟨[], by rw [h, List.append_nil], fun _ he => absurd he List.not_mem_nil⟩

theorem Grows.trans {s s₁ s₂ : I2c} (h : Grows P s s₁) (h' : Grows P s₁ s₂) : Grows P s s₂ := by
  obtain ⟨l, hl, hP⟩ := h
  obtain ⟨l', hl', hP'⟩ := h'
  refine ⟨l ++ l', by rw [hl', hl, List.append_assoc], fun e he => ?_⟩
  exact (List.mem_append.1 he).elim (hP e) (hP' e)

theorem Silent.queues (h : Silent x) : Queues P x := fun s =>
  (h s).mono (fun _ _ => Grows.refl) fun _ _ => Grows.refl

theorem Queues.bind (hx : Queues P x) (hf : ∀ a, Queues P (f a)) : Queues P (x >>= f) := by
  intro s
  refine (hx s).bind fun a s₁ h => ?_
  exact (hf a s₁).mono (fun _ _ => h.trans) fun _ _ => h.trans

theorem Queues.ite {c : Prop} [Decidable c] {y : M α} (hx : c → Queues P x)
    (hy : ¬c → Queues P y) : Queues P (if c then x else y) :=
  iteInduction (motive := fun x => Queues P x) hx hy

theorem Queues.forStep {body : ℕ → M Unit} (hbody : ∀ i, Queues P (body i)) (stop step fuel i : ℕ) :
    Queues P (Cmd.forStep stop step body fuel i) := by
  induction fuel generalizing i with
  | zero => exact fun _ => Grows.refl rfl
  | succ fuel ih =>
    exact Queues.ite (fun _ => (hbody i).bind fun _ => ih (i + step)) fun _ _ => Grows.refl rfl

/-! ## Library calls -/

theorem call_silent {f : I2c → I2c} {left : Byte → I2c → I2c} (hf : ∀ s, (f s).log = s.log)
    (hleft : ∀ b s, (left b s).log = s.log) : Silent (call bus (modify f) left) := by
  intro s
  unfold call
  cases bus.fails s.calls with
  | none => exact hf _
  | some e => exact hleft _ _

theorem hostSetEnabled_silent (on : Bool) : Silent (hostSetEnabled bus on) := by
  refine call_silent (fun s => ?_) fun _ _ => rfl
  cases on <;> rfl

theorem readByte_silent (p : U64) : Silent (readByte bus p) :=
  call_silent (fun _ => rfl) fun _ _ => rfl

theorem pollLevels_silent (again : Levels → Bool) (fuel : ℕ) :
    Silent (pollLevels bus again fuel) := by
  induction fuel with
  | zero => exact fun _ => rfl
  | succ fuel ih =>
    intro s
    have hcall : Silent (call bus (pure ()) fun _ s => s) :=
      call_silent (f := id) (fun _ => rfl) fun _ _ => rfl
    refine (hcall s).bind fun _ s₁ h => ?_
    by_cases hagain : again (bus.levels s.calls) = true
    · rw [if_pos hagain, ← h]
      exact ih s₁
    · rw [if_neg hagain]
      exact h

/-- A byte is queued, or the call fails and nothing is. -/
theorem writeByte_ends (b : Byte) (fmt : Fmt) (s : I2c) : Ends (writeByte bus b fmt s)
    (fun _ s' => s'.log = s.log ++ [⟨b, fmt⟩]) fun _ s' => s'.log = s.log := by
  unfold writeByte call
  cases bus.fails s.calls <;> rfl

theorem writeByte_queues {b : Byte} {fmt : Fmt} (h : P ⟨b, fmt⟩) :
    Queues P (writeByte bus b fmt) := by
  intro s
  refine (writeByte_ends b fmt s).mono (fun _ s' hlog => ⟨_, hlog, fun e he => ?_⟩)
    fun _ _ => Grows.refl
  rw [List.mem_singleton.1 he]
  exact h

/-! ## The first entries -/

theorem Queues.leads (h : Queues P x) : Leads [] x := by
  intro s
  have hlead (s' : I2c) (hs : Grows P s s') :
      ∃ l, s'.log = s.log ++ l ∧ (l <+: [] ∨ [] <+: l) := by
    obtain ⟨l, hl, -⟩ := hs
    exact ⟨l, hl, Or.inr List.nil_prefix⟩
  exact (h s).mono (fun _ => hlead) fun _ => hlead

theorem Silent.leads (hx : Silent x) (hf : ∀ a, Leads pre (f a)) : Leads pre (x >>= f) := by
  intro s
  refine (Ends.mono (hx s) (fun _ _ h => h) fun _ s' h => ?_).bind fun a s₁ h => ?_
  · exact ⟨[], by rw [h, List.append_nil], Or.inl List.nil_prefix⟩
  · have hlead := hf a s₁
    rw [h] at hlead
    exact hlead

theorem writeByte_leads (b : Byte) (fmt : Fmt) {y : M β} (hy : Leads pre y) :
    Leads (⟨b, fmt⟩ :: pre) (writeByte bus b fmt >>= fun _ => y) := by
  intro s
  refine (Ends.mono (writeByte_ends b fmt s) (fun _ _ h => h) fun _ s' h => ?_).bind ?_
  · exact ⟨[], by rw [h, List.append_nil], Or.inl List.nil_prefix⟩
  intro _ s₁ h
  have hlead (s' : I2c) (hs : ∃ l, s'.log = s₁.log ++ l ∧ (l <+: pre ∨ pre <+: l)) :
      ∃ l, s'.log = s.log ++ l ∧ (l <+: ⟨b, fmt⟩ :: pre ∨ ⟨b, fmt⟩ :: pre <+: l) := by
    obtain ⟨l, hl, hpre⟩ := hs
    refine ⟨⟨b, fmt⟩ :: l, by rw [hl, h, ← List.append_cons], hpre.imp ?_ ?_⟩ <;>
      exact fun hp => List.cons_prefix_cons.2 ⟨rfl, hp⟩
  exact (hy s₁).mono (fun _ => hlead) fun _ => hlead

end Queue

/-! ## Chunks -/

section Chunks

variable {bus : Bus} {P : Entry → Prop}

/-- The address as the driver queues it, with the control byte that a read sends after it. -/
def queuedAddress (addr : U64) (write : Bool) : List Entry :=
  ⟨(ctrlWaddr addr).setWidth 8, .start⟩ :: ⟨(addr >>> 8 &&& 0xFF).setWidth 8, .tx⟩ ::
    ⟨(addr &&& 0xFF).setWidth 8, if write then .tx else .txStop⟩ ::
      if write then [] else [⟨(ctrlWaddr addr ||| 0x1).setWidth 8, .start⟩]

theorem writeRest_queues (hP : ∀ b, P ⟨b, .tx⟩) (buf : U64) (len halfFill : ℕ) :
    Queues P (writeRest bus buf len halfFill) := by
  have hsend (i : ℕ) : Queues P (do
      let s ← get
      writeByte bus (s.mem (buf + BitVec.ofNat 64 i)) .tx : M Unit) :=
    fun s => (writeByte_queues (hP (s.mem (buf + BitVec.ofNat 64 i)))) s
  exact (Queues.forStep hsend _ _ _ _).bind fun _ => (hsend _).bind fun _ =>
    (hostSetEnabled_silent true).queues

theorem readBytes_queues (buf : U64) (len : ℕ) :
    Queues P (forBytes len fun b => readByte bus (buf + BitVec.ofNat 64 b)) :=
  Queues.forStep (fun _ => (readByte_silent _).queues) _ _ _ _

/-- A write never queues a byte with a stop bit; the last byte of an address is one for a read. -/
theorem accessChunk_queues (hstart : ∀ b, P ⟨b, .start⟩) (htx : ∀ b, P ⟨b, .tx⟩) {write : Bool}
    (hread : write = false → ∀ b, P ⟨b, .txStop⟩ ∧ P ⟨b, .rx⟩) (fuel : ℕ) (buf addr : U64)
    (len : ℕ) : Queues P (accessChunk bus fuel buf addr len write) := by
  induction fuel generalizing buf addr len with
  | zero => exact fun _ => Grows.refl rfl
  | succ fuel ih =>
    refine (pollLevels_silent _ fuel).queues.bind fun _ => ?_
    refine (hostSetEnabled_silent false).queues.bind fun _ => ?_
    refine (writeByte_queues (hstart _)).bind fun _ => ?_
    refine (writeByte_queues (htx _)).bind fun _ => ?_
    cases write with
    | true =>
      refine (writeByte_queues (htx _)).bind fun _ => ?_
      refine (writeRest_queues htx buf len (bus.fifoDepth / 2)).bind fun _ => ?_
      exact Queues.ite (fun _ => ih _ _ _) fun _ _ => Grows.refl rfl
    | false =>
      refine (writeByte_queues (hread rfl _).1).bind fun _ => ?_
      refine (writeByte_queues (hstart _)).bind fun _ => ?_
      refine (writeByte_queues (hread rfl _).2).bind fun _ => ?_
      refine (hostSetEnabled_silent true).queues.bind fun _ => ?_
      refine (pollLevels_silent _ fuel).queues.bind fun _ => ?_
      exact readBytes_queues buf len

theorem accessChunk_leads (fuel : ℕ) (buf addr : U64) (len : ℕ) (write : Bool) :
    Leads (queuedAddress addr write) (accessChunk bus fuel buf addr len write) := by
  cases fuel with
  | zero => exact fun s => ⟨[], (List.append_nil s.log).symm, Or.inl List.nil_prefix⟩
  | succ fuel =>
    refine (pollLevels_silent _ fuel).leads fun _ => ?_
    refine (hostSetEnabled_silent false).leads fun _ => ?_
    refine writeByte_leads _ _ (writeByte_leads _ _ (writeByte_leads _ _ ?_))
    cases write with
    | true =>
      refine Queues.leads (P := fun _ => True) ?_
      refine (writeRest_queues (fun _ => trivial) buf len (bus.fifoDepth / 2)).bind fun _ => ?_
      refine Queues.ite (fun _ => ?_) fun _ _ => Grows.refl rfl
      exact accessChunk_queues (fun _ => trivial) (fun _ => trivial)
        (fun _ _ => ⟨trivial, trivial⟩) _ _ _ _
    | false =>
      refine writeByte_leads _ _ (Queues.leads (P := fun _ => True) ?_)
      refine (writeByte_queues trivial).bind fun _ => ?_
      refine (hostSetEnabled_silent true).queues.bind fun _ => ?_
      refine (pollLevels_silent _ fuel).queues.bind fun _ => ?_
      exact readBytes_queues buf len

end Chunks

/-! ## The bytes of an address -/

/-- Whatever the address is, its upper bits are lost. -/
theorem ctrlWaddr_byte (a : U64) : (ctrlWaddr a).setWidth 8 = 0xA0#8 := by
  apply BitVec.eq_of_getLsbD_eq
  intro i hi
  interval_cases i <;> simp [ctrlWaddr]

theorem controlByte_eq_iff {a : U64} (ha : a.toNat < 2 ^ 19) :
    controlByte a = 0xA0 ↔ a.toNat < 2 ^ 16 := by
  have hfields : ∀ (b : BitVec 1) (c : BitVec 2),
      (0b1010#4 ++ b ++ c ++ 0#1 : BitVec 8) = 0xA0 ↔ b = 0#1 ∧ c = 0#2 := by decide
  rw [controlByte, hfields, ← BitVec.toNat_inj, ← BitVec.toNat_inj]
  simp only [BitVec.extractLsb'_toNat, Nat.shiftRight_eq_div_pow, BitVec.toNat_ofNat]
  omega

/-- The same for the control byte of a read. -/
theorem controlByte_read_iff {a : U64} (ha : a.toNat < 2 ^ 19) :
    0xA0 ||| 1 = controlByte a ||| 1 ↔ a.toNat < 2 ^ 16 := by
  have hfields : ∀ (b : BitVec 1) (c : BitVec 2),
      (0xA0 ||| 1 : Byte) = (0b1010#4 ++ b ++ c ++ 0#1 : BitVec 8) ||| 1 ↔
        (0b1010#4 ++ b ++ c ++ 0#1 : BitVec 8) = 0xA0 := by decide
  rw [← controlByte_eq_iff ha]
  exact hfields _ _

theorem highByte_eq (a : U64) : (a >>> 8 &&& 0xFF).setWidth 8 = a.extractLsb' 8 8 := by
  apply BitVec.eq_of_getLsbD_eq
  intro i hi
  interval_cases i <;> simp

theorem lowByte_eq (a : U64) : (a &&& 0xFF).setWidth 8 = a.extractLsb' 0 8 := by
  apply BitVec.eq_of_getLsbD_eq
  intro i hi
  interval_cases i <;> simp

theorem highByte_toNat (a : U64) : (a.extractLsb' 8 8).toNat = a.toNat / 2 ^ 8 % 2 ^ 8 := by
  rw [BitVec.extractLsb'_toNat, Nat.shiftRight_eq_div_pow]

theorem lowByte_toNat (a : U64) : (a.extractLsb' 0 8).toNat = a.toNat % 2 ^ 8 := by
  rw [BitVec.extractLsb'_toNat, Nat.shiftRight_eq_div_pow, pow_zero, Nat.div_one]

/-! ## Main result -/

/-- The state in which a call ends, whether or not it returns 0. -/
def finalState (r : EStateM.Result Exit I2c Unit) : I2c :=
  match r with
  | .ok _ s => s
  | .error _ s => s

/-- The entries that a chunk queues when it is started from `s`. -/
def ChunkQueues (bus : Bus) (fuel : ℕ) (buf addr : U64) (len : ℕ) (write : Bool) (s : I2c)
    (l : List Entry) : Prop :=
  (finalState (accessChunk bus fuel buf addr len write s)).log = s.log ++ l

section Main

variable {bus bus' : Bus} {fuel fuel' : ℕ} {buf buf' a a' : U64} {len len' : ℕ}
  {write write' : Bool} {s s' : I2c} {l l' : List Entry}

theorem ChunkQueues.prefix_or (h : ChunkQueues bus fuel buf a len write s l) :
    l <+: queuedAddress a write ∨ queuedAddress a write <+: l := by
  have hlead := @accessChunk_leads bus fuel buf a len write s
  unfold ChunkQueues finalState at h
  cases hr : accessChunk bus fuel buf a len write s <;>
  · rw [hr] at h hlead
    obtain ⟨l', hl', hpre⟩ := hlead
    rw [List.append_cancel_left (h.symm.trans hl')]
    exact hpre

/-- The entries of the address, as far as they have been queued. -/
theorem ChunkQueues.getElem? (h : ChunkQueues bus fuel buf a len write s l) {i : ℕ}
    (hi : i < l.length) (hi' : i < (queuedAddress a write).length) :
    l[i]? = (queuedAddress a write)[i]? := by
  rcases h.prefix_or with ⟨r, hr⟩ | ⟨r, hr⟩
  · rw [← hr, List.getElem?_append_left hi]
  · rw [← hr, List.getElem?_append_left hi']

theorem ChunkQueues.three (h : ChunkQueues bus fuel buf a len write s l) (hlen : 3 ≤ l.length) :
    ∃ fmt rest, l = ⟨0xA0, .start⟩ :: ⟨a.extractLsb' 8 8, .tx⟩ :: ⟨a.extractLsb' 0 8, fmt⟩ ::
      rest := by
  have h3 : 3 ≤ (queuedAddress a write).length := by
    cases write <;> simp [queuedAddress]
  have h0 := h.getElem? (i := 0) (by omega) (by omega)
  have h1 := h.getElem? (i := 1) (by omega) (by omega)
  have h2 := h.getElem? (i := 2) (by omega) (by omega)
  unfold queuedAddress at h0 h1 h2
  rw [ctrlWaddr_byte, highByte_eq, lowByte_eq] at h0 h1 h2
  match l, h0, h1, h2 with
  | e₀ :: e₁ :: e₂ :: rest, h0, h1, h2 =>
    obtain rfl := Option.some.inj h0
    obtain rfl := Option.some.inj h1
    obtain rfl := Option.some.inj h2
    exact ⟨_, rest, rfl⟩

theorem ChunkQueues.selected_eq (h : ChunkQueues bus fuel buf a len write s l)
    (hlen : 3 ≤ l.length) : selected l = some (a.toNat % 2 ^ 16) := by
  obtain ⟨fmt, rest, rfl⟩ := h.three hlen
  have hchip : ((0xA0 : Byte) >>> 1 &&& 3).toNat = 0 := by decide
  have hblock : ((0xA0 : Byte) >>> 3 &&& 1).toNat = 0 := by decide
  show some (cell 0xA0 _ _) = _
  rw [cell, hchip, hblock, highByte_toNat, lowByte_toNat]
  exact congrArg some (by omega)

/-- The control byte of a read follows the address. -/
theorem ChunkQueues.read_control (h : ChunkQueues bus fuel buf a len write s l)
    (hread : write = false) {e : Entry} (he : l[3]? = some e) : e.byte = 0xA0 ||| 1 := by
  subst hread
  obtain ⟨hlen, -⟩ := List.getElem?_eq_some_iff.1 he
  rw [h.getElem? hlen (by simp [queuedAddress])] at he
  obtain rfl := Option.some.inj he
  show (ctrlWaddr a ||| 1).setWidth 8 = _
  rw [BitVec.setWidth_or, ctrlWaddr_byte]
  rfl

/-- **Main result.** Which addresses are sent as the device expects them, also before the bytes of
a read, and which pairs of addresses are told apart. -/
theorem addressBytes_iff (ha : a.toNat < 2 ^ 19)
    (h : ChunkQueues bus fuel buf a len write s l) (hlen : 3 ≤ l.length)
    (h' : ChunkQueues bus' fuel' buf' a' len' write' s' l') (hlen' : 3 ≤ l'.length) :
    ((l.take 3).map Entry.byte = addressBytes a ↔ a.toNat < 2 ^ 16) ∧
      (write = false → ∀ e, l[3]? = some e →
        (e.byte = controlByte a ||| 1 ↔ a.toNat < 2 ^ 16)) ∧
      (selected l ≠ selected l' ↔ a.toNat % 2 ^ 16 ≠ a'.toNat % 2 ^ 16) := by
  refine ⟨?_, fun hread e he => ?_, ?_⟩
  · obtain ⟨fmt, rest, rfl⟩ := h.three hlen
    rw [← controlByte_eq_iff ha]
    show [0xA0, _, _] = [controlByte a, _, _] ↔ _
    rw [List.cons.injEq, eq_comm]
    exact and_iff_left rfl
  · rw [h.read_control hread he]
    exact controlByte_read_iff ha
  · rw [h.selected_eq hlen, h'.selected_eq hlen', Ne, Option.some_inj]

end Main

/-! ## Two blocks on one cell -/

/-- A bus on which every call succeeds. -/
def freeBus : Bus where
  fifoDepth := 64
  levels _ := ⟨0, 0, 0, 0⟩
  fails _ := none
  eeprom _ := 0

def freshState : I2c := ⟨fun _ => 0, [], 0, [], [], 0⟩

/-- What writing a zero byte queues. -/
def oneByte (addr : U64) : List Entry := queuedAddress addr true ++ [⟨0, .tx⟩]

theorem freeBus_queues (addr : U64) :
    ChunkQueues freeBus 2 0 addr 1 true freshState (oneByte addr) := rfl

theorem addressBytes_iff_low :
    (((oneByte 5).take 3).map Entry.byte = addressBytes 5 ↔ 5 < 2 ^ 16) ∧
      (selected (oneByte 5) ≠ selected (oneByte 6) ↔ 5 % 2 ^ 16 ≠ 6 % 2 ^ 16) := by
  obtain ⟨hbytes, -, hcell⟩ := addressBytes_iff (show (5 : U64).toNat < 2 ^ 19 by decide)
    (freeBus_queues 5) (by decide) (freeBus_queues 6) (by decide)
  exact ⟨hbytes, hcell⟩

/-- The first cell of the upper block is taken for the first cell of the lower one. -/
theorem upperBlock_aliased :
    ∃ l l' : List Entry, ChunkQueues freeBus 2 0 0x10000 1 true freshState l ∧ 3 ≤ l.length ∧
      ChunkQueues freeBus 2 0 0 1 true freshState l' ∧ 3 ≤ l'.length ∧
      (l.take 3).map Entry.byte ≠ addressBytes 0x10000 ∧ selected l = selected l' :=
  ⟨oneByte 0x10000, oneByte 0, freeBus_queues 0x10000, by decide, freeBus_queues 0, by decide,
    by decide, by decide⟩

end Cheshire.I2cEeprom
