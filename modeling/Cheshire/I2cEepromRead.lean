import Cheshire.I2cEeprom

/-!
# Reading the I2C EEPROM: `i2c_24fc1025_read`

A read is split into chunks that end at multiples of the FIFO depth. The first chunk of an
unaligned read always extends to the next multiple, even if the requested range ends before it.

**Theorem (`read_iff`).** A read that returns 0 delivers the requested range and stores nothing
else exactly if the range starts at a multiple of the FIFO depth or reaches the next one.
-/

namespace Cheshire.I2cEeprom

open Lib Cmd

variable {bus : Bus} {m : Mem} {st : List U64} {q : List Entry} {c : ℕ}

/-! ## Library calls -/

/-- What a state holds, as far as a read depends on it. -/
structure Holds (m : Mem) (st : List U64) (q : List Entry) (c : ℕ) (s : I2c) : Prop where
  mem : s.mem = m
  stores : s.stores = st
  queue : s.queue = q
  next : s.next = c

/-- Nothing is said about a call that does not return 0. -/
abbrev Returns {α : Type} (P : I2c → Prop) (x : M α) (Q : I2c → Prop) : Prop :=
  Triple P x (fun _ => Q) fun _ _ => True

theorem call_returns {P Q : I2c → Prop} {f : I2c → I2c} {left : Byte → I2c → I2c}
    (h : ∀ s, P s → Q (f { s with calls := s.calls + 1 })) :
    Returns P (call bus (modify f) left) Q := by
  intro s hs
  unfold call
  cases bus.fails s.calls with
  | none => exact h s hs
  | some e => trivial

theorem writeByte_returns (b : Byte) (f : Fmt) :
    Returns (Holds m st q c) (writeByte bus b f) (Holds m st (q ++ [⟨b, f⟩]) c) :=
  call_returns fun _ h => ⟨h.mem, h.stores, congrArg (· ++ _) h.queue, h.next⟩

theorem disable_returns :
    Returns (Holds m st q c) (hostSetEnabled bus false) (Holds m st [] c) :=
  call_returns fun _ h => ⟨h.mem, h.stores, rfl, h.next⟩

theorem enable_returns : Returns (Holds m st q c) (hostSetEnabled bus true)
    (Holds m st q ((readRequest q).getD c)) := by
  refine call_returns fun s h => ⟨h.mem, h.stores, h.queue, ?_⟩
  show (readRequest s.queue).getD s.next = _
  rw [h.queue, h.next]

theorem readByte_returns (p : U64) : Returns (Holds m st q c) (readByte bus p)
    (Holds (m.write p 1 fun _ => bus.eeprom c) (st ++ [p]) q (c + 1)) := by
  refine call_returns fun s h => ⟨?_, congrArg (· ++ _) h.stores, h.queue, congrArg (· + 1) h.next⟩
  show s.mem.write p 1 (fun _ => bus.eeprom s.next) = _
  rw [h.mem, h.next]

theorem pollLevels_returns (again : Levels → Bool) (fuel : ℕ) :
    Returns (Holds m st q c) (pollLevels bus again fuel) (Holds m st q c) := by
  induction fuel with
  | zero => exact fun _ _ => trivial
  | succ fuel ih =>
    intro s hs
    refine Ends.bind (Q := fun a s' => a = s ∧ s' = s) ⟨rfl, rfl⟩ ?_
    rintro _ _ ⟨rfl, rfl⟩
    have hcall : Returns (Holds m st q c) (call bus (pure ()) fun _ s => s) (Holds m st q c) :=
      call_returns (f := id) fun _ h => ⟨h.mem, h.stores, h.queue, h.next⟩
    refine (hcall _ hs).bind fun _ _ h => ?_
    exact Triple.ite (fun _ => ih) (fun _ => Triple.pure fun _ h => h) _ h

/-! ## Chunks -/

/-- The addresses of the `n` bytes from `buf` on, as they are stored to. -/
def addrs (buf : U64) (n : ℕ) : List U64 := (List.range n).map fun i => buf + BitVec.ofNat 64 i

theorem addrs_append (buf : U64) (n k : ℕ) :
    addrs buf (n + k) = addrs buf n ++ addrs (buf + BitVec.ofNat 64 n) k := by
  unfold addrs
  rw [List.range_add, List.map_append, List.map_map]
  congr 2
  funext i
  rw [Function.comp_apply, BitVec.ofNat_add, BitVec.add_assoc]

theorem addrs_succ (buf : U64) (n : ℕ) :
    addrs buf (n + 1) = addrs buf n ++ [buf + BitVec.ofNat 64 n] := by
  unfold addrs
  rw [List.range_succ, List.map_append, List.map_singleton]

/-- Memory and stores after `n` bytes of the EEPROM, from `a` on, have arrived. -/
def Filled (bus : Bus) (buf : U64) (a : ℕ) (m : Mem) (st : List U64) (n : ℕ) (s : I2c) : Prop :=
  s.mem = m.write buf n (fun i => bus.eeprom (a + i)) ∧ s.stores = st ++ addrs buf n

theorem readBytes_returns (buf : U64) {len : ℕ} (hlen : len ≤ 2 ^ 64) :
    Returns (Holds m st q c) (forBytes len fun b => readByte bus (buf + BitVec.ofNat 64 b))
      (Filled bus buf c m st len) := by
  have hloop := Triple.forStep (E := fun _ _ => True)
    (I := fun i => Holds (m.write buf i fun k => bus.eeprom (c + k)) (st ++ addrs buf i) q (c + i))
    Nat.one_pos (fun i hi => by
      have hstep := @readByte_returns bus (m.write buf i fun k => bus.eeprom (c + k))
        (st ++ addrs buf i) q (c + i) (buf + BitVec.ofNat 64 i)
      have hmem : (m.write buf i fun k => bus.eeprom (c + k)).write (buf + BitVec.ofNat 64 i) 1
          (fun _ => bus.eeprom (c + i)) = m.write buf (i + 1) fun k => bus.eeprom (c + k) := by
        rw [← Mem.write_append (by omega)]
        refine Mem.write_congr fun j hj => ?_
        rw [show j = 0 by omega, Nat.add_zero]
      rw [Nat.min_eq_right hi, ← hmem, addrs_succ, ← List.append_assoc]
      exact hstep)
    len 0 (by omega) (Nat.zero_le len)
  intro s hs
  have h0 : Holds (m.write buf 0 fun k => bus.eeprom (c + k)) (st ++ addrs buf 0) q (c + 0) s := by
    rw [Mem.write_zero]
    exact ⟨hs.mem, by rw [hs.stores]; simp [addrs], hs.queue, hs.next⟩
  exact (hloop s h0).mono (fun _ _ h => ⟨h.mem, h.stores⟩) fun _ _ _ => trivial

/-- An address below 64 KiB has none of the bits that go into the control byte. -/
theorem and_eq_zero {addr mask : U64} (haddr : addr.toNat < 2 ^ 16)
    (hmask : mask.toNat % 2 ^ 16 = 0) : addr &&& mask = 0 := by
  refine BitVec.eq_of_toNat_eq (Nat.eq_of_testBit_eq fun i => ?_)
  have hzero : (0 : U64).toNat.testBit i = false := Nat.zero_testBit i
  rw [BitVec.toNat_and, Nat.testBit_and, hzero]
  by_cases hi : i < 16
  · have hbit := Nat.testBit_mod_two_pow mask.toNat 16 i
    rw [hmask, Nat.zero_testBit, decide_eq_true hi, Bool.true_and] at hbit
    rw [← hbit, Bool.and_false]
  · have hlt : addr.toNat < 2 ^ i :=
      haddr.trans_le (Nat.pow_le_pow_right Nat.two_pos (Nat.not_lt.1 hi))
    rw [Nat.testBit_lt_two_pow hlt, Bool.false_and]

theorem ctrlWaddr_low {addr : U64} (haddr : addr.toNat < 2 ^ 16) : ctrlWaddr addr = 0xA0 := by
  unfold ctrlWaddr
  rw [and_eq_zero haddr (by decide), and_eq_zero haddr (by decide)]
  decide

/-- The control byte and the address bytes select the cell at `addr`. -/
theorem readRequest_addr {addr : U64} (haddr : addr.toNat < 2 ^ 16) (n : Byte) :
    readRequest [⟨(ctrlWaddr addr).setWidth 8, .start⟩, ⟨(addr >>> 8 &&& 0xFF).setWidth 8, .tx⟩,
      ⟨(addr &&& 0xFF).setWidth 8, .txStop⟩, ⟨(ctrlWaddr addr ||| 0x1).setWidth 8, .start⟩,
      ⟨n, .rx⟩] = some addr.toNat := by
  have hff : (0xFF : U64).toNat = 2 ^ 8 - 1 := rfl
  have hhi : ((addr >>> 8 &&& 0xFF).setWidth 8).toNat = addr.toNat / 2 ^ 8 := by
    rw [BitVec.toNat_setWidth, BitVec.toNat_and, hff, Nat.and_two_pow_sub_one_eq_mod,
      BitVec.toNat_ushiftRight, Nat.shiftRight_eq_div_pow]
    omega
  have hlo : ((addr &&& 0xFF).setWidth 8).toNat = addr.toNat % 2 ^ 8 := by
    rw [BitVec.toNat_setWidth, BitVec.toNat_and, hff, Nat.and_two_pow_sub_one_eq_mod]
    omega
  rw [ctrlWaddr_low haddr]
  show some (cell 0xA0 _ _) = _
  have hcell (hi lo : Byte) : cell 0xA0 hi lo = hi.toNat * 2 ^ 8 + lo.toNat := by
    have hchip : ((0xA0 : Byte) >>> 1 &&& 3).toNat = 0 := by decide
    have hblock : ((0xA0 : Byte) >>> 3 &&& 1).toNat = 0 := by decide
    rw [cell, hchip, hblock]
    omega
  rw [hcell, hhi, hlo]
  exact congrArg some (by omega)

theorem accessChunk_returns (fuel : ℕ) (buf : U64) {addr : U64} {len : ℕ}
    (haddr : addr.toNat < 2 ^ 16) (hlen : len ≤ 2 ^ 64) :
    Returns (fun s => s.mem = m ∧ s.stores = st) (accessChunk bus fuel buf addr len false)
      (Filled bus buf addr.toNat m st len) := by
  cases fuel with
  | zero => exact fun _ _ => trivial
  | succ fuel =>
    intro s hs
    have hholds : Holds m st s.queue s.next s := ⟨hs.1, hs.2, rfl, rfl⟩
    refine Triple.bind (pollLevels_returns _ fuel) (fun _ => ?_) s hholds
    refine Triple.bind disable_returns fun _ => ?_
    refine Triple.bind (writeByte_returns _ _) fun _ => ?_
    refine Triple.bind (writeByte_returns _ _) fun _ => ?_
    refine Triple.bind (writeByte_returns _ _) fun _ => ?_
    refine Triple.bind (writeByte_returns _ _) fun _ => ?_
    refine Triple.bind (writeByte_returns _ _) fun _ => ?_
    refine Triple.bind enable_returns fun _ => ?_
    refine Triple.bind (pollLevels_returns _ fuel) fun _ => ?_
    simp only [List.nil_append, List.cons_append, Bool.false_eq_true, if_false]
    rw [readRequest_addr haddr]
    exact readBytes_returns buf hlen

/-! ## The whole access -/

section Access

variable {buf addr : U64} {len : ℕ}

/-- How far the first chunk of a read reaches: to the next multiple of the FIFO depth. -/
def leading (bus : Bus) (addr : U64) : ℕ :=
  if addr.toNat % bus.fifoDepth ≠ 0 then bus.fifoDepth - addr.toNat % bus.fifoDepth else 0

theorem leading_le (hdepth : bus.fifoDepth ∣ 128) (haddr : addr.toNat ≤ 2 ^ 16) :
    addr.toNat + leading bus addr ≤ 2 ^ 16 := by
  obtain ⟨k, hk⟩ : bus.fifoDepth ∣ 2 ^ 16 := hdepth.trans (by decide)
  unfold leading
  split_ifs with hne
  · have hdiv := Nat.div_add_mod addr.toNat bus.fifoDepth
    have hlt : addr.toNat / bus.fifoDepth < k := by
      by_contra hge
      have := Nat.mul_le_mul_left bus.fifoDepth (Nat.not_lt.1 hge)
      omega
    have hnext := Nat.mul_le_mul_left bus.fifoDepth (Nat.succ_le_of_lt hlt)
    rw [Nat.mul_succ] at hnext
    omega
  · omega

/-- A chunk takes up where the last one ended. -/
theorem nextChunk_returns (fuel : ℕ) {n k : ℕ} (hend : addr.toNat + n + k ≤ 2 ^ 16) (hk : 0 < k) :
    Returns (Filled bus buf addr.toNat m st n)
      (accessChunk bus fuel (buf + BitVec.ofNat 64 n) (addr + BitVec.ofNat 64 n) k false)
      (Filled bus buf addr.toNat m st (n + k)) := by
  have haddr : (addr + BitVec.ofNat 64 n).toNat = addr.toNat + n := by
    rw [BitVec.toNat_add, BitVec.toNat_ofNat]
    omega
  intro s hs
  refine (accessChunk_returns fuel _ (by omega) (by omega) s hs).mono (fun _ s' h => ?_)
    fun _ _ _ => trivial
  obtain ⟨hmem, hst⟩ := h
  refine ⟨?_, by rw [hst, addrs_append, List.append_assoc]⟩
  rw [hmem, haddr, ← Mem.write_append (by omega)]
  refine Mem.write_congr fun i _ => ?_
  rw [Nat.add_assoc]

/-- What a read leaves when it returns 0. -/
theorem read_returns (fuel : ℕ) (hdepth : bus.fifoDepth ∣ 128) (hend : addr.toNat + len ≤ 2 ^ 16)
    (s : I2c) : Ends (read bus fuel buf addr len s)
      (fun _ => Filled bus buf addr.toNat s.mem s.stores (max (leading bus addr) len))
      fun _ _ => True := by
  have hpos : 0 < bus.fifoDepth := Nat.pos_of_dvd_of_pos hdepth (by decide)
  have hlast : bus.fifoDepth ∣ 2 ^ 16 := hdepth.trans (by decide)
  have hlead := leading_le hdepth (show addr.toNat ≤ 2 ^ 16 by omega)
  have hloop : Returns (Filled bus buf addr.toNat s.mem s.stores (leading bus addr))
      (Cmd.forStep len bus.fifoDepth (fun offs =>
        accessChunk bus fuel (buf + BitVec.ofNat 64 offs) (addr + BitVec.ofNat 64 offs)
          (min bus.fifoDepth (len - offs)) false) len (leading bus addr))
      (Filled bus buf addr.toNat s.mem s.stores (max (leading bus addr) len)) := by
    by_cases hle : leading bus addr ≤ len
    · rw [max_eq_right hle]
      refine Triple.forStep (I := Filled bus buf addr.toNat s.mem s.stores) hpos
        (fun i hi => ?_) len _ (by omega) hle
      have hmin : min len (i + bus.fifoDepth) = i + min bus.fifoDepth (len - i) := by omega
      rw [hmin]
      exact nextChunk_returns fuel (by omega) (by omega)
    · rw [max_eq_left (by omega)]
      cases len with
      | zero => exact Triple.pure fun _ h => h
      | succ n =>
        rw [Cmd.forStep, if_neg (by omega)]
        exact Triple.pure fun _ h => h
  have hall : Returns (fun s' => s'.mem = s.mem ∧ s'.stores = s.stores)
      (read bus fuel buf addr len)
      (Filled bus buf addr.toNat s.mem s.stores (max (leading bus addr) len)) := by
    unfold read access
    rw [if_neg (not_not.2 (Nat.mod_eq_zero_of_dvd hdepth))]
    refine Triple.ite (fun hne => ?_) (fun heq => ?_)
    · have hlt : addr.toNat < 2 ^ 16 := by
        rw [leading, if_pos hne] at hlead
        have := Nat.mod_lt addr.toNat hpos
        omega
      refine Triple.bind (accessChunk_returns fuel buf hlt ?_) fun _ => hloop
      show leading bus addr ≤ 2 ^ 64
      omega
    · have h0 : leading bus addr = 0 := if_neg heq
      intro s' hs'
      refine hloop s' ?_
      rw [h0]
      exact ⟨by rw [hs'.1, Mem.write_zero], by rw [hs'.2]; simp [addrs]⟩
  exact hall s ⟨rfl, rfl⟩

theorem read_filled {fuel : ℕ} (hdepth : bus.fifoDepth ∣ 128) (hend : addr.toNat + len ≤ 2 ^ 16)
    {s s' : I2c} (hret : read bus fuel buf addr len s = .ok () s') :
    Filled bus buf addr.toNat s.mem s.stores (max (leading bus addr) len) s' := by
  have hends := @read_returns bus buf addr len fuel hdepth hend s
  rw [hret] at hends
  exact hends

/-! ## Main result -/

/-- What a read is for. -/
structure Delivers (bus : Bus) (buf addr : U64) (len : ℕ) (s s' : I2c) : Prop where
  data : ∀ i < len, s'.mem (buf + BitVec.ofNat 64 i) = bus.eeprom (addr.toNat + i)
  stores : ∃ w, s'.stores = s.stores ++ w ∧ ∀ p ∈ w, (p - buf).toNat < len
  frame : ∀ p : U64, len ≤ (p - buf).toNat → s'.mem p = s.mem p

theorem offset_toNat (buf : U64) {i : ℕ} (hi : i < 2 ^ 64) :
    (buf + BitVec.ofNat 64 i - buf).toNat = i := by
  rw [BitVec.add_comm, BitVec.add_sub_cancel, BitVec.toNat_ofNat, Nat.mod_eq_of_lt hi]

theorem delivers_iff_leading {s s' : I2c} (hend : addr.toNat + len ≤ 2 ^ 16)
    (h : Filled bus buf addr.toNat s.mem s.stores (max (leading bus addr) len) s') :
    Delivers bus buf addr len s s' ↔ leading bus addr ≤ len := by
  obtain ⟨hmem, hst⟩ := h
  constructor
  · intro hdel
    by_contra hgt
    obtain ⟨w, hw, hin⟩ := hdel.stores
    obtain rfl : w = addrs buf (max (leading bus addr) len) :=
      List.append_cancel_left (hw.symm.trans hst)
    -- the first byte after the buffer
    have hout := hin (buf + BitVec.ofNat 64 len)
      (List.mem_map_of_mem (List.mem_range.2 (by omega)))
    rw [offset_toNat buf (by omega)] at hout
    exact lt_irrefl _ hout
  · intro hle
    rw [max_eq_right hle] at hmem hst
    refine ⟨fun i hi => ?_, ⟨_, hst, fun p hp => ?_⟩, fun p hp => ?_⟩
    · rw [hmem, Mem.write_read hi (by omega)]
    · obtain ⟨i, hi, rfl⟩ := List.mem_map.1 hp
      have hlt := List.mem_range.1 hi
      rw [offset_toNat buf (by omega)]
      exact hlt
    · rw [hmem, Mem.write_frame hp]

/-- **Main result.** A read that returns 0 does what it is for exactly if the range starts at a
multiple of the FIFO depth or reaches the next one. -/
theorem read_iff (hdepth : bus.fifoDepth ∣ 128) (fuel : ℕ) (hend : addr.toNat + len ≤ 2 ^ 16)
    {s s' : I2c} (hret : read bus fuel buf addr len s = .ok () s') :
    Delivers bus buf addr len s s' ↔
      addr.toNat % bus.fifoDepth = 0 ∨ bus.fifoDepth - addr.toNat % bus.fifoDepth ≤ len := by
  rw [delivers_iff_leading hend (read_filled hdepth hend hret), leading]
  split_ifs with hne
  · exact ⟨Or.inr, fun h => h.resolve_left hne⟩
  · exact ⟨fun _ => Or.inl (not_not.1 hne), fun _ => Nat.zero_le len⟩

end Access

/-! ## A short read -/

/-- A FIFO of 64 bytes, filled when the first chunk has been requested. -/
def shortBus : Bus where
  fifoDepth := 64
  levels n := ⟨0, if n = 8 then 60 else 0, 0, 0⟩
  fails _ := none
  eeprom _ := 0

def shortState : I2c := ⟨fun _ => 0xFF, [], 0, [], [], 0⟩

/-- Eight bytes from address 4 on. -/
theorem shortRead : ∃ s', read shortBus 2 0x1000 4 8 shortState = .ok () s' := by
  have hok : (read shortBus 2 0x1000 4 8).run' shortState = some () := by decide +kernel
  cases h : read shortBus 2 0x1000 4 8 shortState with
  | ok _ s' => exact ⟨s', rfl⟩
  | error e s' =>
    unfold EStateM.run' EStateM.run at hok
    rw [h] at hok
    exact absurd hok (Option.some_ne_none ()).symm

theorem shortRead_iff : ∃ s', read shortBus 2 0x1000 4 8 shortState = .ok () s' ∧
    (Delivers shortBus 0x1000 4 8 shortState s' ↔ 4 % 64 = 0 ∨ 64 - 4 % 64 ≤ 8) := by
  obtain ⟨s', h⟩ := shortRead
  exact ⟨s', h, read_iff (by decide) 2 (by decide) h⟩

/-- The read returns 0 and has stored 60 bytes. -/
theorem shortRead_overflows : ∃ s', read shortBus 2 0x1000 4 8 shortState = .ok () s' ∧
    ¬Delivers shortBus 0x1000 4 8 shortState s' := by
  obtain ⟨s', h⟩ := shortRead
  have hend : (4 : U64).toNat + 8 ≤ 2 ^ 16 := by decide
  have hover : ¬leading shortBus 4 ≤ 8 := by decide
  have hiff := delivers_iff_leading hend (read_filled (by decide) hend h)
  exact ⟨s', h, fun hdel => hover (hiff.1 hdel)⟩

end Cheshire.I2cEeprom
