import Cheshire.Lib.Bytes
import Cheshire.Lib.Serial
import Mathlib.Tactic.Linarith

/-!
# The line of the UART

The testbench reads bytes from the line that the UART drives (`uart_read_byte`), and drives the
other line itself (`uart_write_byte`). It counts in periods of its baud rate; the UART counts in
clock cycles, sixteen for each unit of the divisor that `uart_init` computes.

**Theorem (`uartWriteByte_reads`).** What `uart_write_byte` sends is what `uart_read_byte` would
read.

**Theorem (`line_iff`).** Every string that is sent after `uart_init` is read, if and only if the
divisor is close enough to the baud rate.

**Theorem (`line_near`).** It is close enough if the core frequency is known up to 2.5 %, the
divisor fits its 16 bits, and a bit takes at least 660 clock cycles.
-/

namespace Cheshire.UartLine

open Lib Serial

/-! ## The testbench -/

structure Vip where
  /-- `UartBaudPeriod`. -/
  baudPeriod : ℕ
  /-- `UartParityEna`. -/
  parityEna : Bool

/-- The bits of a byte, from bit 0 on. -/
def bitsOf (b : Byte) : List Bool := (List.range 8).map fun i => b.getLsbD i

def ofBits (data : List Bool) : Byte := (BitVec.ofBoolListLE data).setWidth 8

/-- `^bite`. -/
def parity (bite : Byte) : Bool := (bitsOf bite).foldl xor false

namespace Vip

variable (vip : Vip)

def timing : Timing := ⟨vip.baudPeriod / 2, vip.baudPeriod⟩

/-- The number of samples. -/
def samples : ℕ := if vip.parityEna then 9 else 8

/-- `uart_write_byte`, between the start and the stop bit. -/
def uartWriteByte (bite : Byte) : List Bool :=
  bitsOf bite ++ if vip.parityEna then [parity bite] else []

/-- The byte, and whether a parity error is reported. -/
def decode (data : List Bool) : Byte × Bool :=
  (ofBits data, vip.parityEna && xor (data.getD 8 true) (parity (ofBits data)))

/-- `uart_read_byte`: it waits for the line to fall from `a` on, and returns at `a'`. -/
def UartReadByte (line : Line) (a : ℕ) (res : Byte × Bool) (a' : ℕ) : Prop :=
  ∃ data, Read vip.timing vip.samples line a data a' ∧ res = vip.decode data

/-- Some calls of `uart_read_byte`, one after the other. -/
inductive UartReads (line : Line) : List (Byte × Bool) → ℕ → Prop
  | nil : UartReads line [] 0
  | snoc {l : List (Byte × Bool)} {a a' : ℕ} {res : Byte × Bool} (h : UartReads line l a)
      (hread : vip.UartReadByte line a res a') : UartReads line (l ++ [res]) a'

/-- The calls return these bytes, without errors, and do not wait forever before the last. -/
def Receives (line : Line) (bytes : List Byte) : Prop :=
  ∀ l a, vip.UartReads line l a → l <+: bytes.map (·, false) ∧
    (l ≠ bytes.map (·, false) → ∃ res a', vip.UartReadByte line a res a')

end Vip

/-! ## The registers of the UART -/

/-- The registers that `uart_init` writes. -/
structure Regs where
  intrEnable : Byte
  fifoControl : Byte
  lineControl : Byte
  modemControl : Byte
  dlabLsb : Byte
  dlabMsb : Byte

namespace Regs

/-- A write. Bit 7 of the line control register selects the divisor. -/
def write (u : Regs) : ℕ × Byte → Regs
  | (0, v) => if u.lineControl.getLsbD 7 then { u with dlabLsb := v } else u
  | (4, v) =>
    if u.lineControl.getLsbD 7 then { u with dlabMsb := v } else { u with intrEnable := v }
  | (8, v) => { u with fifoControl := v }
  | (12, v) => { u with lineControl := v }
  | (16, v) => { u with modemControl := v }
  | _ => u

def divisor (u : Regs) : ℕ := (u.dlabMsb ++ u.dlabLsb).toNat

end Regs

/-- The writes of `uart_init`. A baud rate of 0 is not one that it can be called with: the division
has no meaning then. -/
def uartInit (freq baud : BitVec 64) : List (ℕ × Byte) :=
  let divisor := freq / (baud <<< 4)
  let dlo := divisor.setWidth 8
  let dhi := (divisor >>> 8).setWidth 8
  [(4, 0x00#8), (12, 0x80), (0, dlo), (4, dhi), (12, 0x03), (8, 0xC7), (16, 0x20)]

/-- What the UART, which is not part of the repository, does with eight data bits, no parity and one
stop bit: it sends each byte in a frame, with pauses in between. A bit takes sixteen clock cycles
for each unit of the divisor; `clk` is the time of a cycle. -/
structure Transmits (u : Regs) (clk : ℕ) (line : Line) (sent : List (ℕ × Byte)) : Prop where
  format : u.lineControl = 0x03
  sends : Sends line (16 * u.divisor * clk) (sent.map fun p => (p.1, bitsOf p.2))

/-! ## Bytes and bits -/

section Bits

variable {vip : Vip} {b : Byte} {data : List Bool}

theorem bitsOf_length (b : Byte) : (bitsOf b).length = 8 := by simp [bitsOf]

theorem bitsOf_getD (b : Byte) {i : ℕ} (hi : i < 8) (d : Bool) :
    (bitsOf b).getD i d = b.getLsbD i := by
  rw [List.getD_eq_getElem _ _ (by rwa [bitsOf_length])]
  simp [bitsOf]

theorem ofBits_bitsOf (b : Byte) (rest : List Bool) : ofBits (bitsOf b ++ rest) = b := by
  refine BitVec.eq_of_getLsbD_eq fun i hi => ?_
  rw [ofBits, BitVec.getLsbD_setWidth, decide_eq_true hi, Bool.true_and,
    BitVec.getLsbD_ofBoolListLE, List.getD_append _ _ _ _ (by rwa [bitsOf_length]),
    bitsOf_getD b hi]

theorem bitsOf_ofBits (h : data.length = 8) : bitsOf (ofBits data) = data := by
  refine List.ext_getElem (by rw [bitsOf_length, h]) fun i hi hi' => ?_
  rw [bitsOf_length] at hi
  have hbit := bitsOf_getD (ofBits data) hi false
  rw [ofBits, BitVec.getLsbD_setWidth, decide_eq_true hi, Bool.true_and,
    BitVec.getLsbD_ofBoolListLE, List.getD_eq_getElem _ _ (by rwa [bitsOf_length]),
    List.getD_eq_getElem _ _ hi'] at hbit
  exact hbit

theorem uartWriteByte_length (vip : Vip) (b : Byte) :
    (vip.uartWriteByte b).length = vip.samples := by
  unfold Vip.uartWriteByte Vip.samples
  cases vip.parityEna <;> simp [bitsOf_length]

/-- What `uart_write_byte` sends is read back without a parity error. -/
theorem decode_uartWriteByte (vip : Vip) (b : Byte) :
    vip.decode (vip.uartWriteByte b) = (b, false) := by
  unfold Vip.decode Vip.uartWriteByte
  rw [ofBits_bitsOf]
  cases vip.parityEna with
  | false => rfl
  | true =>
    have hparity : (bitsOf b ++ [parity b]).getD 8 true = parity b := by
      rw [List.getD_append_right _ _ _ _ (by rw [bitsOf_length]), bitsOf_length]
      rfl
    rw [if_pos rfl, hparity]
    simp

end Bits

/-! ## Reading bytes -/

section Bytes

variable {vip : Vip} {line : Line} {l : List (Byte × Bool)} {a T : ℕ} {calls : List (ℕ × Byte)}

/-- The calls read what the receiver reads. -/
theorem uartReads_iff : vip.UartReads line l a ↔
    ∃ ds, Reads vip.timing vip.samples line 0 ds a ∧ l = ds.map vip.decode := by
  constructor
  · intro h
    induction h with
    | nil => exact ⟨[], .nil, rfl⟩
    | snoc h hread ih =>
      obtain ⟨ds, hreads, rfl⟩ := ih
      obtain ⟨data, hdata, rfl⟩ := hread
      refine ⟨ds ++ [data], hreads.snoc hdata, ?_⟩
      rw [List.map_append]
      rfl
  · rintro ⟨ds, hreads, rfl⟩
    induction hreads with
    | nil => exact .nil
    | snoc h hread ih =>
      rw [List.map_append]
      exact ih.snoc ⟨_, hread, rfl⟩

theorem decode_map (vip : Vip) (calls : List (ℕ × Byte)) :
    (calls.map fun p => vip.uartWriteByte p.2).map vip.decode =
      (calls.map Prod.snd).map (·, false) := by
  rw [List.map_map, List.map_map]
  exact List.map_congr_left fun p _ => decode_uartWriteByte vip p.2

/-- Bytes in frames of the format of `uart_write_byte` are read in time. -/
theorem sends_receives (htime : InTime vip.timing vip.samples T)
    (h : Sends line T (calls.map fun p => (p.1, vip.uartWriteByte p.2))) :
    vip.Receives line (calls.map Prod.snd) := by
  have hrec := h.receives (fun p hp => by
    obtain ⟨q, -, rfl⟩ := List.mem_map.1 hp
    exact uartWriteByte_length vip q.2) htime (Nat.div_le_self _ 2)
  rw [List.map_map] at hrec
  intro l a hl
  obtain ⟨ds, hreads, rfl⟩ := uartReads_iff.1 hl
  obtain ⟨hbegin, hnext⟩ := hrec ds a hreads
  rw [← decode_map vip calls]
  refine ⟨hbegin.map vip.decode, fun hne => ?_⟩
  obtain ⟨data, a', hread⟩ := hnext fun heq => hne (congrArg (List.map vip.decode) heq)
  exact ⟨_, a', data, hread, rfl⟩

theorem samples_eight (hparity : vip.parityEna = false) : vip.samples = 8 := by
  unfold Vip.samples
  rw [hparity]
  rfl

/-- Without parity, every frame of eight bits is that of a byte. -/
theorem receives_bits (hparity : vip.parityEna = false) {sent : List (ℕ × List Bool)}
    (hlen : ∀ p ∈ sent, p.2.length = 8)
    (h : vip.Receives line ((sent.map Prod.snd).map ofBits)) :
    Serial.Receives vip.timing 8 line (sent.map Prod.snd) := by
  have hsamples := samples_eight hparity
  have hback {ds : List (List Bool)} (hds : ∀ d ∈ ds, d.length = 8) :
      (ds.map vip.decode).map (fun res => bitsOf res.1) = ds := by
    rw [List.map_map]
    exact (List.map_congr_left fun d hd => bitsOf_ofBits (hds d hd)).trans (List.map_id ds)
  have hsent : ((sent.map Prod.snd).map ofBits).map (·, false) =
      (sent.map Prod.snd).map vip.decode := by
    rw [List.map_map]
    refine List.map_congr_left fun d _ => ?_
    unfold Vip.decode
    rw [hparity]
    rfl
  have hall : ∀ d ∈ sent.map Prod.snd, d.length = 8 := by
    intro d hd
    obtain ⟨p, hp, rfl⟩ := List.mem_map.1 hd
    exact hlen p hp
  rw [← hsamples]
  intro ds a hreads
  have hds : ∀ d ∈ ds, d.length = 8 := fun d hd => hsamples ▸ hreads.lengths hd
  obtain ⟨hbegin, hnext⟩ := h _ a (uartReads_iff.2 ⟨ds, hreads, rfl⟩)
  rw [hsent] at hbegin hnext
  refine ⟨?_, fun hne => ?_⟩
  · have hmap := hbegin.map fun res => bitsOf res.1
    rwa [hback hds, hback hall] at hmap
  · obtain ⟨_, a', data, hread, -⟩ := hnext fun heq => hne <| by
      have hmap := congrArg (List.map fun res => bitsOf res.1) heq
      rwa [hback hds, hback hall] at hmap
    exact ⟨data, a', hread⟩

end Bytes

/-! ## The divisor -/

section Divisor

variable {freq baud : BitVec 64}

/-- The registers after `uart_init`. -/
def initialized (u : Regs) (freq baud : BitVec 64) : Regs := (uartInit freq baud).foldl Regs.write u

theorem initialized_lineControl (u : Regs) (freq baud : BitVec 64) :
    (initialized u freq baud).lineControl = 0x03 := by
  simp [initialized, uartInit, Regs.write]

theorem initialized_divisor (u : Regs) (hbaud : baud.toNat < 2 ^ 60) :
    (initialized u freq baud).divisor = freq.toNat / (16 * baud.toNat) % 2 ^ 16 := by
  have hmsb : (initialized u freq baud).dlabMsb = ((freq / (baud <<< 4)) >>> 8).setWidth 8 := by
    simp [initialized, uartInit, Regs.write]
  have hlsb : (initialized u freq baud).dlabLsb = (freq / (baud <<< 4)).setWidth 8 := by
    simp [initialized, uartInit, Regs.write]
  have hshift : (baud <<< 4).toNat = 16 * baud.toNat := by
    rw [BitVec.toNat_shiftLeft, Nat.shiftLeft_eq, Nat.mod_eq_of_lt (by omega), Nat.mul_comm]
  unfold Regs.divisor
  rw [hmsb, hlsb, BitVec.toNat_append, ← Nat.shiftLeft_add_eq_or_of_lt (BitVec.isLt _),
    Nat.shiftLeft_eq, BitVec.toNat_setWidth, BitVec.toNat_setWidth, BitVec.toNat_ushiftRight,
    Nat.shiftRight_eq_div_pow, BitVec.toNat_udiv, hshift]
  omega

/-- What the UART sends in time is read. -/
theorem transmits_receives {u : Regs} {clk : ℕ} {vip : Vip} {line : Line} {sent : List (ℕ × Byte)}
    (hparity : vip.parityEna = false) (htime : InTime vip.timing 8 (16 * u.divisor * clk))
    (h : Transmits u clk line sent) : vip.Receives line (sent.map Prod.snd) := by
  have hformat : (fun p : ℕ × Byte => (p.1, vip.uartWriteByte p.2)) =
      fun p => (p.1, bitsOf p.2) := by
    funext p
    unfold Vip.uartWriteByte
    rw [hparity]
    exact congrArg (Prod.mk p.1) (List.append_nil _)
  refine sends_receives (T := 16 * u.divisor * clk) (by rwa [samples_eight hparity]) ?_
  rw [hformat]
  exact h.sends

end Divisor

/-! ## Main results -/

section Main

variable {vip : Vip} {line : Line} {freq baud : BitVec 64} {clk : ℕ}

/-- **Main result.** After `uart_init`, every string is read in every order of simultaneous events,
if and only if the divisor is in time for the baud rate of the testbench. -/
theorem line_iff (hparity : vip.parityEna = false) (hperiod : 1 ≤ vip.baudPeriod) (u : Regs)
    (hbaud : baud.toNat < 2 ^ 60) :
    (∀ line sent, Transmits (initialized u freq baud) clk line sent →
      vip.Receives line (sent.map Prod.snd)) ↔
    InTime vip.timing 8 (16 * (freq.toNat / (16 * baud.toNat) % 2 ^ 16) * clk) := by
  rw [← initialized_divisor u hbaud]
  refine ⟨fun h => ?_, fun htime line sent htr => ?_⟩
  · refine (receives_iff (by decide) hperiod (Nat.div_le_self _ 2)).1
      fun line sent hlen hsends => receives_bits hparity hlen ?_
    have hbits : (sent.map fun p => (p.1, ofBits p.2)).map (fun p => (p.1, bitsOf p.2)) = sent := by
      rw [List.map_map]
      refine (List.map_congr_left fun p hp => ?_).trans (List.map_id sent)
      show (p.1, bitsOf (ofBits p.2)) = p
      rw [bitsOf_ofBits (hlen p hp)]
    have hrec := h line (sent.map fun p => (p.1, ofBits p.2))
      ⟨initialized_lineControl u freq baud, by rwa [hbits]⟩
    rw [List.map_map] at hrec ⊢
    exact hrec
  · exact transmits_receives hparity htime htr

/-- Registers that are all zero. -/
def resetRegs : Regs := ⟨0#8, 0#8, 0#8, 0#8, 0#8, 0#8⟩

/-- At 200 MHz and 115200 baud, in nanoseconds. -/
theorem line_iff_fast : (∀ line sent, Transmits (initialized resetRegs 200000000 115200) 5
    line sent → (Vip.mk 8681 false).Receives line (sent.map Prod.snd)) ∧
    InTime ⟨4340, 8681⟩ 8 8640 := by
  have htime : InTime ⟨4340, 8681⟩ 8 8640 := ⟨by decide, by decide⟩
  exact ⟨(@line_iff (Vip.mk 8681 false) 200000000 115200 5 rfl (by decide) resetRegs
    (by decide)).2 htime, htime⟩

/-- The divisor that `uart_init` computes is in time for the baud rate. -/
theorem near_inTime {b f second period d : ℕ} (hclk : 0 < clk) (hbit : 660 * clk ≤ period)
    (hpos : 0 < b) (hd : d = f / (16 * b))
    (hperiod : 2 * (period * b) ≤ 2 * second + b ∧ 2 * second ≤ 2 * (period * b) + b)
    (hfreq : 39 * second ≤ 40 * (f * clk) ∧ 40 * (f * clk) ≤ 41 * second) :
    InTime ⟨period / 2, period⟩ 8 (16 * d * clk) := by
  have hdown : 16 * b * d ≤ f := hd ▸ Nat.mul_div_le f (16 * b)
  have hup : f < 16 * b * (d + 1) := hd ▸ Nat.lt_mul_div_succ f (by omega)
  -- Everything is compared as a multiple of the baud rate.
  have hlow : 16 * d * clk * b ≤ f * clk := by
    have h := Nat.mul_le_mul_right clk hdown
    rwa [show 16 * b * d * clk = 16 * d * clk * b by ring] at h
  have hhigh : f * clk < 16 * d * clk * b + 16 * (clk * b) := by
    have h := Nat.mul_lt_mul_of_pos_right hup hclk
    rwa [show 16 * b * (d + 1) * clk = 16 * d * clk * b + 16 * (clk * b) by ring] at h
  have hclkb : 660 * (clk * b) ≤ period * b := by
    have h := Nat.mul_le_mul_right b hbit
    rwa [Nat.mul_assoc] at h
  have hb : 1 * b ≤ clk * b := Nat.mul_le_mul_right b hclk
  generalize 16 * d * clk = T at hlow hhigh ⊢
  refine ⟨not_le.1 fun hearly => ?_, not_le.1 fun hlate => ?_⟩
  · have hearly' : period / 2 + 8 * period ≤ 8 * T := hearly
    have h := Nat.mul_le_mul_right b (show 17 * period ≤ 16 * T + 1 by omega)
    rw [Nat.mul_assoc, Nat.add_mul, Nat.mul_assoc] at h
    omega
  · have hlate' : 10 * T ≤ period / 2 + 9 * period := hlate
    have h := Nat.mul_le_mul_right b (show 20 * T ≤ 19 * period by omega)
    rw [Nat.mul_assoc, Nat.mul_assoc] at h
    omega

/-- **Main result.** `second` is the number of time units in a second: the period of the testbench
is rounded, and the core frequency is known up to 2.5 %. Every string is read if the divisor fits
its 16 bits, and a bit takes at least 660 clock cycles. -/
theorem line_near (hparity : vip.parityEna = false) (u : Regs) {second : ℕ} (hclk : 0 < clk)
    (hbit : 660 * clk ≤ vip.baudPeriod) (hpos : 0 < baud.toNat) (hbaud : baud.toNat < 2 ^ 60)
    (hsmall : freq.toNat < 2 ^ 20 * baud.toNat)
    (hperiod : 2 * (vip.baudPeriod * baud.toNat) ≤ 2 * second + baud.toNat ∧
      2 * second ≤ 2 * (vip.baudPeriod * baud.toNat) + baud.toNat)
    (hfreq : 39 * second ≤ 40 * (freq.toNat * clk) ∧ 40 * (freq.toNat * clk) ≤ 41 * second)
    {sent : List (ℕ × Byte)} (h : Transmits (initialized u freq baud) clk line sent) :
    vip.Receives line (sent.map Prod.snd) := by
  refine transmits_receives hparity (near_inTime hclk hbit hpos ?_ hperiod hfreq) h
  rw [initialized_divisor u hbaud]
  exact Nat.mod_eq_of_lt (Nat.div_lt_of_lt_mul (by omega))

/-- Two bytes at 200 MHz and 115200 baud, in nanoseconds. -/
theorem line_near_fast :
    (Vip.mk 8681 false).Receives (wave 8640 1 [(0, bitsOf 0x55), (7, bitsOf 0x80)])
      [0x55, 0x80] := by
  have hdivisor : (initialized resetRegs 200000000 115200).divisor = 108 := by decide
  refine @line_near (Vip.mk 8681 false) _ 200000000 115200 5 rfl resetRegs 1000000000
    (by decide) (by decide) (by decide) (by decide) (by decide) (by decide) (by decide)
    [(0, 0x55), (7, 0x80)] ⟨initialized_lineControl _ _ _, ?_⟩
  rw [hdivisor]
  exact wave_sends 8640 _

end Main

end Cheshire.UartLine
