import Cheshire.SpiSdcardCrc16
import Cheshire.SpiSdcardTalk

/-!
# The checksum of blocks on the wire

The number that `__spi_sdcard_crc16` returns is stored as a `uint16_t`, lowest byte first, and the
two bytes are transmitted or compared as they are in memory.

**Theorem (`crc16_wire`).** They are the remainder of the message times `X ^ 16`, highest byte
first, and the message with these bytes leaves no remainder. `spi_sdcard_write_blocks` transmits
them behind each block, and `__spi_sdcard_read_blocks` accepts a block if they follow it.
-/

namespace Cheshire.SpiSdcard

open Lib Cmd Polynomial

/-- The checksum of a message in memory. -/
def crcBytes (d : List Byte) : List Byte := (List.range 2).map (byteOf (crc16 d).toNat)

theorem crcBytes_eq (d : List Byte) :
    crcBytes d = [byteOf (crc16Spec d).toNat 1, byteOf (crc16Spec d).toNat 0] := by
  obtain ⟨h0, h1⟩ := byteOf_crc16 d
  rw [← h0, ← h1]
  rfl

theorem bits_crcBytes (d : List Byte) : (crcBytes d).flatMap bits = bits (crc16Spec d) := by
  rw [crcBytes_eq, ← bits_bytes]
  simp only [List.flatMap_cons, List.flatMap_nil, List.append_nil]

/-- The bytes spell the remainder. -/
theorem msgPoly_crcBytes (d : List Byte) : msgPoly ((crcBytes d).flatMap bits) =
    (msgPoly (d.flatMap bits) * X ^ 16) %ₘ (X ^ 16 + X ^ 12 + X ^ 5 + 1) := by
  rw [bits_crcBytes, msgPoly_bits, crc16Spec_rem]

/-- A message with its checksum is a multiple of the generator. -/
theorem codeword_dvd (d : List Byte) :
    X ^ 16 + X ^ 12 + X ^ 5 + 1 ∣ msgPoly ((d ++ crcBytes d).flatMap bits) := by
  have hzero := crcFrom_codewordBytes d
  rw [codeword, ← crcBytes_eq] at hzero
  rw [← genPoly_crc16Gen]
  exact genPoly_dvd_msgPoly (by decide) rfl hzero

theorem genPoly_crc16Gen_monic : (X ^ 16 + X ^ 12 + X ^ 5 + 1 : (ZMod 2)[X]).Monic := by
  rw [← genPoly_crc16Gen]
  exact genPoly_monic crc16Gen

section Blocks

variable {bus : Bus} {s s' : Spi}

/-- A block is sent with its checksum behind it. -/
theorem sendBlock_wire (hdepth : 1 ≤ bus.rxDepth) (a : U64) (tok : Byte) (s : Spi) :
    Ends (sendBlock bus (.ext, a) tok true s)
      (fun _ s' => Talks bus s s' ((tok :: (blockOf (s.mem .ext) a ++
        crcBytes (blockOf (s.mem .ext) a))).map .host))
      (fun e _ => CallFailed bus e) :=
  sendBlock_talks hdepth a tok true s

/-- A block is accepted if its checksum follows it on the wire. -/
theorem receiveBlock_wire (hdepth : 1 ≤ bus.rxDepth) {buf : Ptr} (hbuf : buf.1 ≠ .crc)
    (hdata : receiveData bus buf s = .ok () s') : receiveBlock bus buf true s =
      if [bus.wire (s.pos + 512), bus.wire (s.pos + 513)] =
          crcBytes ((List.range 512).map fun i => bus.wire (s.pos + i))
        then .ok () s' else .error 0x21 s' := by
  have hends := receiveData_ends hdepth hbuf s
  rw [hdata] at hends
  obtain ⟨-, -, -, -, hload, hbytes⟩ := hends
  have hok : CrcOk bus s.pos ↔ [bus.wire (s.pos + 512), bus.wire (s.pos + 513)] =
      crcBytes ((List.range 512).map fun i => bus.wire (s.pos + i)) := by
    rw [crcBytes_eq]
    refine (crc16_eq_iff _ _).trans ?_
    simp
  by_cases hcrc : CrcOk bus s.pos
  · rw [if_pos (hok.1 hcrc), receiveBlock_eq, bind_ok hdata]
    show (if true = true ∧ BitVec.ofNat 16 (le 2 (s'.load (.crc, 0))) ≠ crc16 (s'.bytes buf 512)
      then throw 0x21 else pure () : Sd Unit) s' = _
    rw [hload, hbytes, if_neg fun h => h.2 hcrc]
    rfl
  · rw [if_neg fun h => hcrc (hok.2 h)]
    exact receiveBlock_rejects hdepth hbuf hdata hcrc

end Blocks

/-! ## Main result -/

/-- **Main result.** The checksum in memory is the remainder, highest byte first; a message with
its checksum leaves no remainder; and the checksums of blocks are sent and compared like this. -/
theorem crc16_wire (bus : Bus) (hdepth : 1 ≤ bus.rxDepth) :
    (∀ d : List Byte,
      msgPoly ((crcBytes d).flatMap bits) =
        (msgPoly (d.flatMap bits) * X ^ 16) %ₘ (X ^ 16 + X ^ 12 + X ^ 5 + 1) ∧
      msgPoly ((d ++ crcBytes d).flatMap bits) %ₘ (X ^ 16 + X ^ 12 + X ^ 5 + 1) = 0 ∧
      (msgPoly ((d ++ crcBytes d).flatMap bits) * X ^ 16) %ₘ (X ^ 16 + X ^ 12 + X ^ 5 + 1) = 0) ∧
    (∀ (a : U64) (tok : Byte) (s : Spi), Ends (sendBlock bus (.ext, a) tok true s)
      (fun _ s' => Talks bus s s' ((tok :: (blockOf (s.mem .ext) a ++
        crcBytes (blockOf (s.mem .ext) a))).map .host))
      (fun e _ => CallFailed bus e)) ∧
    (∀ (buf : Ptr) (s s' : Spi), buf.1 ≠ .crc → receiveData bus buf s = .ok () s' →
      receiveBlock bus buf true s =
        if [bus.wire (s.pos + 512), bus.wire (s.pos + 513)] =
            crcBytes ((List.range 512).map fun i => bus.wire (s.pos + i))
          then .ok () s' else .error 0x21 s') := by
  refine ⟨fun d => ⟨msgPoly_crcBytes d, ?_, ?_⟩, sendBlock_wire hdepth,
    fun buf s s' hbuf hdata => receiveBlock_wire hdepth hbuf hdata⟩
  · rw [modByMonic_eq_zero_iff_dvd genPoly_crc16Gen_monic]
    exact codeword_dvd d
  · rw [modByMonic_eq_zero_iff_dvd genPoly_crc16Gen_monic]
    exact (codeword_dvd d).mul_right _

/-- The digits from 1 to 9 in ASCII. -/
def digits : List Byte := [0x31, 0x32, 0x33, 0x34, 0x35, 0x36, 0x37, 0x38, 0x39]

theorem crc16_wire_digits : crcBytes digits = [0x31, 0xC3] ∧
    msgPoly (([0x31, 0xC3] : List Byte).flatMap bits) =
      (msgPoly (digits.flatMap bits) * X ^ 16) %ₘ (X ^ 16 + X ^ 12 + X ^ 5 + 1) := by
  have hbytes : crcBytes digits = [0x31, 0xC3] := by decide +kernel
  have hwire := ((crc16_wire lastBitCard (by decide)).1 digits).1
  rw [hbytes] at hwire
  exact ⟨hbytes, hwire⟩

end Cheshire.SpiSdcard
