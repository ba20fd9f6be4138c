import Cheshire.Lib.Crc
import Cheshire.SpiSdcardCmd

/-!
# The trailer of SD card commands: `__spi_sdcard_crc7`

The lookup table holds the CRC7 of each byte in bits 7 to 1, as the trailer of a command has it.
The code takes the entries for right-aligned ones: it shifts the state by one when it looks up the
next byte, and once more for the trailer.

**Theorem (`crc7_iff`).** The trailer is right exactly for the messages that satisfy a fixed parity
check (`crc7Parity`). Its weights are known numbers: the powers of `X` modulo the generator that the
bits should contribute, against what the bits of a byte do contribute, which repeats from three
bytes before the end on. The other bytes of a command are always right.
-/

namespace Cheshire.SpiSdcard

open Lib Polynomial

/-! ## CRC7 -/

/-- The generator `X ^ 7 + X ^ 3 + 1`. -/
def crc7Gen : BitVec 7 := 0x09

/-- The CRC7 of a message, by a shift register. -/
def crc7Spec (d : List Byte) : BitVec 7 := crcFrom crc7Gen 0 (d.flatMap bits)

/-- A CRC7 as the table has it. -/
def leftAligned (q : BitVec 7) : Byte := q.setWidth 8 <<< 1

def crc7Table (b : Byte) : Byte := crc7Lookup.getD b.toNat 0

/-- What the bits of a byte, lowest first, contribute to the trailer that is sent, for the last
bytes of a message, the last one first. -/
def trailerWeights : List (List (BitVec 7)) :=
  [[0x12, 0x24, 0x48, 0x10, 0x32, 0x64, 0x48, 0x02],
    [0x2C, 0x58, 0x30, 0x64, 0x64, 0x5A, 0x30, 0x48],
    [0x6A, 0x54, 0x2C, 0x5A, 0x5A, 0x1C, 0x2C, 0x30],
    [0x30, 0x76, 0x6A, 0x1C, 0x1C, 0x46, 0x6A, 0x2C],
    [0x2C, 0x76, 0x30, 0x46, 0x46, 0x5A, 0x30, 0x6A],
    [0x6A, 0x76, 0x2C, 0x5A, 0x5A, 0x1C, 0x2C, 0x30]]

/-- The same for bit `i` of any byte, `j` bytes before the end. -/
def trailerWeight (j i : ℕ) : BitVec 7 :=
  (trailerWeights.getD (if j < 3 then j else 3 + j % 3) []).getD i 0#7

/-- What a byte contributes to the error of the trailer, `j` bytes before the end: each bit has a
weight, the difference between what it does and what it should contribute. -/
def crc7Weight (j : ℕ) (b : Byte) : BitVec 7 :=
  bitSum (fun i => trailerWeight j i ^^^ crcPower crc7Gen (8 * j + i)) b

/-- The parity check: each byte of the message has its weight, by its distance from the end. -/
def crc7Parity : List Byte → BitVec 7
  | [] => 0#7
  | b :: d => crc7Weight d.length b ^^^ crc7Parity d

/-- The command without its trailer. -/
def frameBody (op : Byte) (arg : BitVec 32) : List Byte :=
  [op, byteOf arg.toNat 3, byteOf arg.toNat 2, byteOf arg.toNat 1, byteOf arg.toNat 0]

/-- The trailer that the SD card standard asks for. -/
def sdTrailer (d : List Byte) : Byte := leftAligned (crc7Spec d) ||| 1

/-! ## The remainder -/

theorem genPoly_crc7Gen : genPoly crc7Gen = X ^ 7 + X ^ 3 + 1 := by
  have hword : wordPoly crc7Gen = ∑ i ∈ {0, 3}, X ^ i :=
    wordPoly_eq_sum crc7Gen (by decide) (by decide)
  rw [genPoly, hword, Finset.sum_pair (by decide)]
  ring

theorem crc7Spec_rem (d : List Byte) :
    wordPoly (crc7Spec d) = (msgPoly (d.flatMap bits) * X ^ 7) %ₘ (X ^ 7 + X ^ 3 + 1) := by
  rw [crc7Spec, wordPoly_crcFrom, wordPoly_zero, zero_mul, zero_add, genPoly_crc7Gen]

theorem crc7Lookup_eq : crc7Lookup = (List.range 256).map fun i =>
    leftAligned (crcFrom crc7Gen 0 (bits (BitVec.ofNat 8 i))) := by
  decide +kernel

theorem crc7Table_eq (b : Byte) : crc7Table b = leftAligned (crcFrom crc7Gen 0 (bits b)) := by
  have hlt : b.toNat < 256 := b.isLt
  rw [crc7Table, crc7Lookup_eq, List.getD_eq_getElem?_getD, List.getElem?_map,
    List.getElem?_range hlt]
  show leftAligned (crcFrom crc7Gen 0 (bits (BitVec.ofNat 8 b.toNat))) = _
  rw [BitVec.ofNat_toNat, BitVec.setWidth_eq]

/-! ## Table lookup -/

theorem leftAligned_xor : XorLinear leftAligned := by
  intro p q
  rw [leftAligned, BitVec.setWidth_xor, BitVec.shiftLeft_xor_distrib]
  rfl

theorem crc7Table_xor : XorLinear crc7Table := by
  intro a b
  rw [crc7Table_eq, crc7Table_eq, crc7Table_eq, crcFrom_bits_xor, leftAligned_xor]

theorem shift_xor : XorLinear fun b : Byte => b <<< 1 :=
  fun a b => BitVec.shiftLeft_xor_distrib a b 1

/-- What the code computes, with the entries as the table has them. -/
theorem crc7_eq (d : List Byte) : crc7 d = shares crc7Table (· <<< 1) d :=
  lookupFrom_zero crc7Table_xor shift_xor d

/-- If the entry is not shifted, a lookup is what eight bits do to the register. -/
theorem crc7Table_feed (b : Byte) (q : BitVec 7) :
    crc7Table (b ^^^ leftAligned q) = leftAligned (crcFrom crc7Gen q (bits b)) := by
  rw [crc7Table_eq, crcFrom_bits _ q b (by decide)]
  rfl

/-- If the entries are not shifted, the lookup computes the remainder. -/
theorem leftAligned_crc7Spec (d : List Byte) :
    leftAligned (crc7Spec d) = shares crc7Table id d := by
  have hfold (q : BitVec 7) : leftAligned (crcFrom crc7Gen q (d.flatMap bits)) =
      lookupFrom crc7Table id (leftAligned q) d := by
    induction d generalizing q with
    | nil => rfl
    | cons b d ih =>
      rw [List.flatMap_cons, crcFrom_append, ih, ← crc7Table_feed]
      rfl
  rw [crc7Spec, hfold]
  exact lookupFrom_zero crc7Table_xor (fun _ _ => rfl) d

/-! ## The weights -/

theorem crcShift_crc7Gen_xor : XorLinear (crcShift crc7Gen · false) :=
  fun p q => crcShift_xor crc7Gen p q false false

/-- Eight bits enter the register. -/
theorem crc7Table_leftAligned (q : BitVec 7) :
    crc7Table (leftAligned q) = leftAligned ((crcShift crc7Gen · false)^[8] q) := by
  have hfeed := crc7Table_feed 0#8 q
  rwa [BitVec.zero_xor] at hfeed

/-- What a byte should contribute. -/
theorem share_id (j : ℕ) (b : Byte) : share crc7Table id j b =
    leftAligned (bitSum (fun i => crcPower crc7Gen (8 * j + i)) b) := by
  induction j with
  | zero =>
    simp only [Nat.mul_zero, Nat.zero_add]
    rw [← crcFrom_bits_eq]
    exact crc7Table_eq b
  | succ j ih =>
    have hnext : share crc7Table id (j + 1) b = crc7Table (share crc7Table id j b) :=
      Function.iterate_succ_apply' _ _ _
    have hpower (i : ℕ) : (crcShift crc7Gen · false)^[8] (crcPower crc7Gen (8 * j + i)) =
        crcPower crc7Gen (8 * (j + 1) + i) := by
      rw [show 8 * (j + 1) + i = 8 * j + i + 8 by omega]
      rfl
    rw [hnext, ih, crc7Table_leftAligned, (crcShift_crc7Gen_xor.iterate 8).bitSum]
    simp only [hpower]

/-- A lookup of the code, with the shift that follows it. -/
def shiftedEntry (b : Byte) : Byte := crc7Table b <<< 1

theorem shiftedEntry_xor : XorLinear shiftedEntry := shift_xor.comp crc7Table_xor

/-- The table of weights, with the first row that repeats an earlier one. -/
theorem shiftedEntry_bits : ∀ j < 7, ∀ i < 8,
    shiftedEntry^[j + 1] (BitVec.twoPow 8 i) = leftAligned (trailerWeight j i) := by
  decide +kernel

theorem shiftedEntry_bitSum {j : ℕ} (hj : j < 7) (b : Byte) :
    shiftedEntry^[j + 1] b = leftAligned (bitSum (trailerWeight j) b) := by
  rw [leftAligned_xor.bitSum]
  exact ((shiftedEntry_xor.iterate (j + 1)).eq_bitSum b).trans
    (bitSum_congr (shiftedEntry_bits j hj) b)

theorem share_shiftedEntry (j : ℕ) (b : Byte) :
    share crc7Table (· <<< 1) j b <<< 1 = shiftedEntry^[j + 1] b := by
  induction j with
  | zero => rfl
  | succ j ih =>
    have hnext : share crc7Table (· <<< 1) (j + 1) b =
        crc7Table (share crc7Table (· <<< 1) j b <<< 1) := Function.iterate_succ_apply' _ _ _
    rw [Function.iterate_succ_apply', ← ih, hnext]
    rfl

/-- The lookups repeat. -/
theorem shiftedEntry_iterate {j : ℕ} (hj : 3 ≤ j) (b : Byte) :
    shiftedEntry^[j + 1] b = shiftedEntry^[3 + j % 3 + 1] b := by
  induction j using Nat.strong_induction_on with
  | _ j ih =>
    by_cases hlt : j < 6
    · rw [show 3 + j % 3 = j by omega]
    · obtain ⟨k, rfl⟩ : ∃ k, j = k + 6 := ⟨j - 6, by omega⟩
      have hseven (b : Byte) : shiftedEntry^[7] b = shiftedEntry^[4] b := by
        rw [shiftedEntry_bitSum (j := 6) (by decide), shiftedEntry_bitSum (j := 3) (by decide)]
        rfl
      have hback : shiftedEntry^[k + 6 + 1] b = shiftedEntry^[k + 3 + 1] b := by
        rw [show k + 6 + 1 = 7 + k by omega, Function.iterate_add_apply, hseven,
          ← Function.iterate_add_apply, show 4 + k = k + 3 + 1 by omega]
      rw [hback, ih (k + 3) (by omega) (by omega), show (k + 3) % 3 = (k + 6) % 3 by omega]

/-- What a byte does contribute. -/
theorem share_shift (j : ℕ) (b : Byte) :
    share crc7Table (· <<< 1) j b <<< 1 = leftAligned (bitSum (trailerWeight j) b) := by
  rw [share_shiftedEntry]
  by_cases hj : j < 3
  · exact shiftedEntry_bitSum (by omega) b
  · have hrow : trailerWeight (3 + j % 3) = trailerWeight j := by
      funext i
      unfold trailerWeight
      rw [if_neg (by omega), if_neg hj, show 3 + (3 + j % 3) % 3 = 3 + j % 3 by omega]
    rw [shiftedEntry_iterate (Nat.not_lt.1 hj), shiftedEntry_bitSum (by omega), hrow]

/-- The error of the trailer. -/
theorem crc7Parity_eq (d : List Byte) :
    leftAligned (crc7Parity d) = crc7 d <<< 1 ^^^ leftAligned (crc7Spec d) := by
  rw [crc7_eq, leftAligned_crc7Spec]
  induction d with
  | nil => rfl
  | cons b d ih =>
    have hweight : leftAligned (crc7Weight d.length b) =
        share crc7Table (· <<< 1) d.length b <<< 1 ^^^ share crc7Table id d.length b := by
      rw [share_shift, share_id, ← leftAligned_xor, bitSum_xor, crc7Weight]
    rw [crc7Parity, leftAligned_xor, ih, hweight, shares, shares, BitVec.shiftLeft_xor_distrib]
    ac_rfl

theorem leftAligned_toNat (q : BitVec 7) : (leftAligned q).toNat = 2 * q.toNat := by
  have hlt := q.isLt
  rw [leftAligned, BitVec.toNat_shiftLeft, BitVec.toNat_setWidth, Nat.shiftLeft_eq]
  omega

theorem leftAligned_eq_zero (q : BitVec 7) : leftAligned q = 0#8 ↔ q = 0#7 := by
  rw [BitVec.toNat_eq, BitVec.toNat_eq, leftAligned_toNat]
  show 2 * q.toNat = 0 ↔ q.toNat = 0
  omega

theorem crc7Parity_eq_zero (d : List Byte) :
    crc7Parity d = 0#7 ↔ crc7 d <<< 1 = leftAligned (crc7Spec d) := by
  rw [← leftAligned_eq_zero, crc7Parity_eq]
  exact BitVec.xor_eq_zero_iff

/-! ## Trailers -/

/-- The end bit. -/
theorem or_one (n : ℕ) : 2 * n ||| 1 = 2 * n + 1 := by
  have hadd := Nat.shiftLeft_add_eq_or_of_lt (show 1 < 2 ^ 1 by decide) n
  rw [Nat.shiftLeft_eq, Nat.pow_one, Nat.mul_comm] at hadd
  exact hadd.symm

theorem shift_or_one (c : Byte) : ((c.toNat <<< 1) ||| 1) % 256 = (c <<< 1).toNat + 1 := by
  rw [BitVec.toNat_shiftLeft, Nat.shiftLeft_eq, Nat.pow_one, Nat.mul_comm, or_one]
  omega

/-- The trailer as a number. -/
theorem sdTrailer_toNat (d : List Byte) : (sdTrailer d).toNat = 2 * (crc7Spec d).toNat + 1 := by
  rw [sdTrailer, BitVec.toNat_or, leftAligned_toNat]
  exact or_one _

theorem trailer_iff (d : List Byte) :
    ((crc7 d).toNat <<< 1 ||| 1) % 256 = 2 * (crc7Spec d).toNat + 1 ↔ crc7Parity d = 0#7 := by
  rw [crc7Parity_eq_zero, shift_or_one, ← leftAligned_toNat, BitVec.toNat_eq]
  omega

/-- The sixth byte of a command. -/
theorem buildCmd_trailer (op : Byte) (arg : BitVec 32) :
    (byteOf (buildCmd op arg).toNat 5).toNat =
      ((crc7 (frameBody op arg)).toNat <<< 1 ||| 1) % 256 := by
  have hbody : (List.range 5).map (byteOf (cmdBody op arg).toNat) = frameBody op arg := by
    show [_, _, _, _, _] = _
    rw [cmdBody_byte op arg (by decide), cmdBody_byte op arg (by decide),
      cmdBody_byte op arg (by decide), cmdBody_byte op arg (by decide),
      cmdBody_byte op arg (by decide)]
    rfl
  rw [buildCmd_eq, hbody, byteOf_or, byteOf_shiftLeft _ _ _ (by omega),
    cmdBody_byte op arg (by decide), if_neg (by decide), if_neg (by decide), if_neg (by decide)]
  generalize crc7 (frameBody op arg) = c
  revert c
  decide +kernel

theorem frame_iff (op : Byte) (arg : BitVec 32) :
    (List.range 6).map (byteOf (buildCmd op arg).toNat) =
      frameBody op arg ++ [sdTrailer (frameBody op arg)] ↔
        crc7Parity (frameBody op arg) = 0#7 := by
  have hbody : (List.range 6).map (byteOf (buildCmd op arg).toNat) =
      frameBody op arg ++ [byteOf (buildCmd op arg).toNat 5] := buildCmd_bytes op arg
  rw [hbody, List.append_cancel_left_eq, List.singleton_inj, ← trailer_iff, BitVec.toNat_eq,
    buildCmd_trailer, sdTrailer_toNat]

/-- The commands that `__spi_sdcard_activate` sends. -/
def activateCmds : List U64 :=
  [0x950000000040, 0x87AA01000048, 0x650000000077, 0x770000004069, 0xFD000000007A, 0x150002000050]

/-- These have the trailers that the standard asks for. -/
example : activateCmds.map (fun cmd => byteOf cmd.toNat 5) =
    activateCmds.map fun cmd => sdTrailer ((List.range 5).map (byteOf cmd.toNat)) := by
  decide +kernel

/-! ## Main result -/

/-- **Main result.** The trailer of a message, and with it a command, is right exactly if the
parity check holds. What a bit should contribute to the checksum is a power of `X`. -/
theorem crc7_iff (d : List Byte) (op : Byte) (arg : BitVec 32) :
    wordPoly (crc7Spec d) = (msgPoly (d.flatMap bits) * X ^ 7) %ₘ (X ^ 7 + X ^ 3 + 1) ∧
      (∀ k, wordPoly (crcPower crc7Gen k) = X ^ (7 + k) %ₘ (X ^ 7 + X ^ 3 + 1)) ∧
      (((crc7 d).toNat <<< 1 ||| 1) % 256 = 2 * (crc7Spec d).toNat + 1 ↔ crc7Parity d = 0#7) ∧
      ((List.range 6).map (byteOf (buildCmd op arg).toNat) =
        frameBody op arg ++ [sdTrailer (frameBody op arg)] ↔
          crc7Parity (frameBody op arg) = 0#7) := by
  refine ⟨crc7Spec_rem d, fun k => ?_, trailer_iff d, frame_iff op arg⟩
  rw [wordPoly_crcPower, genPoly_crc7Gen]

/-- The messages of one byte that get the right trailer. -/
example :
    (List.range 256).filter (fun b => crc7Parity [BitVec.ofNat 8 b] = 0#7) = [0x00, 0x89] := by
  decide +kernel

/-- The trailer of CMD0 is not the one that `__spi_sdcard_activate` sends, which is right. -/
theorem cmd0_trailer : sdTrailer (frameBody 0x40 0) = 0x95 ∧
    (List.range 6).map (byteOf (buildCmd 0x40 0).toNat) ≠
      frameBody 0x40 0 ++ [sdTrailer (frameBody 0x40 0)] := by
  decide +kernel

end Cheshire.SpiSdcard
