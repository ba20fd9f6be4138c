import Cheshire.Lib.Bytes
import Cheshire.Lib.Command

/-!
# Writing the SPI flash: `spi_s25fs512s.c`

The driver talks to the flash in transactions of the SPI host library, which is not part of the
repository: a transaction succeeds or fails, and the bytes that it receives are arbitrary (`Bus`).
A command leaves the transactions so far, with what they returned, in a log.

A failing transaction and a nonzero status are exceptions, as every caller returns such a code at
once. Each loop that waits for the flash polls `fuel` times at most.
-/

namespace Cheshire.SpiFlash

open Lib

abbrev U64 := BitVec 64

abbrev CInt := BitVec 32

/-! ## Transactions -/

/-- `dif_spi_host_segment_t`, with the bytes that it transmits. -/
inductive Segment
  | opcode (op : Byte)
  | address (a : BitVec 32)
  | tx (data : List Byte)
  | rx (length : ℕ)
deriving DecidableEq

/-- What a transaction returns, 0 for success, and the bytes received. -/
structure Response where
  result : CInt
  rx : ℕ → Byte

/-- What the `n`-th transaction returns. -/
abbrev Bus := ℕ → Response

/-- A transaction and what it returned. -/
structure Entry where
  segs : List Segment
  result : CInt
  rx : ℕ → Byte

inductive Exit
  /-- The returned code, not 0. -/
  | code (c : CInt)
  /-- The flash is still busy. -/
  | running
deriving DecidableEq, Repr

abbrev M := Cmd Exit (List Entry)

variable (bus : Bus)

def transaction (segs : List Segment) : M (ℕ → Byte) := fun log =>
  let r := bus log.length
  if r.result = 0 then .ok r.rx (log ++ [⟨segs, r.result, r.rx⟩])
  else .error (.code r.result) (log ++ [⟨segs, r.result, r.rx⟩])

/-- `CHECK_CALL` -/
def checkCall (x : M CInt) : M Unit := do
  let c ← x
  if c = 0 then pure () else throw (.code c)

/-! ## Waiting and write enable -/

/-- The error bits of the status register when it does not report a write in progress. -/
def pollWip : ℕ → M CInt
  | 0 => throw .running
  | fuel + 1 => do
    let rx ← transaction bus [.opcode 0x05, .rx 1]
    if rx 0 &&& 1 ≠ 0 then pollWip fuel else pure ((rx 0 &&& 0x60).setWidth 32)

def setWen : M Unit := do
  let _ ← transaction bus [.opcode 0x06]
  pure ()

variable (fuel : ℕ)

/-- The three calls for an erase, a program, or a register write. -/
def operation (segs : List Segment) : M Unit := do
  setWen bus
  let _ ← transaction bus segs
  checkCall (pollWip bus fuel)

/-! ## Sectors -/

/-- The eight 4 KiB erases from `addr_4kib` on. -/
def erase4kib (addr4kib : CInt) : M Unit :=
  Cmd.forStep 8 1 (fun i =>
    operation bus fuel [.opcode 0x21, .address (addr4kib + BitVec.ofNat 32 (i <<< 12))]) 8 0

/-- The 4 KiB sectors of an overlay, which may be at the beginning or at the end of 64 sectors. -/
def eraseOverlay (sectorAddr sectorSize : U64) : M Unit :=
  if (sectorAddr >>> 18) % 64 = 63 then
    erase4kib bus fuel ((sectorAddr + sectorSize - 8 * 4096).setWidth 32)
  else if (sectorAddr >>> 18) % 64 = 0 then erase4kib bus fuel (sectorAddr.setWidth 32)
  else pure ()

/-- The `n` bytes at `a`. -/
def bytesAt (mem : Mem) (a : U64) (n : ℕ) : List Byte :=
  (List.range n).map fun i => mem (a + BitVec.ofNat 64 i)

variable (mem : Mem)

def singleFlashSector (buf sectorAddr sectorSize : U64) : M Unit := do
  eraseOverlay bus fuel sectorAddr sectorSize
  operation bus fuel [.opcode 0xDC, .address (sectorAddr.setWidth 32)]
  Cmd.forStep sectorSize.toNat 256 (fun p =>
    operation bus fuel [.opcode 0x12, .address ((sectorAddr + BitVec.ofNat 64 p).setWidth 32),
      .tx (bytesAt mem (buf + BitVec.ofNat 64 p) 256)]) sectorSize.toNat 0

/-- `spi_s25fs512s_single_flash` -/
def singleFlash (spiFreq buf sector numSectors : U64) : M Unit :=
  if spiFreq < 100 * 1000 * 1000 then do
    setWen bus
    -- 4-byte addresses
    let _ ← transaction bus [.opcode 0xB7]
    -- `cr3v`, which the transaction receives
    operation bus fuel [.opcode 0x71, .address 0x00800004, .rx 1]
    Cmd.forStep numSectors.toNat 1 (fun s =>
      singleFlashSector bus fuel mem (buf + BitVec.ofNat 64 (s <<< 18))
        ((sector + BitVec.ofNat 64 s) <<< 18) (256 * 1024)) numSectors.toNat 0
  else throw (.code 0x16)

end Cheshire.SpiFlash
