import Cheshire.Lib.Bytes
import Cheshire.Lib.Command

/-!
# The SD card driver: `spi_sdcard.c`

The driver talks to the card through the transaction calls of the SPI host library, which is not
part of the repository: a call is a transaction on the bus that either succeeds or fails (`Bus`).
A receive segment that succeeds stores the next bytes the card returns at its destination. One
that fails can leave anything there, and no call is made after it.

Memory is split into objects: the memory of the caller, and the locals of the driver. A pointer
into an object is never null.
-/

namespace Cheshire.SpiSdcard

open Lib

abbrev U64 := BitVec 64

abbrev CInt := BitVec 32

/-! ## The bus -/

/-- The memory of the caller, and the locals of the driver. -/
inductive Obj
  | ext | swap | rx | rdummy | crc | cmd | tok | respBuf | ret
deriving DecidableEq, Repr

abbrev Ptr := Obj × U64

/-- `dif_spi_host_segment_t`. -/
inductive Segment
  | tx (bytes : List Byte)
  | rx (dst : Ptr) (len : ℕ)
  | dummy (cycles : ℕ)
deriving DecidableEq

/-- The chip selects of the handle: `csid` and `csid_dummy`. -/
inductive Cs
  | card | dummy
deriving DecidableEq, Repr

/-- A transaction of one segment, and whether CS stays asserted after it. -/
structure Txn where
  cs : Cs
  csaat : Bool
  seg : Segment
deriving DecidableEq

/-- A failing call: its code, what it leaves at a destination, and how many bytes it takes from
the wire. -/
structure Failure where
  code : CInt
  nonzero : code ≠ 0
  left : ℕ → Byte
  taken : ℕ

/-- The bytes the card returns, which calls fail, `SPI_HOST_PARAM_RX_DEPTH`, and what an `int` is
after a shift by its width or more, which C does not say. -/
structure Bus where
  wire : ℕ → Byte
  fails : ℕ → Option Failure
  rxDepth : ℕ
  overshift : CInt := 0

/-- Memory, the position on the wire, and the transactions issued so far. -/
structure Spi where
  mem : Obj → Mem
  pos : ℕ
  log : List Txn

namespace Spi

/-- Store `f 0`, ..., `f (n - 1)` at `p`. -/
def store (s : Spi) (p : Ptr) (n : ℕ) (f : ℕ → Byte) : Spi :=
  { s with mem := Function.update s.mem p.1 ((s.mem p.1).write p.2 n f) }

def load (s : Spi) (p : Ptr) (i : ℕ) : Byte := s.mem p.1 (p.2 + BitVec.ofNat 64 i)

def bytes (s : Spi) (p : Ptr) (n : ℕ) : List Byte := (List.range n).map (s.load p)

/-- `memcpy`. -/
def copy (s : Spi) (dst src : Ptr) (n : ℕ) : Spi := s.store dst n (s.load src)

end Spi

def Ptr.add (p : Ptr) (n : ℕ) : Ptr := (p.1, p.2 + BitVec.ofNat 64 n)

abbrev Sd := Cmd CInt Spi

/-! ## Checksums -/

/-- `__spi_sdcard_crc7_lookup`. -/
def crc7Lookup : List (BitVec 8) :=
  [0x00, 0x12, 0x24, 0x36, 0x48, 0x5a, 0x6c, 0x7e, 0x90, 0x82, 0xb4, 0xa6, 0xd8, 0xca, 0xfc, 0xee,
   0x32, 0x20, 0x16, 0x04, 0x7a, 0x68, 0x5e, 0x4c, 0xa2, 0xb0, 0x86, 0x94, 0xea, 0xf8, 0xce, 0xdc,
   0x64, 0x76, 0x40, 0x52, 0x2c, 0x3e, 0x08, 0x1a, 0xf4, 0xe6, 0xd0, 0xc2, 0xbc, 0xae, 0x98, 0x8a,
   0x56, 0x44, 0x72, 0x60, 0x1e, 0x0c, 0x3a, 0x28, 0xc6, 0xd4, 0xe2, 0xf0, 0x8e, 0x9c, 0xaa, 0xb8,
   0xc8, 0xda, 0xec, 0xfe, 0x80, 0x92, 0xa4, 0xb6, 0x58, 0x4a, 0x7c, 0x6e, 0x10, 0x02, 0x34, 0x26,
   0xfa, 0xe8, 0xde, 0xcc, 0xb2, 0xa0, 0x96, 0x84, 0x6a, 0x78, 0x4e, 0x5c, 0x22, 0x30, 0x06, 0x14,
   0xac, 0xbe, 0x88, 0x9a, 0xe4, 0xf6, 0xc0, 0xd2, 0x3c, 0x2e, 0x18, 0x0a, 0x74, 0x66, 0x50, 0x42,
   0x9e, 0x8c, 0xba, 0xa8, 0xd6, 0xc4, 0xf2, 0xe0, 0x0e, 0x1c, 0x2a, 0x38, 0x46, 0x54, 0x62, 0x70,
   0x82, 0x90, 0xa6, 0xb4, 0xca, 0xd8, 0xee, 0xfc, 0x12, 0x00, 0x36, 0x24, 0x5a, 0x48, 0x7e, 0x6c,
   0xb0, 0xa2, 0x94, 0x86, 0xf8, 0xea, 0xdc, 0xce, 0x20, 0x32, 0x04, 0x16, 0x68, 0x7a, 0x4c, 0x5e,
   0xe6, 0xf4, 0xc2, 0xd0, 0xae, 0xbc, 0x8a, 0x98, 0x76, 0x64, 0x52, 0x40, 0x3e, 0x2c, 0x1a, 0x08,
   0xd4, 0xc6, 0xf0, 0xe2, 0x9c, 0x8e, 0xb8, 0xaa, 0x44, 0x56, 0x60, 0x72, 0x0c, 0x1e, 0x28, 0x3a,
   0x4a, 0x58, 0x6e, 0x7c, 0x02, 0x10, 0x26, 0x34, 0xda, 0xc8, 0xfe, 0xec, 0x92, 0x80, 0xb6, 0xa4,
   0x78, 0x6a, 0x5c, 0x4e, 0x30, 0x22, 0x14, 0x06, 0xe8, 0xfa, 0xcc, 0xde, 0xa0, 0xb2, 0x84, 0x96,
   0x2e, 0x3c, 0x0a, 0x18, 0x66, 0x74, 0x42, 0x50, 0xbe, 0xac, 0x9a, 0x88, 0xf6, 0xe4, 0xd2, 0xc0,
   0x1c, 0x0e, 0x38, 0x2a, 0x54, 0x46, 0x70, 0x62, 0x8c, 0x9e, 0xa8, 0xba, 0xc4, 0xd6, 0xe0, 0xf2]

/-- `__spi_sdcard_crc16_lookup`. -/
def crc16Lookup : List (BitVec 16) :=
  [0x0000, 0x1021, 0x2042, 0x3063, 0x4084, 0x50a5, 0x60c6, 0x70e7, 0x8108, 0x9129, 0xa14a, 0xb16b,
   0xc18c, 0xd1ad, 0xe1ce, 0xf1ef, 0x1231, 0x0210, 0x3273, 0x2252, 0x52b5, 0x4294, 0x72f7, 0x62d6,
   0x9339, 0x8318, 0xb37b, 0xa35a, 0xd3bd, 0xc39c, 0xf3ff, 0xe3de, 0x2462, 0x3443, 0x0420, 0x1401,
   0x64e6, 0x74c7, 0x44a4, 0x5485, 0xa56a, 0xb54b, 0x8528, 0x9509, 0xe5ee, 0xf5cf, 0xc5ac, 0xd58d,
   0x3653, 0x2672, 0x1611, 0x0630, 0x76d7, 0x66f6, 0x5695, 0x46b4, 0xb75b, 0xa77a, 0x9719, 0x8738,
   0xf7df, 0xe7fe, 0xd79d, 0xc7bc, 0x48c4, 0x58e5, 0x6886, 0x78a7, 0x0840, 0x1861, 0x2802, 0x3823,
   0xc9cc, 0xd9ed, 0xe98e, 0xf9af, 0x8948, 0x9969, 0xa90a, 0xb92b, 0x5af5, 0x4ad4, 0x7ab7, 0x6a96,
   0x1a71, 0x0a50, 0x3a33, 0x2a12, 0xdbfd, 0xcbdc, 0xfbbf, 0xeb9e, 0x9b79, 0x8b58, 0xbb3b, 0xab1a,
   0x6ca6, 0x7c87, 0x4ce4, 0x5cc5, 0x2c22, 0x3c03, 0x0c60, 0x1c41, 0xedae, 0xfd8f, 0xcdec, 0xddcd,
   0xad2a, 0xbd0b, 0x8d68, 0x9d49, 0x7e97, 0x6eb6, 0x5ed5, 0x4ef4, 0x3e13, 0x2e32, 0x1e51, 0x0e70,
   0xff9f, 0xefbe, 0xdfdd, 0xcffc, 0xbf1b, 0xaf3a, 0x9f59, 0x8f78, 0x9188, 0x81a9, 0xb1ca, 0xa1eb,
   0xd10c, 0xc12d, 0xf14e, 0xe16f, 0x1080, 0x00a1, 0x30c2, 0x20e3, 0x5004, 0x4025, 0x7046, 0x6067,
   0x83b9, 0x9398, 0xa3fb, 0xb3da, 0xc33d, 0xd31c, 0xe37f, 0xf35e, 0x02b1, 0x1290, 0x22f3, 0x32d2,
   0x4235, 0x5214, 0x6277, 0x7256, 0xb5ea, 0xa5cb, 0x95a8, 0x8589, 0xf56e, 0xe54f, 0xd52c, 0xc50d,
   0x34e2, 0x24c3, 0x14a0, 0x0481, 0x7466, 0x6447, 0x5424, 0x4405, 0xa7db, 0xb7fa, 0x8799, 0x97b8,
   0xe75f, 0xf77e, 0xc71d, 0xd73c, 0x26d3, 0x36f2, 0x0691, 0x16b0, 0x6657, 0x7676, 0x4615, 0x5634,
   0xd94c, 0xc96d, 0xf90e, 0xe92f, 0x99c8, 0x89e9, 0xb98a, 0xa9ab, 0x5844, 0x4865, 0x7806, 0x6827,
   0x18c0, 0x08e1, 0x3882, 0x28a3, 0xcb7d, 0xdb5c, 0xeb3f, 0xfb1e, 0x8bf9, 0x9bd8, 0xabbb, 0xbb9a,
   0x4a75, 0x5a54, 0x6a37, 0x7a16, 0x0af1, 0x1ad0, 0x2ab3, 0x3a92, 0xfd2e, 0xed0f, 0xdd6c, 0xcd4d,
   0xbdaa, 0xad8b, 0x9de8, 0x8dc9, 0x7c26, 0x6c07, 0x5c64, 0x4c45, 0x3ca2, 0x2c83, 0x1ce0, 0x0cc1,
   0xef1f, 0xff3e, 0xcf5d, 0xdf7c, 0xaf9b, 0xbfba, 0x8fd9, 0x9ff8, 0x6e17, 0x7e36, 0x4e55, 0x5e74,
   0x2e93, 0x3eb2, 0x0ed1, 0x1ef0]

def crc7 (data : List Byte) : BitVec 8 :=
  data.foldl (fun state d => crc7Lookup.getD (d ^^^ state <<< 1).toNat 0) 0

/-- The CRC16 of a block, with its bytes swapped. -/
def crc16 (data : List Byte) : BitVec 16 :=
  let state : BitVec 16 := data.foldl (fun (state : BitVec 16) d =>
    crc16Lookup.getD (d.setWidth 16 ^^^ state >>> 8).toNat 0 ^^^ state <<< 8) 0
  (state &&& 0xFF) <<< 8 ||| (state &&& 0xFF00) >>> 8

/-! ## Transactions -/

variable (bus : Bus)

/-- `dif_spi_host_transaction` and `dif_spi_host_transaction_csaat`, with one segment. -/
def transaction (t : Txn) : Sd Unit := fun s =>
  let s' := { s with log := s.log ++ [t] }
  match bus.fails s.log.length, t.seg with
  | none, .rx dst len =>
    .ok () { s'.store dst len (fun i => bus.wire (s.pos + i)) with pos := s.pos + len }
  | none, _ => .ok () s'
  | some f, .rx dst len => .error f.code { s'.store dst len f.left with pos := s.pos + f.taken }
  | some f, _ => .error f.code s'

/-- `__spi_sdcard_xfer_csaat`; a null pointer is `none`. -/
def xferCsaat (rx tx : Option Ptr) (len : ℕ) : Sd Unit :=
  match tx, rx with
  | some _, some _ => throw 0x11
  | some tx, none => do
    let s ← get
    transaction bus ⟨.card, true, .tx (s.bytes tx len)⟩
  | none, some rx => transaction bus ⟨.card, true, .rx rx len⟩
  | none, none => transaction bus ⟨.card, true, .dummy (8 * len)⟩

/-- `__spi_sdcard_csfree`. -/
def csfree : Sd Unit := transaction bus ⟨.dummy, false, .dummy 8⟩

/-! ## Commands -/

/-- `spi_sdcard_resp_t`. -/
inductive Resp
  | r1 | r1b | r2 | r3 | r7
deriving DecidableEq, Repr

/-- `__spi_sdcard_resp_len`. -/
def respLen : Resp → ℕ
  | .r1 | .r1b => 1
  | .r2 => 2
  | .r3 | .r7 => 5

/-- `do CHECK_CALL(...) while (--timeout && again)`, receiving one byte at a time into `dst`: the
final value of `timeout`. -/
def pollLoop (dst : Ptr) (again : Byte → Bool) : ℕ → Sd ℕ
  | 0 => pure 0
  | timeout + 1 => do
    xferCsaat bus (some dst) none 1
    let s ← get
    if timeout ≠ 0 ∧ again (s.load dst 0) then pollLoop dst again timeout else pure timeout

/-- The loop above, and `if (timeout == 0) return code`. -/
def poll (timeout : ℕ) (dst : Ptr) (again : Byte → Bool) (code : CInt) : Sd Unit := do
  let t ← pollLoop bus dst again timeout
  if t = 0 then throw code

def r1bTimeout : ℕ := 100000

def dataTimeout : ℕ := 100000

/-- The command bytes, or the stop transaction. -/
def sendCmd (cmd : U64) : Sd Unit := do
  modify fun s => s.store (.cmd, 0) 8 (byteOf cmd.toNat)
  xferCsaat bus none (some (.cmd, 0)) (if cmd = 0xFD then 1 else 6)

/-- Most significant bit set: not a response yet. -/
def noResponse (b : Byte) : Bool := b &&& 0x80 ≠ 0

/-- What is left of a response after its first byte: the busy flag, or the remaining bytes. -/
def restOfResponse (resp : Resp) (rdata : Ptr) : Sd Unit :=
  if resp = .r1b then
    poll bus r1bTimeout (.rdummy, 0) (· = 0) 0x13
  else if respLen resp - 1 ≠ 0 then
    xferCsaat bus (some (rdata.add 1)) none (respLen resp - 1)
  else pure ()

/-- What `__spi_sdcard_cmd` does after sending a command. -/
def awaitResponse (cmd : U64) (resp : Resp) (rdata : Ptr) (csaat : Bool) : Sd Unit := do
  if cmd &&& 0xFF = 0x4C then
    xferCsaat bus (some (.rdummy, 0)) none 1
  poll bus 8 rdata noResponse 0x12
  restOfResponse bus resp rdata
  if !csaat then
    csfree bus

/-- `__spi_sdcard_cmd`. -/
def sdCmd (cmd : U64) (resp : Resp) (rdata : Ptr) (csaat : Bool) : Sd Unit := do
  if cmd ≠ 0 then
    sendCmd bus cmd
  awaitResponse bus cmd resp rdata csaat

/-- `1 << n`, for an `int`. -/
def shiftedOne (n : ℕ) : CInt := if n < 32 then 1 <<< n else bus.overshift

/-- `__spi_sdcard_cmd_check`. -/
def sdCmdCheck (cmd : U64) (resp : Resp) (checkExp : Bool) (exp : U64) : Sd Unit := do
  sdCmd bus cmd resp (.respBuf, 0) false
  let s ← get
  let buf : U64 := BitVec.ofNat 64 (le 8 (s.load (.respBuf, 0)))
  let respMask : U64 := (shiftedOne bus (8 * respLen resp) - 1).signExtend 64
  if checkExp ∧ buf &&& respMask ≠ exp &&& respMask then
    throw ((buf &&& respMask).setWidth 32)

/-- `__spi_sdcard_build_cmd`. -/
def buildCmd (opcode : Byte) (arg : BitVec 32) : U64 :=
  let a : U64 := arg.setWidth 64
  let cmd : U64 := opcode.setWidth 64
  let cmd := cmd ||| (a >>> 24 &&& 0xFF) <<< 8
  let cmd := cmd ||| (a >>> 16 &&& 0xFF) <<< 16
  let cmd := cmd ||| (a >>> 8 &&& 0xFF) <<< 24
  let cmd := cmd ||| (a >>> 0 &&& 0xFF) <<< 32
  let crcbyte : U64 := (crc7 ((List.range 5).map (byteOf cmd.toNat))).setWidth 64 <<< 1 ||| 1
  crcbyte <<< 40 ||| cmd

/-! ## Reading -/

/-- `for (offs = 0; offs < 512; offs += 4 * SPI_HOST_PARAM_RX_DEPTH)`, with the length of each
chunk. -/
def forChunks (body : ℕ → ℕ → Sd Unit) : Sd Unit :=
  Cmd.forStep 512 (4 * bus.rxDepth)
    (fun offs => body offs (min (4 * bus.rxDepth) (512 - offs))) 512 0

/-- How the blocks meet the requested range: where it starts in the first block, where it ends in
the last, and their number. -/
structure Align where
  firstOffs : U64
  lastLen : U64
  len : U64
  firstOffs_lt : firstOffs.toNat < 512
  lastLen_le : lastLen.toNat ≤ 512

namespace Align

variable (al : Align) (b : ℕ)

/-- `first_block`. -/
def firstBlock : Bool := b = 0 ∧ al.firstOffs ≠ 0

/-- `last_block`. -/
def lastBlock : Bool := b = (al.len - 1).toNat ∧ al.lastLen ≠ 512

/-- The block goes through the swap buffer. -/
def buffered : Bool := al.firstBlock b || al.lastBlock b

/-- `block_buf`. -/
def blockBuf (blockDst : U64) : Ptr := if al.buffered b then (.swap, 0) else (.ext, blockDst)

end Align

/-- Copying the relevant contents of a buffered block to its destination. -/
def copyBlock (al : Align) (blockDst : U64) (b : ℕ) (s : Spi) : Spi :=
  if al.firstBlock b && al.lastBlock b then
    s.copy (.ext, blockDst + al.firstOffs) (.swap, 0 + al.firstOffs)
      (al.lastLen - al.firstOffs).toNat
  else if al.firstBlock b then
    s.copy (.ext, blockDst + al.firstOffs) (.swap, 0 + al.firstOffs) (512 - al.firstOffs).toNat
  else if al.lastBlock b then
    s.copy (.ext, blockDst) (.swap, 0) al.lastLen.toNat
  else s

/-- Polling for a token; unexpected ones are an error. -/
def awaitToken : Sd Unit := do
  poll bus dataTimeout (.rx, 0) (· = 0xFF) 0x19
  let s ← get
  if s.load (.rx, 0) 0 ≠ 0xFE then throw 0x20

/-- Reading a block in chunks, and its CRC16. -/
def receiveBlock (blockBuf : Ptr) (checkCrc : Bool) : Sd Unit := do
  forChunks bus fun offs chunkLen => xferCsaat bus (some (blockBuf.add offs)) none chunkLen
  xferCsaat bus (some (.crc, 0)) none 2
  let s ← get
  if checkCrc ∧ BitVec.ofNat 16 (le 2 (s.load (.crc, 0))) ≠ crc16 (s.bytes blockBuf 512) then
    throw 0x21

/-- The body of the loop over the blocks; `buf` is aligned with the block boundaries. -/
def readBlock (buf : U64) (al : Align) (checkCrc : Bool) (b : ℕ) : Sd Unit := do
  awaitToken bus
  let blockDst := buf + BitVec.ofNat 64 (512 * b)
  receiveBlock bus (al.blockBuf b blockDst) checkCrc
  modify (copyBlock al blockDst b)

/-- Ending a transfer of more than one block with CMD12, or releasing the card. -/
def endRead (len : U64) : Sd Unit :=
  if len > 1 then
    sdCmdCheck bus 0x61000000004C .r1b false 0
  else
    csfree bus

/-- `__spi_sdcard_read_blocks`. -/
def readBlocks (buf : U64) (block : U64) (al : Align) (checkCrc : Bool) : Sd Unit := do
  if al.len = 0 then return
  let cmd := buildCmd (if al.len > 1 then 0x52 else 0x51) (block.setWidth 32)
  sdCmd bus cmd .r1 (.rx, 0) true
  let buf := buf - al.firstOffs
  Cmd.forStep al.len.toNat 1 (readBlock bus buf al checkCrc) al.len.toNat 0
  endRead bus al.len

/-- `first_offs`, `last_len` and `len_blocks` of a range of bytes. -/
def alignOf (addr len : U64) : Align where
  firstOffs := addr % 512
  lastLen := if (addr + len) % 512 = 0 then 512 else (addr + len) % 512
  len := (len + addr % 512 + 511) / 512
  firstOffs_lt := by
    rw [BitVec.toNat_umod]
    exact Nat.mod_lt _ (by decide)
  lastLen_le := by
    split_ifs
    · decide
    · rw [BitVec.toNat_umod]
      exact (Nat.mod_lt _ (by decide)).le

/-- `__spi_sdcard_read`. -/
def sdRead (buf : U64) (addr len : U64) (checkCrc : Bool) : Sd Unit := do
  if len = 0 then return
  readBlocks bus buf (addr / 512) (alignOf addr len) checkCrc

/-- The return value of a command. -/
def returned (x : Sd Unit) (s : Spi) : CInt × Spi :=
  match x s with
  | .ok _ s' => (0, s')
  | .error c s' => (c, s')

def spiSdcardReadCheckcrc (buf addr len : U64) : Spi → CInt × Spi :=
  returned (sdRead bus buf addr len true)

def spiSdcardReadIgnorecrc (buf addr len : U64) : Spi → CInt × Spi :=
  returned (sdRead bus buf addr len false)

/-! ## Writing -/

/-- Sending a token, a block in chunks, and its CRC16. -/
def sendBlock (blockSrc : Ptr) (tok : Byte) (computeCrc : Bool) : Sd Unit := do
  modify fun s => s.store (.tok, 0) 1 fun _ => tok
  xferCsaat bus none (some (.tok, 0)) 1
  forChunks bus fun offs chunkLen => xferCsaat bus none (some (blockSrc.add offs)) chunkLen
  modify fun s => s.store (.crc, 0) 2 <| byteOf <| BitVec.toNat <|
    if computeCrc then crc16 (s.bytes blockSrc 512) else 0
  xferCsaat bus none (some (.crc, 0)) 2

/-- Getting and checking the data response. -/
def awaitAccepted : Sd Unit := do
  xferCsaat bus (some (.rx, 0)) none 1
  let s ← get
  if s.load (.rx, 0) 0 &&& 0x1F ≠ 0x05 then throw 0x22

/-- The body of the loop over the blocks. -/
def writeBlock (buf : U64) (tok : Byte) (computeCrc : Bool) (b : ℕ) : Sd Unit := do
  sendBlock bus (.ext, buf + BitVec.ofNat 64 (512 * b)) tok computeCrc
  awaitAccepted bus
  sdCmd bus 0 .r1b (.rx, 0) true

/-- Ending a transfer of more than one block with the stop transaction, or releasing the card. -/
def endWrite (len : U64) : Sd Unit :=
  if len > 1 then
    sdCmd bus 0xFD .r1b (.rx, 0) false
  else
    csfree bus

/-- `spi_sdcard_write_blocks`, with its errors as exceptions. -/
def writeBlocks (buf block len : U64) (computeCrc : Bool) : Sd Unit := do
  if len = 0 then return
  let cmd := buildCmd (if len > 1 then 0x59 else 0x58) (block.setWidth 32)
  let tok : Byte := if len > 1 then 0xFC else 0xFE
  sdCmd bus cmd .r1 (.rx, 0) true
  xferCsaat bus none none 1
  Cmd.forStep len.toNat 1 (writeBlock bus buf tok computeCrc) len.toNat 0
  endWrite bus len

def spiSdcardWriteBlocks (buf block len : U64) (computeCrc : Bool) : Spi → CInt × Spi :=
  returned (writeBlocks bus buf block len computeCrc)

end Cheshire.SpiSdcard
