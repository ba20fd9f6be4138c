import Cheshire.Lib.Bytes
import Cheshire.Lib.Command

/-!
# The I2C EEPROM driver: `i2c_24fc1025.c`

The driver queues the bytes of a bus transfer through the calls of the I2C library, which is not
part of the repository, while the host is disabled; enabling the host starts the transfer. A call
succeeds or fails, and the FIFO levels it reports are arbitrary (`Bus`). The bytes that a read
delivers are those of the EEPROM, from the requested address on.
-/

namespace Cheshire.I2cEeprom

open Lib

abbrev U64 := BitVec 64

abbrev CInt := BitVec 32

/-! ## The bus -/

/-- `dif_i2c_fmt_t`. -/
inductive Fmt
  | start | tx | txStop | rx
deriving DecidableEq, Repr

/-- What `dif_i2c_write_byte` puts into the format FIFO. -/
structure Entry where
  byte : Byte
  fmt : Fmt
deriving DecidableEq

/-- What `dif_i2c_get_fifo_levels` returns. -/
structure Levels where
  fmt : BitVec 8
  rx : BitVec 8
  tx : BitVec 8
  acq : BitVec 8

/-- A failing call: its code, and what it leaves at a destination. -/
structure Failure where
  code : CInt
  nonzero : code ≠ 0
  left : Byte

/-- `I2C_PARAM_FIFO_DEPTH`, what the calls report, which of them fail, and the EEPROM. -/
structure Bus where
  fifoDepth : ℕ
  levels : ℕ → Levels
  fails : ℕ → Option Failure
  eeprom : ℕ → Byte

/-- The cell that a control byte and two address bytes select: chip, block, and word address. -/
def cell (ctrl hi lo : Byte) : ℕ :=
  ((ctrl >>> 1 &&& 3).toNat * 2 + (ctrl >>> 3 &&& 1).toNat) * 2 ^ 16 + hi.toNat * 2 ^ 8 + lo.toNat

/-- The cell from which a transfer reads. -/
def readRequest : List Entry → Option ℕ
  | [⟨ctrl, .start⟩, ⟨hi, .tx⟩, ⟨lo, .txStop⟩, ⟨ctrl', .start⟩, ⟨_, .rx⟩] =>
    if ctrl' = ctrl ||| 1 then some (cell ctrl hi lo) else none
  | _ => none

/-- Memory and the addresses stored to, the number of calls so far, the entries queued so far and
those since the host was disabled, and the cell to be read next. -/
structure I2c where
  mem : Mem
  stores : List U64
  calls : ℕ
  log : List Entry
  queue : List Entry
  next : ℕ

/-- How a call ends that does not return 0: with a code, or not at all. -/
inductive Exit
  | code (c : CInt)
  | running

abbrev M := Cmd Exit I2c

section Calls

variable (bus : Bus)

/-- A call to the library that does `x` unless it fails, when it leaves `s` changed by `left`. -/
def call (x : M Unit) (left : Byte → I2c → I2c) : M Unit := fun s =>
  match bus.fails s.calls with
  | none => x { s with calls := s.calls + 1 }
  | some f => .error (.code f.code) { left f.left s with calls := s.calls + 1 }

/-- `dif_i2c_write_byte`. -/
def writeByte (byte : Byte) (fmt : Fmt) : M Unit :=
  call bus (modify fun s =>
    { s with log := s.log ++ [⟨byte, fmt⟩], queue := s.queue ++ [⟨byte, fmt⟩] }) fun _ s => s

/-- `dif_i2c_host_set_enabled`. -/
def hostSetEnabled (on : Bool) : M Unit :=
  call bus (modify fun s =>
    if on then { s with next := (readRequest s.queue).getD s.next }
    else { s with queue := [] }) fun _ s => s

def I2c.store (s : I2c) (p : U64) (b : Byte) : I2c :=
  { s with mem := s.mem.write p 1 fun _ => b, stores := s.stores ++ [p] }

/-- `dif_i2c_read_byte`. -/
def readByte (p : U64) : M Unit :=
  call bus (modify fun s => { s.store p (bus.eeprom s.next) with next := s.next + 1 })
    fun b s => s.store p b

/-- `do CHECK_CALL(dif_i2c_get_fifo_levels(...)) while (again)`. -/
def pollLevels (again : Levels → Bool) : ℕ → M Unit
  | 0 => throw .running
  | fuel + 1 => do
    let s ← get
    call bus (pure ()) fun _ s => s
    if again (bus.levels s.calls) then pollLevels again fuel

/-! ## The driver -/

/-- `for (b = 0; b < n; b++) body b`. -/
def forBytes (n : ℕ) (body : ℕ → M Unit) : M Unit := Cmd.forStep n 1 body n 0

/-- `ctrl_waddr`. -/
def ctrlWaddr (addr : U64) : U64 :=
  0xA0 ||| (addr &&& 0x10000) >>> 1 ||| (addr &&& 0x1100000) >>> 4

/-- What a read does after the address is queued. -/
def readRest (fuel : ℕ) (buf addr : U64) (len : ℕ) : M Unit := do
  writeByte bus ((ctrlWaddr addr ||| 0x1).setWidth 8) .start
  writeByte bus (BitVec.ofNat 8 len) .rx
  hostSetEnabled bus true
  pollLevels bus (fun l => l.rx.toNat < len) fuel
  forBytes len fun b => readByte bus (buf + BitVec.ofNat 64 b)

/-- What a write does after the address is queued, up to the second half. -/
def writeRest (buf : U64) (len halfFill : ℕ) : M Unit := do
  let send (b : ℕ) (fmt : Fmt) : M Unit := do
    let s ← get
    writeByte bus (s.mem (buf + BitVec.ofNat 64 b)) fmt
  forBytes (min (len - 1) halfFill) fun b => send b .tx
  send (len - 1) .tx
  hostSetEnabled bus true

/-- `__i2c_24fc1025_access_chunk`, for `len` at least 1. The tick that the code waits before it
disables the host is left out. -/
def accessChunk : ℕ → U64 → U64 → ℕ → Bool → M Unit
  | 0, _, _, _, _ => throw .running
  | fuel + 1, buf, addr, len, write => do
    pollLevels bus (fun l => l.fmt ≠ 0 ∨ l.rx ≠ 0 ∨ l.tx ≠ 0 ∨ l.acq ≠ 0) fuel
    hostSetEnabled bus false
    writeByte bus ((ctrlWaddr addr).setWidth 8) .start
    writeByte bus ((addr >>> 8 &&& 0xFF).setWidth 8) .tx
    writeByte bus ((addr &&& 0xFF).setWidth 8) (if write then .tx else .txStop)
    if write then
      let halfFill := bus.fifoDepth / 2
      writeRest bus buf len halfFill
      if len > halfFill then
        accessChunk fuel (buf + BitVec.ofNat 64 len) (addr + BitVec.ofNat 64 len)
          (len - halfFill) true
    else
      readRest bus fuel buf addr len

/-- `__i2c_24fc1025_access`. -/
def access (fuel : ℕ) (buf addr : U64) (len : ℕ) (write : Bool) : M Unit := do
  if 128 % bus.fifoDepth ≠ 0 then
    throw (.code 0x13)
  let addrOffs := addr.toNat % bus.fifoDepth
  let offs := if addrOffs ≠ 0 then bus.fifoDepth - addrOffs else 0
  if addrOffs ≠ 0 then
    accessChunk bus fuel buf addr offs write
  Cmd.forStep len bus.fifoDepth (fun offs =>
    accessChunk bus fuel (buf + BitVec.ofNat 64 offs) (addr + BitVec.ofNat 64 offs)
      (min bus.fifoDepth (len - offs)) write) len offs

/-- `i2c_24fc1025_read`. -/
def read (fuel : ℕ) (buf addr : U64) (len : ℕ) : M Unit := access bus fuel buf addr len false

/-- `i2c_24fc1025_write`. -/
def write (fuel : ℕ) (buf addr : U64) (len : ℕ) : M Unit := access bus fuel buf addr len true

end Calls

end Cheshire.I2cEeprom
