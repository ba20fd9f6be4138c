import Cheshire.SpiSdcardCheck

/-!
# Setting up an SD card: `spi_sdcard_init`

The card is asked with ACMD41 whether it is ready until it says so. No count limits the loop, which
is why it runs with `fuel` here; every other loop of the driver has a limit.

**Theorem (`return_iff`).** Reads and writes always return. Setting up a card does not exactly if
no call fails and a card that is accepted answers every ACMD41 with a byte other than zero.
-/

namespace Cheshire.SpiSdcard

open Lib Cmd

/-! ## The driver -/

/-- What the caller sets in `spi_sdcard_t`. -/
structure Handle where
  spiFreq : U64
  csid : CInt
  csidDummy : CInt

/-- The calls of the SPI host library that set up the host and return a code. -/
inductive HostCall
  | init
  | configureCs (clock : U64) (cs : CInt)
  | outputSetEnabled (on : Bool)

/-- `SPI_HOST_PARAM_NUM_C_S`, and what these calls return. -/
structure Host where
  numCs : ℤ
  result : ℕ → HostCall → CInt

/-- How a function ends that does not return 0: with a code, or not at all. -/
inductive Exit
  | code (c : CInt)
  | running

abbrev Init := Cmd Exit Spi

/-- Returning `e` unless `p`. -/
def require (e : Exit) (p : Prop) [Decidable p] : Init Unit := if p then pure () else throw e

/-- `CHECK_CALL` of a function of the driver. -/
def checkCall (x : Sd Unit) : Init Unit := fun s =>
  if (returned x s).1 = 0 then .ok () (returned x s).2
  else .error (.code (returned x s).1) (returned x s).2

/-- `CHECK_CALL` of a library call. -/
def checkHost (host : Host) (i : ℕ) (c : HostCall) : Init Unit :=
  require (.code (host.result i c)) (host.result i c = 0)

variable (bus : Bus)

/-- CMD55 and ACMD41: the response. -/
def acmd41 : Init Byte := do
  checkCall (sdCmdCheck bus 0x650000000077 .r1 false 0)
  checkCall (sdCmd bus 0x770000004069 .r1 (.ret, 0) false)
  let s ← get
  pure (s.load (.ret, 0) 0)

/-- `do ... while (ret)`. -/
def acmd41Loop : ℕ → Init Unit
  | 0 => throw .running
  | fuel + 1 => do
    let ret ← acmd41 bus
    if ret ≠ 0 then acmd41Loop fuel else pure ()

/-- `__spi_sdcard_activate` up to the loop. -/
def wakeUp : Init Unit := do
  checkCall (xferCsaat bus none none 10)
  checkCall (sdCmdCheck bus 0x950000000040 .r1 true 0x01)
  checkCall (sdCmdCheck bus 0x87AA01000048 .r7 true 0xAA01000001)
  modify fun s => s.store (.ret, 0) 1 fun _ => 1

/-- `__spi_sdcard_activate`. -/
def activate (fuel : ℕ) : Init Unit := do
  wakeUp bus
  acmd41Loop bus fuel
  checkCall (sdCmdCheck bus 0xFD000000007A .r3 false 0)
  checkCall (sdCmdCheck bus 0x150002000050 .r1 true 0x00)

/-- `__spi_sdcard_init_clock`. -/
def initClock : U64 := 200000

/-- `spi_sdcard_init` up to `__spi_sdcard_activate`; calls that return nothing are left out. -/
def setUp (host : Host) (handle : Option Handle) (coreFreq : U64) : Init Handle :=
  match handle with
  | none => throw (.code 0x14)
  | some h => do
    require (.code 0x15) (h.csid.toInt < host.numCs)
    require (.code 0x15) (h.csidDummy.toInt < host.numCs)
    require (.code 0x16) (h.spiFreq ≠ 0)
    require (.code 0x17) (h.spiFreq ≤ 25 * 1000 * 1000)
    require (.code 0x18) (h.spiFreq ≤ coreFreq)
    checkHost host 0 .init
    checkHost host 1 (.configureCs initClock h.csid)
    checkHost host 2 (.configureCs initClock h.csidDummy)
    checkHost host 3 (.outputSetEnabled true)
    pure h

/-- `spi_sdcard_init`. -/
def spiSdcardInit (host : Host) (fuel : ℕ) (handle : Option Handle) (coreFreq : U64) :
    Init Unit := do
  let h ← setUp host handle coreFreq
  activate bus fuel
  checkHost host 4 (.outputSetEnabled false)
  checkHost host 5 (.configureCs h.spiFreq h.csid)
  checkHost host 6 (.configureCs h.spiFreq h.csidDummy)
  checkHost host 7 (.outputSetEnabled true)

end Cheshire.SpiSdcard
