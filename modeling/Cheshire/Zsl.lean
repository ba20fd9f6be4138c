import Cheshire.GptTable

/-!
# The zero-stage loader: `zsl.c`

The loader searches the boot disk for the device tree and for the firmware, copies both to memory
and calls the firmware. It reads through the boot ROM's callback, which it runs with the boot
ROM's global pointer (`grread`). Where it runs is left open (`Env`): what the code at the callback's
address does is a parameter. Output on the UART is left out.

One such place is a device that serves a disk, and fails at the calls of an arbitrary pattern
(`Device`).
-/

namespace Cheshire.Zsl

open Lib Gpt

/-! ## The loader -/

/-- Where the loader runs: the global pointer in a state, and what the code at a pointer does when
it is called with a handle. -/
structure Env (σ : Type) where
  gp : σ → U64
  setGp : U64 → σ → σ
  call : U64 → U64 → GptRead σ

/-- `__BOOT_ZSL_DTB`. -/
def bootZslDtb : U64 := 0x80800000

/-- `__BOOT_ZSL_FW`. -/
def bootZslFw : U64 := 0x80000000

def bootDtbTypeGuid : Guid := (0x42DE2AEFBA442F61, 0x9DCB3A5DD7E43392)

def bootFwTypeGuid : Guid := (0x4B0D3F5B99EC86DA, 0x59F8A5CFBAC44B8F)

section Loader

variable {σ : Type} (env : Env σ)

/-- The prior value of the global pointer, which is replaced unless the new value is null. -/
def gprw (gp : U64) (s : σ) : U64 × σ := (env.gp s, if gp ≠ 0 then env.setGp gp s else s)

def grread (rread rgp priv : U64) : GptRead σ := fun buf addr len s =>
  let (zslGp, s) := gprw env rgp s
  let (r, s) := env.call rread priv buf addr len s
  let (_, s) := gprw env zslGp s
  (r, s)

/-- `none` stands for the loop at the end of `load_part_or_spin`. -/
def loadPartOrSpin (read : GptRead σ) (pguid : Guid) (dst maxLbas : U64) (s : σ) : Option σ :=
  let (ret, f) := gptFindPartition read maxLbas (some pguid) none ⟨s, ⟨-1, 0, 0⟩⟩
  if ret ≠ 0 then none
  else if f.out.partIdx < 0 then none
  else
    let (_, s) := read (.ext dst) (0x200 * f.out.lbaBegin)
      (0x200 * (f.out.lbaEnd - f.out.lbaBegin + 1)) f.dev
    some s

/-- The state in which `main` calls the firmware, if it does, given the scratch registers that the
boot ROM has left. -/
def main (scratch : ℕ → BitVec 32) (s : σ) : Option σ :=
  let rgp := (scratch 3).setWidth 64
  let read := scratch 0
  let priv := (scratch 1).setWidth 64
  if read &&& 1 ≠ 0 then do
    let rread := (read &&& ~~~1).setWidth 64
    let s ← loadPartOrSpin (grread env rread rgp priv) bootDtbTypeGuid bootZslDtb 64 s
    loadPartOrSpin (grread env rread rgp priv) bootFwTypeGuid bootZslFw 8192 s
  else some s

end Loader

/-! ## A device with failures -/

/-- A failing read: its code, and what it leaves in its destination. -/
structure Failure where
  code : CInt
  nonzero : code ≠ 0
  left : ℕ → Byte

/-- A disk, and which of the calls of the callback fail. -/
structure Device where
  disk : Disk
  fails : ℕ → Option Failure

/-- A call of the callback and what it returned. -/
structure Call where
  buf : Buf
  addr : U64
  len : U64
  ret : CInt
deriving DecidableEq

/-- The global pointer, memory, and the calls of the callback so far. -/
structure State where
  gp : U64
  mem : Mem
  calls : List Call

/-- The callback stores `data` and returns `ret`. -/
def State.reply (s : State) (buf : Buf) (addr len : U64) (ret : CInt) (data : ℕ → Byte) :
    Reply × State :=
  let mem := match buf with
    | .ext p => s.mem.write p len.toNat data
    | _ => s.mem
  (⟨ret, data⟩, { s with mem, calls := s.calls ++ [⟨buf, addr, len, ret⟩] })

namespace Device

variable (dev : Device)

/-- The callback of the boot ROM. -/
def callback : GptRead State := fun buf addr len s =>
  match dev.fails s.calls.length with
  | none => s.reply buf addr len 0 (dev.disk.from addr)
  | some f => s.reply buf addr len f.code f.left

/-- The callback is the same at every pointer and with every handle. -/
def env : Env State := ⟨State.gp, fun gp s => { s with gp }, fun _ _ => dev.callback⟩

/-- What the loader reads with, whatever the pointer and the handle are. -/
abbrev grread (rgp : U64) : GptRead State := Zsl.grread dev.env 0 rgp 0

end Device

end Cheshire.Zsl
