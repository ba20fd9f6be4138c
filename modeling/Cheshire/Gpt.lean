import Cheshire.Lib.Bytes
import Cheshire.Lib.Command

/-!
# Booting from a GPT disk: `gpt.c`

The functions of `gpt.c` read the disk through a callback, about which nothing is assumed: it
carries a state of its own, can fail at any call, and can leave anything in its destination.
Each function is written as the C code is, with the early returns of `CHECK_CALL` as exceptions.
-/

namespace Cheshire.Gpt

open Lib

abbrev U64 := BitVec 64

/-- A C `int`. -/
abbrev CInt := BitVec 32

/-- Where a read goes: to a local of `gpt.c`, or to an address of the caller. -/
inductive Buf
  | sig | hf | dim | guid
  | ext (p : U64)
deriving DecidableEq, Repr

/-- What a read returns, and what it leaves in its destination. -/
structure Reply where
  ret : CInt
  data : ℕ → Byte

/-- `gpt_read_t`: destination, address and length, on a state of the device. -/
abbrev GptRead (σ : Type) := Buf → U64 → U64 → σ → Reply × σ

abbrev Guid := U64 × U64

def u64At (data : ℕ → Byte) (o : ℕ) : U64 := BitVec.ofNat 64 (le 8 fun i => data (o + i))

def u32At (data : ℕ → Byte) (o : ℕ) : BitVec 32 := BitVec.ofNat 32 (le 4 fun i => data (o + i))

/-- `struct hdr_fields`. -/
structure HdrFields where
  lba : U64
  count : BitVec 32
  size : BitVec 32

def hdrFields (data : ℕ → Byte) : HdrFields := ⟨u64At data 0, u32At data 8, u32At data 12⟩

/-- `struct part_fields`. -/
structure PartFields where
  lbaBegin : U64
  lbaEnd : U64
deriving DecidableEq

def partFields (data : ℕ → Byte) : PartFields := ⟨u64At data 0, u64At data 8⟩

def guidAt (data : ℕ → Byte) : Guid := (u64At data 0, u64At data 8)

/-- "EFI PART". -/
def efiPart : U64 := 0x5452415020494645

/-- `*part_idx`, `*lba_begin` and `*lba_end`. -/
structure FindOut where
  partIdx : ℤ
  lbaBegin : U64
  lbaEnd : U64
deriving DecidableEq

/-- The state of the device, and the variables of the caller that a search writes. -/
structure Find (σ : Type) where
  dev : σ
  out : FindOut

variable {σ : Type}

/-! ## `gpt_check_signature` -/

def gptCheckSignature (read : GptRead σ) (s : σ) : Bool × σ :=
  let (r, s) := read .sig 0x200 8 s
  if r.ret ≠ 0 then (false, s) else (u64At r.data 0 == efiPart, s)

/-! ## `gpt_find_partition` -/

section Find

variable (read : GptRead σ) (maxLbas : U64) (tguid pguid : Option Guid)

/-- `CHECK_CALL(read(priv, buf, addr, len))`. -/
def checkRead (buf : Buf) (addr len : U64) : Cmd CInt (Find σ) (ℕ → Byte) := fun s =>
  let (r, dev) := read buf addr len s.dev
  if r.ret ≠ 0 then .error r.ret { s with dev } else .ok r.data { s with dev }

/-- `if (g) { CHECK_CALL(read(priv, &guid[0], addr, sizeof(guid))); ... }`: whether the GUID at
`addr` is the one passed. -/
def matchGuid (g : Option Guid) (addr : U64) : Cmd CInt (Find σ) Bool :=
  match g with
  | none => pure false
  | some g => do
    let data ← checkRead read .guid addr 16
    let guid := guidAt data
    pure (guid.1 == g.1 && guid.2 == g.2)

/-- `pe_offs`. -/
def peOffs (hf : HdrFields) (p : ℕ) : U64 :=
  0x200 * hf.lba + BitVec.ofNat 64 p * hf.size.setWidth 64

/-- `MIN`. -/
def minU64 (a b : U64) : U64 := if a ≤ b then a else b

/-- The range recorded for the first partition. -/
def firstChunk (dim : PartFields) : PartFields :=
  ⟨dim.lbaBegin, minU64 dim.lbaEnd (dim.lbaBegin + maxLbas - 1)⟩

def recordFirst (p : ℕ) (dim : PartFields) : Cmd CInt (Find σ) Unit :=
  if p = 0 then modify fun s =>
    let c := firstChunk maxLbas dim
    { s with out := { s.out with lbaBegin := c.lbaBegin, lbaEnd := c.lbaEnd } }
  else pure ()

/-- The body of the search loop: the size fields of entry `p`, and whether to `break`. -/
def checkEntry (hf : HdrFields) (p : ℕ) : Cmd CInt (Find σ) (PartFields × Bool) := do
  let data ← checkRead read .dim (peOffs hf p + 0x20) 16
  let dim := partFields data
  recordFirst maxLbas p dim
  if maxLbas ≤ dim.lbaEnd - dim.lbaBegin then
    return (dim, false)
  if ← matchGuid read tguid (peOffs hf p) then
    return (dim, true)
  if ← matchGuid read pguid (peOffs hf p + 0x10) then
    return (dim, true)
  return (dim, false)

/-- The search loop with `n` entries left: the final `p` and `dim`. -/
def searchLoop (hf : HdrFields) : ℕ → ℕ → PartFields → Cmd CInt (Find σ) (ℕ × PartFields)
  | 0, p, dim => pure (p, dim)
  | n + 1, p, _ => do
    let (dim, stop) ← checkEntry read maxLbas tguid pguid hf p
    if stop then pure (p, dim) else searchLoop hf n (p + 1) dim

def findBody : Cmd CInt (Find σ) Unit := do
  let data ← checkRead read .hf (0x200 + 0x48) 16
  let hf := hdrFields data
  let (p, dim) ← searchLoop read maxLbas tguid pguid hf hf.count.toNat 0 ⟨0, 0⟩
  modify fun s => { s with out := { s.out with partIdx := -1 } }
  if p ≠ hf.count.toNat then
    modify fun s => { s with out := ⟨p, dim.lbaBegin, dim.lbaEnd⟩ }

def gptFindPartition (s : Find σ) : CInt × Find σ :=
  match findBody read maxLbas tguid pguid s with
  | .ok _ s' => (0, s')
  | .error ret s' => (ret, s')

end Find

/-! ## `gpt_boot_part_else_raw` -/

/-- What booting does to the outside, in order. -/
inductive Event
  | read (buf : Buf) (addr len : U64) (ret : CInt)
  | scratch (i : ℕ) (v : BitVec 32)
  | bootNextStage (code : U64)
deriving DecidableEq

/-- The state of the device, and the events so far. -/
structure Boot (σ : Type) where
  dev : σ
  log : List Event

/-- The callback, with its calls logged. -/
def logged (read : GptRead σ) : GptRead (Boot σ) := fun buf addr len s =>
  let (r, dev) := read buf addr len s.dev
  (r, ⟨dev, s.log ++ [.read buf addr len r.ret]⟩)

def Boot.emit (s : Boot σ) (e : Event) : Boot σ := { s with log := s.log ++ [e] }

/-- The arguments of `gpt_boot_part_else_raw`, the callback's address, the global pointer, and
what the next stage returns. -/
structure BootArgs where
  readPtr : U64
  priv : U64
  gp : U64
  codeBuf : U64
  maxLbas : U64
  tguid : Option Guid
  pguid : Option Guid
  stageRet : CInt

/-- From the copy to SPM on. -/
def copyAndBoot (read : GptRead σ) (a : BootArgs) (lbaBegin lbaEnd : U64) (s : Boot σ) :
    CInt × Boot σ :=
  let addr := 0x200 * lbaBegin
  let len := 0x200 * (lbaEnd - lbaBegin + 1)
  let (r, s) := logged read (.ext a.codeBuf) addr len s
  if r.ret ≠ 0 then (r.ret, s) else
  let s := s.emit (.scratch 0 ((a.readPtr ||| 1).setWidth 32))
  let s := s.emit (.scratch 1 (a.priv.setWidth 32))
  let s := s.emit (.scratch 3 (a.gp.setWidth 32))
  (a.stageRet, s.emit (.bootNextStage a.codeBuf))

def gptBootPartElseRaw (read : GptRead σ) (a : BootArgs) (s : Boot σ) : CInt × Boot σ :=
  let out : FindOut := ⟨0, 0, a.maxLbas - 1⟩
  let (found, s) := gptCheckSignature (logged read) s
  if found then
    let (ret, f) := gptFindPartition (logged read) a.maxLbas a.tguid a.pguid ⟨s, out⟩
    if ret ≠ 0 then (ret, f.dev) else
    copyAndBoot read a f.out.lbaBegin f.out.lbaEnd f.dev
  else
    copyAndBoot read a out.lbaBegin out.lbaEnd s

end Cheshire.Gpt
