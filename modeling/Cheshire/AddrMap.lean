import Cheshire.Lib.AddressMap
import Mathlib.Data.List.Range
import Mathlib.Logic.Function.Basic

/-!
# The address maps of the crossbar and the register demux: `cheshire_pkg.sv`

`gen_axi_out` and `gen_reg_out` number the output ports of the crossbar and of the register demux
for a configuration, and list the address rules of either. Both run through the optional features
in order, with a running port index `i` and a running rule index `r`.

Port indices, counts and rule targets are stored in 6-bit fields (`aw_bt`), the rule map has 64
entries, and the `bus_err` and `clic` arrays have 32. A write past the end of an array has no
effect, and a read past its end gives 0.
-/

namespace Cheshire

/-- `doub_bt`. -/
abbrev Doub := BitVec 64

/-- `aw_bt`. -/
abbrev Aw := BitVec 6

/-- What `cheshire_cfg_t` says about the maps. -/
structure CheshireCfg where
  numCores : BitVec 5
  axiDataWidth : BitVec 10
  axiExtNumSlv : BitVec 4
  axiExtNumRules : BitVec 4
  axiExtRegionIdx : ℕ → BitVec 8
  axiExtRegionStart : ℕ → Doub
  axiExtRegionEnd : ℕ → Doub
  regExtNumSlv : BitVec 4
  regExtNumRules : BitVec 4
  regExtRegionIdx : ℕ → BitVec 8
  regExtRegionStart : ℕ → Doub
  regExtRegionEnd : ℕ → Doub
  bootrom : Bool
  uart : Bool
  i2c : Bool
  spiHost : Bool
  gpio : Bool
  dma : Bool
  serialLink : Bool
  vga : Bool
  usb : Bool
  axiRt : Bool
  clic : Bool
  irqRouter : Bool
  busErr : Bool
  llcNotBypass : Bool
  llcSetAssoc : BitVec 16
  llcNumLines : BitVec 16
  llcNumBlocks : BitVec 16
  llcOutConnect : Bool
  llcOutRegionStart : Doub
  llcOutRegionEnd : Doub
  slinkRegionStart : Doub
  slinkRegionEnd : Doub

/-- `DefaultCfg`. -/
def defaultCfg : CheshireCfg where
  numCores := 1
  axiDataWidth := 64
  axiExtNumSlv := 0
  axiExtNumRules := 0
  axiExtRegionIdx _ := 0
  axiExtRegionStart _ := 0
  axiExtRegionEnd _ := 0
  regExtNumSlv := 0
  regExtNumRules := 0
  regExtRegionIdx _ := 0
  regExtRegionStart _ := 0
  regExtRegionEnd _ := 0
  bootrom := true
  uart := true
  i2c := true
  spiHost := true
  gpio := true
  dma := true
  serialLink := true
  vga := true
  usb := true
  axiRt := false
  clic := false
  irqRouter := false
  busErr := true
  llcNotBypass := true
  llcSetAssoc := 8
  llcNumLines := 256
  llcNumBlocks := 8
  llcOutConnect := true
  llcOutRegionStart := 0x80000000
  llcOutRegionEnd := 0x100000000
  slinkRegionStart := 0x100000000
  slinkRegionEnd := 0x200000000

/-- The total size of the LLC in bytes, as a 32-bit product. -/
def getLlcSize (cfg : CheshireCfg) : BitVec 32 :=
  cfg.llcSetAssoc.setWidth 32 * cfg.llcNumLines.setWidth 32 * cfg.llcNumBlocks.setWidth 32 *
    cfg.axiDataWidth.setWidth 32 / 8

def amDbg : Doub := 0x00000000
def amBrom : Doub := 0x02000000
def amRegs : Doub := 0x03000000
def amLlc : Doub := 0x03001000
def amSlink : Doub := 0x03006000
def amBusErr : Doub := 0x03009000
def amSpm : Doub := 0x10000000
def amSpmUnc : Doub := 0x14000000
def amClic : Doub := 0x08000000

/-- `arul_t`. -/
structure ARul where
  idx : Aw
  start : Doub
  pte : Doub
deriving DecidableEq, Inhabited

/-- The rule, with addresses as numbers. -/
def ARul.rule (r : ARul) : Lib.Rule Aw ℕ := ⟨r.idx, r.start.toNat, r.pte.toNat⟩

/-! ## Ports and rules under construction -/

/-- A number stored in an `aw_bt` field. -/
def aw (n : ℕ) : Aw := BitVec.ofNat 6 n

/-- `map[r] = rule`, for a map of 64 entries. -/
def writeMap (map : ℕ → ARul) (r : ℕ) (rule : ARul) : ℕ → ARul :=
  if r < 64 then Function.update map r rule else map

/-- The port fields, the running indices and the map of a generator. -/
structure Gen (ρ : Type) where
  ret : ρ
  i : ℕ
  r : ℕ
  map : ℕ → ARul

namespace Gen

variable {ρ : Type}

/-- `i++; ret.x = i`. -/
def port (g : Gen ρ) (set : ρ → Aw → ρ) : Gen ρ :=
  { g with i := g.i + 1, ret := set g.ret (aw (g.i + 1)) }

/-- `r++; ret.map[r] = '{i, start, pte}`. -/
def rule (g : Gen ρ) (start pte : Doub) : Gen ρ :=
  { g with r := g.r + 1, map := writeMap g.map (g.r + 1) ⟨aw g.i, start, pte⟩ }

/-- `i++; r++`: `i` and `r` are now the next free port and rule. -/
def next (g : Gen ρ) : Gen ρ := { g with i := g.i + 1, r := g.r + 1 }

/-- `ret.map[r] = x; r++`. -/
def put (g : Gen ρ) (x : ARul) : Gen ρ :=
  { g with map := writeMap g.map g.r x, r := g.r + 1 }

/-- The loop that appends the rules `x 0`, ..., `x (n - 1)`. -/
def putAll (g : Gen ρ) (n : ℕ) (x : ℕ → ARul) : Gen ρ :=
  (List.range n).foldl (fun g k => g.put (x k)) g

end Gen

/-! ## The crossbar -/

/-- The port fields of `axi_out_t`. -/
structure AxiPorts where
  dbg : Aw := 0
  regDemux : Aw := 0
  llc : Aw := 0
  spm : Aw := 0
  dma : Aw := 0
  slink : Aw := 0

/-- `axi_out_t`. -/
structure AxiOut where
  ports : AxiPorts
  extBase : Aw
  numOut : Aw
  numRules : Aw
  map : ℕ → ARul

/-- The rule of `gen_axi_out` for external AXI region `k`. -/
def axiExtRule (cfg : CheshireCfg) (extBase : Aw) (k : ℕ) : ARul :=
  ⟨aw (extBase.toNat + (cfg.axiExtRegionIdx k).toNat), cfg.axiExtRegionStart k,
    cfg.axiExtRegionEnd k⟩

/-- The rule of `gen_axi_out` for external register region `j`: to the register demux. -/
def axiExtRegRule (cfg : CheshireCfg) (j : ℕ) : ARul :=
  ⟨1, cfg.regExtRegionStart j, cfg.regExtRegionEnd j⟩

/-- `gen_axi_out` up to the external ports. -/
def genAxiInternal (cfg : CheshireCfg) : Gen AxiPorts :=
  let sizeSpm : Doub := (getLlcSize cfg).setWidth 64
  let map := writeMap (fun _ => default) 0 ⟨0, amDbg, amDbg + 0x40000⟩
  let map := writeMap map 1 ⟨1, 0x02000000, 0x0C000000⟩
  let g : Gen AxiPorts := ⟨{ dbg := 0, regDemux := 1 }, 1, 1, map⟩
  let g := if cfg.llcOutConnect then
      (g.port fun p i => { p with llc := i }).rule cfg.llcOutRegionStart cfg.llcOutRegionEnd
    else g
  let g := if cfg.llcNotBypass then
      ({ g with ret := { g.ret with spm := aw g.i } }.rule amSpm (amSpm + sizeSpm)).rule
        amSpmUnc (amSpmUnc + sizeSpm)
    else g
  let g := if cfg.dma then
      (g.port fun p i => { p with dma := i }).rule 0x01000000 0x01001000
    else g
  let g := if cfg.serialLink then
      (g.port fun p i => { p with slink := i }).rule cfg.slinkRegionStart cfg.slinkRegionEnd
    else g
  g

def genAxiOut (cfg : CheshireCfg) : AxiOut :=
  let g := (genAxiInternal cfg).next
  let extBase := aw g.i
  let numOut := aw (g.i + cfg.axiExtNumSlv.toNat)
  let numRules := aw (g.r + cfg.axiExtNumRules.toNat + cfg.regExtNumRules.toNat)
  let g := g.putAll cfg.axiExtNumRules.toNat (axiExtRule cfg extBase)
  let g := g.putAll cfg.regExtNumRules.toNat (axiExtRegRule cfg)
  ⟨g.ret, extBase, numOut, numRules, g.map⟩

/-- The rules the crossbar is given: `gen_axi_map` copies the first `num_rules`. Their addresses
keep all 64 bits here, where the crossbar's have `AddrWidth`. -/
def AxiOut.rules (o : AxiOut) : List ARul := (List.range o.numRules.toNat).map o.map

/-! ## The register demux -/

/-- The subordinates of the register demux: the port fields of `reg_out_t`. -/
inductive RegUnit
  | err | clint | plic | regs | bootrom | llc | uart | i2c | spiHost | gpio | slink | vga | usb
  | irqRouter | axirt
  | clic (j : ℕ)
  | busErr (j : ℕ)
deriving DecidableEq, Repr

/-- The units that have a field: the arrays `bus_err` and `clic` have 32 entries. -/
def RegUnit.HasField : RegUnit → Prop
  | .clic j | .busErr j => j < 32
  | _ => True

instance (u : RegUnit) : Decidable u.HasField := by
  cases u <;> unfold RegUnit.HasField <;> infer_instance

/-- The port fields of `reg_out_t`; a unit without a field reads as 0. -/
abbrev RegPorts := RegUnit → Aw

/-- `ret.u = i`. -/
def RegPorts.set (p : RegPorts) (u : RegUnit) (i : Aw) : RegPorts :=
  if u.HasField then Function.update p u i else p

/-- `reg_out_t`. -/
structure RegOut where
  ports : RegPorts
  extBase : Aw
  numOut : Aw
  numRules : Aw
  map : ℕ → ARul

/-- A feature of `gen_reg_out`, with the unit that it enables and the region of the unit. -/
structure RegFeature where
  on : Bool
  unit : RegUnit
  start : Doub
  pte : Doub

/-- The features in the order of `gen_reg_out`. The two loops have one for each round. -/
def regFeatures (cfg : CheshireCfg) : List RegFeature :=
  [⟨cfg.bootrom, .bootrom, amBrom, amBrom + 0x40000⟩,
    ⟨cfg.llcNotBypass, .llc, amLlc, amLlc + 0x1000⟩,
    ⟨cfg.uart, .uart, 0x03002000, 0x03003000⟩,
    ⟨cfg.i2c, .i2c, 0x03003000, 0x03004000⟩,
    ⟨cfg.spiHost, .spiHost, 0x03004000, 0x03005000⟩,
    ⟨cfg.gpio, .gpio, 0x03005000, 0x03006000⟩,
    ⟨cfg.serialLink, .slink, amSlink, amSlink + 0x1000⟩,
    ⟨cfg.vga, .vga, 0x03007000, 0x03008000⟩,
    ⟨cfg.usb, .usb, 0x03008000, 0x03009000⟩,
    ⟨cfg.irqRouter, .irqRouter, 0x02080000, 0x020C0000⟩,
    ⟨cfg.axiRt, .axirt, 0x020C0000, 0x02100000⟩] ++
  (List.range cfg.numCores.toNat).map (fun j => ⟨cfg.clic, .clic j,
    amClic + BitVec.ofNat 64 j * 0x40000, amClic + BitVec.ofNat 64 (j + 1) * 0x40000⟩) ++
  (List.range (2 + cfg.numCores.toNat)).map fun j => ⟨cfg.busErr, .busErr j,
    amBusErr + BitVec.ofNat 64 j * 0x40, amBusErr + BitVec.ofNat 64 (j + 1) * 0x40⟩

/-- `i++; ret.x = i; r++; ret.map[r] = '{i, start, pte};` if the feature is on. -/
def Gen.unit (g : Gen RegPorts) (x : RegFeature) : Gen RegPorts :=
  if x.on then (g.port fun p i => p.set x.unit i).rule x.start x.pte else g

/-- The rule of `gen_reg_out` for external register region `k`. -/
def regExtRule (cfg : CheshireCfg) (extBase : Aw) (k : ℕ) : ARul :=
  ⟨aw (extBase.toNat + (cfg.regExtRegionIdx k).toNat), cfg.regExtRegionStart k,
    cfg.regExtRegionEnd k⟩

/-- `gen_reg_out` up to the external ports. -/
def genRegInternal (cfg : CheshireCfg) : Gen RegPorts :=
  let ports : RegPorts := fun
    | .clint => 1 | .plic => 2 | .regs => 3 | _ => 0
  let map := writeMap (fun _ => default) 0 ⟨1, 0x02040000, 0x02080000⟩
  let map := writeMap map 1 ⟨2, 0x04000000, 0x08000000⟩
  let map := writeMap map 2 ⟨3, amRegs, amRegs + 0x1000⟩
  (regFeatures cfg).foldl Gen.unit ⟨ports, 3, 2, map⟩

def genRegOut (cfg : CheshireCfg) : RegOut :=
  let g := (genRegInternal cfg).next
  let extBase := aw g.i
  let numOut := aw (g.i + cfg.regExtNumSlv.toNat)
  let numRules := aw (g.r + cfg.regExtNumRules.toNat)
  let g := g.putAll cfg.regExtNumRules.toNat (regExtRule cfg extBase)
  ⟨g.ret, extBase, numOut, numRules, g.map⟩

/-- The rules the register demux is given: `gen_reg_map` copies the first `num_rules`. -/
def RegOut.rules (o : RegOut) : List ARul := (List.range o.numRules.toNat).map o.map

end Cheshire
