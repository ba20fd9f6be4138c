import Cheshire.AddrMap

/-!
# Managers and subordinates of the SoC: `cheshire_soc.sv`

The SoC connects one manager to each input of the crossbar, and one subordinate to each output of
the crossbar and of the register demux. Each of them stands in a generate block of its own, under
the condition of that block, and finds its port by the fields of `AxiIn`, `AxiOut` and `RegOut`.
-/

namespace Cheshire

/-- What `cheshire_cfg_t` says beyond the maps. -/
structure SocCfg extends CheshireCfg where
  axiExtNumMst : BitVec 4
  cva6ExtCieLength : Doub
  cva6ExtCieOnTop : Bool
  coreUserAmoOffs : Doub
  axiUserWidth : BitVec 10
  axiUserAmoMsb : BitVec 10
  axiUserAmoLsb : BitVec 10
  axiUserDefault : Doub
  slinkUserAmoBit : BitVec 10

/-- `DefaultCfg`. -/
def defaultSocCfg : SocCfg :=
  { defaultCfg with
    axiExtNumMst := 0
    cva6ExtCieLength := 0x20000000
    cva6ExtCieOnTop := false
    coreUserAmoOffs := 0
    axiUserWidth := 2
    axiUserAmoMsb := 1
    axiUserAmoLsb := 0
    axiUserDefault := 0
    slinkUserAmoBit := 1 }

/-! ## The inputs of the crossbar -/

/-- `axi_in_t`. -/
structure AxiIn where
  cores : ℕ → Aw
  dbg : Aw
  dma : Aw
  slink : Aw
  vga : Aw
  usb : Aw
  extBase : Aw
  numIn : Aw

/-- `if (on) begin i++; ret.x = i; end`: the new index and the field. -/
def nextIn (on : Bool) (i : ℕ) : ℕ × Aw := if on then (i + 1, aw (i + 1)) else (i, 0)

def genAxiIn (cfg : SocCfg) : AxiIn :=
  let n := cfg.numCores.toNat
  -- in the loop over the cores, the index is the loop counter
  let cores := (List.range n).foldl (fun c j => Function.update c j (aw j)) fun _ => (0 : Aw)
  let i := n
  let dbg := aw i
  let (i, dma) := nextIn cfg.dma i
  let (i, slink) := nextIn cfg.serialLink i
  let (i, vga) := nextIn cfg.vga i
  let (i, usb) := nextIn cfg.usb i
  let i := i + 1
  ⟨cores, dbg, dma, slink, vga, usb, aw i, aw (i + cfg.axiExtNumMst.toNat)⟩

/-- What drives a request of `axi_in_req`. -/
inductive Manager
  | core (i : ℕ)
  | dbg | dma | slink | vga | usb
  | ext (k : ℕ)
deriving DecidableEq, Repr

namespace Manager

/-- The condition of the generate block. The external requests are assigned as one slice, from
`ext_base` up to `num_in - 1`. -/
def Generated (cfg : SocCfg) : Manager → Prop
  | .core i => i < cfg.numCores.toNat
  | .dbg => True
  | .dma => cfg.dma
  | .slink => cfg.serialLink
  | .vga => cfg.vga
  | .usb => cfg.usb
  | .ext k => 0 < cfg.axiExtNumMst ∧
      (genAxiIn cfg).extBase.toNat + k < (genAxiIn cfg).numIn.toNat

def port (cfg : SocCfg) : Manager → ℕ
  | .core i => ((genAxiIn cfg).cores i).toNat
  | .dbg => (genAxiIn cfg).dbg.toNat
  | .dma => (genAxiIn cfg).dma.toNat
  | .slink => (genAxiIn cfg).slink.toNat
  | .vga => (genAxiIn cfg).vga.toNat
  | .usb => (genAxiIn cfg).usb.toNat
  | .ext k => (genAxiIn cfg).extBase.toNat + k

/-- The manager drives the request of input `p`. -/
def Drives (cfg : SocCfg) (m : Manager) (p : ℕ) : Prop := m.Generated cfg ∧ m.port cfg = p

end Manager

/-! ## The outputs of the crossbar -/

/-- What drives a response of `axi_out_rsp`. -/
inductive Subordinate
  | dbg | regDemux | llc | dma | slink
  | ext (k : ℕ)
deriving DecidableEq, Repr

namespace Subordinate

/-- The condition of the generate block; `llc` is `gen_llc_atomics`, in front of the LLC or of
its bypass. -/
def Generated (cfg : SocCfg) : Subordinate → Prop
  | .dbg | .regDemux => True
  | .llc => cfg.llcOutConnect
  | .dma => cfg.dma
  | .slink => cfg.serialLink
  | .ext k => 0 < cfg.axiExtNumSlv ∧
      (genAxiOut cfg.toCheshireCfg).extBase.toNat + k < (genAxiOut cfg.toCheshireCfg).numOut.toNat

def port (cfg : SocCfg) : Subordinate → ℕ
  | .dbg => (genAxiOut cfg.toCheshireCfg).ports.dbg.toNat
  | .regDemux => (genAxiOut cfg.toCheshireCfg).ports.regDemux.toNat
  | .llc => (genAxiOut cfg.toCheshireCfg).ports.llc.toNat
  | .dma => (genAxiOut cfg.toCheshireCfg).ports.dma.toNat
  | .slink => (genAxiOut cfg.toCheshireCfg).ports.slink.toNat
  | .ext k => (genAxiOut cfg.toCheshireCfg).extBase.toNat + k

/-- The subordinate drives the response of output `p`. -/
def Drives (cfg : SocCfg) (s : Subordinate) (p : ℕ) : Prop := s.Generated cfg ∧ s.port cfg = p

end Subordinate

/-! ## The outputs of the register demux -/

def regBusErrVga : ℕ := 0
def regBusErrDma : ℕ := 1
def regBusErrCoresBase : ℕ := 2

/-- The condition of the generate block of a unit. The bus error units stand in the blocks of the
managers they watch. -/
def RegUnit.Generated (cfg : SocCfg) : RegUnit → Prop
  | .err | .clint | .plic | .regs => True
  | .bootrom => cfg.bootrom
  | .llc => cfg.llcOutConnect ∧ cfg.llcNotBypass
  | .uart => cfg.uart
  | .i2c => cfg.i2c
  | .spiHost => cfg.spiHost
  | .gpio => cfg.gpio
  | .slink => cfg.serialLink
  | .vga => cfg.vga
  | .usb => cfg.usb
  | .irqRouter => cfg.irqRouter
  | .axirt => cfg.axiRt
  | .clic i => i < cfg.numCores.toNat ∧ cfg.clic
  | .busErr j =>
      (j = regBusErrVga ∧ cfg.vga ∧ cfg.busErr) ∨ (j = regBusErrDma ∧ cfg.dma ∧ cfg.busErr) ∨
        ∃ i < cfg.numCores.toNat, j = regBusErrCoresBase + i ∧ cfg.busErr

/-- What drives a response of `reg_out_rsp`. -/
inductive RegSubordinate
  | unit (u : RegUnit)
  | ext (k : ℕ)
deriving DecidableEq, Repr

namespace RegSubordinate

def Generated (cfg : SocCfg) : RegSubordinate → Prop
  | .unit u => u.Generated cfg
  | .ext k => 0 < cfg.regExtNumSlv ∧
      (genRegOut cfg.toCheshireCfg).extBase.toNat + k < (genRegOut cfg.toCheshireCfg).numOut.toNat

def port (cfg : SocCfg) : RegSubordinate → ℕ
  | .unit u => ((genRegOut cfg.toCheshireCfg).ports u).toNat
  | .ext k => (genRegOut cfg.toCheshireCfg).extBase.toNat + k

/-- The subordinate drives the response of output `p`. -/
def Drives (cfg : SocCfg) (s : RegSubordinate) (p : ℕ) : Prop := s.Generated cfg ∧ s.port cfg = p

end RegSubordinate

end Cheshire
