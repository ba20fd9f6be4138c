import Cheshire.Lib.RegBlock
import Cheshire.Soc
import Mathlib.Data.List.FinRange

/-!
# The register file: `cheshire_reg_top.sv`

Sixteen scratch registers for the software, and what it has to know of the hardware: the boot mode
pins and the parameters of the configuration, as `cheshire_soc` drives them into `reg_hw2reg`. The
boot ROM, the debuggers and the programs hand over to each other through the scratch registers.

**Theorem (`regTop_rsp`).** After any run of requests, whatever the boot mode pins do meanwhile, a
scratch register reads as the data of the last full-word write to it, and as 0 if there was none. No
write changes another register, or what any other register says of the hardware. A request is
answered by an error exactly if its address has no register, or if it is a write that leaves out a
byte of the register.
-/

namespace Cheshire

open Lib

/-! ## The registers -/

/-- `cheshire_id_e`. -/
inductive ChsReg
  | scratch (i : Fin 16)
  | bootMode | rtcFreq | platformRom | numIntHarts | hwFeatures | llcSize | vgaParams
deriving DecidableEq, Repr

namespace ChsReg

/-- The order of `addr_hit`. -/
def all : List ChsReg :=
  (List.finRange 16).map scratch ++
    [bootMode, rtcFreq, platformRom, numIntHarts, hwFeatures, llcSize, vgaParams]

def offset : ChsReg → BitVec 7
  | scratch i => BitVec.ofNat 7 (4 * i)
  | bootMode => 0x40
  | rtcFreq => 0x44
  | platformRom => 0x48
  | numIntHarts => 0x4c
  | hwFeatures => 0x50
  | llcSize => 0x54
  | vgaParams => 0x58

/-- `CHESHIRE_PERMIT`. -/
def permit : ChsReg → BitVec 4
  | bootMode => 0b0001
  | hwFeatures => 0b0011
  | vgaParams => 0b0111
  | _ => 0b1111

def width : ChsReg → ℕ
  | bootMode => 2
  | hwFeatures => 14
  | vgaParams => 24
  | _ => 32

/-- Only the scratch registers are `prim_subreg`; the others are `prim_subreg_ext`. -/
def stored : ChsReg → Bool
  | scratch _ => true
  | _ => false

theorem mem_all (x : ChsReg) : x ∈ all := by
  cases x <;> simp [all]

theorem offset_injective : Function.Injective offset := by
  intro x y h
  have hall : ∀ x ∈ all, ∀ y ∈ all, x.offset = y.offset → x = y := by decide
  exact hall x (mem_all x) y (mem_all y) h

end ChsReg

/-- `cheshire_reg_top`. -/
def regTop : RegBlock ChsReg where
  aw := 7
  regs := ChsReg.all
  offset := ChsReg.offset
  permit := ChsReg.permit
  width := ChsReg.width
  stored := ChsReg.stored
  complete := ChsReg.mem_all
  apart := ChsReg.offset_injective

/-! ## What the hardware says -/

/-- `cheshire_hw2reg_hw_features_reg_t`. -/
structure HwFeatures where
  bootrom : Bool
  llc : Bool
  uart : Bool
  spiHost : Bool
  i2c : Bool
  gpio : Bool
  dma : Bool
  serialLink : Bool
  vga : Bool
  usb : Bool
  axirt : Bool
  clic : Bool
  irqRouter : Bool
  busErr : Bool

/-- `cheshire_hw2reg_vga_params_reg_t`. -/
structure VgaParams where
  redWidth : BitVec 8
  greenWidth : BitVec 8
  blueWidth : BitVec 8

/-- `cheshire_hw2reg_t`. -/
structure Hw2Reg where
  bootMode : BitVec 2
  rtcFreq : BitVec 32
  platformRom : BitVec 32
  numIntHarts : BitVec 32
  hwFeatures : HwFeatures
  llcSize : BitVec 32
  vgaParams : VgaParams

/-- The bits of `reg_rdata_next`, from bit 0 on. -/
def HwFeatures.bits (f : HwFeatures) : BitVec 14 :=
  BitVec.ofBoolListLE [f.bootrom, f.llc, f.uart, f.spiHost, f.i2c, f.gpio, f.dma, f.serialLink,
    f.vga, f.usb, f.axirt, f.clic, f.irqRouter, f.busErr]

def VgaParams.bits (v : VgaParams) : BitVec 24 := v.blueWidth ++ v.greenWidth ++ v.redWidth

/-- What the registers of the hardware show. Nothing is loaded into a scratch register. -/
def Hw2Reg.port (h : Hw2Reg) : regTop.Hw
  | .scratch _ => ⟨false, (0 : BitVec 32)⟩
  | .bootMode => ⟨false, h.bootMode⟩
  | .rtcFreq => ⟨false, h.rtcFreq⟩
  | .platformRom => ⟨false, h.platformRom⟩
  | .numIntHarts => ⟨false, h.numIntHarts⟩
  | .hwFeatures => ⟨false, h.hwFeatures.bits⟩
  | .llcSize => ⟨false, h.llcSize⟩
  | .vgaParams => ⟨false, h.vgaParams.bits⟩

/-- What `cheshire_cfg_t` says for the register file. -/
structure RegCfg extends SocCfg where
  rtcFreq : BitVec 32
  platformRom : BitVec 32
  vgaRedWidth : BitVec 8
  vgaGreenWidth : BitVec 8
  vgaBlueWidth : BitVec 8

/-- `DefaultCfg`. -/
def defaultRegCfg : RegCfg :=
  { defaultSocCfg with
    rtcFreq := 32768
    platformRom := 0
    vgaRedWidth := 5
    vgaGreenWidth := 6
    vgaBlueWidth := 5 }

/-- `reg_hw2reg`. -/
def regHw2reg (cfg : RegCfg) (bootMode : BitVec 2) : Hw2Reg where
  bootMode := bootMode
  rtcFreq := cfg.rtcFreq
  platformRom := cfg.platformRom
  numIntHarts := cfg.numCores.setWidth 32
  hwFeatures :=
    { bootrom := cfg.bootrom
      llc := cfg.llcNotBypass
      uart := cfg.uart
      i2c := cfg.i2c
      gpio := cfg.gpio
      spiHost := cfg.spiHost
      dma := cfg.dma
      serialLink := cfg.serialLink
      vga := cfg.vga
      usb := cfg.usb
      axirt := cfg.axiRt
      clic := cfg.clic
      irqRouter := cfg.irqRouter
      busErr := cfg.busErr }
  llcSize := getLlcSize cfg.toCheshireCfg
  vgaParams := ⟨cfg.vgaRedWidth, cfg.vgaGreenWidth, cfg.vgaBlueWidth⟩

/-! ## Runs -/

section Runs

variable (S : Subreg) (cfg : RegCfg) {w : ℕ}

/-- `RESVAL`. -/
def regReset : regTop.Values := fun x => 0#x.width

/-- A cycle with a request, for the boot mode pins in it. -/
def regCycle (c : RegReq w × BitVec 2) : regTop.Cycle w := ⟨c.1, (regHw2reg cfg c.2).port⟩

/-- The values after the requests, from reset on. -/
def regAfter (cs : List (RegReq w × BitVec 2)) : regTop.Values :=
  regTop.run S true regReset (cs.map (regCycle cfg))

/-- The answer after the requests. `devmode_i` is tied to 1. -/
def regRsp (cs : List (RegReq w × BitVec 2)) (c : RegReq w × BitVec 2) : RegRsp :=
  regTop.rsp true (regAfter S cfg cs) (regHw2reg cfg c.2).port c.1

/-- The request writes all of scratch register `i`. -/
def ScratchWrite (i : Fin 16) (r : RegReq w) : Prop :=
  r.we = true ∧ r.addr.setWidth 7 = (ChsReg.scratch i).offset ∧ r.wstrb = 0b1111

instance (i : Fin 16) (r : RegReq w) : Decidable (ScratchWrite i r) :=
  inferInstanceAs (Decidable (_ ∧ _ ∧ _))

/-- The last word written to scratch register `i`. -/
def lastScratch (i : Fin 16) (rs : List (RegReq w)) : BitVec 32 :=
  (rs.filterMap fun r => if ScratchWrite i r then some r.wdata else none).getLast?.getD 0

/-- What each register is for: a word of memory, or a parameter of the hardware. -/
def regWord (rs : List (RegReq w)) (bootMode : BitVec 2) : ChsReg → BitVec 32
  | .scratch i => lastScratch i rs
  | .bootMode => bootMode.setWidth 32
  | .rtcFreq => cfg.rtcFreq
  | .platformRom => cfg.platformRom
  | .numIntHarts => cfg.numCores.setWidth 32
  | .hwFeatures => (regHw2reg cfg bootMode).hwFeatures.bits.setWidth 32
  | .llcSize => getLlcSize cfg.toCheshireCfg
  | .vgaParams => (cfg.vgaBlueWidth ++ cfg.vgaGreenWidth ++ cfg.vgaRedWidth).setWidth 32

variable {S cfg}

theorem permit_full (s : BitVec 4) : (0b1111 : BitVec 4) &&& ~~~s = 0 ↔ s = 0b1111 := by
  decide +revert

theorem accepted_scratch (i : Fin 16) (r : RegReq w) :
    regTop.Accepted r (.scratch i) ↔ ScratchWrite i r :=
  and_congr_right fun _ => and_congr_right fun _ => permit_full r.wstrb

theorem update_scratch (i : Fin 16) (c : RegReq w × BitVec 2) :
    regTop.update (.scratch i) (regCycle cfg c) =
      if ScratchWrite i c.1 then some c.1.wdata else none := by
  have hwd : regTop.wd c.1 (.scratch i) = c.1.wdata := BitVec.setWidth_eq c.1.wdata
  unfold RegBlock.update regCycle
  dsimp only
  simp only [accepted_scratch, hwd]
  rfl

theorem regAfter_scratch (cs : List (RegReq w × BitVec 2)) (i : Fin 16) :
    regAfter S cfg cs (.scratch i) = lastScratch i (cs.map Prod.fst) := by
  unfold regAfter lastScratch
  rw [RegBlock.run_apply S rfl, List.filterMap_map, List.filterMap_map]
  congr 2
  exact List.filterMap_congr fun c _ => update_scratch i c

/-- What a register reads as. -/
theorem qs_eq (cs : List (RegReq w × BitVec 2)) (mode : BitVec 2) (x : ChsReg) :
    (regTop.qs (regAfter S cfg cs) (regHw2reg cfg mode).port x).setWidth 32 =
      regWord cfg (cs.map Prod.fst) mode x := by
  cases x with
  | scratch i => exact (BitVec.setWidth_eq _).trans (regAfter_scratch cs i)
  | bootMode | hwFeatures | vgaParams => rfl
  | _ => exact BitVec.setWidth_eq _

/-- **Main result.** -/
theorem regTop_rsp (S : Subreg) (cfg : RegCfg) (cs : List (RegReq w × BitVec 2)) (r : RegReq w)
    (mode : BitVec 2) (hv : r.valid = true) :
    (∀ x : ChsReg, r.addr.setWidth 7 = x.offset →
      regRsp S cfg cs (r, mode) =
        ⟨regWord cfg (cs.map Prod.fst) mode x, r.write && (x.permit &&& ~~~r.wstrb) != 0⟩) ∧
    ((∀ x : ChsReg, r.addr.setWidth 7 ≠ x.offset) →
      regRsp S cfg cs (r, mode) = ⟨BitVec.allOnes 32, true⟩) := by
  have hwe : r.we = r.write := by
    unfold RegReq.we
    rw [hv, Bool.true_and]
  refine ⟨fun x hx => ?_, fun hnone => RegBlock.rsp_of_miss _ _ hv hnone⟩
  have h : regRsp S cfg cs (r, mode) = _ :=
    RegBlock.rsp_of_hit (regAfter S cfg cs) (regHw2reg cfg mode).port hx
  rw [qs_eq, hwe] at h
  exact h

/-- A program signals the end of its run, and a byte written over it is refused. -/
theorem regTop_rsp_eoc : regRsp .mux defaultRegCfg
    [(⟨true, true, 0x03000008, 1, 0b1111⟩, 0), (⟨true, true, 0x03000008, 7, 0b0001⟩, 0)]
    ((⟨true, false, 0x03000008, 0, 0⟩ : RegReq 64), 0) = ⟨1, false⟩ :=
  ((regTop_rsp .mux defaultRegCfg _ _ 0 rfl).1 (.scratch 2) rfl).trans (by decide)

end Runs

end Cheshire
