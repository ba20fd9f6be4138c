import Cheshire.AddrMapAgree
import Cheshire.RegFile
import Cheshire.SocWiring

/-!
# Who answers, and what the software sees of it

An access is decoded by the crossbar, and behind its port `reg_demux` by the register demux. The
crossbar answers an address without a rule itself, with a decode error; the register demux sends it
to an error subordinate. Software asks the feature register which units there are, in
`chs_hw_feature_present`.

**Theorem (`answers_unique`).** Every address has exactly one answer.

**Theorem (`feature_discovery`).** After any run of requests to the register file, whatever was
written, the feature register says that a feature is there exactly if each address of its regions is
answered by its unit. It says that the feature is not there exactly if each is answered by an error.
-/

namespace Cheshire

open Lib

/-! ## Decoding -/

/-- What answers an access: behind the crossbar, behind the register demux, or the crossbar. -/
inductive Target
  | axi (s : Subordinate)
  | reg (s : RegSubordinate)
  | decerr
deriving DecidableEq, Repr

/-- The output the crossbar sends an address to. -/
def AxiRoutes (cfg : SocCfg) (a : Doub) (p : Aw) : Prop :=
  Routes ((genAxiOut cfg.toCheshireCfg).rules.map ARul.rule) a.toNat p

/-- The output the register demux sends an address to. -/
def RegRoutes (cfg : SocCfg) (a : Doub) (p : Aw) : Prop :=
  Routes ((genRegOut cfg.toCheshireCfg).rules.map ARul.rule) a.toNat p

/-- `reg_select`. Non-matching addresses go to the error subordinate. -/
def RegSelect (cfg : SocCfg) (a : Doub) (p : Aw) : Prop :=
  RegRoutes cfg a p ∨ (∀ q, ¬RegRoutes cfg a q) ∧ p = (genRegOut cfg.toCheshireCfg).ports .err

def Answers (cfg : SocCfg) (a : Doub) : Target → Prop
  | .axi s => s ≠ .regDemux ∧ ∃ p, AxiRoutes cfg a p ∧ s.Drives cfg p.toNat
  | .reg s =>
      (∃ p, AxiRoutes cfg a p ∧ Subordinate.regDemux.Drives cfg p.toNat) ∧
        ∃ p, RegSelect cfg a p ∧ s.Drives cfg p.toNat
  | .decerr => ∀ p, ¬AxiRoutes cfg a p

/-! ## Every address has one answer -/

/-- The configurations whose maps agree and whose ports all have a driver. -/
structure Sound (cfg : SocCfg) : Prop where
  legal : Legal cfg.toCheshireCfg
  rules : regRuleCount cfg.toCheshireCfg ≠ 64
  busErr : BusErrFits cfg

section Unique

variable {cfg : SocCfg} {a : Doub} {p q : Aw}

namespace Sound

theorem answers (h : Sound cfg) {u : RegUnit} (hu : u.Enabled cfg.toCheshireCfg) :
    u.Answers cfg :=
  answers_of_fits h.legal.llcOut h.busErr hu

theorem regOut (h : Sound cfg) :
    (genRegOut cfg.toCheshireCfg).rules = regRules cfg.toCheshireCfg := by
  have hle := h.legal.rules
  have hne := h.rules
  exact regOut_rules _ (by omega)

theorem axiRoutes_unique (h : Sound cfg) (hp : AxiRoutes cfg a p) (hq : AxiRoutes cfg a q) :
    p = q := by
  unfold AxiRoutes at hp hq
  rw [axiOut_rules] at hp hq
  refine hp.unique ?_ hq
  exact List.pairwise_map.2 ((List.pairwise_map.1 (axi_apart h.legal)).imp fun hrs => hrs)

theorem regRoutes_unique (h : Sound cfg) (hp : RegRoutes cfg a p) (hq : RegRoutes cfg a q) :
    p = q := by
  unfold RegRoutes at hp hq
  rw [h.regOut] at hp hq
  refine hp.unique ?_ hq
  exact List.pairwise_map.2 ((List.pairwise_map.1 (reg_apart h.legal)).imp fun hrs => hrs)

/-- The register demux selects one output for each address. -/
theorem regSelect_unique (h : Sound cfg) : ∃! p, RegSelect cfg a p := by
  by_cases hroute : ∃ p, RegRoutes cfg a p
  · obtain ⟨p, hp⟩ := hroute
    refine ⟨p, Or.inl hp, ?_⟩
    rintro q (hq | ⟨hnone, -⟩)
    · exact h.regRoutes_unique hq hp
    · exact absurd hp (hnone p)
  · have hnone : ∀ q, ¬RegRoutes cfg a q := fun q hq => hroute ⟨q, hq⟩
    refine ⟨_, Or.inr ⟨hnone, rfl⟩, ?_⟩
    rintro q (hq | ⟨-, rfl⟩)
    · exact absurd hq (hnone q)
    · rfl

theorem axi_driver (h : Sound cfg) (hp : AxiRoutes cfg a p) :
    ∃! s : Subordinate, s.Drives cfg p.toNat := by
  unfold AxiRoutes at hp
  rw [axiOut_rules] at hp
  obtain ⟨x, hx, -, rfl⟩ := hp
  obtain ⟨r, hr, rfl⟩ := List.mem_map.1 hx
  exact subordinate_unique cfg (axi_idx h.legal r hr)

theorem reg_driver (h : Sound cfg) (hp : RegSelect cfg a p) :
    ∃! s : RegSubordinate, s.Drives cfg p.toNat := by
  refine regSubordinate_unique h.legal.ports (fun _ hu => h.answers hu) ?_
  rcases hp with hp | ⟨-, rfl⟩
  · unfold RegRoutes at hp
    rw [h.regOut] at hp
    obtain ⟨x, hx, -, rfl⟩ := hp
    obtain ⟨r, hr, rfl⟩ := List.mem_map.1 hx
    exact reg_idx h.legal r hr
  · rw [regOut_ports, genRegInternal_err, regOut_numOut h.legal.ports]
    exact Nat.succ_pos _ |>.trans_le (Nat.le_add_right _ _)

/-- Something answers. -/
theorem answered (h : Sound cfg) (a : Doub) : ∃ t, Answers cfg a t := by
  by_cases hroute : ∃ p, AxiRoutes cfg a p
  · obtain ⟨p, hp⟩ := hroute
    obtain ⟨s, hs, -⟩ := h.axi_driver hp
    by_cases hdemux : s = .regDemux
    · subst hdemux
      obtain ⟨q, hq, -⟩ := h.regSelect_unique (a := a)
      obtain ⟨t, ht, -⟩ := h.reg_driver hq
      exact ⟨.reg t, ⟨p, hp, hs⟩, q, hq, ht⟩
    · exact ⟨.axi s, hdemux, p, hp, hs⟩
  · exact ⟨.decerr, fun p hp => hroute ⟨p, hp⟩⟩

/-- What drives the crossbar's output for an address. -/
theorem axi_eq (h : Sound cfg) {s s' : Subordinate}
    (hs : ∃ p, AxiRoutes cfg a p ∧ s.Drives cfg p.toNat)
    (hs' : ∃ p, AxiRoutes cfg a p ∧ s'.Drives cfg p.toNat) : s = s' := by
  obtain ⟨p, hp, hs⟩ := hs
  obtain ⟨p', hp', hs'⟩ := hs'
  rw [h.axiRoutes_unique hp' hp] at hs'
  exact (h.axi_driver hp).unique hs hs'

/-- Nothing else does. -/
theorem answer_eq (h : Sound cfg) {t t' : Target} (ht : Answers cfg a t) (ht' : Answers cfg a t') :
    t = t' := by
  have hnone {s : Subordinate} (hs : ∃ p, AxiRoutes cfg a p ∧ s.Drives cfg p.toNat) :
      ¬Answers cfg a .decerr := by
    obtain ⟨p, hp, -⟩ := hs
    exact fun hdec => hdec p hp
  cases t with
  | axi s =>
    cases t' with
    | axi s' => rw [h.axi_eq ht.2 ht'.2]
    | reg t' => exact absurd (h.axi_eq ht.2 ht'.1) ht.1
    | decerr => exact absurd ht' (hnone ht.2)
  | reg t =>
    cases t' with
    | axi s' => exact absurd (h.axi_eq ht'.2 ht.1) ht'.1
    | reg t' =>
      obtain ⟨-, q, hq, ht⟩ := ht
      obtain ⟨-, q', hq', ht'⟩ := ht'
      rw [h.regSelect_unique.unique hq' hq] at ht'
      rw [(h.reg_driver hq).unique ht ht']
    | decerr => exact absurd ht' (hnone ht.1)
  | decerr =>
    cases t' with
    | axi s' => exact absurd ht (hnone ht'.2)
    | reg t' => exact absurd ht (hnone ht'.1)
    | decerr => rfl

end Sound

/-- **Main result, decoding.** Every address has exactly one answer. -/
theorem answers_unique (cfg : SocCfg) (h : Sound cfg) (a : Doub) : ∃! t, Answers cfg a t := by
  obtain ⟨t, ht⟩ := h.answered a
  exact ⟨t, ht, fun t' ht' => h.answer_eq ht' ht⟩

end Unique

theorem defaultSocCfg_sound : Sound defaultSocCfg where
  legal := defaultCfg_legal
  rules := by decide
  busErr _ := ⟨rfl, rfl, by decide⟩

theorem answers_unique_default : ∃! t, Answers defaultSocCfg 0x80000000 t :=
  answers_unique defaultSocCfg defaultSocCfg_sound 0x80000000

/-! ## Features -/

/-- The fields of the feature register. -/
inductive Feature
  | bootrom | llc | uart | spiHost | i2c | gpio | dma | serialLink | vga | usb | axirt | clic
  | irqRouter | busErr
deriving DecidableEq, Repr

namespace Feature

/-- `CHESHIRE_HW_FEATURES_..._BIT`. -/
def bit : Feature → BitVec 32
  | bootrom => 0
  | llc => 1
  | uart => 2
  | spiHost => 3
  | i2c => 4
  | gpio => 5
  | dma => 6
  | serialLink => 7
  | vga => 8
  | usb => 9
  | axirt => 10
  | clic => 11
  | irqRouter => 12
  | busErr => 13

/-- Whether a configuration has the feature. -/
def enabled (cfg : CheshireCfg) : Feature → Bool
  | bootrom => cfg.bootrom
  | llc => cfg.llcNotBypass
  | uart => cfg.uart
  | spiHost => cfg.spiHost
  | i2c => cfg.i2c
  | gpio => cfg.gpio
  | dma => cfg.dma
  | serialLink => cfg.serialLink
  | vga => cfg.vga
  | usb => cfg.usb
  | axirt => cfg.axiRt
  | clic => cfg.clic
  | irqRouter => cfg.irqRouter
  | busErr => cfg.busErr

/-- The register units of a feature. The DMA engine is behind the crossbar, and has none. -/
def units (cfg : CheshireCfg) : Feature → List RegUnit
  | bootrom => [.bootrom]
  | llc => [.llc]
  | uart => [.uart]
  | spiHost => [.spiHost]
  | i2c => [.i2c]
  | gpio => [.gpio]
  | dma => []
  | serialLink => [.slink]
  | vga => [.vga]
  | usb => [.usb]
  | axirt => [.axirt]
  | clic => (List.range cfg.numCores.toNat).map .clic
  | irqRouter => [.irqRouter]
  | busErr => (List.range (2 + cfg.numCores.toNat)).map .busErr

/-- The addresses of the DMA engine, from `__base_dma` on. -/
def dmaRange : Rule Unit ℕ := addrRange 0x01000000 0x01001000

/-- An address of the feature: what answers it with the feature, and what without. -/
def Home (cfg : SocCfg) (f : Feature) (a : Doub) (present absent : Target) : Prop :=
  (∃ u ∈ f.units cfg.toCheshireCfg, u.extent.Contains a.toNat ∧
    present = .reg (.unit u) ∧ absent = .reg (.unit .err)) ∨
  f = dma ∧ dmaRange.Contains a.toNat ∧ present = .axi .dma ∧ absent = .decerr

theorem units_enabled {cfg : CheshireCfg} {f : Feature} {u : RegUnit} (hu : u ∈ f.units cfg) :
    u.Enabled cfg ↔ f.enabled cfg = true := by
  cases f with
  | dma => simp [units] at hu
  | clic =>
    obtain ⟨j, hj, rfl⟩ := List.mem_map.1 hu
    exact and_iff_left (List.mem_range.1 hj)
  | busErr =>
    obtain ⟨j, hj, rfl⟩ := List.mem_map.1 hu
    exact and_iff_left (List.mem_range.1 hj)
  | _ =>
    rw [List.mem_singleton.1 hu]
    exact Iff.rfl

end Feature

/-- `chs_hw_feature_present`, for the value of the feature register. -/
def chsHwFeaturePresent (featuresBitmap bit : BitVec 32) : BitVec 32 :=
  if featuresBitmap.setWidth 64 &&& (1#64 <<< bit.toNat) ≠ 0 then 1 else 0

theorem chsHwFeaturePresent_eq (x bit : BitVec 32) (hb : bit.toNat < 32) :
    chsHwFeaturePresent x bit = if x.getLsbD bit.toNat then 1 else 0 := by
  have hand : x.setWidth 64 &&& (1#64 <<< bit.toNat) =
      if x.getLsbD bit.toNat then BitVec.twoPow 64 bit.toNat else 0 := by
    rw [← BitVec.twoPow_eq, BitVec.and_twoPow, BitVec.getLsbD_setWidth,
      decide_eq_true (by omega : bit.toNat < 64), Bool.true_and]
    rfl
  have hpow : BitVec.twoPow 64 bit.toNat ≠ 0 := by
    intro h
    have h0 := congrArg BitVec.toNat h
    rw [BitVec.toNat_twoPow, Nat.mod_eq_of_lt (Nat.pow_lt_pow_right (by omega) (by omega))] at h0
    exact absurd h0 (Nat.two_pow_pos _).ne'
  unfold chsHwFeaturePresent
  rw [hand]
  cases x.getLsbD bit.toNat with
  | true => exact if_pos hpow
  | false => exact if_neg fun h => h rfl

/-- The software finds the bit of the configuration. -/
theorem present_eq (cfg : RegCfg) (mode : BitVec 2) (f : Feature) :
    chsHwFeaturePresent ((regHw2reg cfg mode).hwFeatures.bits.setWidth 32) f.bit =
      if f.enabled cfg.toCheshireCfg then 1 else 0 := by
  have hb : f.bit.toNat < 14 := by cases f <;> decide
  rw [chsHwFeaturePresent_eq _ _ (by omega), BitVec.getLsbD_setWidth,
    decide_eq_true (by omega : f.bit.toNat < 32), Bool.true_and]
  unfold HwFeatures.bits
  rw [BitVec.getLsbD_ofBoolListLE]
  cases f <;> rfl

/-! ## The regions of the features -/

section Home

variable {cfg : SocCfg} {a : Doub} {u : RegUnit}

/-- The configuration with all units. -/
def allOn (cfg : CheshireCfg) : CheshireCfg :=
  { cfg with
    bootrom := true, llcNotBypass := true, uart := true, i2c := true, spiHost := true, gpio := true
    serialLink := true, vga := true, usb := true, irqRouter := true, axiRt := true, clic := true
    busErr := true }

theorem RegUnit.Enabled.allOn {cfg : CheshireCfg} (hu : u.Enabled cfg) : u.Enabled (allOn cfg) := by
  cases u with
  | err => exact hu
  | clic j => exact ⟨rfl, hu.2⟩
  | busErr j => exact ⟨rfl, hu.2⟩
  | _ => trivial

theorem Feature.units_allOn {cfg : CheshireCfg} {f : Feature} (hu : u ∈ f.units cfg) :
    u.Enabled (allOn cfg) := by
  have hu' : u ∈ f.units (Cheshire.allOn cfg) := by cases f <;> exact hu
  refine (Feature.units_enabled hu').2 ?_
  cases f with
  | dma => simp [units] at hu
  | _ => rfl

/-- An address of a unit goes to the register demux, whether or not the unit is there. -/
theorem demux_of_unit (hu : u.Enabled (allOn cfg.toCheshireCfg)) (ha : u.extent.Contains a.toNat) :
    ∃ p, AxiRoutes cfg a p ∧ Subordinate.regDemux.Drives cfg p.toNat := by
  obtain ⟨hlo, hhi⟩ := hu.within
  refine ⟨1, ?_, trivial, ?_⟩
  · unfold AxiRoutes
    rw [axiOut_rules]
    exact ⟨_, List.mem_map_of_mem axi_demux_rule, ⟨hlo.trans ha.1, ha.2.trans_le hhi⟩, rfl⟩
  · show (genAxiOut cfg.toCheshireCfg).ports.regDemux.toNat = _
    rw [axiOut_regDemux]

theorem answers_unit (h : Sound cfg) (hu : u.Enabled cfg.toCheshireCfg)
    (ha : u.extent.Contains a.toNat) : Answers cfg a (.reg (.unit u)) := by
  obtain ⟨hgen, hf⟩ := h.answers hu
  obtain ⟨r, hr, hidx, hext⟩ := reg_owns hu hf
  have hroute : RegRoutes cfg a ((genRegOut cfg.toCheshireCfg).ports u) := by
    unfold RegRoutes
    rw [h.regOut]
    have hra : r.extent.Contains a.toNat := hext ▸ ha
    exact ⟨r.rule, List.mem_map_of_mem hr, hra, hidx⟩
  exact ⟨demux_of_unit hu.allOn ha, _, Or.inl hroute, hgen, rfl⟩

/-- No rule of the register demux covers an address of a unit that is not there. -/
theorem not_regRoutes (h : Sound cfg) (hall : u.Enabled (allOn cfg.toCheshireCfg))
    (hu : ¬u.Enabled cfg.toCheshireCfg) (ha : u.extent.Contains a.toNat) (p : Aw) :
    ¬RegRoutes cfg a p := by
  unfold RegRoutes
  rw [h.regOut]
  rintro ⟨x, hx, hxa, -⟩
  obtain ⟨r, hr, rfl⟩ := List.mem_map.1 hx
  rcases List.mem_append.1 hr with hr | hr
  · have hext : r.extent ∈ (regUnits cfg.toCheshireCfg).map RegUnit.extent := by
      rw [← unitRules_extent]
      exact List.mem_map_of_mem hr
    obtain ⟨v, hv, hvr⟩ := List.mem_map.1 hext
    rw [mem_regUnits] at hv
    have hva : v.extent.Contains a.toNat := hvr ▸ hxa
    have hne : u ≠ v := fun he => hu (he ▸ hv)
    exact (hall.apart hv.allOn hne).not_contains a.toNat ⟨ha, hva⟩
  · obtain ⟨k, hk, rfl⟩ := List.mem_map.1 hr
    have hhigh := h.legal.high _ (mem_extRegions_reg (List.mem_range.1 hk))
    have hlow := hall.within.2
    have hlt := ha.2
    have hle : _ ≤ a.toNat := hhigh.trans hxa.1
    omega

theorem answers_err (h : Sound cfg) (hall : u.Enabled (allOn cfg.toCheshireCfg))
    (hu : ¬u.Enabled cfg.toCheshireCfg) (ha : u.extent.Contains a.toNat) :
    Answers cfg a (.reg (.unit .err)) :=
  ⟨demux_of_unit hall ha, _, Or.inr ⟨not_regRoutes h hall hu ha, rfl⟩, trivial, rfl⟩

theorem answers_dma (hon : cfg.dma = true) (ha : Feature.dmaRange.Contains a.toNat) :
    Answers cfg a (.axi .dma) := by
  have hmem : (⟨(genAxiInternal cfg.toCheshireCfg).ret.dma, 0x01000000, 0x01001000⟩ : ARul) ∈
      axiInternalRules cfg.toCheshireCfg := by simp [axiInternalRules, hon]
  refine ⟨by decide, (genAxiInternal cfg.toCheshireCfg).ret.dma, ?_, hon, ?_⟩
  · unfold AxiRoutes
    rw [axiOut_rules]
    exact ⟨_, List.mem_map_of_mem (List.mem_append_left _ (List.mem_append_left _ hmem)), ha, rfl⟩
  · show (genAxiOut cfg.toCheshireCfg).ports.dma.toNat = _
    rw [axiOut_ports]

/-- Without the DMA engine, no rule of the crossbar covers its addresses. -/
theorem answers_decerr (h : Sound cfg) (hoff : cfg.dma = false)
    (ha : Feature.dmaRange.Contains a.toNat) : Answers cfg a .decerr := by
  have hlo : 0x01000000 ≤ a.toNat := ha.1
  have hhi : a.toNat < 0x01001000 := ha.2
  intro p hp
  unfold AxiRoutes at hp
  rw [axiOut_rules] at hp
  obtain ⟨x, hx, hxa, -⟩ := hp
  obtain ⟨r, hr, rfl⟩ := List.mem_map.1 hx
  have hra : r.extent.Contains a.toNat := hxa
  have hext := (axiRules_extent cfg.toCheshireCfg).mem_iff.1 (List.mem_map_of_mem hr)
  rcases List.mem_append.1 hext with hext | hext
  · have hhigh := h.legal.high _ hext
    have hle := hhigh.trans hra.1
    omega
  · have hbase : (0x10000000 : Doub).toNat = 0x10000000 := rfl
    generalize r.extent = y at hra hext
    simp only [axiFixed, hoff, List.mem_append, List.mem_cons, List.not_mem_nil, or_false, mem_opt,
      Bool.false_eq_true, false_and] at hext
    obtain ⟨hs, he⟩ := hra
    rcases hext with (rfl | rfl) | ⟨-, rfl | rfl⟩
    · have : (amDbg + 0x40000 : Doub).toNat = 0x40000 := rfl
      simp only [addrRange] at he
      omega
    · have : (0x02000000 : Doub).toNat = 0x02000000 := rfl
      simp only [addrRange] at hs
      omega
    · have : amSpm.toNat = 0x10000000 := rfl
      simp only [addrRange] at hs
      omega
    · have : amSpmUnc.toNat = 0x14000000 := rfl
      simp only [addrRange] at hs
      omega

/-- What answers at an address of a feature. -/
theorem Feature.Home.answers (h : Sound cfg) {f : Feature} {t e : Target} (ht : f.Home cfg a t e) :
    Answers cfg a (if f.enabled cfg.toCheshireCfg then t else e) := by
  rcases ht with ⟨u, hu, ha, rfl, rfl⟩ | ⟨rfl, ha, rfl, rfl⟩
  · by_cases hon : f.enabled cfg.toCheshireCfg = true
    · rw [if_pos hon]
      exact answers_unit h ((Feature.units_enabled hu).2 hon) ha
    · rw [if_neg hon]
      exact answers_err h (Feature.units_allOn hu) (fun he => hon ((Feature.units_enabled hu).1 he))
        ha
  · by_cases hon : Feature.enabled cfg.toCheshireCfg .dma = true
    · rw [if_pos hon]
      exact answers_dma hon ha
    · rw [if_neg hon]
      exact answers_decerr h (Bool.eq_false_iff.2 hon) ha

theorem Feature.Home.ne {f : Feature} {t e : Target} (ht : f.Home cfg a t e) : t ≠ e := by
  rcases ht with ⟨u, hu, -, rfl, rfl⟩ | ⟨-, -, rfl, rfl⟩
  · intro he
    obtain rfl : u = .err := by injection he with he; injection he
    exact Feature.units_allOn hu
  · exact Target.noConfusion

end Home

/-! ## Main result -/

/-- `__base_regs` and `CHESHIRE_HW_FEATURES_REG_OFFSET`. -/
def baseRegs : Doub := 0x03000000

def hwFeaturesRegOffset : Doub := 0x50

/-- **Main result, discovery.** -/
theorem feature_discovery (S : Subreg) (cfg : RegCfg) (h : Sound cfg.toSocCfg)
    (cs : List (RegReq 64 × BitVec 2)) (r : RegReq 64) (mode : BitVec 2) (hr : r.re = true)
    (haddr : r.addr = baseRegs + hwFeaturesRegOffset) (f : Feature) (a : Doub) (t e : Target)
    (ht : f.Home cfg.toSocCfg a t e) :
    let present := chsHwFeaturePresent (regRsp S cfg cs (r, mode)).rdata f.bit
    Answers cfg.toSocCfg r.addr (.reg (.unit .regs)) ∧
      (regRsp S cfg cs (r, mode)).error = false ∧
      (present = 1 ↔ Answers cfg.toSocCfg a t) ∧ (present = 0 ↔ Answers cfg.toSocCfg a e) := by
  have hoff : regTop.addr r = regTop.offset .hwFeatures := by
    show r.addr.setWidth 7 = ChsReg.hwFeatures.offset
    rw [haddr]
    rfl
  have hrdata : (regRsp S cfg cs (r, mode)).rdata =
      (regHw2reg cfg mode).hwFeatures.bits.setWidth 32 :=
    (RegBlock.rdata_of_hit (regAfter S cfg cs) (regHw2reg cfg mode).port hoff).trans
      (qs_eq cs mode .hwFeatures)
  have hans := ht.answers h
  intro present
  have hpresent : present = if f.enabled cfg.toCheshireCfg then 1 else 0 := by
    show chsHwFeaturePresent _ _ = _
    rw [hrdata]
    exact present_eq cfg mode f
  refine ⟨?_, ?_, ?_⟩
  · rw [haddr]
    exact answers_unit h trivial ⟨by decide, by decide⟩
  · refine (RegBlock.error_of_hit (RegBlock.hit_iff.2 hoff)).trans ?_
    rw [RegReq.we_of_re hr]
    rfl
  · rw [hpresent]
    by_cases hon : f.enabled cfg.toCheshireCfg = true
    · rw [if_pos hon] at hans ⊢
      exact ⟨iff_of_true rfl hans, iff_of_false (by decide) fun he => ht.ne (h.answer_eq hans he)⟩
    · rw [if_neg hon] at hans ⊢
      exact ⟨iff_of_false (by decide) fun he => ht.ne (h.answer_eq he hans), iff_of_true rfl hans⟩

/-- The default configuration has a UART, and no CLIC: a boot mode of 2 and a write to the feature
register make no difference. -/
theorem feature_discovery_default :
    Answers defaultSocCfg (baseRegs + hwFeaturesRegOffset) (.reg (.unit .regs)) ∧
      Answers defaultSocCfg 0x03002000 (.reg (.unit .uart)) ∧
      Answers defaultSocCfg 0x08000000 (.reg (.unit .err)) := by
  have h (f : Feature) (a : Doub) (t e : Target) (ht : f.Home defaultSocCfg a t e) :=
    feature_discovery .mux defaultRegCfg defaultSocCfg_sound
      [(⟨true, true, baseRegs + hwFeaturesRegOffset, 0, 0b1111⟩, 2)]
      ⟨true, false, baseRegs + hwFeaturesRegOffset, 0, 0⟩ 0 rfl rfl f a t e ht
  have huart := h .uart 0x03002000 (.reg (.unit .uart)) (.reg (.unit .err))
    (Or.inl ⟨.uart, by decide, ⟨by decide, by decide⟩, rfl, rfl⟩)
  have hclic := h .clic 0x08000000 (.reg (.unit (.clic 0))) (.reg (.unit .err))
    (Or.inl ⟨.clic 0, by decide, ⟨by decide, by decide⟩, rfl, rfl⟩)
  exact ⟨huart.1, huart.2.2.1.1 (by decide), hclic.2.2.2.1 (by decide)⟩

end Cheshire
