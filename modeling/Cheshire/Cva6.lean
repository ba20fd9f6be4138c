import Cheshire.Soc
import Cheshire.AddrMapAgree

/-!
# Memory attributes of the cores: `gen_cva6_cfg`

The cores are told which regions of the address space are not idempotent, executable and cached,
as lists of base addresses and lengths. The crossbar routes by start and end addresses
(`gen_axi_out`). Both come from the same configuration.

**Theorem (`cva6_attributes`).** The attributes are consistent in themselves and with the routing
(`AttributesAgree`). What is sent to the debug module or the DMA engine by one of the crossbar's
own rules is uncached and non-idempotent; so is what an external rule sends there, unless the index
of this rule wraps around, and an arbitrary region of memory leads to one of these ports
(`wrappedIdx_idempotent`).
-/

namespace Cheshire

open Lib

/-! ## Regions -/

/-- The `length` bytes from `base` on. The cores compare with an end address of 65 bits. -/
structure Region where
  base : Doub
  length : Doub

def Region.Contains (r : Region) (a : Doub) : Prop :=
  r.base.toNat ≤ a.toNat ∧ a.toNat < r.base.toNat + r.length.toNat

/-- The regions of `cva6_user_cfg_t`, as the concatenations list them. -/
structure Cva6UserCfg where
  nonIdempotent : List Region
  execute : List Region
  cached : List Region

namespace Cva6UserCfg

variable (c : Cva6UserCfg) (a : Doub)

def NonIdempotent : Prop := ∃ r ∈ c.nonIdempotent, r.Contains a

def Executable : Prop := ∃ r ∈ c.execute, r.Contains a

def Cached : Prop := ∃ r ∈ c.cached, r.Contains a

end Cva6UserCfg

section Gen

variable (cfg : SocCfg)

/-- The external region that is cached, idempotent and executable. -/
def cieRegion : Region :=
  ⟨if cfg.cva6ExtCieOnTop then 0x80000000 - cfg.cva6ExtCieLength else 0x20000000,
    cfg.cva6ExtCieLength⟩

/-- The external region that is not. -/
def noCieRegion : Region :=
  ⟨if cfg.cva6ExtCieOnTop then 0x20000000 else 0x20000000 + cfg.cva6ExtCieLength,
    0x60000000 - cfg.cva6ExtCieLength⟩

/-- `SizeSpm`. -/
def sizeSpm : Doub := (getLlcSize cfg.toCheshireCfg).setWidth 64

def llcOutRegion : Region :=
  ⟨cfg.llcOutRegionStart, cfg.llcOutRegionEnd - cfg.llcOutRegionStart⟩

def genCva6Cfg : Cva6UserCfg where
  nonIdempotent := [⟨0x00000000, 0x10000000⟩, noCieRegion cfg]
  execute := [⟨amDbg, 0x40000⟩, ⟨amBrom, 0x40000⟩, ⟨amSpm, sizeSpm cfg⟩, ⟨amSpmUnc, sizeSpm cfg⟩,
    llcOutRegion cfg, cieRegion cfg]
  cached := [⟨amSpm, sizeSpm cfg⟩, llcOutRegion cfg, cieRegion cfg]

end Gen

/-! ## What the attributes are for -/

/-- The limits of the regions. -/
structure RegionsFit (cfg : SocCfg) : Prop where
  cie : cfg.cva6ExtCieLength.toNat ≤ 0x60000000
  llc : (getLlcSize cfg.toCheshireCfg).toNat ≤ 0x04000000
  llcOut : 0x80000000 ≤ cfg.llcOutRegionStart.toNat
  llcOutEnd : cfg.llcOutRegionStart.toNat ≤ cfg.llcOutRegionEnd.toNat

/-- Accesses with side effects reach a device once and in order. -/
def DeviceAccess (cfg : SocCfg) (a : Doub) : Prop :=
  (genCva6Cfg cfg).NonIdempotent a ∧ ¬(genCva6Cfg cfg).Cached a

/-- No index of an external rule of the crossbar wraps around. -/
def IdxFits (cfg : SocCfg) : Prop :=
  ∀ k < cfg.axiExtNumRules.toNat,
    (genAxiOut cfg.toCheshireCfg).extBase.toNat + (cfg.axiExtRegionIdx k).toNat < 64

structure AttributesAgree (cfg : SocCfg) : Prop where
  covered : ∀ a : Doub, (cieRegion cfg).Contains a ∨ (noCieRegion cfg).Contains a ↔
    0x20000000 ≤ a.toNat ∧ a.toNat < 0x80000000
  split : ∀ a, ¬((cieRegion cfg).Contains a ∧ (noCieRegion cfg).Contains a)
  cachedIdempotent : ∀ a, ¬((genCva6Cfg cfg).Cached a ∧ (genCva6Cfg cfg).NonIdempotent a)
  cachedExecutable : ∀ a, (genCva6Cfg cfg).Cached a → (genCva6Cfg cfg).Executable a
  /-- The crossbar's own rule for the register demux. -/
  regDemux : ∀ a, ((genAxiOut cfg.toCheshireCfg).map 1).rule.Contains a.toNat → DeviceAccess cfg a
  /-- The crossbar's own rules for the debug module and the DMA engine. -/
  devices : ∀ r ∈ axiInternalRules cfg.toCheshireCfg,
    r.idx = (genAxiOut cfg.toCheshireCfg).ports.dbg ∨
      r.idx = (genAxiOut cfg.toCheshireCfg).ports.dma →
    ∀ a : Doub, r.rule.Contains a.toNat → DeviceAccess cfg a
  /-- All rules for the debug module and the DMA engine. -/
  routed : IdxFits cfg → ∀ (a : Doub) p, p = (genAxiOut cfg.toCheshireCfg).ports.dbg ∨
      p = (genAxiOut cfg.toCheshireCfg).ports.dma →
    Routes ((genAxiOut cfg.toCheshireCfg).rules.map ARul.rule) a.toNat p → DeviceAccess cfg a
  spmUncached : ∀ a, Region.Contains ⟨amSpmUnc, sizeSpm cfg⟩ a → (genCva6Cfg cfg).Executable a ∧
    ¬(genCva6Cfg cfg).NonIdempotent a ∧ ¬(genCva6Cfg cfg).Cached a
  spmCached : ∀ a, Region.Contains ⟨amSpm, sizeSpm cfg⟩ a →
    (genCva6Cfg cfg).Cached a ∧ (genCva6Cfg cfg).Executable a
  llcOut : ∀ a : Doub, (addrRange cfg.llcOutRegionStart cfg.llcOutRegionEnd).Contains a.toNat →
    (genCva6Cfg cfg).Cached a ∧ (genCva6Cfg cfg).Executable a

/-! ## The regions as intervals -/

section Intervals

variable {cfg : SocCfg} (h : RegionsFit cfg) (a : Doub)

include h

theorem cie_contains : (cieRegion cfg).Contains a ↔
    if cfg.cva6ExtCieOnTop then
      0x80000000 - cfg.cva6ExtCieLength.toNat ≤ a.toNat ∧ a.toNat < 0x80000000
    else 0x20000000 ≤ a.toNat ∧ a.toNat < 0x20000000 + cfg.cva6ExtCieLength.toNat := by
  have hlen := h.cie
  unfold cieRegion Region.Contains
  cases cfg.cva6ExtCieOnTop with
  | false => rfl
  | true =>
    have hbase : ((0x80000000 : Doub) - cfg.cva6ExtCieLength).toNat =
        0x80000000 - cfg.cva6ExtCieLength.toNat := by
      rw [BitVec.toNat_sub]
      show (_ + 0x80000000) % _ = _
      omega
    simp only [if_true, hbase]
    omega

theorem noCie_contains : (noCieRegion cfg).Contains a ↔
    if cfg.cva6ExtCieOnTop then
      0x20000000 ≤ a.toNat ∧ a.toNat < 0x80000000 - cfg.cva6ExtCieLength.toNat
    else 0x20000000 + cfg.cva6ExtCieLength.toNat ≤ a.toNat ∧ a.toNat < 0x80000000 := by
  have hlen := h.cie
  have hrest : ((0x60000000 : Doub) - cfg.cva6ExtCieLength).toNat =
      0x60000000 - cfg.cva6ExtCieLength.toNat := by
    rw [BitVec.toNat_sub]
    show (_ + 0x60000000) % _ = _
    omega
  unfold noCieRegion Region.Contains
  rw [hrest]
  cases cfg.cva6ExtCieOnTop with
  | true =>
    have hbase : (0x20000000 : Doub).toNat = 0x20000000 := rfl
    simp only [if_true, hbase]
    omega
  | false =>
    have hbase : ((0x20000000 : Doub) + cfg.cva6ExtCieLength).toNat =
        0x20000000 + cfg.cva6ExtCieLength.toNat := by
      rw [BitVec.toNat_add]
      show (0x20000000 + _) % _ = _
      omega
    simp only [Bool.false_eq_true, if_false, hbase]
    omega

theorem llcOut_contains : (llcOutRegion cfg).Contains a ↔
    cfg.llcOutRegionStart.toNat ≤ a.toNat ∧ a.toNat < cfg.llcOutRegionEnd.toNat := by
  have hend := h.llcOutEnd
  have hlt := cfg.llcOutRegionEnd.isLt
  have hsize : (cfg.llcOutRegionEnd - cfg.llcOutRegionStart).toNat =
      cfg.llcOutRegionEnd.toNat - cfg.llcOutRegionStart.toNat := by
    rw [BitVec.toNat_sub]
    omega
  unfold llcOutRegion Region.Contains
  rw [hsize]
  dsimp only
  omega

omit h in
theorem spm_contains (base : Doub) : Region.Contains ⟨base, sizeSpm cfg⟩ a ↔
    base.toNat ≤ a.toNat ∧ a.toNat < base.toNat + (getLlcSize cfg.toCheshireCfg).toNat := by
  have hsize : (sizeSpm cfg).toNat = (getLlcSize cfg.toCheshireCfg).toNat :=
    BitVec.toNat_setWidth_of_le (by decide)
  unfold Region.Contains
  rw [hsize]

omit h in
theorem nonIdempotent_iff : (genCva6Cfg cfg).NonIdempotent a ↔
    a.toNat < 0x10000000 ∨ (noCieRegion cfg).Contains a := by
  have hlow : Region.Contains ⟨0x00000000, 0x10000000⟩ a ↔ a.toNat < 0x10000000 := by
    unfold Region.Contains
    show 0 ≤ _ ∧ _ < 0 + 0x10000000 ↔ _
    omega
  constructor
  · intro hn
    obtain ⟨r, hr, hra⟩ := hn
    rcases List.mem_pair.1 hr with rfl | rfl
    · exact Or.inl (hlow.1 hra)
    · exact Or.inr hra
  · intro hn
    rcases hn with hn | hn
    · exact ⟨_, List.mem_cons_self, hlow.2 hn⟩
    · exact ⟨_, List.mem_cons_of_mem _ List.mem_cons_self, hn⟩

omit h in
theorem cached_iff : (genCva6Cfg cfg).Cached a ↔ Region.Contains ⟨amSpm, sizeSpm cfg⟩ a ∨
    (llcOutRegion cfg).Contains a ∨ (cieRegion cfg).Contains a := by
  simp [Cva6UserCfg.Cached, genCva6Cfg]

omit h in
theorem Cached.executable (hc : (genCva6Cfg cfg).Cached a) : (genCva6Cfg cfg).Executable a := by
  obtain ⟨r, hr, hra⟩ := hc
  refine ⟨r, ?_, hra⟩
  simp only [genCva6Cfg, List.mem_cons, List.not_mem_nil, or_false] at hr ⊢
  tauto

/-- Where the cached regions are. -/
theorem cached_bounds (hc : (genCva6Cfg cfg).Cached a) :
    (0x10000000 ≤ a.toNat ∧ a.toNat < 0x14000000) ∨ 0x80000000 ≤ a.toNat ∨
      (cieRegion cfg).Contains a := by
  have hllc := h.llc
  have hout := h.llcOut
  have hspm : amSpm.toNat = 0x10000000 := rfl
  rw [cached_iff, spm_contains, llcOut_contains h, hspm] at hc
  rcases hc with hc | hc | hc
  · exact Or.inl (by omega)
  · exact Or.inr (Or.inl (by omega))
  · exact Or.inr (Or.inr hc)

theorem cie_bounds (hc : (cieRegion cfg).Contains a) :
    0x20000000 ≤ a.toNat ∧ a.toNat < 0x80000000 := by
  have hlen := h.cie
  rw [cie_contains h] at hc
  split_ifs at hc <;> omega

theorem noCie_bounds (hc : (noCieRegion cfg).Contains a) :
    0x20000000 ≤ a.toNat ∧ a.toNat < 0x80000000 := by
  have hlen := h.cie
  rw [noCie_contains h] at hc
  split_ifs at hc <;> omega

theorem cie_split : ¬((cieRegion cfg).Contains a ∧ (noCieRegion cfg).Contains a) := by
  rw [cie_contains h, noCie_contains h]
  split_ifs <;> omega

theorem cie_covered : (cieRegion cfg).Contains a ∨ (noCieRegion cfg).Contains a ↔
    0x20000000 ≤ a.toNat ∧ a.toNat < 0x80000000 := by
  have hlen := h.cie
  rw [cie_contains h, noCie_contains h]
  split_ifs <;> omega

/-- Everything below the SPM is for devices. -/
theorem deviceAccess_low (ha : a.toNat < 0x10000000) : DeviceAccess cfg a := by
  refine ⟨(nonIdempotent_iff a).2 (Or.inl ha), fun hc => ?_⟩
  rcases cached_bounds h a hc with hspm | hout | hcie
  · omega
  · omega
  · have := cie_bounds h a hcie
    omega

end Intervals

/-! ## Routing to the devices -/

section Devices

variable {cfg : SocCfg}

/-- The crossbar's own rules for the debug module and the DMA engine cover fixed regions below
the SPM. -/
theorem device_rules (cfg : CheshireCfg) : ∀ r ∈ axiInternalRules cfg,
    r.idx = (genAxiInternal cfg).ret.dbg ∨ r.idx = (genAxiInternal cfg).ret.dma →
      r.pte.toNat ≤ 0x01001000 := by
  unfold axiInternalRules genAxiInternal
  generalize cfg.llcOutConnect = llcOut
  generalize cfg.llcNotBypass = llc
  generalize cfg.dma = dma
  generalize cfg.serialLink = slink
  cases llcOut <;> cases llc <;> cases dma <;> cases slink <;>
    simp [opt, Gen.port, Gen.rule, aw, amDbg]

/-- The ports of the debug module and the DMA engine are below the external ones. -/
theorem device_ports (cfg : CheshireCfg) :
    (genAxiInternal cfg).ret.dbg.toNat ≤ (genAxiInternal cfg).i ∧
      (genAxiInternal cfg).ret.dma.toNat ≤ (genAxiInternal cfg).i ∧
      (genAxiInternal cfg).ret.dbg ≠ 1 ∧ (genAxiInternal cfg).ret.dma ≠ 1 := by
  unfold genAxiInternal
  generalize cfg.llcOutConnect = llcOut
  generalize cfg.llcNotBypass = llc
  generalize cfg.dma = dma
  generalize cfg.serialLink = slink
  cases llcOut <;> cases llc <;> cases dma <;> cases slink <;>
    simp [Gen.port, Gen.rule, aw]

theorem devices_own (h : RegionsFit cfg) {r : ARul}
    (hr : r ∈ axiInternalRules cfg.toCheshireCfg)
    (hidx : r.idx = (genAxiOut cfg.toCheshireCfg).ports.dbg ∨
      r.idx = (genAxiOut cfg.toCheshireCfg).ports.dma) {a : Doub}
    (ha : r.rule.Contains a.toNat) : DeviceAccess cfg a := by
  rw [axiOut_ports] at hidx
  have hpte := device_rules cfg.toCheshireCfg r hr hidx
  have hlt : a.toNat < r.pte.toNat := ha.2
  exact deviceAccess_low h a (by omega)

/-- If no index wraps around, only the crossbar's own rules lead to its own ports, other than that
of the register demux. -/
theorem own_routed (hfits : IdxFits cfg) {a : ℕ} {p : Aw}
    (hle : p.toNat ≤ (genAxiInternal cfg.toCheshireCfg).i) (hp : p ≠ 1)
    (ha : Routes ((genAxiOut cfg.toCheshireCfg).rules.map ARul.rule) a p) :
    ∃ r ∈ axiInternalRules cfg.toCheshireCfg, r.idx = p ∧ r.rule.Contains a := by
  obtain ⟨-, hi, -, -, -⟩ := genAxiInternal_bounds cfg.toCheshireCfg
  have hbase : (genAxiOut cfg.toCheshireCfg).extBase.toNat =
      (genAxiInternal cfg.toCheshireCfg).i + 1 :=
    aw_toNat (n := (genAxiInternal cfg.toCheshireCfg).i + 1) (by omega)
  rw [axiOut_rules] at ha
  obtain ⟨x, hx, hra, hidx⟩ := ha
  obtain ⟨r, hr, rfl⟩ := List.mem_map.1 hx
  change r.idx = p at hidx
  rcases List.mem_append.1 hr with hr | hr
  · rcases List.mem_append.1 hr with hr | hr
    · exact ⟨r, hr, hidx, hra⟩
    · -- the port of an external rule is at least `ext_base`
      obtain ⟨k, hk, rfl⟩ := List.mem_map.1 hr
      have hport :
          (axiExtRule cfg.toCheshireCfg (genAxiOut cfg.toCheshireCfg).extBase k).idx.toNat =
          (genAxiOut cfg.toCheshireCfg).extBase.toNat + (cfg.axiExtRegionIdx k).toNat :=
        aw_toNat (hfits k (List.mem_range.1 hk))
      rw [hidx] at hport
      omega
  · -- the external register rules lead to the register demux
    obtain ⟨k, hk, rfl⟩ := List.mem_map.1 hr
    exact absurd hidx.symm hp

/-- If no index wraps around, no external rule leads to one of these devices. -/
theorem devices_routed (h : RegionsFit cfg) (hfits : IdxFits cfg) {a : Doub} {p : Aw}
    (hp : p = (genAxiOut cfg.toCheshireCfg).ports.dbg ∨
      p = (genAxiOut cfg.toCheshireCfg).ports.dma)
    (ha : Routes ((genAxiOut cfg.toCheshireCfg).rules.map ARul.rule) a.toNat p) :
    DeviceAccess cfg a := by
  obtain ⟨hdbg, hdma, hdbg1, hdma1⟩ := device_ports cfg.toCheshireCfg
  have hp' := hp
  rw [axiOut_ports] at hp'
  have hport : p.toNat ≤ (genAxiInternal cfg.toCheshireCfg).i ∧ p ≠ 1 := by
    rcases hp' with rfl | rfl
    · exact ⟨hdbg, hdbg1⟩
    · exact ⟨hdma, hdma1⟩
  obtain ⟨r, hr, hidx, hra⟩ := own_routed hfits hport.1 hport.2 ha
  exact devices_own h hr (hidx ▸ hp) hra

theorem axiOut_map_one : (genAxiOut cfg.toCheshireCfg).map 1 = ⟨1, 0x02000000, 0x0C000000⟩ := by
  obtain ⟨-, -, -, hdemux, -⟩ := genAxiInternal_bounds cfg.toCheshireCfg
  have hrules := axiOut_rules cfg.toCheshireCfg
  have hsecond : (axiRules cfg.toCheshireCfg)[1]? = some ⟨1, 0x02000000, 0x0C000000⟩ := by
    rw [← hdemux]
    rfl
  rw [← hrules, AxiOut.rules, List.getElem?_map] at hsecond
  obtain ⟨k, hk, hmap⟩ := Option.map_eq_some_iff.1 hsecond
  obtain ⟨hlt, hget⟩ := List.getElem?_eq_some_iff.1 hk
  rw [List.getElem_range] at hget
  rw [hget]
  exact hmap

end Devices

/-! ## Main result -/

/-- **Main result.** The attributes of the cores agree with each other and with the routing. -/
theorem cva6_attributes {cfg : SocCfg} (h : RegionsFit cfg) : AttributesAgree cfg where
  covered := cie_covered h
  split := cie_split h
  cachedIdempotent a hboth := by
    obtain ⟨hc, hn⟩ := hboth
    rw [nonIdempotent_iff] at hn
    rcases hn with hlow | hno
    · exact (deviceAccess_low h a hlow).2 hc
    · have hbounds := noCie_bounds h a hno
      rcases cached_bounds h a hc with hspm | hout | hcie
      · omega
      · omega
      · exact cie_split h a ⟨hcie, hno⟩
  cachedExecutable a := Cached.executable a
  regDemux a ha := by
    rw [axiOut_map_one] at ha
    have hlt : a.toNat < 0x0C000000 := ha.2
    exact deviceAccess_low h a (by omega)
  devices r hr hidx a ha := devices_own h hr hidx ha
  routed hfits a p hp ha := devices_routed h hfits hp ha
  spmUncached a ha := by
    have hllc := h.llc
    have hbase : amSpmUnc.toNat = 0x14000000 := rfl
    have hin := (spm_contains a amSpmUnc).1 ha
    rw [hbase] at hin
    refine ⟨⟨_, by simp [genCva6Cfg], ha⟩, fun hn => ?_, fun hc => ?_⟩
    · rcases (nonIdempotent_iff a).1 hn with hlow | hno
      · omega
      · have := noCie_bounds h a hno
        omega
    · rcases cached_bounds h a hc with hspm | hout | hcie
      · omega
      · omega
      · have := cie_bounds h a hcie
        omega
  spmCached a ha :=
    have hc := (cached_iff a).2 (Or.inl ha)
    ⟨hc, Cached.executable a hc⟩
  llcOut a ha :=
    have hc := (cached_iff a).2 (Or.inr (Or.inl ((llcOut_contains h a).2 ha)))
    ⟨hc, Cached.executable a hc⟩

theorem regionsFit_default : RegionsFit defaultSocCfg where
  cie := by decide
  llc := by decide
  llcOut := by decide
  llcOutEnd := by decide

/-- One external port with one region. -/
def extSocCfg : SocCfg :=
  { defaultSocCfg with
    axiExtNumSlv := 1
    axiExtNumRules := 1
    axiExtRegionStart := fun _ => 0x300000000
    axiExtRegionEnd := fun _ => 0x300001000 }

theorem idxFits_ext : IdxFits extSocCfg := by
  unfold IdxFits
  decide

theorem cva6_attributes_ext : IdxFits extSocCfg ∧ AttributesAgree extSocCfg :=
  ⟨idxFits_ext, cva6_attributes ⟨regionsFit_default.cie, regionsFit_default.llc,
    regionsFit_default.llcOut, regionsFit_default.llcOutEnd⟩⟩

/-- One external port, whose rule adds 59 to `ext_base` = 5 in 6 bits. -/
def wrappedIdxCfg : SocCfg :=
  { defaultSocCfg with
    axiExtNumSlv := 1
    axiExtNumRules := 1
    axiExtRegionIdx := fun _ => 59
    axiExtRegionStart := fun _ => 0x300000000
    axiExtRegionEnd := fun _ => 0x300001000 }

/-- The rule leads to the debug module, and its region is idempotent for the cores. -/
theorem wrappedIdx_idempotent : RegionsFit wrappedIdxCfg ∧
    Routes ((genAxiOut wrappedIdxCfg.toCheshireCfg).rules.map ARul.rule)
      (0x300000000 : Doub).toNat (genAxiOut wrappedIdxCfg.toCheshireCfg).ports.dbg ∧
    ¬DeviceAccess wrappedIdxCfg 0x300000000 := by
  have hfit : RegionsFit wrappedIdxCfg :=
    ⟨regionsFit_default.cie, regionsFit_default.llc, regionsFit_default.llcOut,
      regionsFit_default.llcOutEnd⟩
  refine ⟨hfit, ?_, fun hdev => ?_⟩
  · rw [axiOut_rules]
    refine ⟨(axiExtRule wrappedIdxCfg.toCheshireCfg
      (genAxiOut wrappedIdxCfg.toCheshireCfg).extBase 0).rule, ?_, ?_, rfl⟩
    · refine List.mem_map_of_mem (List.mem_append_left _ (List.mem_append_right _ ?_))
      exact List.mem_map_of_mem (List.mem_range.2 (by decide))
    · exact ⟨le_refl _, by decide⟩
  · rcases (nonIdempotent_iff _).1 hdev.1 with hlow | hno
    · exact absurd hlow (by decide)
    · exact absurd (noCie_bounds hfit _ hno).2 (by decide)

end Cheshire
