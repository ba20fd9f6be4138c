import Cheshire.AddrMapProof
import Mathlib.Data.List.Perm.Basic
import Mathlib.Data.List.Count

/-!
# The two decode levels agree

**What is asked.** Neither map holds an address twice, every rule leads to an existing port, every
enabled subordinate owns a rule, and what the register demux decodes the crossbar sends to the
register demux (`MapsAgree`), for every configuration within the documented limits (`Legal`).

**Theorem (`mapsAgree_iff`).** This holds for a legal configuration exactly if it has at most 63
register rules and does not combine 31 cores with bus error units. The two exceptions are limits
of the fields. The number of rules is stored in 6 bits, so 64 rules become none. The array
`bus_err` has 32 entries, but there are two units on top of those of the cores, so the port of the
last core's unit reads as that of the error subordinate.
-/

namespace Cheshire

open Lib

/-! ## Legal configurations -/

/-- The addresses from `start` up to `pte`. -/
def addrRange (start pte : Doub) : Rule Unit ℕ := ⟨(), start.toNat, pte.toNat⟩

/-- The regions a configuration places itself, each only if its port or rule is enabled. -/
def extRegions (cfg : CheshireCfg) : List (Rule Unit ℕ) :=
  opt cfg.llcOutConnect [addrRange cfg.llcOutRegionStart cfg.llcOutRegionEnd] ++
    opt cfg.serialLink [addrRange cfg.slinkRegionStart cfg.slinkRegionEnd] ++
    (List.range cfg.axiExtNumRules.toNat).map
      (fun k => addrRange (cfg.axiExtRegionStart k) (cfg.axiExtRegionEnd k)) ++
    (List.range cfg.regExtNumRules.toNat).map
      (fun k => addrRange (cfg.regExtRegionStart k) (cfg.regExtRegionEnd k))

/-- A configuration within the limits of the memory map. -/
structure Legal (cfg : CheshireCfg) : Prop where
  llcOut : cfg.llcNotBypass = true → cfg.llcOutConnect = true
  llcPos : 0 < (getLlcSize cfg).toNat
  llcFits : (getLlcSize cfg).toNat ≤ 0x04000000
  cores : 0 < cfg.numCores.toNat
  nonempty : ∀ x ∈ extRegions cfg, x.start < x.pte
  high : ∀ x ∈ extRegions cfg, 0x20000000 ≤ x.start
  apart : (extRegions cfg).Pairwise Rule.Apart
  axiIdx : ∀ k < cfg.axiExtNumRules.toNat, (cfg.axiExtRegionIdx k).toNat < cfg.axiExtNumSlv.toNat
  regIdx : ∀ k < cfg.regExtNumRules.toNat, (cfg.regExtRegionIdx k).toNat < cfg.regExtNumSlv.toNat
  ports : regPortCount cfg ≤ 63
  rules : regRuleCount cfg ≤ 64

/-! ## What the maps are for -/

/-- The ports of the crossbar's enabled subordinates. -/
def axiEnabledPorts (cfg : CheshireCfg) : List Aw :=
  let p := (genAxiOut cfg).ports
  [p.dbg, p.regDemux] ++ opt cfg.llcOutConnect [p.llc] ++ opt cfg.llcNotBypass [p.spm] ++
    opt cfg.dma [p.dma] ++ opt cfg.serialLink [p.slink]

/-- No 64-bit address lies in two rules. -/
def NoOverlap (rules : List ARul) : Prop :=
  rules.Pairwise fun r s =>
    ∀ a : Doub, ¬(r.rule.Contains a.toNat ∧ s.rule.Contains a.toNat)

structure MapsAgree (cfg : CheshireCfg) : Prop where
  axiOne : NoOverlap (genAxiOut cfg).rules
  regOne : NoOverlap (genRegOut cfg).rules
  axiIdx : ∀ r ∈ (genAxiOut cfg).rules, r.idx < (genAxiOut cfg).numOut
  regIdx : ∀ r ∈ (genRegOut cfg).rules, r.idx < (genRegOut cfg).numOut
  axiOwns : ∀ p ∈ axiEnabledPorts cfg, ∃ r ∈ (genAxiOut cfg).rules, r.idx = p
  regOwns : ∀ u : RegUnit, u.Enabled cfg →
    ∃ r ∈ (genRegOut cfg).rules, r.idx = (genRegOut cfg).ports u
  routed : ∀ r ∈ (genRegOut cfg).rules, ∀ a : Doub, r.rule.Contains a.toNat →
    ∀ p, Routes ((genAxiOut cfg).rules.map ARul.rule) a.toNat p ↔
      p = (genAxiOut cfg).ports.regDemux

/-- The configurations the fields are large enough for. -/
def Fits (cfg : CheshireCfg) : Prop :=
  regRuleCount cfg ≠ 64 ∧ ¬(cfg.busErr = true ∧ cfg.numCores = 31)

/-! ## Regions -/

/-- Which addresses a rule covers. -/
def ARul.extent (r : ARul) : Rule Unit ℕ := addrRange r.start r.pte

def RegUnit.extent (u : RegUnit) : Rule Unit ℕ := addrRange u.region.1 u.region.2

instance (x y : Rule Unit ℕ) : Decidable (x.Apart y) := by
  unfold Rule.Apart; infer_instance

/-- Rules whose extents are apart hold no address twice. -/
theorem noOverlap_of_apart {rules : List ARul}
    (h : (rules.map ARul.extent).Pairwise Rule.Apart) : NoOverlap rules := by
  refine (List.pairwise_map.1 h).imp ?_
  intro r s hrs a
  have hrs' : r.rule.Apart s.rule := hrs
  exact hrs'.not_contains a.toNat

/-- Everything below `0x2000_0000` is apart from the regions a configuration places. -/
theorem Legal.apart_low {cfg : CheshireCfg} (h : Legal cfg) {x y : Rule Unit ℕ}
    (hx : x ∈ extRegions cfg) (hy : y.pte ≤ 0x20000000) : x.Apart y :=
  Or.inr (hy.trans (h.high x hx))

/-- The units with a rule of their own, apart from those that come one per core. -/
def singleUnits : List RegUnit :=
  [.clint, .plic, .regs, .bootrom, .llc, .uart, .i2c, .spiHost, .gpio, .slink, .vga, .usb,
    .irqRouter, .axirt]

theorem singleUnits_apart :
    ∀ u ∈ singleUnits, ∀ v ∈ singleUnits, u ≠ v → u.extent.Apart v.extent := by
  decide

/-- No unit with a rule of its own reaches into the CLIC or bus error regions. -/
theorem singleUnits_clear : ∀ u ∈ singleUnits,
    0x02000000 ≤ u.extent.start ∧ u.extent.pte ≤ 0x08000000 ∧
      (u.extent.pte ≤ 0x03009000 ∨ 0x04000000 ≤ u.extent.start) := by
  decide

/-- Address of slot `j` of a row of slots of `size` bytes, as long as it does not wrap. -/
theorem slot_toNat {base size : Doub} {j : ℕ} (hj : j < 2 ^ 64)
    (h : base.toNat + j * size.toNat < 2 ^ 64) :
    (base + BitVec.ofNat 64 j * size).toNat = base.toNat + j * size.toNat := by
  have hmul : j * size.toNat < 2 ^ 64 := by omega
  rw [BitVec.toNat_add, BitVec.toNat_mul, BitVec.toNat_ofNat, Nat.mod_eq_of_lt hj,
    Nat.mod_eq_of_lt hmul, Nat.mod_eq_of_lt h]

/-- From one slot to the next. -/
theorem slot_range {base size : Doub} {j : ℕ} (hj : j + 1 < 2 ^ 64)
    (h : base.toNat + (j + 1) * size.toNat < 2 ^ 64) :
    addrRange (base + BitVec.ofNat 64 j * size) (base + BitVec.ofNat 64 (j + 1) * size) =
      ⟨(), base.toNat + j * size.toNat, base.toNat + (j + 1) * size.toNat⟩ := by
  have hle : j * size.toNat ≤ (j + 1) * size.toNat := Nat.mul_le_mul_right _ (Nat.le_succ j)
  rw [addrRange, slot_toNat (by omega) (by omega), slot_toNat hj h]

theorem clic_extent {j : ℕ} (hj : j < 32) : (RegUnit.clic j).extent =
    ⟨(), 0x08000000 + j * 0x40000, 0x08000000 + (j + 1) * 0x40000⟩ :=
  slot_range (by omega) (by show 0x08000000 + _ * 0x40000 < _; omega)

theorem busErr_extent {j : ℕ} (hj : j < 34) : (RegUnit.busErr j).extent =
    ⟨(), 0x03009000 + j * 0x40, 0x03009000 + (j + 1) * 0x40⟩ :=
  slot_range (by omega) (by show 0x03009000 + _ * 0x40 < _; omega)

section Units

variable {cfg : CheshireCfg} {u v : RegUnit}

theorem RegUnit.Enabled.kind (hu : u.Enabled cfg) :
    u ∈ singleUnits ∨ (∃ j < 32, u = .clic j) ∨ ∃ j < 34, u = .busErr j := by
  have hn : cfg.numCores.toNat < 32 := cfg.numCores.isLt
  cases u with
  | err => exact absurd hu id
  | clic j => exact Or.inr (Or.inl ⟨j, hu.2.trans hn, rfl⟩)
  | busErr j =>
    obtain ⟨-, hj⟩ := hu
    exact Or.inr (Or.inr ⟨j, by omega, rfl⟩)
  | _ => exact Or.inl (by decide)

/-- Every unit lies in the crossbar's region for the register demux. -/
theorem RegUnit.Enabled.within (hu : u.Enabled cfg) :
    0x02000000 ≤ u.extent.start ∧ u.extent.pte ≤ 0x0C000000 := by
  rcases hu.kind with hs | ⟨j, hj, rfl⟩ | ⟨j, hj, rfl⟩
  · obtain ⟨hlo, hhi, -⟩ := singleUnits_clear u hs
    exact ⟨hlo, by omega⟩
  · rw [clic_extent hj]
    exact ⟨by dsimp only; omega, by dsimp only; omega⟩
  · rw [busErr_extent hj]
    exact ⟨by dsimp only; omega, by dsimp only; omega⟩

/-- Two units never share an address. -/
theorem RegUnit.Enabled.apart (hu : u.Enabled cfg) (hv : v.Enabled cfg) (hne : u ≠ v) :
    u.extent.Apart v.extent := by
  rcases hu.kind with hs | ⟨j, hj, rfl⟩ | ⟨j, hj, rfl⟩ <;>
    rcases hv.kind with ht | ⟨k, hk, rfl⟩ | ⟨k, hk, rfl⟩
  · exact singleUnits_apart u hs v ht hne
  · obtain ⟨-, hhi, -⟩ := singleUnits_clear u hs
    rw [clic_extent hk]
    exact Or.inl (by dsimp only; omega)
  · obtain ⟨-, -, hgap⟩ := singleUnits_clear u hs
    rw [busErr_extent hk]
    exact hgap.imp (fun h => by dsimp only; omega) (fun h => by dsimp only; omega)
  · obtain ⟨-, hhi, -⟩ := singleUnits_clear v ht
    rw [clic_extent hj]
    exact Or.inr (by dsimp only; omega)
  · have hjk : j ≠ k := fun he => hne (congrArg _ he)
    rw [clic_extent hj, clic_extent hk]
    simp only [Rule.Apart]
    omega
  · rw [clic_extent hj, busErr_extent hk]
    exact Or.inr (by dsimp only; omega)
  · obtain ⟨-, -, hgap⟩ := singleUnits_clear v ht
    rw [busErr_extent hj]
    exact hgap.symm.imp (fun h => by dsimp only; omega) (fun h => by dsimp only; omega)
  · rw [busErr_extent hj, clic_extent hk]
    exact Or.inl (by dsimp only; omega)
  · have hjk : j ≠ k := fun he => hne (congrArg _ he)
    rw [busErr_extent hj, busErr_extent hk]
    simp only [Rule.Apart]
    omega

end Units

/-! ## The rules are apart -/

/-- The extents of the rules the crossbar has of its own, except the regions a configuration
places. -/
def axiFixed (cfg : CheshireCfg) : List (Rule Unit ℕ) :=
  let sizeSpm : Doub := (getLlcSize cfg).setWidth 64
  [addrRange amDbg (amDbg + 0x40000), addrRange 0x02000000 0x0C000000] ++
    opt cfg.llcNotBypass [addrRange amSpm (amSpm + sizeSpm),
      addrRange amSpmUnc (amSpmUnc + sizeSpm)] ++
    opt cfg.dma [addrRange 0x01000000 0x01001000]

theorem map_opt {α β : Type} (f : α → β) (on : Bool) (x : List α) :
    (opt on x).map f = opt on (x.map f) := by
  cases on <;> rfl

theorem axiRules_extent (cfg : CheshireCfg) :
    ((axiRules cfg).map ARul.extent).Perm (extRegions cfg ++ axiFixed cfg) := by
  have hext (e : Aw) : (List.map ARul.extent ∘ List.map (axiExtRule cfg e)) = List.map
      (fun k => addrRange (cfg.axiExtRegionStart k) (cfg.axiExtRegionEnd k)) := by
    funext l; simp [ARul.extent, axiExtRule, Function.comp_def]
  have hreg : (List.map ARul.extent ∘ List.map (axiExtRegRule cfg)) = List.map
      (fun k => addrRange (cfg.regExtRegionStart k) (cfg.regExtRegionEnd k)) := by
    funext l; simp [ARul.extent, axiExtRegRule, Function.comp_def]
  have he := fun e => congrFun (hext e) (List.range cfg.axiExtNumRules.toNat)
  have hr := congrFun hreg (List.range cfg.regExtNumRules.toNat)
  simp only [Function.comp_apply] at he hr
  classical
  rw [List.perm_iff_count]
  intro x
  simp only [axiRules, axiInternalRules, extRegions, axiFixed, List.map_append, map_opt, he, hr,
    List.map_cons, List.map_nil, ARul.extent, List.count_append]
  omega

theorem axiFixed_apart {cfg : CheshireCfg} (h : Legal cfg) :
    (axiFixed cfg).Pairwise Rule.Apart ∧ ∀ x ∈ axiFixed cfg, x.pte ≤ 0x20000000 := by
  have hsize := h.llcFits
  have hspm : (amSpm + (getLlcSize cfg).setWidth 64 : Doub).toNat =
      0x10000000 + (getLlcSize cfg).toNat := by
    rw [BitVec.toNat_add, BitVec.toNat_setWidth]
    show (0x10000000 + _) % _ = _
    omega
  have hunc : (amSpmUnc + (getLlcSize cfg).setWidth 64 : Doub).toNat =
      0x14000000 + (getLlcSize cfg).toNat := by
    rw [BitVec.toNat_add, BitVec.toNat_setWidth]
    show (0x14000000 + _) % _ = _
    omega
  have hs : amSpm.toNat = 0x10000000 := rfl
  have hu : amSpmUnc.toNat = 0x14000000 := rfl
  unfold axiFixed
  generalize cfg.llcNotBypass = llc
  generalize cfg.dma = dma
  cases llc <;> cases dma <;>
  · simp only [opt, addrRange, hspm, hunc, hs, hu]
    constructor
    · simp [Rule.Apart, amDbg]
      try omega
    · simp [amDbg]
      try omega

theorem axi_apart {cfg : CheshireCfg} (h : Legal cfg) :
    ((axiRules cfg).map ARul.extent).Pairwise Rule.Apart := by
  obtain ⟨hfixed, hlow⟩ := axiFixed_apart h
  refine (axiRules_extent cfg).symm.pairwise ?_ fun hxy => Or.symm hxy
  refine List.pairwise_append.2 ⟨h.apart, hfixed, ?_⟩
  intro x hx y hy
  exact h.apart_low hx (hlow y hy)

theorem unitRules_extent (us : List RegUnit) :
    (unitRules us).map ARul.extent = us.map RegUnit.extent := by
  refine List.ext_getElem (by simp [unitRules]) fun k hk hk' => ?_
  simp [unitRules, RegUnit.ruleAt, ARul.extent, RegUnit.extent]

theorem mem_extRegions_reg {cfg : CheshireCfg} {k : ℕ} (hk : k < cfg.regExtNumRules.toNat) :
    addrRange (cfg.regExtRegionStart k) (cfg.regExtRegionEnd k) ∈ extRegions cfg :=
  List.mem_append_right _ (List.mem_map.2 ⟨k, List.mem_range.2 hk, rfl⟩)

theorem reg_apart {cfg : CheshireCfg} (h : Legal cfg) :
    ((regRules cfg).map ARul.extent).Pairwise Rule.Apart := by
  rw [regRules, List.map_append, unitRules_extent, List.map_map]
  refine List.pairwise_append.2 ⟨?_, (List.pairwise_append.1 h.apart).2.1, ?_⟩
  · rw [List.pairwise_map]
    refine (genRegInternal_laid cfg).nodup.imp_of_mem ?_
    intro u v hu hv hne
    rw [mem_regUnits] at hu hv
    exact hu.apart hv hne
  · intro x hx y hy
    obtain ⟨u, hu, rfl⟩ := List.mem_map.1 hx
    obtain ⟨k, hk, rfl⟩ := List.mem_map.1 hy
    rw [mem_regUnits] at hu
    have hlow := hu.within.2
    exact Or.symm (h.apart_low (mem_extRegions_reg (List.mem_range.1 hk)) (by omega))

/-! ## Ports and owners -/

section Ports

variable {cfg : CheshireCfg}

theorem axi_idx (h : Legal cfg) : ∀ r ∈ axiRules cfg, r.idx < (genAxiOut cfg).numOut := by
  obtain ⟨hpos, hi, -, -, hidx⟩ := genAxiInternal_bounds cfg
  have hnext : (genAxiInternal cfg).next.i = (genAxiInternal cfg).i + 1 := rfl
  have hslv : cfg.axiExtNumSlv.toNat < 16 := cfg.axiExtNumSlv.isLt
  have hnum : (genAxiOut cfg).numOut.toNat =
      (genAxiInternal cfg).i + 1 + cfg.axiExtNumSlv.toNat := aw_toNat (by omega)
  have hbase : (genAxiOut cfg).extBase.toNat = (genAxiInternal cfg).i + 1 := aw_toNat (by omega)
  intro r hr
  rw [BitVec.lt_def, hnum]
  rcases List.mem_append.1 hr with hr | hr
  · rcases List.mem_append.1 hr with hr | hr
    · have := hidx r hr
      omega
    · obtain ⟨k, hk, rfl⟩ := List.mem_map.1 hr
      have hk := h.axiIdx k (List.mem_range.1 hk)
      show (aw _).toNat < _
      rw [hbase, aw_toNat (by omega)]
      omega
  · obtain ⟨k, hk, rfl⟩ := List.mem_map.1 hr
    show 1 < (genAxiInternal cfg).i + 1 + cfg.axiExtNumSlv.toNat
    omega

theorem regOut_numOut (hports : regPortCount cfg ≤ 63) :
    (genRegOut cfg).numOut.toNat = regPortCount cfg := by
  show (aw (_ + 1 + _)).toNat = _
  rw [(genRegInternal_laid cfg).i]
  exact aw_toNat (by unfold regPortCount at hports; omega)

theorem regOut_extBase (hports : regPortCount cfg ≤ 63) :
    (genRegOut cfg).extBase.toNat = (regUnits cfg).length + 1 := by
  show (aw (_ + 1)).toNat = _
  rw [(genRegInternal_laid cfg).i]
  exact aw_toNat (by unfold regPortCount at hports; omega)

theorem reg_idx (h : Legal cfg) : ∀ r ∈ regRules cfg, r.idx < (genRegOut cfg).numOut := by
  have hports := h.ports
  have hnum := regOut_numOut h.ports
  intro r hr
  rw [BitVec.lt_def, hnum]
  unfold regPortCount at hports ⊢
  rcases List.mem_append.1 hr with hr | hr
  · obtain ⟨k, hk, rfl⟩ := List.getElem_of_mem hr
    have hk' : k < (regUnits cfg).length := by simpa [unitRules] using hk
    simp only [unitRules, List.getElem_mapIdx, RegUnit.ruleAt]
    rw [aw_toNat (by omega)]
    omega
  · obtain ⟨k, hk, rfl⟩ := List.mem_map.1 hr
    have hk := h.regIdx k (List.mem_range.1 hk)
    show (aw _).toNat < _
    rw [regOut_extBase h.ports, aw_toNat (by omega)]
    omega

theorem axiOut_ports : (genAxiOut cfg).ports = (genAxiInternal cfg).ret := by
  show ((Gen.putAll _ _ _).putAll _ _).ret = _
  rw [(Gen.putAll_fields _ _ _).1, (Gen.putAll_fields _ _ _).1]
  rfl

theorem axi_owns : ∀ p ∈ axiEnabledPorts cfg, ∃ r ∈ axiRules cfg, r.idx = p := by
  intro p hp
  have hmem : p ∈ (axiInternalRules cfg).map ARul.idx := by
    simp only [axiEnabledPorts, axiOut_ports, axiInternalRules, List.map_append, map_opt,
      List.map_cons, List.map_nil, List.mem_append, mem_opt, List.mem_cons] at hp ⊢
    tauto
  obtain ⟨r, hr, hrp⟩ := List.mem_map.1 hmem
  exact ⟨r, List.mem_append_left _ (List.mem_append_left _ hr), hrp⟩

theorem regOut_ports : (genRegOut cfg).ports = (genRegInternal cfg).ret :=
  (Gen.putAll_fields _ _ _).1

/-- A unit with a field owns a rule, and the rule covers the unit's region. -/
theorem reg_owns {u : RegUnit} (hu : u.Enabled cfg) (hf : u.HasField) :
    ∃ r ∈ regRules cfg, r.idx = (genRegOut cfg).ports u ∧ r.extent = u.extent := by
  obtain ⟨k, hk, rfl⟩ := List.getElem_of_mem ((mem_regUnits cfg u).2 hu)
  have hmem : (regUnits cfg)[k].ruleAt (k + 1) ∈ unitRules (regUnits cfg) := by
    refine List.mem_of_getElem (i := k) (h := by simpa [unitRules] using hk) ?_
    simp [unitRules]
  refine ⟨_, List.mem_append_left _ hmem, ?_, rfl⟩
  rw [regOut_ports, (genRegInternal_laid cfg).port k hk hf]
  rfl

/-- No rule leads to port 0, the error subordinate. -/
theorem reg_idx_ne_zero (h : Legal cfg) : ∀ r ∈ regRules cfg, r.idx ≠ 0 := by
  have hports := h.ports
  unfold regPortCount at hports
  intro r hr he
  have h0 := congrArg BitVec.toNat he
  rcases List.mem_append.1 hr with hr | hr
  · obtain ⟨k, hk, rfl⟩ := List.getElem_of_mem hr
    have hk' : k < (regUnits cfg).length := by simpa [unitRules] using hk
    simp only [unitRules, List.getElem_mapIdx, RegUnit.ruleAt] at h0
    rw [aw_toNat (by omega)] at h0
    simp at h0
  · obtain ⟨k, hk, rfl⟩ := List.mem_map.1 hr
    have hk := h.regIdx k (List.mem_range.1 hk)
    change (aw _).toNat = _ at h0
    rw [regOut_extBase h.ports, aw_toNat (by omega)] at h0
    simp at h0

end Ports

/-! ## Routing -/

section Routing

variable {cfg : CheshireCfg}

/-- The crossbar has the rule that sends `[0x0200_0000, 0x0C00_0000)` to the register demux. -/
theorem axi_demux_rule : (⟨1, 0x02000000, 0x0C000000⟩ : ARul) ∈ axiRules cfg := by
  obtain ⟨-, -, -, hdemux, -⟩ := genAxiInternal_bounds cfg
  have hmem : (⟨(genAxiInternal cfg).ret.regDemux, 0x02000000, 0x0C000000⟩ : ARul) ∈
      axiInternalRules cfg := by simp [axiInternalRules]
  rw [hdemux] at hmem
  exact List.mem_append_left _ (List.mem_append_left _ hmem)

theorem axiOut_regDemux : (genAxiOut cfg).ports.regDemux = 1 := by
  rw [axiOut_ports]
  exact (genAxiInternal_bounds cfg).2.2.2.1

/-- Every address of a register rule has a crossbar rule to the register demux. -/
theorem reg_routed {r : ARul} (hr : r ∈ regRules cfg) {a : ℕ} (ha : r.rule.Contains a) :
    Routes ((axiRules cfg).map ARul.rule) a 1 := by
  rcases List.mem_append.1 hr with hr | hr
  · have hext : r.extent ∈ (regUnits cfg).map RegUnit.extent := by
      rw [← unitRules_extent]
      exact List.mem_map_of_mem hr
    obtain ⟨u, hu, hur⟩ := List.mem_map.1 hext
    rw [mem_regUnits] at hu
    obtain ⟨hlo, hhi⟩ := hu.within
    rw [hur] at hlo hhi
    obtain ⟨hstart, hpte⟩ := ha
    refine ⟨_, List.mem_map_of_mem axi_demux_rule, ⟨?_, ?_⟩, rfl⟩
    · exact le_trans hlo hstart
    · exact lt_of_lt_of_le hpte hhi
  · obtain ⟨k, hk, rfl⟩ := List.mem_map.1 hr
    have hmem : axiExtRegRule cfg k ∈ axiRules cfg :=
      List.mem_append_right _ (List.mem_map_of_mem hk)
    exact ⟨_, List.mem_map_of_mem hmem, ha, rfl⟩

end Routing

/-! ## Main result -/

/-- Where the fields are large enough, the maps agree. -/
theorem mapsAgree_of_fits {cfg : CheshireCfg} (h : Legal cfg) (hfit : Fits cfg) :
    MapsAgree cfg := by
  obtain ⟨h64, hcores⟩ := hfit
  have hrules := h.rules
  have hreg := regOut_rules cfg (by omega)
  have hfield (u : RegUnit) (hu : u.Enabled cfg) : u.HasField := by
    have hn : cfg.numCores.toNat < 32 := cfg.numCores.isLt
    cases u with
    | clic j => exact hu.2.trans hn
    | busErr j =>
      obtain ⟨hon, hj⟩ := hu
      have hne : cfg.numCores.toNat ≠ 31 := fun he => hcores ⟨hon, BitVec.eq_of_toNat_eq he⟩
      show j < 32
      omega
    | _ => trivial
  refine ⟨?_, ?_, ?_, ?_, ?_, ?_, ?_⟩
  · exact axiOut_rules cfg ▸ noOverlap_of_apart (axi_apart h)
  · exact hreg ▸ noOverlap_of_apart (reg_apart h)
  · exact axiOut_rules cfg ▸ axi_idx h
  · exact hreg ▸ reg_idx h
  · exact axiOut_rules cfg ▸ axi_owns
  · intro u hu
    obtain ⟨r, hr, hidx, -⟩ := reg_owns hu (hfield u hu)
    exact ⟨r, hreg ▸ hr, hidx⟩
  · intro r hr a ha p
    rw [hreg] at hr
    rw [axiOut_rules, axiOut_regDemux]
    have hone := reg_routed hr ha
    have hapart : ((axiRules cfg).map ARul.rule).Pairwise Rule.Apart :=
      List.pairwise_map.2 ((List.pairwise_map.1 (axi_apart h)).imp fun hrs => hrs)
    exact ⟨fun hp => hp.unique hapart hone, fun hp => hp ▸ hone⟩

/-- With 64 register rules the demux has no rule at all. -/
theorem not_mapsAgree_of_full {cfg : CheshireCfg} (h : regRuleCount cfg = 64) :
    ¬MapsAgree cfg := by
  intro hagree
  obtain ⟨r, hr, -⟩ := hagree.regOwns .clint trivial
  rw [regOut_rules_full cfg h] at hr
  exact absurd hr (List.not_mem_nil)

/-- With 31 cores, the bus error unit of the last one owns no rule. -/
theorem not_mapsAgree_of_busErr {cfg : CheshireCfg} (h : Legal cfg) (hon : cfg.busErr = true)
    (hcores : cfg.numCores = 31) : ¬MapsAgree cfg := by
  intro hagree
  by_cases hfull : regRuleCount cfg = 64
  · exact not_mapsAgree_of_full hfull hagree
  · have hrules := h.rules
    have hu : RegUnit.Enabled cfg (.busErr 32) := ⟨hon, by rw [hcores]; decide⟩
    obtain ⟨r, hr, hidx⟩ := hagree.regOwns _ hu
    rw [regOut_rules cfg (by omega)] at hr
    have hzero : (genRegOut cfg).ports (.busErr 32) = 0 := by
      rw [regOut_ports]
      exact (genRegInternal_laid cfg).noField _ (by decide)
    exact reg_idx_ne_zero h r hr (hidx.trans hzero)

/-- **Main result.** For every legal configuration, the two decode levels agree exactly if the
fields are large enough for it. -/
theorem mapsAgree_iff {cfg : CheshireCfg} (h : Legal cfg) : MapsAgree cfg ↔ Fits cfg := by
  constructor
  · intro hagree
    refine ⟨fun hfull => not_mapsAgree_of_full hfull hagree, ?_⟩
    intro hboth
    obtain ⟨hon, hcores⟩ := hboth
    exact not_mapsAgree_of_busErr h hon hcores hagree
  · exact mapsAgree_of_fits h

theorem defaultCfg_legal : Legal defaultCfg where
  llcOut := by decide
  llcPos := by decide
  llcFits := by decide
  cores := by decide
  nonempty := by decide
  high := by decide
  apart := by decide
  axiIdx := by decide
  regIdx := by decide
  ports := by decide
  rules := by decide

theorem mapsAgree_iff_default : Legal defaultCfg ∧ MapsAgree defaultCfg :=
  ⟨defaultCfg_legal, (mapsAgree_iff defaultCfg_legal).2 ⟨by decide, by decide⟩⟩

/-- The default configuration with 31 cores. -/
def manyCoreCfg : CheshireCfg := { defaultCfg with numCores := 31 }

/-- 23 cores with CLICs and four external register regions on one port: 64 register rules. -/
def manyRuleCfg : CheshireCfg :=
  { defaultCfg with
    numCores := 23
    clic := true
    regExtNumSlv := 1
    regExtNumRules := 4
    regExtRegionStart := fun k => 0x20000000 + BitVec.ofNat 64 k * 0x1000
    regExtRegionEnd := fun k => 0x20001000 + BitVec.ofNat 64 k * 0x1000 }

theorem manyCoreCfg_legal : Legal manyCoreCfg where
  llcOut := by decide
  llcPos := by decide
  llcFits := by decide
  cores := by decide
  nonempty := by decide
  high := by decide
  apart := by decide
  axiIdx := by decide
  regIdx := by decide
  ports := by decide
  rules := by decide

theorem manyRuleCfg_legal : Legal manyRuleCfg where
  llcOut := by decide
  llcPos := by decide
  llcFits := by decide
  cores := by decide
  nonempty := by decide
  high := by decide
  apart := by decide
  axiIdx := by decide
  regIdx := by decide
  ports := by decide
  rules := by decide

/-- Both limits are reached by legal configurations. -/
theorem legal_maps_disagree : (Legal manyCoreCfg ∧ ¬MapsAgree manyCoreCfg) ∧
    (Legal manyRuleCfg ∧ ¬MapsAgree manyRuleCfg) :=
  ⟨⟨manyCoreCfg_legal, not_mapsAgree_of_busErr manyCoreCfg_legal rfl rfl⟩,
    ⟨manyRuleCfg_legal, not_mapsAgree_of_full (by decide)⟩⟩

end Cheshire
