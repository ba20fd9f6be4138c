import Cheshire.AddrMap
import Mathlib.Data.List.Nodup
import Mathlib.Tactic.IntervalCases
import Mathlib.Tactic.SplitIfs

/-!
# The layouts that the generators produce

**Layout.** Both generators hand out ports and rules one by one to what is enabled. For the
register demux this is a plain list of units (`regUnits`): the unit at position `k` owns rule `k`
and port `k + 1`, port 0 being the error subordinate. `Gen.Lists` says which rules a generator
has written so far, and `Laid` adds the ports of the units; each step of a generator extends the
list by one.

**Maps.** From the layout, the rules of either map are the explicit lists `axiRules` and
`regRules`, so that disjointness is a fact about intervals of fixed addresses below
`0x2000_0000` and of external regions above.

**Limits.** The layout counts in natural numbers; the structures store 6-bit fields and 32-entry
arrays. `mapsAgree_iff` says exactly which configurations they are large enough for.
-/

namespace Cheshire

open Lib

/-! ## What a generator has written -/

namespace Gen

variable {ρ : Type} {g : Gen ρ} {l : List ARul}

/-- The map holds the rules `l`, as far as it has room, and `r` is the index of the last one. -/
structure Lists (g : Gen ρ) (l : List ARul) : Prop where
  r : g.r + 1 = l.length
  map : ∀ k (h : k < l.length), k < 64 → g.map k = l[k]

theorem writeMap_apply (map : ℕ → ARul) (r : ℕ) (x : ARul) {k : ℕ} (hk : k < 64) :
    writeMap map r x k = if k = r then x else map k := by
  unfold writeMap
  by_cases hr : r < 64
  · rw [if_pos hr, Function.update_apply]
  · rw [if_neg hr, if_neg (by omega)]

theorem Lists.port (h : g.Lists l) (set : ρ → Aw → ρ) : (g.port set).Lists l := ⟨h.r, h.map⟩

theorem Lists.rule (h : g.Lists l) (start pte : Doub) :
    (g.rule start pte).Lists (l ++ [⟨aw g.i, start, pte⟩]) where
  r := by simp [Gen.rule, h.r]
  map k hk h64 := by
    show writeMap g.map (g.r + 1) _ k = _
    rw [writeMap_apply _ _ _ h64, h.r]
    by_cases hkl : k = l.length
    · subst hkl; simp
    · have hlt : k < l.length := by simp at hk; omega
      rw [if_neg hkl, h.map k hlt h64, List.getElem_append_left hlt]

theorem put_fields (g : Gen ρ) (x : ARul) :
    (g.put x).ret = g.ret ∧ (g.put x).i = g.i ∧ (g.put x).r = g.r + 1 := ⟨rfl, rfl, rfl⟩

theorem putAll_succ (g : Gen ρ) (n : ℕ) (x : ℕ → ARul) :
    g.putAll (n + 1) x = (g.putAll n x).put (x n) := by
  simp [putAll, List.range_succ]

theorem putAll_fields (g : Gen ρ) (n : ℕ) (x : ℕ → ARul) :
    (g.putAll n x).ret = g.ret ∧ (g.putAll n x).i = g.i ∧ (g.putAll n x).r = g.r + n := by
  induction n with
  | zero => exact ⟨rfl, rfl, rfl⟩
  | succ n ih =>
    rw [putAll_succ]
    obtain ⟨hret, hi, hr⟩ := ih
    exact ⟨hret, hi, by rw [(put_fields _ _).2.2, hr]; omega⟩

/-- The map after the appending loop holds `l` and the appended rules. -/
theorem putAll_map {n : ℕ} {x : ℕ → ARul} (hr : g.r = l.length)
    (hmap : ∀ k (h : k < l.length), k < 64 → g.map k = l[k]) :
    ∀ k (h : k < (l ++ (List.range n).map x).length), k < 64 →
      (g.putAll n x).map k = (l ++ (List.range n).map x)[k] := by
  induction n with
  | zero => simpa [putAll] using hmap
  | succ n ih =>
    intro k hk h64
    have heq : l ++ (List.range (n + 1)).map x = (l ++ (List.range n).map x) ++ [x n] := by
      simp [List.range_succ]
    have hlen : (l ++ (List.range n).map x).length = l.length + n := by simp
    have hk' : k < l.length + n + 1 := by
      rw [heq, List.length_append, hlen] at hk
      exact hk
    rw [putAll_succ]
    show writeMap _ _ _ k = _
    rw [writeMap_apply _ _ _ h64, (putAll_fields g n x).2.2, hr]
    simp only [heq]
    by_cases hkl : k = l.length + n
    · subst hkl
      rw [if_pos rfl, List.getElem_append_right (by omega)]
      simp
    · have hlt : k < (l ++ (List.range n).map x).length := by omega
      rw [if_neg hkl, ih k hlt h64, List.getElem_append_left hlt]

end Gen

/-- The list with `x` if the feature is on. -/
def opt {α : Type} (on : Bool) (x : List α) : List α := if on then x else []

@[simp] theorem mem_opt {α : Type} {on : Bool} {x : List α} {y : α} :
    y ∈ opt on x ↔ on = true ∧ y ∈ x := by
  cases on <;> simp [opt]

theorem opt_true {α : Type} (x : List α) : opt true x = x := rfl

/-! ## The layout of the register demux -/

/-- Where the memory map puts a unit: its first address and the address after its last. -/
def RegUnit.region : RegUnit → Doub × Doub
  | .err => (0, 0)
  | .clint => (0x02040000, 0x02080000)
  | .plic => (0x04000000, 0x08000000)
  | .regs => (amRegs, amRegs + 0x1000)
  | .bootrom => (amBrom, amBrom + 0x40000)
  | .llc => (amLlc, amLlc + 0x1000)
  | .uart => (0x03002000, 0x03003000)
  | .i2c => (0x03003000, 0x03004000)
  | .spiHost => (0x03004000, 0x03005000)
  | .gpio => (0x03005000, 0x03006000)
  | .slink => (amSlink, amSlink + 0x1000)
  | .vga => (0x03007000, 0x03008000)
  | .usb => (0x03008000, 0x03009000)
  | .irqRouter => (0x02080000, 0x020C0000)
  | .axirt => (0x020C0000, 0x02100000)
  | .clic j => (amClic + BitVec.ofNat 64 j * 0x40000, amClic + BitVec.ofNat 64 (j + 1) * 0x40000)
  | .busErr j =>
      (amBusErr + BitVec.ofNat 64 j * 0x40, amBusErr + BitVec.ofNat 64 (j + 1) * 0x40)

/-- Whether a configuration instantiates a unit behind the demux. The error subordinate is the
demux's default and has no rule. -/
def RegUnit.Enabled (cfg : CheshireCfg) : RegUnit → Prop
  | .err => False
  | .clint | .plic | .regs => True
  | .bootrom => cfg.bootrom
  | .llc => cfg.llcNotBypass
  | .uart => cfg.uart
  | .i2c => cfg.i2c
  | .spiHost => cfg.spiHost
  | .gpio => cfg.gpio
  | .slink => cfg.serialLink
  | .vga => cfg.vga
  | .usb => cfg.usb
  | .irqRouter => cfg.irqRouter
  | .axirt => cfg.axiRt
  | .clic j => cfg.clic ∧ j < cfg.numCores.toNat
  | .busErr j => cfg.busErr ∧ j < 2 + cfg.numCores.toNat

/-- The enabled units in the order of their ports. -/
def regUnits (cfg : CheshireCfg) : List RegUnit :=
  [RegUnit.clint, RegUnit.plic, RegUnit.regs] ++ opt cfg.bootrom [RegUnit.bootrom] ++
    opt cfg.llcNotBypass [RegUnit.llc] ++ opt cfg.uart [RegUnit.uart] ++
    opt cfg.i2c [RegUnit.i2c] ++ opt cfg.spiHost [RegUnit.spiHost] ++
    opt cfg.gpio [RegUnit.gpio] ++ opt cfg.serialLink [RegUnit.slink] ++
    opt cfg.vga [RegUnit.vga] ++ opt cfg.usb [RegUnit.usb] ++
    opt cfg.irqRouter [RegUnit.irqRouter] ++ opt cfg.axiRt [RegUnit.axirt] ++
    opt cfg.clic ((List.range cfg.numCores.toNat).map RegUnit.clic) ++
    opt cfg.busErr ((List.range (2 + cfg.numCores.toNat)).map RegUnit.busErr)

theorem mem_regUnits (cfg : CheshireCfg) (u : RegUnit) :
    u ∈ regUnits cfg ↔ u.Enabled cfg := by
  cases u <;> simp [regUnits, RegUnit.Enabled]

/-- The rule of unit `u` on port `i`. -/
def RegUnit.ruleAt (i : ℕ) (u : RegUnit) : ARul := ⟨aw i, u.region.1, u.region.2⟩

/-- The rules of the units: the unit at position `k` is on port `k + 1`. -/
def unitRules (us : List RegUnit) : List ARul := us.mapIdx fun k u => u.ruleAt (k + 1)

/-- A generator has laid out the units `us`. -/
structure Laid (us : List RegUnit) (g : Gen RegPorts) : Prop where
  nodup : us.Nodup
  lists : g.Lists (unitRules us)
  i : g.i = us.length
  port : ∀ k (h : k < us.length), us[k].HasField → g.ret us[k] = aw (k + 1)
  noField : ∀ u : RegUnit, ¬u.HasField → g.ret u = 0

namespace Laid

variable {us : List RegUnit} {g : Gen RegPorts}

theorem add (h : Laid us g) {u : RegUnit} (hu : u ∉ us) :
    Laid (us ++ [u]) ((g.port fun p i => p.set u i).rule u.region.1 u.region.2) where
  nodup := List.nodup_append.2 ⟨h.nodup, List.nodup_singleton u, by
    intro a ha b hb
    rw [List.mem_singleton] at hb
    exact fun hab => hu (hb ▸ hab ▸ ha)⟩
  lists := by
    have hl := (h.lists.port fun p i => p.set u i).rule u.region.1 u.region.2
    have hi : (g.port fun p i => p.set u i).i = us.length + 1 := congrArg (· + 1) h.i
    rw [hi] at hl
    have hrules : unitRules (us ++ [u]) =
        unitRules us ++ [⟨aw (us.length + 1), u.region.1, u.region.2⟩] := by
      simp [unitRules, List.mapIdx_append, RegUnit.ruleAt]
    rw [hrules]
    exact hl
  i := by simp [Gen.rule, Gen.port, h.i]
  port k hk hf := by
    show (g.ret.set u (aw (g.i + 1))) _ = _
    rw [h.i]
    by_cases hkl : k = us.length
    · subst hkl
      simp only [List.getElem_concat_length] at hf ⊢
      rw [RegPorts.set, if_pos hf, Function.update_self]
    · have hlt : k < us.length := by simp at hk; omega
      rw [List.getElem_append_left hlt] at hf ⊢
      have hne : us[k] ≠ u := fun he => hu (he ▸ List.getElem_mem hlt)
      rw [← h.port k hlt hf, RegPorts.set]
      split
      · rw [Function.update_of_ne hne]
      · rfl
  noField v hv := by
    show (g.ret.set u (aw (g.i + 1))) v = _
    rw [← h.noField v hv, RegPorts.set]
    split
    case isTrue hu' =>
      have hne : v ≠ u := by
        intro he
        rw [he] at hv
        exact hv hu'
      rw [Function.update_of_ne hne]
    case isFalse => rfl

/-- A feature adds its unit if it is on. -/
theorem unit (h : Laid us g) {x : RegFeature} (hu : x.unit ∉ us)
    (hr : x.unit.region = (x.start, x.pte)) : Laid (us ++ opt x.on [x.unit]) (g.unit x) := by
  unfold Gen.unit
  cases x.on with
  | false => simpa [opt] using h
  | true =>
    have hadd := h.add hu
    rw [hr] at hadd
    exact hadd

/-- A list of features adds the units of those that are on. -/
theorem features {xs : List RegFeature} (h : Laid us g)
    (hnew : (us ++ xs.map RegFeature.unit).Nodup)
    (hr : ∀ x ∈ xs, x.unit.region = (x.start, x.pte)) :
    Laid (us ++ xs.flatMap (fun x => opt x.on [x.unit])) (xs.foldl Gen.unit g) := by
  induction xs generalizing us g with
  | nil => simpa using h
  | cons x xs ih =>
    have hu : x.unit ∉ us := fun hmem =>
      List.disjoint_of_nodup_append hnew hmem (List.mem_cons_self ..)
    have hsub : (us ++ opt x.on [x.unit] ++ xs.map RegFeature.unit).Nodup := by
      refine hnew.sublist ?_
      rw [List.append_assoc]
      refine (List.Sublist.refl us).append ?_
      cases x.on with
      | false => exact List.sublist_cons_self _ _
      | true => exact List.Sublist.refl _
    have hrest := ih (h.unit hu (hr x (List.mem_cons_self ..))) hsub
      fun y hy => hr y (List.mem_cons_of_mem x hy)
    rwa [List.append_assoc] at hrest

end Laid

theorem Laid.start : Laid [.clint, .plic, .regs] ⟨fun
    | .clint => 1 | .plic => 2 | .regs => 3 | _ => 0, 3, 2,
    writeMap (writeMap (writeMap (fun _ => default) 0 ⟨1, 0x02040000, 0x02080000⟩) 1
      ⟨2, 0x04000000, 0x08000000⟩) 2 ⟨3, amRegs, amRegs + 0x1000⟩⟩ where
  nodup := by decide
  lists := by
    refine ⟨rfl, fun k hk _ => ?_⟩
    have hk' : k < 3 := hk
    interval_cases k <;> rfl
  i := rfl
  port k hk _ := by
    have hk' : k < 3 := hk
    interval_cases k <;> rfl
  noField u hu := by
    cases u <;> first | rfl | exact absurd trivial hu

theorem regFeatures_region (cfg : CheshireCfg) :
    ∀ x ∈ regFeatures cfg, x.unit.region = (x.start, x.pte) := by
  simp [regFeatures, or_imp, forall_and, RegUnit.region]

theorem regFeatures_nodup (cfg : CheshireCfg) :
    ([RegUnit.clint, .plic, .regs] ++ (regFeatures cfg).map RegFeature.unit).Nodup := by
  have hclic : ((List.range cfg.numCores.toNat).map RegUnit.clic).Nodup :=
    List.nodup_range.map fun _ _ h => RegUnit.clic.inj h
  have hbusErr : ((List.range (2 + cfg.numCores.toNat)).map RegUnit.busErr).Nodup :=
    List.nodup_range.map fun _ _ h => RegUnit.busErr.inj h
  simp [regFeatures, List.nodup_append, Function.comp_def, hclic, hbusErr]

theorem regFeatures_units (cfg : CheshireCfg) : regUnits cfg = [.clint, .plic, .regs] ++
    (regFeatures cfg).flatMap fun x => opt x.on [x.unit] := by
  have hloop (on : Bool) (u : ℕ → RegUnit) (n : ℕ) :
      (List.range n).flatMap (fun j => opt on [u j]) = opt on ((List.range n).map u) := by
    cases on with
    | false => simp [opt]
    | true => exact (List.map_eq_flatMap ..).symm
  simp [regUnits, regFeatures, List.flatMap_map, hloop]

/-- The demux generator lays out the enabled units in order. -/
theorem genRegInternal_laid (cfg : CheshireCfg) : Laid (regUnits cfg) (genRegInternal cfg) := by
  rw [regFeatures_units]
  exact Laid.start.features (regFeatures_nodup cfg) (regFeatures_region cfg)

/-- Port 0 stays that of the error subordinate. -/
theorem genRegInternal_err (cfg : CheshireCfg) : (genRegInternal cfg).ret .err = 0 := by
  have hne : ∀ x ∈ regFeatures cfg, .err ≠ x.unit := by
    simp [regFeatures, or_imp, forall_and]
  refine List.foldlRecOn (motive := fun g : Gen RegPorts => g.ret .err = 0) _ _ rfl ?_
  intro g hg x hx
  unfold Gen.unit
  split_ifs
  · show g.ret.set x.unit (aw (g.i + 1)) .err = 0
    unfold RegPorts.set
    split_ifs
    · rw [Function.update_of_ne (hne x hx), hg]
    · exact hg
  · exact hg

/-! ## The layout of the crossbar -/

/-- The crossbar's own rules, in order. -/
def axiInternalRules (cfg : CheshireCfg) : List ARul :=
  let p := (genAxiInternal cfg).ret
  let sizeSpm : Doub := (getLlcSize cfg).setWidth 64
  [⟨p.dbg, amDbg, amDbg + 0x40000⟩, ⟨p.regDemux, 0x02000000, 0x0C000000⟩] ++
    opt cfg.llcOutConnect [⟨p.llc, cfg.llcOutRegionStart, cfg.llcOutRegionEnd⟩] ++
    opt cfg.llcNotBypass [⟨p.spm, amSpm, amSpm + sizeSpm⟩,
      ⟨p.spm, amSpmUnc, amSpmUnc + sizeSpm⟩] ++
    opt cfg.dma [⟨p.dma, 0x01000000, 0x01001000⟩] ++
    opt cfg.serialLink [⟨p.slink, cfg.slinkRegionStart, cfg.slinkRegionEnd⟩]

theorem genAxiInternal_lists (cfg : CheshireCfg) :
    (genAxiInternal cfg).Lists (axiInternalRules cfg) := by
  unfold axiInternalRules genAxiInternal
  generalize cfg.llcOutConnect = llcOut
  generalize cfg.llcNotBypass = llc
  generalize cfg.dma = dma
  generalize cfg.serialLink = slink
  cases llcOut <;> cases llc <;> cases dma <;> cases slink <;>
  · refine ⟨rfl, fun k hk _ => ?_⟩
    simp only [opt, List.length_append, List.length_cons, List.length_nil, Bool.false_eq_true,
      if_true, if_false] at hk
    interval_cases k <;> rfl

/-- Every port of the crossbar is below its index `i`, and there are at most seven rules. -/
theorem genAxiInternal_bounds (cfg : CheshireCfg) :
    1 ≤ (genAxiInternal cfg).i ∧ (genAxiInternal cfg).i ≤ 4 ∧ (axiInternalRules cfg).length ≤ 7 ∧
      (genAxiInternal cfg).ret.regDemux = 1 ∧
      ∀ r ∈ axiInternalRules cfg, r.idx.toNat ≤ (genAxiInternal cfg).i := by
  unfold axiInternalRules genAxiInternal
  generalize cfg.llcOutConnect = llcOut
  generalize cfg.llcNotBypass = llc
  generalize cfg.dma = dma
  generalize cfg.serialLink = slink
  cases llcOut <;> cases llc <;> cases dma <;> cases slink <;>
  · refine ⟨by simp [Gen.port, Gen.rule], by simp [Gen.port, Gen.rule], by simp [opt], rfl, ?_⟩
    simp [opt, Gen.port, Gen.rule, aw]

/-! ## The finished maps -/

/-- The rules of the crossbar: its own, the external AXI ones, and those of the external
registers. -/
def axiRules (cfg : CheshireCfg) : List ARul :=
  axiInternalRules cfg ++
    (List.range cfg.axiExtNumRules.toNat).map (axiExtRule cfg (genAxiOut cfg).extBase) ++
    (List.range cfg.regExtNumRules.toNat).map (axiExtRegRule cfg)

/-- The rules of the register demux: those of its units and the external ones. -/
def regRules (cfg : CheshireCfg) : List ARul :=
  unitRules (regUnits cfg) ++
    (List.range cfg.regExtNumRules.toNat).map (regExtRule cfg (genRegOut cfg).extBase)

/-- How many ports `gen_reg_out` hands out, the error subordinate's included. -/
def regPortCount (cfg : CheshireCfg) : ℕ :=
  (regUnits cfg).length + 1 + cfg.regExtNumSlv.toNat

/-- How many rules `gen_reg_out` writes. -/
def regRuleCount (cfg : CheshireCfg) : ℕ := (regUnits cfg).length + cfg.regExtNumRules.toNat

theorem aw_toNat {n : ℕ} (h : n < 64) : (aw n).toNat = n := by
  simp [aw, Nat.mod_eq_of_lt h]

/-- The running indices of a generator that lists `l`, one step later, are the next free ones. -/
theorem Gen.Lists.next_r {ρ : Type} {g : Gen ρ} {l : List ARul} (h : g.Lists l) :
    g.next.r = l.length := h.r

theorem axiOut_rules (cfg : CheshireCfg) : (genAxiOut cfg).rules = axiRules cfg := by
  have hl := genAxiInternal_lists cfg
  obtain ⟨-, -, hlen, -⟩ := genAxiInternal_bounds cfg
  have hn : cfg.axiExtNumRules.toNat < 16 := cfg.axiExtNumRules.isLt
  have hm : cfg.regExtNumRules.toNat < 16 := cfg.regExtNumRules.isLt
  have hcount : (genAxiOut cfg).numRules.toNat = (axiRules cfg).length := by
    show (aw _).toNat = _
    rw [hl.next_r, aw_toNat (by omega)]
    simp [axiRules, Nat.add_assoc]
  have hmap := @Gen.putAll_map _ _ _ cfg.axiExtNumRules.toNat
    (axiExtRule cfg (genAxiOut cfg).extBase) hl.next_r hl.map
  have hr : (genAxiInternal cfg).next.r + cfg.axiExtNumRules.toNat =
      (axiInternalRules cfg ++ (List.range cfg.axiExtNumRules.toNat).map
        (axiExtRule cfg (genAxiOut cfg).extBase)).length := by
    simp [hl.next_r]
  have hmap' := @Gen.putAll_map _ _ _ cfg.regExtNumRules.toNat (axiExtRegRule cfg)
    ((Gen.putAll_fields _ _ _).2.2.trans hr) hmap
  refine List.ext_getElem (by simp [AxiOut.rules, hcount]) fun k hk hk' => ?_
  have h64 : k < 64 := by simp [axiRules] at hk'; omega
  simp only [AxiOut.rules, List.getElem_map, List.getElem_range]
  exact hmap' k hk' h64

/-- The map of the register demux, as long as its rules are at most 64. -/
theorem regOut_map (cfg : CheshireCfg) (k : ℕ) (h64 : k < 64) (hk : k < (regRules cfg).length) :
    (genRegOut cfg).map k = (regRules cfg)[k] :=
  have hl := (genRegInternal_laid cfg).lists
  @Gen.putAll_map _ (genRegInternal cfg).next (unitRules (regUnits cfg)) cfg.regExtNumRules.toNat
    (regExtRule cfg (genRegOut cfg).extBase) hl.next_r hl.map k hk h64

theorem regRules_length (cfg : CheshireCfg) : (regRules cfg).length = regRuleCount cfg := by
  simp [regRules, unitRules, regRuleCount]

theorem regOut_numRules (cfg : CheshireCfg) : (genRegOut cfg).numRules = aw (regRuleCount cfg) := by
  show aw _ = _
  rw [(genRegInternal_laid cfg).lists.next_r]
  simp [unitRules, regRuleCount]

theorem regOut_rules (cfg : CheshireCfg) (h : regRuleCount cfg < 64) :
    (genRegOut cfg).rules = regRules cfg := by
  have hlen := regRules_length cfg
  refine List.ext_getElem ?_ fun k hk hk' => ?_
  · simp [RegOut.rules, regOut_numRules, aw_toNat h, hlen]
  · simp only [RegOut.rules, List.getElem_map, List.getElem_range]
    exact regOut_map cfg k (by omega) hk'

/-- With 64 rules, their number is stored as 0 and none of them reaches the demux. -/
theorem regOut_rules_full (cfg : CheshireCfg) (h : regRuleCount cfg = 64) :
    (genRegOut cfg).rules = [] := by
  simp [RegOut.rules, regOut_numRules, h, aw]

end Cheshire
