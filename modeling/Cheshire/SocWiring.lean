import Cheshire.Soc
import Cheshire.AddrMapAgree
import Mathlib.Logic.ExistsUnique

/-!
# Every port has one driver

**What is asked.** Every input of the crossbar is driven by exactly one manager, and every output
of the crossbar and of the register demux by exactly one subordinate (`Wired`), so that whatever an
address decodes to answers.

**Theorem (`wired_iff`).** For the crossbar this holds as soon as an LLC has its output connected.
For the register demux it holds if and only if bus error units come with a DMA engine, a VGA
controller and at most 30 cores: `gen_reg_out` hands out a port for each bus error unit, but the
ones of DMA and VGA are instantiated with these, and the port of core 30's unit has no entry in
`bus_err`, so this unit is wired to the port of the error subordinate.

**Layout.** The drivers are listed in the order of their ports (`unique_driver`).
-/

namespace Cheshire

open Lib

/-! ## Drivers in the order of their ports -/

/-- If the ports of the drivers that exist are 0, 1, 2, ..., each of them has one driver. -/
theorem unique_driver {δ : Type} {port : δ → ℕ} {exist : δ → Prop} {l : List δ}
    (hmem : ∀ d, exist d ↔ d ∈ l) (hport : l.map port = List.range l.length) {p : ℕ}
    (hp : p < l.length) : ∃! d, exist d ∧ port d = p := by
  have hat (k : ℕ) (hk : k < l.length) : port l[k] = k := by
    have h := List.getElem_of_eq hport (i := k) (by simpa using hk)
    simpa using h
  refine ⟨l[p], ⟨(hmem _).2 (List.getElem_mem hp), hat p hp⟩, ?_⟩
  intro d hd
  obtain ⟨hd, rfl⟩ := hd
  obtain ⟨k, hk, rfl⟩ := List.getElem_of_mem ((hmem d).1 hd)
  simp only [hat k hk]

theorem foldl_update {n k : ℕ} (hk : k < n) :
    (List.range n).foldl (fun c j => Function.update c j (aw j)) (fun _ => (0 : Aw)) k = aw k := by
  induction n with
  | zero => exact absurd hk (Nat.not_lt_zero k)
  | succ n ih =>
    rw [List.range_succ, List.foldl_concat, Function.update_apply]
    by_cases hkn : k = n
    · rw [if_pos hkn, hkn]
    · rw [if_neg hkn]
      exact ih (by omega)

/-- Ports up to `i`, and the one that an optional feature gets. -/
theorem range_opt {δ : Type} (port : δ → ℕ) (on : Bool) (d : δ) {l : List δ} {i : ℕ}
    (hl : l.map port = List.range (i + 1)) (hd : on = true → port d = i + 1) :
    (l ++ opt on [d]).map port = List.range ((nextIn on i).1 + 1) := by
  cases on with
  | false => simpa [opt, nextIn] using hl
  | true => simp [opt, nextIn, hl, hd, List.range_succ]

/-- External ports follow the internal ones. -/
theorem range_ext {δ : Type} (port : δ → ℕ) (d : ℕ → δ) {l : List δ} {i n : ℕ}
    (hl : l.map port = List.range i) (hd : ∀ k < n, port (d k) = i + k) :
    (l ++ (List.range n).map d).map port = List.range (i + n) := by
  rw [List.map_append, hl, List.map_map, List.range_add]
  congr 1
  exact List.map_congr_left fun k hk => hd k (List.mem_range.1 hk)

/-! ## The inputs of the crossbar -/

section Managers

variable (cfg : SocCfg)

/-- The managers in the order of their ports. -/
def managers : List Manager :=
  (List.range cfg.numCores.toNat).map .core ++ [.dbg] ++ opt cfg.dma [.dma] ++
    opt cfg.serialLink [.slink] ++ opt cfg.vga [.vga] ++ opt cfg.usb [.usb] ++
    (List.range cfg.axiExtNumMst.toNat).map .ext

/-- The index of the last internal manager. -/
def lastManager : ℕ :=
  (nextIn cfg.usb (nextIn cfg.vga (nextIn cfg.serialLink
    (nextIn cfg.dma cfg.numCores.toNat).1).1).1).1

theorem nextIn_le (on : Bool) (i : ℕ) : i ≤ (nextIn on i).1 ∧ (nextIn on i).1 ≤ i + 1 := by
  cases on <;> simp [nextIn]

theorem nextIn_field {on : Bool} {i : ℕ} (hon : on = true) (hi : i < 60) :
    (nextIn on i).2.toNat = i + 1 := by
  subst hon
  exact aw_toNat (by omega)

theorem genAxiIn_counts : (genAxiIn cfg).extBase.toNat = lastManager cfg + 1 ∧
    (genAxiIn cfg).numIn.toNat = lastManager cfg + 1 + cfg.axiExtNumMst.toNat := by
  have hn := cfg.numCores.isLt
  have hm := cfg.axiExtNumMst.isLt
  have h₁ := nextIn_le cfg.dma cfg.numCores.toNat
  have h₂ := nextIn_le cfg.serialLink (nextIn cfg.dma cfg.numCores.toNat).1
  have h₃ := nextIn_le cfg.vga (nextIn cfg.serialLink (nextIn cfg.dma cfg.numCores.toNat).1).1
  have h₄ := nextIn_le cfg.usb (nextIn cfg.vga (nextIn cfg.serialLink
    (nextIn cfg.dma cfg.numCores.toNat).1).1).1
  have hlast : lastManager cfg < 36 := by unfold lastManager; omega
  exact ⟨aw_toNat (by change lastManager cfg + 1 < 64; omega),
    aw_toNat (by change lastManager cfg + 1 + _ < 64; omega)⟩

theorem mem_managers (m : Manager) : m.Generated cfg ↔ m ∈ managers cfg := by
  obtain ⟨hbase, hnum⟩ := genAxiIn_counts cfg
  cases m with
  | ext k =>
    have hpos : 0 < cfg.axiExtNumMst ↔ 0 < cfg.axiExtNumMst.toNat := Iff.rfl
    simp only [Manager.Generated, hbase, hnum, hpos]
    simp [managers]
    omega
  | _ => simp [managers, Manager.Generated]

theorem managers_ports : (managers cfg).map (Manager.port cfg) =
    List.range (lastManager cfg + 1 + cfg.axiExtNumMst.toNat) := by
  have hn := cfg.numCores.isLt
  set n := cfg.numCores.toNat with hndef
  set i₁ := (nextIn cfg.dma n).1 with hi₁
  set i₂ := (nextIn cfg.serialLink i₁).1 with hi₂
  set i₃ := (nextIn cfg.vga i₂).1 with hi₃
  have h₁ := nextIn_le cfg.dma n
  have h₂ := nextIn_le cfg.serialLink i₁
  have h₃ := nextIn_le cfg.vga i₂
  have hcore (k : ℕ) (hk : k < n) : Manager.port cfg (.core k) = k := by
    show ((genAxiIn cfg).cores k).toNat = k
    rw [show (genAxiIn cfg).cores k = aw k from foldl_update hk, aw_toNat (by omega)]
  have hdbg : Manager.port cfg .dbg = n := aw_toNat (n := n) (by omega)
  have hcores : ((List.range n).map Manager.core ++ [Manager.dbg]).map (Manager.port cfg) =
      List.range (n + 1) := by
    rw [List.map_append, List.map_map, List.range_succ, List.map_singleton, hdbg]
    congr 1
    exact (List.map_congr_left fun k hk => hcore k (List.mem_range.1 hk)).trans (List.map_id _)
  have hdma := range_opt (Manager.port cfg) cfg.dma .dma hcores fun hon =>
    nextIn_field hon (by omega)
  have hslink := range_opt (Manager.port cfg) cfg.serialLink .slink hdma fun hon =>
    nextIn_field (i := i₁) hon (by omega)
  have hvga := range_opt (Manager.port cfg) cfg.vga .vga hslink fun hon =>
    nextIn_field (i := i₂) hon (by omega)
  have husb := range_opt (Manager.port cfg) cfg.usb .usb hvga fun hon =>
    nextIn_field (i := i₃) hon (by omega)
  refine range_ext (Manager.port cfg) .ext husb fun k _ => ?_
  show (genAxiIn cfg).extBase.toNat + k = _
  rw [(genAxiIn_counts cfg).1]

theorem managers_length :
    (managers cfg).length = lastManager cfg + 1 + cfg.axiExtNumMst.toNat := by
  have h := congrArg List.length (managers_ports cfg)
  rwa [List.length_map, List.length_range] at h

/-- Every input of the crossbar has its manager. -/
theorem manager_unique {p : ℕ} (hp : p < (genAxiIn cfg).numIn.toNat) :
    ∃! m : Manager, m.Drives cfg p := by
  refine unique_driver (mem_managers cfg) (l := managers cfg) ?_ ?_
  · rw [managers_length, managers_ports]
  · rw [managers_length, ← (genAxiIn_counts cfg).2]
    exact hp

end Managers

/-! ## The outputs of the crossbar -/

section Subordinates

variable (cfg : SocCfg)

/-- The internal subordinates of the crossbar in the order of their ports. -/
def internalSubordinates : List Subordinate :=
  [.dbg, .regDemux] ++ opt cfg.llcOutConnect [.llc] ++ opt cfg.dma [.dma] ++
    opt cfg.serialLink [.slink]

def subordinates : List Subordinate :=
  internalSubordinates cfg ++ (List.range cfg.axiExtNumSlv.toNat).map .ext

theorem genAxiOut_counts :
    (genAxiOut cfg.toCheshireCfg).extBase.toNat = (genAxiInternal cfg.toCheshireCfg).i + 1 ∧
      (genAxiOut cfg.toCheshireCfg).numOut.toNat =
        (genAxiInternal cfg.toCheshireCfg).i + 1 + cfg.axiExtNumSlv.toNat := by
  obtain ⟨-, hi, -⟩ := genAxiInternal_bounds cfg.toCheshireCfg
  have hm := cfg.axiExtNumSlv.isLt
  exact ⟨aw_toNat (n := (genAxiInternal cfg.toCheshireCfg).i + 1) (by omega),
    aw_toNat (n := (genAxiInternal cfg.toCheshireCfg).i + 1 + _) (by omega)⟩

theorem mem_subordinates (s : Subordinate) : s.Generated cfg ↔ s ∈ subordinates cfg := by
  obtain ⟨hbase, hnum⟩ := genAxiOut_counts cfg
  cases s with
  | ext k =>
    have hpos : 0 < cfg.axiExtNumSlv ↔ 0 < cfg.axiExtNumSlv.toNat := Iff.rfl
    simp only [Subordinate.Generated, hbase, hnum, hpos]
    simp [subordinates, internalSubordinates]
    omega
  | _ => simp [subordinates, internalSubordinates, Subordinate.Generated]

/-- The ports that `gen_axi_out` hands out itself. -/
theorem genAxiInternal_ports (cfg : CheshireCfg) :
    (([(genAxiInternal cfg).ret.dbg, (genAxiInternal cfg).ret.regDemux] ++
      opt cfg.llcOutConnect [(genAxiInternal cfg).ret.llc] ++
      opt cfg.dma [(genAxiInternal cfg).ret.dma] ++
      opt cfg.serialLink [(genAxiInternal cfg).ret.slink]).map BitVec.toNat) =
        List.range ((genAxiInternal cfg).i + 1) := by
  unfold genAxiInternal
  generalize cfg.llcOutConnect = llcOut
  generalize cfg.llcNotBypass = llc
  generalize cfg.dma = dma
  generalize cfg.serialLink = slink
  cases llcOut <;> cases llc <;> cases dma <;> cases slink <;> rfl

theorem subordinates_ports : (subordinates cfg).map (Subordinate.port cfg) =
    List.range ((genAxiInternal cfg.toCheshireCfg).i + 1 + cfg.axiExtNumSlv.toNat) := by
  refine range_ext (Subordinate.port cfg) .ext ?_ fun k _ => ?_
  · rw [← genAxiInternal_ports]
    simp only [internalSubordinates, List.map_append, map_opt, List.map_cons, List.map_nil,
      Subordinate.port, axiOut_ports]
  · show (genAxiOut cfg.toCheshireCfg).extBase.toNat + k = _
    rw [(genAxiOut_counts cfg).1]

theorem subordinates_length : (subordinates cfg).length =
    (genAxiInternal cfg.toCheshireCfg).i + 1 + cfg.axiExtNumSlv.toNat := by
  have h := congrArg List.length (subordinates_ports cfg)
  rwa [List.length_map, List.length_range] at h

/-- Every output of the crossbar has its subordinate. -/
theorem subordinate_unique {p : ℕ} (hp : p < (genAxiOut cfg.toCheshireCfg).numOut.toNat) :
    ∃! s : Subordinate, s.Drives cfg p := by
  refine unique_driver (mem_subordinates cfg) (l := subordinates cfg) ?_ ?_
  · rw [subordinates_length, subordinates_ports]
  · rw [subordinates_length, ← (genAxiOut_counts cfg).2]
    exact hp

end Subordinates

/-! ## The outputs of the register demux -/

section RegSubordinates

variable {cfg : SocCfg}

/-- The unit has a block that drives the response of the port it was given. -/
def RegUnit.Answers (cfg : SocCfg) (u : RegUnit) : Prop := u.Generated cfg ∧ u.HasField

theorem err_port : (RegSubordinate.unit .err).port cfg = 0 := by
  show ((genRegOut cfg.toCheshireCfg).ports .err).toNat = 0
  rw [regOut_ports, genRegInternal_err]
  rfl

theorem unit_port (hports : regPortCount cfg.toCheshireCfg ≤ 63) {k : ℕ}
    (hk : k < (regUnits cfg.toCheshireCfg).length)
    (hf : (regUnits cfg.toCheshireCfg)[k].HasField) :
    (RegSubordinate.unit (regUnits cfg.toCheshireCfg)[k]).port cfg = k + 1 := by
  show ((genRegOut cfg.toCheshireCfg).ports _).toNat = _
  rw [regOut_ports, (genRegInternal_laid cfg.toCheshireCfg).port k hk hf]
  exact aw_toNat (by unfold regPortCount at hports; omega)

theorem noField_port {u : RegUnit} (hf : ¬u.HasField) :
    (RegSubordinate.unit u).port cfg = 0 := by
  show ((genRegOut cfg.toCheshireCfg).ports u).toNat = 0
  rw [regOut_ports, (genRegInternal_laid cfg.toCheshireCfg).noField u hf]
  rfl

/-- What is generated, apart from the error subordinate, is a unit with a port. -/
theorem RegUnit.Generated.enabled {u : RegUnit} (h : u.Generated cfg) (hne : u ≠ .err) :
    u.Enabled cfg.toCheshireCfg := by
  cases u with
  | err => exact absurd rfl hne
  | llc => exact h.2
  | clic j => exact ⟨h.2, h.1⟩
  | busErr j =>
    rcases h with ⟨rfl, -, hon⟩ | ⟨rfl, -, hon⟩ | ⟨i, hi, rfl, hon⟩
    · exact ⟨hon, by unfold regBusErrVga; omega⟩
    · exact ⟨hon, by unfold regBusErrDma; omega⟩
    · exact ⟨hon, by unfold regBusErrCoresBase; omega⟩
  | _ => exact h

/-- If all units answer, every output of the register demux has its subordinate. -/
theorem regSubordinate_unique (hports : regPortCount cfg.toCheshireCfg ≤ 63)
    (hall : ∀ u : RegUnit, u.Enabled cfg.toCheshireCfg → u.Answers cfg) {p : ℕ}
    (hp : p < (genRegOut cfg.toCheshireCfg).numOut.toNat) :
    ∃! s : RegSubordinate, s.Drives cfg p := by
  set us := regUnits cfg.toCheshireCfg with hus
  have hbase := regOut_extBase hports
  have hnum := regOut_numOut hports
  have hunits : (us.map RegSubordinate.unit).map (RegSubordinate.port cfg) =
      (List.range us.length).map (· + 1) := by
    refine List.ext_getElem (by simp) fun k hk _ => ?_
    have hk' : k < us.length := by simpa using hk
    have henabled : us[k].Enabled cfg.toCheshireCfg :=
      (mem_regUnits _ _).1 (List.getElem_mem hk')
    simp only [List.getElem_map, List.getElem_range]
    exact unit_port hports hk' (hall _ henabled).2
  have hinternal : (RegSubordinate.unit .err :: us.map .unit).map (RegSubordinate.port cfg) =
      List.range (us.length + 1) := by
    rw [List.map_cons, hunits, err_port, List.range_succ_eq_map]
  have hports' := range_ext (RegSubordinate.port cfg) .ext (n := cfg.regExtNumSlv.toNat) hinternal
    fun k _ => by rw [← hbase]; rfl
  have hlen := congrArg List.length hports'
  rw [List.length_map, List.length_range] at hlen
  refine unique_driver (l := (RegSubordinate.unit .err :: us.map .unit) ++
    (List.range cfg.regExtNumSlv.toNat).map .ext) ?_ (by rw [hlen]; exact hports') ?_
  · intro s
    cases s with
    | ext k =>
      have hpos : 0 < cfg.regExtNumSlv ↔ 0 < cfg.regExtNumSlv.toNat := Iff.rfl
      simp only [RegSubordinate.Generated, hbase, hnum, hpos, regPortCount]
      simp
      omega
    | unit u =>
      simp only [RegSubordinate.Generated, List.mem_append, List.mem_cons, List.mem_map,
        RegSubordinate.unit.injEq, exists_eq_right, hus, mem_regUnits]
      by_cases hu : u = .err
      · subst hu
        exact iff_of_true trivial (Or.inl (Or.inl rfl))
      · simp only [hu, false_or, reduceCtorEq, and_false, exists_false, or_false]
        exact ⟨fun h => h.enabled hu, fun h => (hall u h).1⟩
  · rw [hlen]
    exact hp.trans_eq hnum

/-- A port whose unit does not answer has no driver at all. -/
theorem not_driven (hports : regPortCount cfg.toCheshireCfg ≤ 63) {u : RegUnit}
    (hu : u.Enabled cfg.toCheshireCfg) (hnot : ¬u.Answers cfg) :
    ∃ p < (genRegOut cfg.toCheshireCfg).numOut.toNat, ∀ s : RegSubordinate, ¬s.Drives cfg p := by
  obtain ⟨k, hk, rfl⟩ := List.getElem_of_mem ((mem_regUnits _ u).2 hu)
  have hnum := regOut_numOut hports
  refine ⟨k + 1, by rw [hnum]; unfold regPortCount; omega, fun s hs => ?_⟩
  obtain ⟨hgen, hport⟩ := hs
  cases s with
  | ext j =>
    have hbase := regOut_extBase hports
    have : (genRegOut cfg.toCheshireCfg).extBase.toNat + j = k + 1 := hport
    omega
  | unit v =>
    by_cases hf : v.HasField
    · by_cases hv : v = .err
      · rw [hv, err_port] at hport
        exact absurd hport (Nat.succ_ne_zero k).symm
      · have henabled := RegUnit.Generated.enabled hgen hv
        obtain ⟨j, hj, rfl⟩ := List.getElem_of_mem ((mem_regUnits _ v).2 henabled)
        rw [unit_port hports hj hf] at hport
        obtain rfl : j = k := by omega
        exact hnot ⟨hgen, hf⟩
    · rw [noField_port hf] at hport
      exact absurd hport (Nat.succ_ne_zero k).symm

end RegSubordinates

/-! ## Main result -/

structure Wired (cfg : SocCfg) : Prop where
  managers : ∀ p < (genAxiIn cfg).numIn.toNat, ∃! m : Manager, m.Drives cfg p
  subordinates : ∀ p < (genAxiOut cfg.toCheshireCfg).numOut.toNat,
    ∃! s : Subordinate, s.Drives cfg p
  regSubordinates : ∀ p < (genRegOut cfg.toCheshireCfg).numOut.toNat,
    ∃! s : RegSubordinate, s.Drives cfg p
  /-- Whatever port an address decodes to, there is an answer. -/
  axiAnswers : ∀ (a : Doub) p, p < (genAxiOut cfg.toCheshireCfg).numOut →
    Routes ((genAxiOut cfg.toCheshireCfg).rules.map ARul.rule) a.toNat p →
      ∃ s : Subordinate, s.Drives cfg p.toNat
  regAnswers : ∀ (a : Doub) p, p < (genRegOut cfg.toCheshireCfg).numOut →
    Routes ((genRegOut cfg.toCheshireCfg).rules.map ARul.rule) a.toNat p →
      ∃ s : RegSubordinate, s.Drives cfg p.toNat

/-- Bus error units come with what they watch, and `bus_err` has an entry for each of them. -/
def BusErrFits (cfg : SocCfg) : Prop :=
  cfg.busErr = true → cfg.dma = true ∧ cfg.vga = true ∧ cfg.numCores ≠ 31

theorem answers_of_fits {cfg : SocCfg} (hllc : cfg.llcNotBypass = true → cfg.llcOutConnect = true)
    (hfit : BusErrFits cfg) {u : RegUnit} (hu : u.Enabled cfg.toCheshireCfg) : u.Answers cfg := by
  have hn := cfg.numCores.isLt
  cases u with
  | err => exact absurd hu id
  | llc => exact ⟨⟨hllc hu, hu⟩, trivial⟩
  | clic j => exact ⟨⟨hu.2, hu.1⟩, hu.2.trans hn⟩
  | busErr j =>
    obtain ⟨hon, hj⟩ := hu
    obtain ⟨hdma, hvga, hcores⟩ := hfit hon
    have hcores' : cfg.numCores.toNat ≠ 31 := fun he => hcores (BitVec.eq_of_toNat_eq he)
    refine ⟨?_, show j < 32 by omega⟩
    match j, hj with
    | 0, _ => exact Or.inl ⟨rfl, hvga, hon⟩
    | 1, _ => exact Or.inr (Or.inl ⟨rfl, hdma, hon⟩)
    | j + 2, hj => exact Or.inr (Or.inr ⟨j, by omega, Nat.add_comm j 2, hon⟩)
  | _ => exact ⟨hu, trivial⟩

/-- If all units answer, the bus error units of DMA, VGA and the last core do. -/
theorem fits_of_answers {cfg : SocCfg}
    (h : ∀ u : RegUnit, u.Enabled cfg.toCheshireCfg → u.Answers cfg) : BusErrFits cfg := by
  intro hon
  have hvga := (h (.busErr regBusErrVga) ⟨hon, by unfold regBusErrVga; omega⟩).1
  have hdma := (h (.busErr regBusErrDma) ⟨hon, by unfold regBusErrDma; omega⟩).1
  refine ⟨?_, ?_, fun hcores => ?_⟩
  · rcases hdma with ⟨h0, -⟩ | ⟨-, hdma, -⟩ | ⟨i, -, hi, -⟩
    · exact absurd h0 (by decide)
    · exact hdma
    · unfold regBusErrDma regBusErrCoresBase at hi
      omega
  · rcases hvga with ⟨-, hvga, -⟩ | ⟨h1, -⟩ | ⟨i, -, hi, -⟩
    · exact hvga
    · exact absurd h1 (by decide)
    · unfold regBusErrVga regBusErrCoresBase at hi
      omega
  · have hlast : (RegUnit.busErr 32).Enabled cfg.toCheshireCfg :=
      ⟨hon, by rw [hcores]; decide⟩
    exact absurd (h _ hlast).2 (by decide)

/-- **Main result.** If an LLC has its output connected and the ports of the register demux fit
their fields (those of the crossbar always do), every port has one driver exactly if the bus error
units fit. -/
theorem wired_iff {cfg : SocCfg} (hllc : cfg.llcNotBypass = true → cfg.llcOutConnect = true)
    (hports : regPortCount cfg.toCheshireCfg ≤ 63) : Wired cfg ↔ BusErrFits cfg := by
  constructor
  · intro hwired
    refine fits_of_answers fun u hu => ?_
    by_contra hnot
    obtain ⟨p, hp, hnone⟩ := not_driven hports hu hnot
    obtain ⟨s, hs, -⟩ := hwired.regSubordinates p hp
    exact hnone s hs
  · intro hfit
    have hreg (p : ℕ) (hp : p < (genRegOut cfg.toCheshireCfg).numOut.toNat) :=
      regSubordinate_unique hports (fun _ hu => answers_of_fits hllc hfit hu) hp
    refine ⟨fun p => manager_unique cfg, fun p => subordinate_unique cfg, hreg, ?_, ?_⟩
    · exact fun a p hp _ => (subordinate_unique cfg hp).exists
    · exact fun a p hp _ => (hreg p.toNat hp).exists

/-- The default configuration is wired. -/
theorem wired_iff_default : Wired defaultSocCfg :=
  (wired_iff (by decide) (by decide)).2 fun _ => ⟨rfl, rfl, by decide⟩

/-- The default configuration without the DMA engine. -/
def noDmaCfg : SocCfg := { defaultSocCfg with dma := false }

/-- It has a port for the bus error unit of the DMA engine, and no such unit. -/
theorem noDmaCfg_not_wired : (noDmaCfg.llcNotBypass = true → noDmaCfg.llcOutConnect = true) ∧
    regPortCount noDmaCfg.toCheshireCfg ≤ 63 ∧ ¬Wired noDmaCfg := by
  have hu : (RegUnit.busErr regBusErrDma).Enabled noDmaCfg.toCheshireCfg := ⟨rfl, by decide⟩
  have hnot : ¬(RegUnit.busErr regBusErrDma).Answers noDmaCfg := by
    intro h
    rcases h.1 with ⟨h0, -⟩ | ⟨-, hdma, -⟩ | ⟨i, -, hi, -⟩
    · exact absurd h0 (by decide)
    · exact absurd hdma (by decide)
    · unfold regBusErrDma regBusErrCoresBase at hi
      omega
  refine ⟨by decide, by decide, fun hwired => ?_⟩
  obtain ⟨p, hp, hnone⟩ := not_driven (by decide) hu hnot
  obtain ⟨s, hs, -⟩ := hwired.regSubordinates p hp
  exact hnone s hs

end Cheshire
