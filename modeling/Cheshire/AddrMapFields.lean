import Cheshire.AddrMapAgree

/-!
# The fields of the register demux's layout

What `gen_reg_out` assigns, with its counters as they are before they are cut to the width of a
field (`regStores`). Replaying the assignments gives the layout (`replay_regStores`).

**Theorem (`regFieldsFit_iff`).** Nothing is assigned that does not fit, and all subordinates get
different port indices, exactly for the configurations with at most 63 ports and 63 rules that do
not combine 31 cores with bus error units. (An external region must lead to a port below 64.)
-/

namespace Cheshire

/-! ## Assignments -/

/-- An assignment to a field of `reg_out_t`. -/
inductive RegStore
  | port (u : RegUnit) (i : ℕ)
  | rule (r i : ℕ) (start pte : Doub)
  | extBase (i : ℕ)
  | numOut (n : ℕ)
  | numRules (n : ℕ)

/-- The value fits the field, and the field exists. -/
def RegStore.InBounds : RegStore → Prop
  | .port u i => u.HasField ∧ i < 64
  | .rule r i _ _ => r < 64 ∧ i < 64
  | .extBase i => i < 64
  | .numOut n => n < 64
  | .numRules n => n < 64

def RegStore.apply (o : RegOut) : RegStore → RegOut
  | .port u i => { o with ports := o.ports.set u (aw i) }
  | .rule r i start pte => { o with map := writeMap o.map r ⟨aw i, start, pte⟩ }
  | .extBase i => { o with extBase := aw i }
  | .numOut n => { o with numOut := aw n }
  | .numRules n => { o with numRules := aw n }

/-- `'{default: '0}`. -/
def emptyRegOut : RegOut := ⟨fun _ => 0, 0, 0, 0, fun _ => default⟩

/-- The counters, and the assignments so far. -/
structure Trace where
  i : ℕ
  r : ℕ
  stores : List RegStore

namespace Trace

/-- `i++; ret.x = i; r++; ret.map[r] = '{i, start, pte};` if the feature is on. -/
def unit (t : Trace) (x : RegFeature) : Trace :=
  if x.on then
    ⟨t.i + 1, t.r + 1, t.stores ++ [.port x.unit (t.i + 1),
      .rule (t.r + 1) (t.i + 1) x.start x.pte]⟩
  else t

end Trace

/-- The assignments before the first feature. -/
def startStores : List RegStore :=
  [.port .err 0, .port .clint 1, .rule 0 1 0x02040000 0x02080000,
    .port .plic 2, .rule 1 2 0x04000000 0x08000000,
    .port .regs 3, .rule 2 3 amRegs (amRegs + 0x1000)]

/-- `gen_reg_out` up to the external ports. -/
def regTrace (cfg : CheshireCfg) : Trace :=
  (regFeatures cfg).foldl Trace.unit ⟨3, 2, startStores⟩

/-- What `gen_reg_out` assigns, in order. -/
def regStores (cfg : CheshireCfg) : List RegStore :=
  let t := regTrace cfg
  let i := t.i + 1
  let r := t.r + 1
  t.stores ++
    [.extBase i, .numOut (i + cfg.regExtNumSlv.toNat), .numRules (r + cfg.regExtNumRules.toNat)] ++
    (List.range cfg.regExtNumRules.toNat).map fun k =>
      .rule (r + k) ((aw i).toNat + (cfg.regExtRegionIdx k).toNat) (cfg.regExtRegionStart k)
        (cfg.regExtRegionEnd k)

/-! ## Replaying the assignments -/

section Replay

variable {t : Trace} {g : Gen RegPorts}

def replay (stores : List RegStore) : RegOut := stores.foldl RegStore.apply emptyRegOut

/-- A trace and a generator at the same place. -/
structure Trace.Matches (t : Trace) (g : Gen RegPorts) : Prop where
  i : t.i = g.i
  r : t.r = g.r
  replay : replay t.stores = { emptyRegOut with ports := g.ret, map := g.map }

theorem replay_append (l l' : List RegStore) :
    replay (l ++ l') = l'.foldl RegStore.apply (replay l) := List.foldl_append

theorem Trace.Matches.unit (h : t.Matches g) (x : RegFeature) :
    (t.unit x).Matches (g.unit x) := by
  unfold Trace.unit Gen.unit
  cases x.on with
  | false => exact h
  | true =>
    refine ⟨congrArg (· + 1) h.i, congrArg (· + 1) h.r, ?_⟩
    show Cheshire.replay (t.stores ++ _) = _
    rw [replay_append, h.replay, h.i, h.r]
    rfl

end Replay

/-- The generator and the trace take the same steps. -/
theorem regTrace_matches (cfg : CheshireCfg) : (regTrace cfg).Matches (genRegInternal cfg) := by
  refine List.foldl_rel ⟨rfl, rfl, ?_⟩ fun x _ t g h => h.unit x
  refine congrArg (fun p => ({ emptyRegOut with ports := p, map := _ } : RegOut)) ?_
  funext u
  cases u <;> rfl

theorem Gen.replay_putAll (g : Gen RegPorts) (n : ℕ) (x : ℕ → ARul) (b c d : Aw)
    (store : ℕ → RegStore)
    (hstore : ∀ k o, (store k).apply o = { o with map := writeMap o.map (g.r + k) (x k) }) :
    ((List.range n).map store).foldl RegStore.apply ⟨g.ret, b, c, d, g.map⟩ =
      ⟨g.ret, b, c, d, (g.putAll n x).map⟩ := by
  induction n with
  | zero => rfl
  | succ n ih =>
    rw [List.range_succ, List.map_append, List.foldl_append, ih, Gen.putAll_succ]
    show (store n).apply _ = _
    rw [hstore, ← (Gen.putAll_fields g n x).2.2]
    rfl

/-- The assignments, replayed in order, give the layout. -/
theorem replay_regStores (cfg : CheshireCfg) : replay (regStores cfg) = genRegOut cfg := by
  obtain ⟨hi, hr, hreplay⟩ := regTrace_matches cfg
  unfold regStores
  rw [replay_append, replay_append, hreplay, hi, hr]
  refine ((genRegInternal cfg).next.replay_putAll _ (regExtRule cfg (genRegOut cfg).extBase) _ _ _
    _ fun k o => rfl).trans ?_
  show _ = RegOut.mk _ _ _ _ _
  rw [(Gen.putAll_fields _ _ _).1]
  rfl

/-! ## The assignments of the units -/

/-- The unit at position `k` is given port `k + 1` and rule `k`. -/
def unitStores (us : List RegUnit) : List RegStore :=
  (us.mapIdx fun k u => [.port u (k + 1), .rule k (k + 1) u.region.1 u.region.2]).flatten

theorem mem_unitStores {us : List RegUnit} {x : RegStore} : x ∈ unitStores us ↔
    ∃ k, ∃ h : k < us.length, x = .port us[k] (k + 1) ∨
      x = .rule k (k + 1) us[k].region.1 us[k].region.2 := by
  simp only [unitStores, List.mem_flatten, List.mem_mapIdx]
  constructor
  · intro ⟨l, ⟨k, hk, hl⟩, hx⟩
    subst hl
    exact ⟨k, hk, by simpa using hx⟩
  · intro ⟨k, hk, hx⟩
    exact ⟨_, ⟨k, hk, rfl⟩, by simpa using hx⟩

/-- The trace after the units `us`. -/
structure Trace.Lists (us : List RegUnit) (t : Trace) : Prop where
  i : t.i = us.length
  r : t.r + 1 = us.length
  stores : t.stores = .port .err 0 :: unitStores us

namespace Trace.Lists

variable {us : List RegUnit} {t : Trace}

theorem unit (h : Lists us t) {x : RegFeature} (hr : x.unit.region = (x.start, x.pte)) :
    Lists (us ++ opt x.on [x.unit]) (t.unit x) := by
  unfold Trace.unit
  cases x.on with
  | false => simpa [opt] using h
  | true =>
    have hadd : unitStores (us ++ [x.unit]) = unitStores us ++
        [.port x.unit (us.length + 1), .rule us.length (us.length + 1) x.start x.pte] := by
      simp [unitStores, List.mapIdx_append, hr]
    refine ⟨by simp [opt, h.i], by simp [opt, h.r], ?_⟩
    rw [opt_true, hadd]
    show t.stores ++ [.port x.unit (t.i + 1), .rule (t.r + 1) (t.i + 1) x.start x.pte] = _
    rw [h.stores, h.i, h.r]
    rfl

theorem features {xs : List RegFeature} (h : Lists us t)
    (hr : ∀ x ∈ xs, x.unit.region = (x.start, x.pte)) :
    Lists (us ++ xs.flatMap (fun x => opt x.on [x.unit])) (xs.foldl Trace.unit t) := by
  induction xs generalizing us t with
  | nil => simpa using h
  | cons x xs ih =>
    have hrest := ih (h.unit (hr x (List.mem_cons_self ..)))
      fun y hy => hr y (List.mem_cons_of_mem x hy)
    rwa [List.append_assoc] at hrest

end Trace.Lists

theorem regTrace_lists (cfg : CheshireCfg) : (regTrace cfg).Lists (regUnits cfg) := by
  have hstart : Trace.Lists [.clint, .plic, .regs] ⟨3, 2, startStores⟩ := ⟨rfl, rfl, rfl⟩
  rw [regFeatures_units]
  exact hstart.features (regFeatures_region cfg)

/-! ## Which configurations fit -/

/-- The indices of the error subordinate, of the enabled units and of the external ports, as the
layout stores them. -/
def regIndices (cfg : CheshireCfg) : List ℕ :=
  (RegUnit.err :: regUnits cfg).map (fun u => ((genRegOut cfg).ports u).toNat) ++
    (List.range cfg.regExtNumSlv.toNat).map ((genRegOut cfg).extBase.toNat + ·)

/-- Everything assigned fits, and the subordinates are told apart. -/
structure RegFieldsFit (cfg : CheshireCfg) : Prop where
  inBounds : ∀ x ∈ regStores cfg, x.InBounds
  distinct : (regIndices cfg).Nodup
  below : ∀ i ∈ regIndices cfg, i < (genRegOut cfg).numOut.toNat

/-- How many units the features of a configuration ask for. -/
def regUnitCount (cfg : CheshireCfg) : ℕ :=
  3 + cfg.bootrom.toNat + cfg.llcNotBypass.toNat + cfg.uart.toNat + cfg.i2c.toNat +
    cfg.spiHost.toNat + cfg.gpio.toNat + cfg.serialLink.toNat + cfg.vga.toNat + cfg.usb.toNat +
    cfg.irqRouter.toNat + cfg.axiRt.toNat + cfg.clic.toNat * cfg.numCores.toNat +
    cfg.busErr.toNat * (2 + cfg.numCores.toNat)

/-- The fields have room for what the configuration asks for. -/
structure RegRoom (cfg : CheshireCfg) : Prop where
  ports : regUnitCount cfg + 1 + cfg.regExtNumSlv.toNat ≤ 63
  rules : regUnitCount cfg + cfg.regExtNumRules.toNat ≤ 63
  busErr : ¬(cfg.busErr = true ∧ cfg.numCores = 31)
  external : ∀ k < cfg.regExtNumRules.toNat,
    regUnitCount cfg + 1 + (cfg.regExtRegionIdx k).toNat ≤ 63

section

variable {cfg : CheshireCfg}

theorem opt_length {α : Type} (on : Bool) (x : List α) :
    (opt on x).length = on.toNat * x.length := by
  cases on <;> simp [opt]

theorem regUnits_length (cfg : CheshireCfg) : (regUnits cfg).length = regUnitCount cfg := by
  simp only [regUnits, regUnitCount, List.length_append, opt_length, List.length_cons,
    List.length_nil, List.length_map, List.length_range]
  omega

/-- What is assigned, with the counters as numbers of units. -/
theorem mem_regStores {x : RegStore} : x ∈ regStores cfg ↔
    x = .port .err 0 ∨ x ∈ unitStores (regUnits cfg) ∨ x = .extBase (regUnitCount cfg + 1) ∨
      x = .numOut (regUnitCount cfg + 1 + cfg.regExtNumSlv.toNat) ∨
      x = .numRules (regUnitCount cfg + cfg.regExtNumRules.toNat) ∨
      ∃ k < cfg.regExtNumRules.toNat, x = .rule (regUnitCount cfg + k)
        ((aw (regUnitCount cfg + 1)).toNat + (cfg.regExtRegionIdx k).toNat)
        (cfg.regExtRegionStart k) (cfg.regExtRegionEnd k) := by
  obtain ⟨hi, hr, hstores⟩ := regTrace_lists cfg
  rw [regUnits_length] at hi hr
  simp only [regStores, hi, hr, hstores, List.mem_append, List.mem_cons, List.mem_map,
    List.mem_range, List.not_mem_nil, or_false, or_assoc, @eq_comm _ _ x]

/-- Only the last bus error unit of 31 cores has no field. -/
theorem hasField_of_room (h : RegRoom cfg) {u : RegUnit} (hu : u ∈ regUnits cfg) :
    u.HasField := by
  have hcores : cfg.numCores.toNat < 32 := cfg.numCores.isLt
  have hu := (mem_regUnits cfg u).1 hu
  cases u with
  | clic j =>
    obtain ⟨-, hj⟩ := hu
    exact hj.trans hcores
  | busErr j =>
    obtain ⟨hon, hj⟩ := hu
    have hne : cfg.numCores.toNat ≠ 31 := by
      intro he
      exact h.busErr ⟨hon, BitVec.eq_of_toNat_eq he⟩
    show j < 32
    have hlt : j < 2 + cfg.numCores.toNat := hj
    omega
  | _ => trivial

theorem RegRoom.inBounds (h : RegRoom cfg) : ∀ x ∈ regStores cfg, x.InBounds := by
  have hports := h.ports
  have hrules := h.rules
  intro x hx
  rcases mem_regStores.1 hx with rfl | hx | rfl | rfl | rfl | ⟨k, hk, rfl⟩
  · exact ⟨trivial, by decide⟩
  · obtain ⟨k, hk, hx⟩ := mem_unitStores.1 hx
    have hlt : k + 1 < 64 := by rw [regUnits_length] at hk; omega
    rcases hx with rfl | rfl
    · exact ⟨hasField_of_room h (List.getElem_mem hk), hlt⟩
    · exact ⟨by omega, hlt⟩
  · show _ < 64
    omega
  · show _ < 64
    omega
  · show _ < 64
    omega
  · have := h.external k hk
    refine ⟨by omega, ?_⟩
    rw [aw_toNat (by omega)]
    omega

/-- With room, the indices are the numbers below the number of ports. -/
theorem RegRoom.indices (h : RegRoom cfg) : regIndices cfg = List.range (regPortCount cfg) := by
  have hlaid := genRegInternal_laid cfg
  have hports : regPortCount cfg ≤ 63 := by
    unfold regPortCount
    rw [regUnits_length]
    exact h.ports
  have hbound := hports
  unfold regPortCount at hbound
  have hunits : (RegUnit.err :: regUnits cfg).map (fun u => ((genRegOut cfg).ports u).toNat) =
      List.range ((regUnits cfg).length + 1) := by
    rw [regOut_ports]
    refine List.ext_getElem (by simp) fun k hk _ => ?_
    rw [List.getElem_map, List.getElem_range]
    cases k with
    | zero => exact congrArg BitVec.toNat (genRegInternal_err cfg)
    | succ k =>
      have hk : k < (regUnits cfg).length := by simpa using hk
      rw [List.getElem_cons_succ, hlaid.port k hk (hasField_of_room h (List.getElem_mem hk))]
      exact aw_toNat (by omega)
  rw [regIndices, hunits, regOut_extBase hports]
  exact List.range_add.symm

theorem RegRoom.fit (h : RegRoom cfg) : RegFieldsFit cfg := by
  have hports : regPortCount cfg ≤ 63 := by
    unfold regPortCount
    rw [regUnits_length]
    exact h.ports
  refine ⟨h.inBounds, ?_, ?_⟩
  · rw [h.indices]
    exact List.nodup_range
  · rw [h.indices, regOut_numOut hports]
    exact fun i hi => List.mem_range.1 hi

theorem RegFieldsFit.room (h : RegFieldsFit cfg) : RegRoom cfg := by
  have hbase := h.inBounds _ (mem_regStores.2 (.inr (.inr (.inl rfl))))
  have hout := h.inBounds _ (mem_regStores.2 (.inr (.inr (.inr (.inl rfl)))))
  have hrules := h.inBounds _ (mem_regStores.2 (.inr (.inr (.inr (.inr (.inl rfl))))))
  refine ⟨Nat.le_of_lt_succ hout, Nat.le_of_lt_succ hrules, ?_, ?_⟩
  · intro ⟨hon, hcores⟩
    have hu : RegUnit.busErr 32 ∈ regUnits cfg :=
      (mem_regUnits cfg _).2 ⟨hon, by rw [hcores]; decide⟩
    obtain ⟨k, hk, hu⟩ := List.getElem_of_mem hu
    have hstore := mem_unitStores.2 ⟨k, hk, .inl rfl⟩
    rw [hu] at hstore
    exact absurd (h.inBounds _ (mem_regStores.2 (.inr (.inl hstore)))).1 (by decide)
  · intro k hk
    have hrule := (h.inBounds _ (mem_regStores.2
      (.inr (.inr (.inr (.inr (.inr ⟨k, hk, rfl⟩))))))).2
    rw [aw_toNat hbase] at hrule
    omega

/-- **Main result.** Everything that is assigned fits, and all subordinates get different indices
below `num_out`, exactly if the configuration leaves room. -/
theorem regFieldsFit_iff (cfg : CheshireCfg) : RegFieldsFit cfg ↔ RegRoom cfg :=
  ⟨RegFieldsFit.room, RegRoom.fit⟩

end

/-- 31 cores with a CLIC and a bus error unit each. -/
def fullCfg : CheshireCfg := { defaultCfg with numCores := 31, clic := true }

/-- 77 ports are counted as 13, two bus error units get the ports of the CLINT and the PLIC, and
one is written past the end of its array. -/
theorem fullCfg_not_fit : 1 ≤ fullCfg.numCores.toNat ∧ ¬RegFieldsFit fullCfg ∧
    (genRegOut fullCfg).numOut = 13 ∧ .port (.busErr 32) 76 ∈ regStores fullCfg ∧
    (genRegOut fullCfg).ports (.busErr 21) = (genRegOut fullCfg).ports .clint ∧
    (genRegOut fullCfg).ports (.busErr 22) = (genRegOut fullCfg).ports .plic := by
  refine ⟨by decide, fun h => h.room.busErr ⟨rfl, rfl⟩, by decide +kernel, ?_,
    by decide +kernel, by decide +kernel⟩
  have hk : 75 < (regUnits fullCfg).length := by decide
  exact mem_regStores.2 (.inr (.inl (mem_unitStores.2 ⟨75, hk, .inl rfl⟩)))

end Cheshire
